import HybridMount.ImageSize
import HybridMount.Ledger

/-! The scan which counts the prepared tree before its image is made. -/

namespace HybridMount

namespace Ext4

/-- What the file system answers for a path of the scan. -/
inductive Scanned where
  | file (logicalSize : UInt64)
  | directory (children : List Scanned)
  | other
  | notFound
  | linkLoop
  | failing (failure : Error)

namespace Scanned

mutual

/-- The entries which lie at and below a path. -/
def holds : Scanned → List PreparedEntry
  | file logicalSize => [.file logicalSize]
  | directory children => .directory :: holdsAll children
  | other => [.other]
  | notFound => []
  | linkLoop => []
  | failing _ => []

def holdsAll : List Scanned → List PreparedEntry
  | [] => []
  | entry :: entries => holds entry ++ holdsAll entries

end

mutual

def nodes : Scanned → Nat
  | file _ => 1
  | directory children => 1 + nodesAll children
  | other => 1
  | notFound => 1
  | linkLoop => 1
  | failing _ => 1

def nodesAll : List Scanned → Nat
  | [] => 0
  | entry :: entries => nodes entry + nodesAll entries

end

theorem nodesAll_append (above below : List Scanned) :
    nodesAll (above ++ below) = nodesAll above + nodesAll below := by
  induction above with
  | nil => exact (Nat.zero_add _).symm
  | cons entry above ih => rw [List.cons_append, nodesAll, nodesAll, ih, Nat.add_assoc]

theorem nodesAll_reverse (entries : List Scanned) : nodesAll entries.reverse = nodesAll entries := by
  induction entries with
  | nil => rfl
  | cons entry entries ih =>
    rw [List.reverse_cons, nodesAll_append, ih, nodesAll, nodesAll, nodesAll]
    omega

theorem holdsAll_append (above below : List Scanned) :
    holdsAll (above ++ below) = holdsAll above ++ holdsAll below := by
  induction above with
  | nil => rfl
  | cons entry above ih => rw [List.cons_append, holdsAll, holdsAll, ih, List.append_assoc]

theorem holdsAll_reverse_perm (entries : List Scanned) :
    (holdsAll entries.reverse).Perm (holdsAll entries) := by
  induction entries with
  | nil => exact List.Perm.refl _
  | cons entry entries ih =>
    rw [List.reverse_cons, holdsAll_append, holdsAll, holdsAll, holdsAll, List.append_nil]
    exact List.perm_append_comm.trans (ih.append_left _)

end Scanned

open Scanned

/-- The stack of paths still to be looked at, the next one first. -/
def scan (counter : SizeCounter) : List Scanned → Option (Except Error SizeCounter)
  | [] => some (.ok counter)
  | .linkLoop :: stack => scan counter stack
  | .notFound :: stack => scan counter stack
  | .failing failure :: _ => some (.error failure)
  | .file logicalSize :: stack =>
    match counter.addFile logicalSize with
    | some counter => scan counter stack
    | none => none
  | .directory children :: stack => scan counter.addMetadataEntry (children.reverse ++ stack)
  | .other :: stack => scan counter.addMetadataEntry stack
termination_by stack => nodesAll stack
decreasing_by
  all_goals
    simp only [nodesAll, nodes, nodesAll_append, nodesAll_reverse, List.unattach_reverse,
      List.unattach_attach]
    omega

def calculateTotalSize (paths : List Scanned) : Option (Except Error SizeCounter) := scan {} paths.reverse

/-- The scan counts the entries in some order. -/
theorem scan_counts {stack : List Scanned} {counter total : SizeCounter}
    (h : scan counter stack = some (.ok total)) :
    ∃ order : List PreparedEntry, order.Perm (holdsAll stack) ∧
    order.foldlM countEntry counter = some total := by
  induction hn : nodesAll stack using Nat.strong_induction_on generalizing stack counter with
  | _ n ih =>
    cases stack with
    | nil =>
      rw [scan] at h
      injection h with h
      injection h with h
      exact ⟨[], List.Perm.refl _, by rw [← h]; rfl⟩
    | cons entry stack =>
      have hless : nodesAll stack < n := by
        rw [← hn, nodesAll]
        cases entry <;> simp only [nodes] <;> omega
      cases entry with
      | file logicalSize =>
        rw [scan] at h
        cases hadd : counter.addFile logicalSize with
        | none => simp only [hadd] at h; cases h
        | some next =>
          simp only [hadd] at h
          obtain ⟨order, hperm, hcount⟩ := ih _ hless h rfl
          refine ⟨.file logicalSize :: order, hperm.cons _, ?_⟩
          rw [List.foldlM_cons, countEntry, hadd]
          exact hcount
      | directory children =>
        rw [scan] at h
        have hchildren : nodesAll (children.reverse ++ stack) < n := by
          rw [← hn, nodesAll_append, nodesAll_reverse, nodesAll, nodes]
          omega
        obtain ⟨order, hperm, hcount⟩ := ih _ hchildren h rfl
        refine ⟨.directory :: order, ?_, hcount⟩
        rw [holdsAll, holds, List.cons_append]
        refine (hperm.trans ?_).cons _
        rw [holdsAll_append]
        exact (holdsAll_reverse_perm children).append_right _
      | other =>
        rw [scan] at h
        obtain ⟨order, hperm, hcount⟩ := ih _ hless h rfl
        exact ⟨.other :: order, hperm.cons _, hcount⟩
      | notFound =>
        rw [scan] at h
        obtain ⟨order, hperm, hcount⟩ := ih _ hless h rfl
        exact ⟨order, hperm, hcount⟩
      | linkLoop =>
        rw [scan] at h
        obtain ⟨order, hperm, hcount⟩ := ih _ hless h rfl
        exact ⟨order, hperm, hcount⟩
      | failing failure =>
        rw [scan] at h
        cases h

theorem calculateTotalSize_counts {paths : List Scanned} {total : SizeCounter}
    (h : calculateTotalSize paths = some (.ok total)) : count (holdsAll paths) = some total := by
  obtain ⟨order, hperm, hcount⟩ := scan_counts h
  have hall := hperm.trans (holdsAll_reverse_perm paths)
  have hdata : totalCounted order = totalCounted (holdsAll paths) := (hall.map counted).sum_eq
  have hsame := count_eq order
  rw [hdata, hall.length_eq, ← count_eq (holdsAll paths)] at hsame
  exact hsame.symm.trans hcount

end Ext4

end HybridMount
