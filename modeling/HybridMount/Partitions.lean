import HybridMount.MountTree

/-! The partition layout: names inside a module are logical, targets follow the mount namespace. -/

namespace HybridMount.Plan

structure PartitionDiagnostic where
  partition : String
  code : String
  reason : String
  modules : List String
  deriving DecidableEq, Repr

structure OperationDiagnostic where
  moduleId : String
  logicalPath : Names
  target : Option Names
  code : String
  reason : String
  deriving DecidableEq, Repr

inductive PlanError where
  | invalidModulePath (relative : Names)
  | partitionSkipped (partition reason : String)
  | planConflict (target : Names) (firstBackend firstSource secondBackend secondSource : String)
  deriving DecidableEq, Repr

structure PartitionLayout where
  roots : List (String × Names)
  errors : List (String × PartitionDiagnostic)
  mountPoints : List Names
  deriving DecidableEq, Repr

/-- A name which no component of a module path may be. -/
def badComponent (name : String) : Bool :=
  name = "" || name = "." || name = ".." || name.toList.any fun c => [0x5c, 0, 0x3a].contains c.toNat

namespace PartitionLayout

def root? (layout : PartitionLayout) (name : String) : Option Names :=
  OrderedMap.get compare name layout.roots

def error? (layout : PartitionLayout) (name : String) : Option PartitionDiagnostic :=
  OrderedMap.get compare name layout.errors

def logicalPartition (layout : PartitionLayout) : Names → String
  | [] => "system"
  | [first] => first
  | first :: name :: _ =>
    if first = "system" ∧ name ≠ "system" ∧
    ((layout.root? name).isSome ∨ (layout.error? name).isSome) then name
    else first

def rootLen (layout : PartitionLayout) (relative : Names) : Nat :=
  match relative with
  | first :: _ :: _ => if first = "system" ∧ layout.logicalPartition relative ≠ "system" then 2 else 1
  | _ => 1

def rootOf (layout : PartitionLayout) (partition : String) : Names :=
  (layout.root? partition).getD [partition]

/-- Where a relative path ends up once its partition is known. -/
def targetOf (layout : PartitionLayout) (relative : Names) : Names :=
  layout.rootOf (layout.logicalPartition relative) ++ relative.drop (layout.rootLen relative)

def mapTarget (layout : PartitionLayout) (relative : Names) : Except PlanError (String × Names) :=
  if relative = [] ∨ relative.any badComponent then .error (.invalidModulePath relative)
  else
    let partition := layout.logicalPartition relative
    match layout.error? partition with
    | some error => .error (.partitionSkipped partition error.reason)
    | none => .ok (partition, layout.targetOf relative)

variable {layout : PartitionLayout} {relative rest : Names} {first name partition : String} {target : Names}

theorem rootLen_le (h : relative ≠ []) : layout.rootLen relative ≤ relative.length := by
  match relative with
  | [] => exact absurd rfl h
  | [first] => simp [rootLen]
  | first :: name :: rest =>
    simp only [rootLen, List.length_cons]
    split
    · omega
    · omega

theorem rootLen_pos : 0 < layout.rootLen relative := by
  unfold rootLen
  split
  · split
    · omega
    · omega
  · omega

theorem rootLen_le_two : layout.rootLen relative ≤ 2 := by
  unfold rootLen
  split
  · split
    · omega
    · omega
  · omega

theorem logicalPartition_take {n : Nat} (hn : 0 < n) (h : layout.rootLen relative ≤ n) :
    layout.logicalPartition (relative.take n) = layout.logicalPartition relative := by
  match relative, n, hn with
  | [], _, _ => simp
  | [first], n + 1, _ => simp
  | first :: name :: rest, n + 2, _ => simp [logicalPartition]
  | first :: name :: rest, 1, _ =>
    by_cases hinner : first = "system" ∧ name ≠ "system" ∧
      ((layout.root? name).isSome ∨ (layout.error? name).isSome)
    · simp [rootLen, logicalPartition, hinner] at h
    · simp [logicalPartition, hinner]

theorem rootLen_take {n : Nat} (hn : 0 < n) (h : layout.rootLen relative ≤ n) :
    layout.rootLen (relative.take n) = layout.rootLen relative := by
  match relative, n, hn with
  | [], _, _ => simp
  | [first], n + 1, _ => simp
  | first :: name :: rest, n + 2, _ => rfl
  | first :: name :: rest, 1, _ =>
    have hone : layout.rootLen (first :: name :: rest) = 1 := le_antisymm h rootLen_pos
    rw [hone]
    rfl

theorem targetOf_take {n : Nat} (hn : 0 < n) (h : layout.rootLen relative ≤ n) :
    layout.targetOf (relative.take n) ++ relative.drop n = layout.targetOf relative := by
  have hdrop : (relative.take n).drop (layout.rootLen relative) ++ relative.drop n =
      relative.drop (layout.rootLen relative) := by
    rw [List.drop_take]
    have hh := List.take_append_drop (n - layout.rootLen relative) (relative.drop (layout.rootLen relative))
    rwa [List.drop_drop, Nat.add_sub_cancel' h] at hh
  rw [targetOf, logicalPartition_take hn h, rootLen_take hn h, List.append_assoc, hdrop, targetOf]

theorem mapTarget_ok (h : layout.mapTarget relative = .ok (partition, target)) :
    relative ≠ [] ∧ relative.any badComponent = false ∧ partition = layout.logicalPartition relative ∧
      target = layout.targetOf relative ∧ layout.error? partition = none := by
  unfold mapTarget at h
  split at h
  · cases h
  · rename_i hbad
    simp only [not_or, Bool.not_eq_true] at hbad
    cases he : layout.error? (layout.logicalPartition relative) with
    | some error => simp [he] at h
    | none =>
      simp only [he, Except.ok.injEq, Prod.mk.injEq] at h
      obtain ⟨rfl, rfl⟩ := h
      exact ⟨hbad.1, hbad.2, rfl, rfl, he⟩

end PartitionLayout

end HybridMount.Plan
