import HybridMount.KernelRequests

/-! Every rule of the table came in a page or was cut from one that did, so it fits
an empty page. No path has to be well formed for that. -/

namespace HybridMount.Vfs

open LittleEndian

namespace Art

section

variable {P : Rule → Prop} {t : Art} {rule r : Rule}

/-- All rules at the leaves, whatever the nodes above them say. -/
def All (P : Rule → Prop) : Art → Prop
  | null => True
  | leaf rule nextUid => P rule ∧ ∀ r ∈ nextUid, P r
  | node _ _ _ _ children => ∀ i, All P (children i)

theorem All.search {path : Bytes} {beyond : UInt8} {depth : Nat} {nextUid : List Rule} (h : All P t)
    (hs : searchPath path beyond t depth = some (rule, nextUid)) : P rule ∧ ∀ r ∈ nextUid, P r := by
  induction t generalizing depth with
  | null => simp [searchPath] at hs
  | leaf existing next =>
    simp only [searchPath] at hs
    split at hs
    · simp only [Option.some.injEq, Prod.mk.injEq] at hs
      obtain ⟨rfl, rfl⟩ := hs
      exact h
    · cases hs
  | node type num plen index children ih =>
    simp only [searchPath] at hs
    split at hs
    · cases hs
    · split at hs
      · exact ih _ (h _) hs
      · cases hs

theorem All.searchExact {path : Bytes} {beyond : UInt8} {uid : UInt32} (h : All P t)
    (hs : searchExact path beyond uid t = some r) : P r := by
  unfold Art.searchExact at hs
  split at hs
  · rename_i rule nextUid hfound
    obtain ⟨hrule, hnext⟩ := h.search hfound
    rcases List.mem_cons.mp (List.mem_of_find?_eq_some hs) with rfl | hmem
    · exact hrule
    · exact hnext r hmem
  · cases hs

theorem All.update {children : Nat → Art} (h : ∀ i, All P (children i)) (ht : All P t) (j : Nat) :
    ∀ i, All P (Function.update children j t i) := by
  intro i
  by_cases hij : i = j
  · rw [hij, Function.update_self]
    exact ht
  · rw [Function.update_of_ne hij]
    exact h i

theorem All.cut {children : Nat → Art} (h : ∀ i, All P (children i)) (p : Nat → Prop) [DecidablePred p]
    (f : Nat → Nat) :
    ∀ i, All P (if p i then children (f i) else null) := by
  intro i
  split
  · exact h _
  · exact trivial

theorem All.addChild {children : Nat → Art} (h : ∀ i, All P (children i)) (ht : All P t) (alloc : Bool)
    (type : ArtType)
    (num : UInt8) (plen : UInt16) (index : Nat → UInt8) (c : UInt8) :
    All P (addChild alloc type num plen index children c t).2 := by
  cases type <;> simp only [Art.addChild]
  · split
    · exact All.update h ht _
    · split
      · exact All.update (All.cut h (· < 4) id) ht _
      · exact h
  · split
    · exact All.update h ht _
    · split
      · exact All.update (All.cut h (· < 16) id) ht _
      · exact h
  · split
    · exact All.update h ht _
    · split
      · exact All.update (All.cut h (fun i => i < 256 ∧ index i ≠ 0) fun i => (index i).toNat - 1) ht _
      · exact h
  · exact All.update h ht _

theorem All.branch (h : All P t) (hr : P rule) (p : Nat) (c d : UInt8) : All P (branch p c t d rule) := by
  intro i
  simp only
  split
  · exact h
  · split
    · exact ⟨hr, by simp⟩
    · exact trivial

theorem All.insert (h : All P t) (hr : P rule) (alloc : Bool) (depth : Nat) :
    All P (insert alloc rule t depth).2 := by
  induction t generalizing depth with
  | null => exact ⟨hr, by simp⟩
  | leaf existing next =>
    simp only [Art.insert]
    split
    · refine ⟨h.1, ?_⟩
      intro r hmem
      rcases List.mem_cons.mp hmem with rfl | hmem
      · exact hr
      · exact h.2 r hmem
    · split
      · exact h.branch hr _ _ _
      · exact h
  | node type num plen index children ih =>
    simp only [Art.insert]
    split
    · split
      · apply All.branch _ hr
        exact h
      · exact h
    · split
      · exact All.update h (ih _ (h _) _) _
      · have hleaf : All P (leaf rule []) := ⟨hr, by simp⟩
        exact All.addChild h hleaf _ _ _ _ _ _

theorem All.lengthen (h : All P t) (extra : UInt16) : All P (lengthen extra t) := by
  cases t <;> exact h

theorem All.removeChild {children : Nat → Art} (h : ∀ i, All P (children i)) (type : ArtType) (num : UInt8)
    (plen : UInt16) (index : Nat → UInt8) (pos : Nat) (key : UInt8) :
    All P (removeChild type num plen index children pos key) := by
  have hmoved : ∀ i, All P (Function.update children pos (children (num - 1).toNat) i) := All.update h (h _) _
  unfold Art.removeChild
  simp only
  split
  · apply All.lengthen
    cases type
    · exact hmoved _
    · exact hmoved _
    · exact h _
    · exact h _
  · cases type
    · exact hmoved
    · exact hmoved
    · exact h
    · exact h

theorem All.removeLeaf (h : All P t) (target : Rule) (depth : Nat) : All P (removeLeaf target t depth) := by
  induction t generalizing depth with
  | null => exact trivial
  | leaf existing next =>
    simp only [Art.removeLeaf]
    split
    · split
      · cases next with
        | nil => exact trivial
        | cons first rest =>
          exact ⟨h.2 first List.mem_cons_self, fun r hmem => h.2 r (List.mem_cons_of_mem _ hmem)⟩
      · exact ⟨h.1, fun r hmem => h.2 r (List.mem_of_mem_erase hmem)⟩
    · exact h
  | node type num plen index children ih =>
    simp only [Art.removeLeaf]
    split
    · exact h
    · split
      · exact h
      · split
        · have hnull : All P null := trivial
          exact All.removeChild (All.update h hnull _) _ _ _ _ _ _
        · exact All.update h (ih _ (h _) _) _

end

end Art

namespace Kernel

/-- A rule and the header of its record fit an empty page. -/
def FitsPage (rule : Rule) : Prop := RULE_HEADER_LEN + rule.vPath.length + rule.rPath.length ≤ BUFFER_LEN

structure Bounded (k : Kernel) : Prop where
  rules : ∀ r ∈ k.rules, FitsPage r
  tree : Art.All FitsPage k.root

section

variable {k k' : Kernel} {rule : Rule} {env : Nat → Answers}

theorem Bounded.of_same (h : Bounded k) (hs : SameTable k k') : Bounded k' := by
  obtain ⟨hrules, hroot, -⟩ := hs
  constructor
  · rw [hrules]
    exact h.rules
  · rw [hroot]
    exact h.tree

theorem Bounded.unlink (h : Bounded k) (rule : Rule) : Bounded (k.unlink rule) :=
  ⟨fun r hr => h.rules r (List.mem_of_mem_erase hr), h.tree.removeLeaf rule 0⟩

theorem Bounded.treeInsert (h : Bounded k) (hrule : FitsPage rule) (alloc : Bool) :
    Bounded (treeInsert alloc rule k).2 := by
  refine ⟨?_, h.tree.insert hrule alloc 0⟩
  intro r hr
  have hr' : r ∈ if (Kernel.treeInsert alloc rule k).1 = 0 then k.rules ++ [rule] else k.rules := hr
  split at hr'
  · rcases List.mem_append.mp hr' with hr' | hr'
    · exact h.rules r hr'
    · rw [List.mem_singleton.mp hr']
      exact hrule
  · exact h.rules r hr'

theorem Bounded.prune (h : Bounded k) (fuel : Nat) (start : Option Nat) :
    Bounded (pruneEmptyVirtualDirs fuel start k) := by
  induction fuel generalizing k start with
  | zero => exact h
  | succ fuel ih =>
    cases start with
    | none => exact h
    | some dir =>
      unfold pruneEmptyVirtualDirs
      split
      · exact h
      · split
        · rename_i owner _
          split
          · exact ih ((h.unlink owner).of_same same_deleteChild) _
          · exact h
        · exact h

theorem Bounded.detachRule (h : Bounded k) (rule : Rule) (prune : Bool) :
    Bounded (detachRule rule prune k) := by
  have hunlink := h.unlink rule
  unfold Kernel.detachRule
  simp only
  split
  · exact hunlink
  · have hdelete := hunlink.of_same (@same_deleteChild _ rule)
    split
    · exact hdelete.prune _ _
    · exact hdelete

theorem Bounded.retract (h : Bounded k) (rule : Rule) : Bounded (retract rule k) := by
  unfold Kernel.retract
  split
  · exact h.detachRule rule false
  · simp only
    split
    · exact (h.of_same (@same_deleteChild _ rule)).of_same ⟨rfl, rfl, le_rfl⟩
    · exact h.of_same ⟨rfl, rfl, le_rfl⟩

theorem Bounded.rollback (h : Bounded k) (target : Rule) (generated : List Rule) :
    Bounded (rollbackGeneratedTopology target generated k) := by
  have hfold : ∀ (rules : List Rule) (m : Kernel), Bounded m →
      Bounded (rules.foldl (fun k rule => Kernel.retract rule k) m) := by
    intro rules
    induction rules with
    | nil => exact fun m hm => hm
    | cons rule rest ih => exact fun m hm => ih _ (hm.retract rule)
  exact hfold _ _ (h.retract target)

theorem Bounded.insertAll {generated : List Rule} (h : Bounded k) (hgen : ∀ r ∈ generated, FitsPage r) :
    Bounded (insertAll env generated k).2 := by
  induction generated generalizing k with
  | nil => exact h
  | cons rule rest ih =>
    have hinsert := (h.of_same (same_tick k)).treeInsert (hgen rule List.mem_cons_self) (env k.clock).alloc
    unfold Kernel.insertAll
    simp only
    split
    · exact hinsert
    · exact ih hinsert fun r hr => hgen r (List.mem_cons_of_mem _ hr)

theorem Generated.fitsPage {target r : Rule} {uid : UInt32} {low high : Nat}
    (h : Generated target.vPath uid low high r)
    (htarget : FitsPage target) : FitsPage r := by
  obtain ⟨len, hlen⟩ := h.path
  unfold FitsPage at *
  rw [hlen, h.rPath, List.length_take, List.length_nil]
  omega

theorem Bounded.generateVirtualTopology {target : Rule} {generated : List Rule} {err : Int32} (h : Bounded k)
    (htarget : FitsPage target) (hg : generateVirtualTopology env target k = some (err, generated, k')) :
    Bounded k' := by
  unfold Kernel.generateVirtualTopology at hg
  cases ha : attach env target.vPath target.targetUid (cuts target.vPath target.vPath.length) target [] k with
  | none => simp [ha] at hg
  | some outcome =>
    obtain ⟨err', made, m⟩ := outcome
    simp only [ha, Option.some.injEq, Prod.mk.injEq] at hg
    obtain ⟨rfl, rfl, rfl⟩ := hg
    obtain ⟨hsame, hgen, -⟩ := attach_spec ha (by simp) List.nodup_nil le_rfl
    have hm := h.of_same hsame
    have hresult : Bounded (if err' ≠ 0 then (err', m) else Kernel.insertAll env made m).2 := by
      split
      · exact hm
      · exact hm.insertAll fun r hr => (hgen r hr).fitsPage htarget
    generalize (if err' ≠ 0 then (err', m) else Kernel.insertAll env made m) = result at *
    split
    · exact hresult.rollback target made
    · exact hresult

theorem fitsPage_request {request : Request}
    (h : RULE_HEADER_LEN + request.vPath.length + request.rPath.length ≤ BUFFER_LEN) (id : Nat)
    (isDir : Bool) :
    FitsPage (request.rule id isDir) := by
  have hv := length_stripSlashes_le request.vPath
  have hr := length_stripSlashes_le request.rPath
  unfold FitsPage Request.rule
  cases request.bare with
  | true =>
    simp only [if_true, List.length_nil]
    omega
  | false =>
    simp only [Bool.false_eq_true, if_false]
    omega

/-- An allocated rule is the one of its request; the table is as before. -/
theorem allocRule_cases (env : Nat → Answers) (request : Request) (k : Kernel) :
    SameTable k (allocRule env request k).2 ∧
      ∀ rule, (allocRule env request k).1 = .ok rule → ∃ isDir, rule = request.rule k.nextId isDir := by
  have htwo := (same_tick k).trans (same_tick k.tick)
  unfold allocRule
  split
  · exact ⟨same_tick k, by simp⟩
  · split
    · exact ⟨htwo, by simp⟩
    · rename_i isDir _
      simp only
      split
      · refine ⟨⟨rfl, rfl, Nat.le_succ _⟩, fun rule h => ⟨isDir, ?_⟩⟩
        simpa using h.symm
      · split
        · exact ⟨⟨rfl, rfl, Nat.le_succ _⟩, by simp⟩
        · refine ⟨⟨rfl, rfl, Nat.le_succ _⟩, fun rule h => ⟨isDir, ?_⟩⟩
          simpa using h.symm

theorem Bounded.addRule {request : Request} {err : Int32} (h : Bounded k)
    (hfits : RULE_HEADER_LEN + request.vPath.length + request.rPath.length ≤ BUFFER_LEN)
    (ha : addRule env request k = some (err, k')) : Bounded k' := by
  obtain ⟨hsame, hrule⟩ := allocRule_cases env request k
  have hm := h.of_same hsame
  unfold Kernel.addRule at ha
  generalize allocRule env request k = allocated at *
  obtain ⟨outcome, m⟩ := allocated
  cases outcome with
  | error err' =>
    simp only [Option.some.injEq, Prod.mk.injEq] at ha
    rw [← ha.2]
    exact hm
  | ok rule =>
    obtain ⟨isDir, heq⟩ := hrule rule rfl
    have hpage : FitsPage rule := by
      rw [heq]
      exact fitsPage_request hfits k.nextId isDir
    have hshadow : Bounded (shadowExisting rule m) := by
      unfold shadowExisting
      split
      · exact (hm.of_same (same_handOver ..).1).detachRule _ false
      · exact hm
    simp only at ha
    cases hg : Kernel.generateVirtualTopology env rule (shadowExisting rule m) with
    | none => simp [hg] at ha
    | some outcome =>
      obtain ⟨err', generated, m'⟩ := outcome
      have hm' := hshadow.generateVirtualTopology hpage hg
      have hinsert := (hm'.of_same (same_tick m')).treeInsert hpage (env m'.clock).alloc
      simp only [hg] at ha
      split at ha
      · simp only [Option.some.injEq, Prod.mk.injEq] at ha
        rw [← ha.2]
        exact hm'
      · split at ha
        · simp only [Option.some.injEq, Prod.mk.injEq] at ha
          rw [← ha.2]
          exact hinsert.rollback rule generated
        · simp only [Option.some.injEq, Prod.mk.injEq] at ha
          rw [← ha.2]
          exact hinsert

theorem Bounded.preserveVirtualParent (h : Bounded k) (hrule : FitsPage rule) :
    Bounded (preserveVirtualParent env rule k).2 := by
  have htick := h.of_same (same_tick k)
  have hparent : FitsPage (copyParent rule k.tick).1 := by
    unfold FitsPage at *
    show RULE_HEADER_LEN + rule.vPath.length + 0 ≤ BUFFER_LEN
    omega
  have hcopy : Bounded (copyParent rule k.tick).2 := htick.of_same ⟨rfl, rfl, Nat.le_succ _⟩
  have henter : Bounded (enterParent env (copyParent rule k.tick).1 (copyParent rule k.tick).2).2 := by
    have hinsert := (hcopy.of_same (same_tick _)).treeInsert hparent
      (env (copyParent rule k.tick).2.clock).alloc
    unfold enterParent
    simp only
    split
    · exact hinsert
    · split
      · exact (hinsert.of_same (same_tick _)).of_same (same_injectChild ..)
      · exact hinsert
  unfold Kernel.preserveVirtualParent
  split
  · exact h
  · split
    · exact htick
    · simp only
      split
      · exact (henter.unlink (copyParent rule k.tick).1).of_same ⟨rfl, rfl, le_rfl⟩
      · exact (henter.of_same (same_takeDir ..)).unlink rule

theorem Bounded.delRule {vPath : Bytes} {beyond : UInt8} {uid : UInt32} (h : Bounded k) :
    Bounded (delRule env vPath beyond uid k).2 := by
  unfold Kernel.delRule
  simp only
  split
  · exact h
  · rename_i found hs
    split
    · exact h.preserveVirtualParent (h.tree.searchExact hs)
    · exact h.detachRule found true

theorem Reachable.bounded {admits : Bytes → Prop} (h : Reachable admits k) : Bounded k := by
  apply h.invariant
  · exact ⟨by simp [Kernel.boot], trivial⟩
  · intro env request k err k' hk _ hfits ha
    exact hk.addRule hfits ha
  · intro env vPath beyond uid k hk
    exact hk.delRule
  · intro k hk
    exact hk.of_same (same_retire k)
  · intro k _
    obtain ⟨hrules, hroot⟩ := clearAll_rules k
    constructor
    · simp [hrules]
    · rw [hroot]
      exact trivial

end

end Kernel

end HybridMount.Vfs
