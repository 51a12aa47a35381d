import HybridMount.BackendWinners

/-! The mount tree is determined by the sources inserted, in whatever order they come. -/

namespace HybridMount.Plan

/-- A target and the source inserted there. -/
abbrev Insertion := Names × MountSource

namespace MountTree

def insertAll (insertions : List Insertion) : MountNode :=
  insertions.foldl (fun tree i => insert tree i.1 i.2) root

def StructuralLe (left right : StructuralSource) : Prop := structuralOrder left right ≠ .gt

instance : DecidableRel StructuralLe :=
    fun left right => inferInstanceAs (Decidable (structuralOrder left right ≠ .gt))

/-- The directory which an insertion lends to the node at a path. -/
def structuralOf (i : Insertion) (path : Names) : Option StructuralSource :=
  let components := targetComponents i.1
  let relativeLength := (i.2.relative.filter fun name => name ≠ "").length
  let kept := relativeLength - components.length + path.length
  if (path ≠ [] ∧ path <+: components) ∧ (kept < relativeLength ∨ i.2.fileType = .directory) then
    some ⟨i.2.moduleId, i.2.sourcePath.take (i.2.sourcePath.length - (relativeLength - kept))⟩
  else none

def lend (structural : Option StructuralSource) (node : Contributions) : Contributions :=
  match structural with
  | some structural => pushStructural structural node
  | none => node

def structuralAt (path : Names) (tree : MountNode) : List StructuralSource :=
  ((Trie.valueAt compare path tree).map Contributions.structuralSources).getD []

/-- What a tree holds after these insertions. -/
structure Holds (insertions : List Insertion) (tree : MountNode) : Prop where
  ordered : tree.Ordered compare
  present : ∀ path, (Trie.valueAt compare path tree).isSome = true ↔
    path = [] ∨ ∃ i ∈ insertions, path <+: targetComponents i.1
  sources : ∀ path, (sourcesAt path tree).Perm
    ((insertions.filter fun i => targetComponents i.1 = path).map Prod.snd)
  sorted : Sorted tree
  structural : ∀ path s, s ∈ structuralAt path tree ↔ ∃ i ∈ insertions, structuralOf i path = some s
  structuralNodup : ∀ path, (structuralAt path tree).Nodup
  structuralSorted : ∀ path, (structuralAt path tree).Pairwise StructuralLe

variable {insertions insertions' : List Insertion} {tree tree' : MountNode} {i : Insertion}
  {path target : Names} {s : StructuralSource}
  {node : Contributions} {source : MountSource}

section Order

instance : Std.TransCmp structuralOrder :=
  inferInstanceAs (Std.TransCmp
    (compareLex (compareOn StructuralSource.moduleId) (compareOn StructuralSource.sourcePath)))

instance : Std.LawfulEqCmp structuralOrder where
  compare_self := by simp [structuralOrder]
  eq_of_compare {a b} h := by
    simp only [structuralOrder, Ordering.then_eq_eq, Std.LawfulEqOrd.compare_eq_iff_eq] at h
    cases a
    cases b
    simpa using h

instance : Std.Total StructuralLe where
  total a b := Comparison.total a b

instance : IsTrans StructuralSource StructuralLe where
  trans _ _ _ hab hbc := Comparison.trans hab hbc

theorem StructuralLe.antisymm {a b : StructuralSource} (hab : StructuralLe a b)
    (hba : StructuralLe b a) : a = b :=
  Std.LawfulEqCmp.eq_of_compare (Comparison.eq_of_both hab hba)

theorem SourceLe.key_eq {a b : MountSource} (hab : SourceLe a b) (hba : SourceLe b a) :
    (a.moduleId, text a.relative) = (b.moduleId, text b.relative) := by
  have h : sourceOrder a b = .eq := Comparison.eq_of_both hab hba
  simp only [sourceOrder, Ordering.then_eq_eq, Std.LawfulEqOrd.compare_eq_iff_eq] at h
  rw [h.1, h.2]

end Order

section Lend

theorem mem_pushStructural {x : StructuralSource} :
    x ∈ (pushStructural s node).structuralSources ↔ x ∈ node.structuralSources ∨ x = s := by
  unfold pushStructural
  split
  · rename_i hin
    constructor
    · exact .inl
    · rintro (h | rfl)
      · exact h
      · exact hin
  · simp [List.mem_insertionSort]

theorem nodup_pushStructural (h : node.structuralSources.Nodup) :
    (pushStructural s node).structuralSources.Nodup := by
  unfold pushStructural
  split
  · exact h
  · rename_i hout
    refine (List.perm_insertionSort _ _).nodup_iff.mpr (List.nodup_append.mpr ⟨h, List.nodup_singleton s, ?_⟩)
    intro a ha b hb hab
    rw [List.mem_singleton.mp hb] at hab
    exact hout (hab ▸ ha)

theorem sorted_pushStructural (h : node.structuralSources.Pairwise StructuralLe) :
    (pushStructural s node).structuralSources.Pairwise StructuralLe := by
  unfold pushStructural
  split
  · exact h
  · exact List.pairwise_insertionSort StructuralLe _

/-- The edit of the node at a path lends it what the insertion has for it. -/
theorem editAt_insert {offset length : Nat} (hoffset : offset = length - (targetComponents i.1).length)
    (hlength : length = (i.2.relative.filter fun name => name ≠ "").length)
    (hpath : path <+: targetComponents i.1) :
    Trie.editAt ((targetComponents i.1).zipIdx.map fun step => (step.1, structuralEdit i.2 offset length step.2))
      path.length node =
      lend (structuralOf i path) node := by
  cases hn : path.length with
  | zero => simp [Trie.editAt, structuralOf, List.length_eq_zero_iff.mp hn, lend]
  | succ n =>
    have hlt : n < (targetComponents i.1).length := by
      have hle := hpath.length_le
      omega
    have hne : path ≠ [] := by
      rintro rfl
      cases hn
    simp only [Trie.editAt, List.getElem?_map, List.getElem?_zipIdx, List.getElem?_eq_getElem hlt,
      Option.map_some, Option.getD_some,
      Nat.zero_add]
    unfold structuralEdit structuralOf
    simp only [ne_eq, hne, not_false_eq_true, hpath, and_self, true_and, hn, hoffset, ← hlength,
      Nat.add_assoc]
    split
    · rfl
    · rfl

/-- One insertion changes the nodes on the way to its target. -/
theorem valueAt_insert : Trie.valueAt compare path (insert tree i.1 i.2) =
    if path <+: targetComponents i.1 then
      some ((if path = targetComponents i.1 then pushSource i.2 else id)
        (lend (structuralOf i path) ((Trie.valueAt compare path tree).getD {})))
    else Trie.valueAt compare path tree := by
  unfold insert
  rw [Trie.valueAt_grow]
  have hkeys : ((targetComponents i.1).zipIdx.map fun step => (step.1, structuralEdit i.2
      ((i.2.relative.filter fun name => name ≠ "").length - (targetComponents i.1).length)
      (i.2.relative.filter fun name => name ≠ "").length step.2)).map Prod.fst = targetComponents i.1 := by
    simp only [List.map_map, Function.comp_def, List.zipIdx_map_fst]
  rw [hkeys]
  by_cases hpath : path <+: targetComponents i.1
  · rw [if_pos hpath, if_pos hpath, editAt_insert rfl rfl hpath]
    simp only [List.length_map, List.length_zipIdx]
    have hwhole : path.length = (targetComponents i.1).length ↔ path = targetComponents i.1 :=
      ⟨hpath.eq_of_length, congrArg List.length⟩
    simp only [hwhole]
  · rw [if_neg hpath, if_neg hpath]

theorem structuralAt_insert : structuralAt path (insert tree i.1 i.2) =
    (lend (structuralOf i path) { structuralSources := structuralAt path tree }).structuralSources := by
  unfold structuralAt
  rw [valueAt_insert]
  by_cases hpath : path <+: targetComponents i.1
  · rw [if_pos hpath, Option.map_some, Option.getD_some]
    have hlast : ∀ node : Contributions,
        ((if path = targetComponents i.1 then pushSource i.2 else id) node).structuralSources =
        node.structuralSources := by
      intro node
      split
      · rfl
      · rfl
    rw [hlast]
    have hsame : ∀ a b : Contributions, a.structuralSources = b.structuralSources →
        (lend (structuralOf i path) a).structuralSources =
          (lend (structuralOf i path) b).structuralSources := by
      intro a b hab
      cases structuralOf i path with
      | none => exact hab
      | some s =>
        simp only [lend, pushStructural, hab]
        split
        · exact hab
        · rfl
    apply hsame
    cases Trie.valueAt compare path tree with
    | none => rfl
    | some node => rfl
  · have hnone : structuralOf i path = none := by
      unfold structuralOf
      rw [if_neg fun h => hpath h.1.2]
    rw [if_neg hpath, hnone]
    rfl

end Lend

section Holding

theorem holds_root : Holds [] root where
  ordered := .intro .nil (by simp [root])
  present path := by
    cases path with
    | nil => simp
    | cons name rest => simp [Trie.valueAt, Trie.find, root, OrderedMap.get]
  sources path := by simp [sourcesAt_root]
  sorted path := by
    rw [sourcesAt_root]
    exact .nil
  structural path s := by
    cases path with
    | nil => simp [structuralAt, root]
    | cons name rest => simp [structuralAt, Trie.valueAt, Trie.find, root, OrderedMap.get]
  structuralNodup path := by
    cases path with
    | nil => simp [structuralAt, root]
    | cons name rest => simp [structuralAt, Trie.valueAt, Trie.find, root, OrderedMap.get]
  structuralSorted path := by
    cases path with
    | nil => simp [structuralAt, root]
    | cons name rest => simp [structuralAt, Trie.valueAt, Trie.find, root, OrderedMap.get]

/-- The step: one more insertion. -/
theorem Holds.insert (h : Holds insertions tree) (i : Insertion) :
    Holds (insertions ++ [i]) (insert tree i.1 i.2) where
  ordered := Trie.ordered_grow h.ordered
  present path := by
    rw [valueAt_insert]
    simp only [List.mem_append, List.mem_singleton, or_and_right, exists_or, exists_eq_left]
    by_cases hpath : path <+: targetComponents i.1
    · simp [hpath]
    · simp only [hpath, if_false, or_false]
      exact h.present path
  sources path := by
    rw [sourcesAt_insert, List.filter_append, List.map_append]
    by_cases hpath : path = targetComponents i.1
    · rw [if_pos hpath]
      refine (List.perm_insertionSort _ _).trans ?_
      rw [List.filter_singleton, decide_eq_true hpath.symm]
      exact (h.sources path).append_right [i.2]
    · rw [if_neg hpath, List.filter_singleton, decide_eq_false fun heq => hpath heq.symm]
      simpa using h.sources path
  sorted := h.sorted.insert
  structural path s := by
    rw [structuralAt_insert]
    simp only [List.mem_append, List.mem_singleton, or_and_right, exists_or,
      exists_eq_left, ← h.structural path s]
    cases hown : structuralOf i path with
    | none => simp [lend]
    | some own =>
      simp only [lend, mem_pushStructural, Option.some.injEq]
      exact or_congr_right ⟨Eq.symm, Eq.symm⟩
  structuralNodup path := by
    rw [structuralAt_insert]
    cases structuralOf i path with
    | none => exact h.structuralNodup path
    | some own => exact nodup_pushStructural (h.structuralNodup path)
  structuralSorted path := by
    rw [structuralAt_insert]
    cases structuralOf i path with
    | none => exact h.structuralSorted path
    | some own => exact sorted_pushStructural (h.structuralSorted path)

theorem holds_insertAll (insertions : List Insertion) : Holds insertions (insertAll insertions) := by
  induction insertions using List.reverseRecOn with
  | nil => exact holds_root
  | append_singleton front i ih =>
    rw [insertAll, List.foldl_append]
    exact ih.insert i

/-- Two trees that hold the same insertions are equal. -/
theorem Holds.unique (h : Holds insertions tree) (h' : Holds insertions' tree')
    (hperm : insertions.Perm insertions')
    (hkeys : (insertions.map fun i => (i.2.moduleId, text i.2.relative)).Nodup) : tree = tree' := by
  have hmem : ∀ i, i ∈ insertions ↔ i ∈ insertions' := fun i => hperm.mem_iff
  have hsources : ∀ path, sourcesAt path tree = sourcesAt path tree' := by
    intro path
    have hsame : (sourcesAt path tree).Perm (sourcesAt path tree') :=
      (h.sources path).trans (((hperm.filter _).map _).trans (h'.sources path).symm)
    refine hsame.eq_of_pairwise (fun a b ha hb hab hba => ?_) (h.sorted path) (h'.sorted path)
    have hkey := SourceLe.key_eq hab hba
    obtain ⟨i, hi, rfl⟩ := List.mem_map.mp ((h.sources path).mem_iff.mp ha)
    obtain ⟨j, hj, rfl⟩ := List.mem_map.mp ((h'.sources path).mem_iff.mp hb)
    have hi := List.mem_of_mem_filter hi
    have hj := (hmem j).mpr (List.mem_of_mem_filter hj)
    rw [List.inj_on_of_nodup_map hkeys hi hj hkey]
  have hstructural : ∀ path, structuralAt path tree = structuralAt path tree' := by
    intro path
    have hsame : (structuralAt path tree).Perm (structuralAt path tree') := by
      refine (List.perm_ext_iff_of_nodup (h.structuralNodup path) (h'.structuralNodup path)).mpr fun s => ?_
      simp only [h.structural path s, h'.structural path s, hmem]
    exact hsame.eq_of_pairwise (fun a b _ _ hab hba => hab.antisymm hba) (h.structuralSorted path)
      (h'.structuralSorted path)
  refine Trie.ext_of_valueAt h.ordered h'.ordered fun path => ?_
  have hpresent : (Trie.valueAt compare path tree).isSome = (Trie.valueAt compare path tree').isSome := by
    rw [Bool.eq_iff_iff, h.present path, h'.present path]
    simp only [hmem]
  have hs := hsources path
  have ht := hstructural path
  unfold sourcesAt at hs
  unfold structuralAt at ht
  cases hv : Trie.valueAt compare path tree with
  | none =>
    rw [hv] at hpresent
    exact (Option.not_isSome_iff_eq_none.mp (by simp [← hpresent])).symm
  | some value =>
    cases hv' : Trie.valueAt compare path tree' with
    | none => simp [hv, hv'] at hpresent
    | some value' =>
      simp only [hv, hv', Option.map_some, Option.getD_some] at hs ht
      cases value
      cases value'
      simp_all

end Holding

/-- In any order the same tree is built; each source is found at its target, and besides the root
nothing is found where nothing was inserted. -/
theorem insertion_order_irrelevant (hperm : insertions.Perm insertions')
    (hkeys : (insertions.map fun i => (i.2.moduleId, text i.2.relative)).Nodup) :
    insertAll insertions = insertAll insertions' ∧
      (∀ i ∈ insertions, ∃ node, find (insertAll insertions) i.1 = some node ∧ i.2 ∈ node.value.sources) ∧
        ∀ target, targetComponents target ≠ [] →
          (∀ i ∈ insertions, ¬ targetComponents target <+: targetComponents i.1) →
          find (insertAll insertions) target = none := by
  have hholds := holds_insertAll insertions
  refine ⟨hholds.unique (holds_insertAll insertions') hperm hkeys, fun i hi => ?_, fun target hne hnone => ?_⟩
  · have hin : i.2 ∈ sourcesAt (targetComponents i.1) (insertAll insertions) := by
      refine (hholds.sources _).mem_iff.mpr (List.mem_map.mpr ⟨i, ?_, rfl⟩)
      simpa using hi
    exact mem_sourcesAt_find.mp hin
  · have habsent : ¬ (Trie.valueAt compare (targetComponents target) (insertAll insertions)).isSome = true := by
      rw [hholds.present]
      rintro (hnil | ⟨i, hi, hpre⟩)
      · exact hne hnil
      · exact hnone i hi hpre
    simpa [Trie.valueAt, find] using habsent

def hostsSource :
    MountSource :=
    ⟨"hosts", ["system", "etc", "hosts"], ["data", "hosts", "system", "etc", "hosts"], .regularFile,
    false, .magic⟩

def etcSource : MountSource :=
    ⟨"fonts", ["system", "etc"], ["data", "fonts", "system", "etc"], .directory, false, .overlay⟩

theorem insertion_order_etc :
    insertAll [(["system", "etc", "hosts"], hostsSource), (["system", "etc"], etcSource)] =
    insertAll [(["system", "etc"], etcSource), (["system", "etc", "hosts"], hostsSource)] :=
  (insertion_order_irrelevant (.swap _ _ _) (by decide +kernel)).1

/-- The root is found though nothing was inserted, and a name is found under another spelling. -/
theorem found_without_insertion : find (insertAll []) [] ≠ none ∧
    find (insertAll [(["system", "etc"], etcSource)]) ["system", "etc "] ≠ none := by
  decide +kernel

end MountTree

end HybridMount.Plan
