import Mathlib.Data.List.Sort
import Mathlib.Tactic
import HybridMount.OrderedMap

/-! Lists in order: sorted by a three-way comparison, the longest prefix of a path among the keys of a
list, and maps whose values are groups, as the items with the keys of their groups. -/

namespace Comparison

variable {α : Type} {cmp : α → α → Ordering} [Std.TransCmp cmp] {a b c : α}

theorem total (a b : α) : cmp a b ≠ .gt ∨ cmp b a ≠ .gt := by
  rw [@Std.OrientedCmp.eq_swap _ cmp _ b a]
  cases cmp a b with
  | lt => simp
  | eq => simp
  | gt => simp

theorem trans (hab : cmp a b ≠ .gt) (hbc : cmp b c ≠ .gt) : cmp a c ≠ .gt := by
  simp only [Ordering.ne_gt_iff_isLE] at *
  exact Std.TransCmp.isLE_trans hab hbc

theorem eq_of_both (hab : cmp a b ≠ .gt) (hba : cmp b a ≠ .gt) : cmp a b = .eq := by
  rw [@Std.OrientedCmp.eq_swap _ cmp _ b a] at hba
  cases h : cmp a b with
  | lt => simp [h] at hba
  | eq => rfl
  | gt => exact absurd h hab

theorem pairwise_insertionSort (items : List α) :
    (items.insertionSort fun a b => cmp a b ≠ .gt).Pairwise fun a b => cmp a b ≠ .gt := by
  have htotal : Std.Total fun a b => cmp a b ≠ .gt := ⟨total⟩
  have htrans : IsTrans α fun a b => cmp a b ≠ .gt := ⟨fun _ _ _ => trans⟩
  exact List.pairwise_insertionSort _ items

end Comparison

namespace LongestPrefix

variable {ν α β : Type} (key : α → List ν) (items : List α)

/-- No other key on the way to the path is longer. -/
structure Longest (path : List ν) (a : α) : Prop where
  mem : a ∈ items
  onPath : key a <+: path
  longest : ∀ b ∈ items, key b <+: path → (key b).length ≤ (key a).length

variable {key items} {path q : List ν} {a b : α}

theorem exists_longest (h : ∃ a ∈ items, key a <+: path) : ∃ a, Longest key items path a := by
  induction items with
  | nil =>
    obtain ⟨a, ha, -⟩ := h
    cases ha
  | cons b rest ih =>
    by_cases hrest : ∃ a ∈ rest, key a <+: path
    · obtain ⟨a, ha⟩ := ih hrest
      by_cases hb : key b <+: path ∧ (key a).length < (key b).length
      · refine ⟨b, List.mem_cons_self, hb.1,
          List.forall_mem_cons.mpr ⟨fun _ => le_refl _, fun c hc hpre => ?_⟩⟩
        have hle := ha.longest c hc hpre
        omega
      · refine ⟨a, List.mem_cons_of_mem _ ha.mem, ha.onPath,
          List.forall_mem_cons.mpr ⟨fun hpre => ?_, ha.longest⟩⟩
        have hnot : ¬ (key a).length < (key b).length := fun hlt => hb ⟨hpre, hlt⟩
        omega
    · obtain ⟨a, ha, hpre⟩ := h
      rcases List.mem_cons.mp ha with rfl | ha
      · refine ⟨a, List.mem_cons_self, hpre,
          List.forall_mem_cons.mpr ⟨fun _ => le_refl _, fun c hc hc' => ?_⟩⟩
        exact absurd ⟨c, hc, hc'⟩ hrest
      · exact absurd ⟨a, ha, hpre⟩ hrest

theorem Longest.key_eq (ha : Longest key items path a) (hb : Longest key items path b) : key a = key b := by
  have hlength : (key a).length = (key b).length :=
    le_antisymm (hb.longest a ha.mem ha.onPath) (ha.longest b hb.mem hb.onPath)
  rcases List.prefix_or_prefix_of_prefix ha.onPath hb.onPath with h | h
  · exact h.eq_of_length hlength
  · exact (h.eq_of_length hlength.symm).symm

theorem Longest.congr (h : ∀ b ∈ items, key b <+: path ↔ key b <+: q) (ha : Longest key items path a) :
    Longest key items q a :=
  ⟨ha.mem, (h a ha.mem).mp ha.onPath, fun b hb hpre => ha.longest b hb ((h b hb).mpr hpre)⟩

/-- The first key on the way is the longest when no key stands in front of a longer one. -/
theorem longest_find? [DecidableEq ν] (hsorted : items.Pairwise fun a b => key a <+: key b → key a = key b)
    (h : items.find? (fun a => (key a).isPrefixOf path) = some a) : Longest key items path a := by
  obtain ⟨hpre, front, back, rfl, hfront⟩ := List.find?_eq_some_iff_append.mp h
  have hon : key a <+: path := List.isPrefixOf_iff_prefix.mp hpre
  refine ⟨by simp, hon, fun b hb hb' => ?_⟩
  rcases List.mem_append.mp hb with hb | hb
  · have hnot := hfront b hb
    rw [List.isPrefixOf_iff_prefix.mpr hb'] at hnot
    cases hnot
  · rcases List.mem_cons.mp hb with rfl | hb
    · exact le_refl _
    · have hab := (List.pairwise_cons.mp (List.pairwise_append.mp hsorted).2.1).1 b hb
      rcases List.prefix_or_prefix_of_prefix hon hb' with hle | hle
      · rw [hab hle]
      · exact hle.length_le

end LongestPrefix

namespace OrderedMap

variable {κ ν : Type} {cmp : κ → κ → Ordering} {k : κ}

theorem get_eq_none_of_lt {m : List (κ × ν)} (h : ∀ e ∈ m, cmp k e.1 = .lt) : get cmp k m = none := by
  induction m with
  | nil => rfl
  | cons e rest ih =>
    obtain ⟨he, hrest⟩ := List.forall_mem_cons.mp h
    simp only [get, he, reduceCtorEq, if_false]
    exact ih hrest

namespace Map

def grouped (m : Map κ (List ν) cmp) : List (κ × ν) := m.entries.flatMap fun group => group.2.map fun item =>
    (group.1, item)

@[simp] theorem grouped_empty : (empty : Map κ (List ν) cmp).grouped = [] := rfl

theorem mem_grouped {m : Map κ (List ν) cmp} {e : κ × ν} :
    e ∈ m.grouped ↔ ∃ group ∈ m.entries, group.1 = e.1 ∧ e.2 ∈ group.2 := by
  simp only [grouped, List.mem_flatMap, List.mem_map]
  constructor
  · intro h
    obtain ⟨group, hgroup, item, hitem, heq⟩ := h
    subst heq
    exact ⟨group, hgroup, rfl, hitem⟩
  · intro h
    obtain ⟨group, hgroup, hkey, hitem⟩ := h
    exact ⟨group, hgroup, e.2, hitem, by rw [hkey]⟩

theorem grouped_mapValues {m : Map κ (List ν) cmp} {f : List ν → List ν}
    (hf : ∀ items, (f items).Perm items) :
    (m.mapValues f).grouped.Perm m.grouped := by
  simp only [grouped, mapValues, List.flatMap_map]
  exact List.Perm.flatMap_left _ fun group _ => (hf group.2).map _

/-- Items added at the end of the group under a key; the group is a new one if there was none. -/
theorem grouped_extend [Std.LawfulEqCmp cmp] [Std.TransCmp cmp] {m : Map κ (List ν) cmp} {items : List ν} :
    (m.insert k ((m.get k).getD [] ++ items)).grouped.Perm
    (m.grouped ++ items.map fun item => (k, item)) := by
  obtain ⟨entries, hsorted⟩ := m
  simp only [grouped, insert, get]
  induction entries with
  | nil => simp [OrderedMap.insert, OrderedMap.get]
  | cons e rest ih =>
    obtain ⟨hlt, hrest⟩ := List.pairwise_cons.mp hsorted
    cases hk : cmp k e.1 with
    | lt =>
      have hnone : OrderedMap.get cmp k rest = none :=
        get_eq_none_of_lt fun x hx => Std.TransCmp.lt_trans hk (hlt x hx)
      simp only [OrderedMap.insert, hk, OrderedMap.get, reduceCtorEq, if_false, hnone, Option.getD_none,
        List.nil_append,
        List.flatMap_cons]
      exact List.perm_append_comm
    | eq =>
      obtain rfl := Std.LawfulEqCmp.eq_of_compare hk
      simp only [OrderedMap.insert, hk, OrderedMap.get, if_true, Option.getD_some, List.flatMap_cons,
        List.map_append,
        List.append_assoc]
      exact List.perm_append_comm.append_left _
    | gt =>
      simp only [OrderedMap.insert, hk, OrderedMap.get, reduceCtorEq, if_false, List.flatMap_cons,
        List.append_assoc]
      exact (ih hrest).append_left _

end Map

end OrderedMap
