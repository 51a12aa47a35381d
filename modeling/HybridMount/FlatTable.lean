import HybridMount.Machine

/-! The rule table as a finite map from a path and a uid to a rule. -/

namespace HybridMount

structure FlatTable where
  rules : List SavedRule
  unique : (rules.map SavedRule.key).Nodup

namespace FlatTable

theorem unique_single (rule : SavedRule) : ([rule].map SavedRule.key).Nodup := List.nodup_singleton _

def delete (t : FlatTable) (rule : SavedRule) : FlatTable where
  rules := t.rules.filter fun r => r.key ≠ rule.key
  unique := t.unique.sublist (List.filter_sublist.map _)

def put (t : FlatTable) (rule : SavedRule) : FlatTable where
  rules := wire rule :: (t.delete rule).rules
  unique := by
    refine List.nodup_cons.mpr ⟨?_, (t.delete rule).unique⟩
    intro h
    obtain ⟨r, hr, hk⟩ := List.mem_map.mp h
    exact absurd hk (by simpa using (List.mem_filter.mp hr).2)

instance : RuleTable FlatTable where
  listing := rules
  put rule t := .ok (t.put rule)
  delete rule t := .ok (t.delete rule)

def putAll (t : FlatTable) (rules : List SavedRule) : FlatTable := rules.foldl put t

def deleteAll (t : FlatTable) (rules : List SavedRule) : FlatTable := rules.foldl delete t

variable {t : FlatTable} {r r' rule : SavedRule} {rules : List SavedRule}

theorem eq_of_key (hr : r ∈ t.rules) (hr' : r' ∈ t.rules) (hk : r.key = r'.key) : r = r' :=
  List.inj_on_of_nodup_map t.unique hr hr' hk

@[simp] theorem mem_delete : r ∈ (t.delete rule).rules ↔ r ∈ t.rules ∧ r.key ≠ rule.key := by
  simp only [delete, ne_eq, List.mem_filter, decide_not, Bool.not_eq_true', decide_eq_false_iff_not]

@[simp] theorem mem_put :
    r ∈ (t.put rule).rules ↔ r = wire rule ∨ r ∈ t.rules ∧ r.key ≠ rule.key := by
  simp only [put, List.mem_cons, mem_delete]

theorem mem_deleteAll :
    r ∈ (t.deleteAll rules).rules ↔ r ∈ t.rules ∧ ∀ x ∈ rules, r.key ≠ x.key := by
  induction rules generalizing t with
  | nil => simp [deleteAll]
  | cons x xs ih =>
    have hh := ih (t := t.delete x)
    simp only [deleteAll, List.foldl_cons] at hh ⊢
    simp only [hh, mem_delete, List.forall_mem_cons, and_assoc]

theorem mem_putAll (hn : (rules.map SavedRule.key).Nodup) :
    r ∈ (t.putAll rules).rules ↔
      (∃ x ∈ rules, r = wire x) ∨ r ∈ t.rules ∧ ∀ x ∈ rules, r.key ≠ x.key := by
  induction rules generalizing t with
  | nil => simp [putAll]
  | cons x xs ih =>
    obtain ⟨hx, hxs⟩ := List.nodup_cons.mp hn
    have hh := ih (t := t.put x) hxs
    simp only [putAll, List.foldl_cons] at hh ⊢
    rw [hh]
    simp only [mem_put, List.exists_mem_cons_iff, List.forall_mem_cons]
    constructor
    · rintro (h | ⟨rfl | ⟨h, hk⟩, h'⟩)
      · exact .inl (.inr h)
      · exact .inl (.inl rfl)
      · exact .inr ⟨h, hk, h'⟩
    · rintro ((rfl | h) | ⟨h, hk, h'⟩)
      · refine .inr ⟨.inl rfl, fun y hy he => hx ?_⟩
        exact List.mem_map.mpr ⟨y, hy, he.symm⟩
      · exact .inl h
      · exact .inr ⟨.inr ⟨h, hk⟩, h'⟩

theorem putAll_append (xs ys : List SavedRule) : t.putAll (xs ++ ys) = (t.putAll xs).putAll ys :=
  List.foldl_append

theorem deleteAll_append (xs ys : List SavedRule) :
    t.deleteAll (xs ++ ys) = (t.deleteAll xs).deleteAll ys :=
  List.foldl_append

end FlatTable

theorem putAll_withRules (m : Machine FlatTable) (rules : List SavedRule) :
    rules.foldl (fun m x => m.withRules (m.rules.put x)) m = m.withRules (m.rules.putAll rules) := by
  induction rules generalizing m with
  | nil => rfl
  | cons x xs ih => exact ih _

theorem deleteAll_withRules (m : Machine FlatTable) (rules : List SavedRule) :
    rules.foldl (fun m x => m.withRules (m.rules.delete x)) m = m.withRules (m.rules.deleteAll rules) := by
  induction rules generalizing m with
  | nil => rfl
  | cons x xs ih => exact ih _

namespace Ensures

variable {G T : Event FlatTable → Prop} {rules : List SavedRule} {m₀ : Machine FlatTable}

theorem put
    (hT : ∀ action l xs ys, action.operation = .put l → l ⊆ rules → xs <+: rules → ys <+: rules →
      T ⟨action, false, m₀.withRules (m₀.rules.putAll xs), m₀.withRules (m₀.rules.putAll ys)⟩) :
    Ensures G T (· = m₀) (Op.put rules) (fun _ m => m = m₀.withRules (m₀.rules.putAll rules))
      (fun _ m => G ⟨.failed (.put rules), false, m, m⟩ ∧
        ∃ xs, xs <+: rules ∧ m = m₀.withRules (m₀.rules.putAll xs)) := by
  have hh := batch_change (G := G) (T := T) (m := m₀) rules .put fun m x => m.withRules (m.rules.put x)
  simp only [putAll_withRules] at hh
  exact hh hT

theorem delete
    (hT : ∀ action l xs ys, action.operation = .delete l → l ⊆ rules → xs <+: rules → ys <+: rules →
      T ⟨action, false, m₀.withRules (m₀.rules.deleteAll xs), m₀.withRules (m₀.rules.deleteAll ys)⟩) :
    Ensures G T (· = m₀) (Op.delete rules) (fun _ m => m = m₀.withRules (m₀.rules.deleteAll rules))
      (fun _ m => G ⟨.failed (.delete rules), false, m, m⟩ ∧
        ∃ xs, xs <+: rules ∧ m = m₀.withRules (m₀.rules.deleteAll xs)) := by
  have hh := batch_change (G := G) (T := T) (m := m₀) rules .delete fun m x => m.withRules (m.rules.delete x)
  simp only [deleteAll_withRules] at hh
  exact hh hT

end Ensures

end HybridMount
