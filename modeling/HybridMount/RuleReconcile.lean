import HybridMount.FlatTable

/-! Reconciliation of the owned rules: delete what is obsolete, put what is
wanted, verify by reading back, and compensate record by record on a failure. -/

namespace HybridMount

def verifyPresent (current expected : List SavedRule) : Except Error Unit :=
  match expected.find? fun rule => !current.any (semanticEqual rule) with
  | some rule => .error (.ruleMissing rule.virtualPath rule.uid)
  | none => .ok ()

def validateUniqueFrom (keys : List Key) : List SavedRule → Except Error Unit
  | [] => .ok ()
  | rule :: rules =>
    if rule.key ∈ keys then .error (.ruleDuplicate rule.virtualPath rule.uid)
    else validateUniqueFrom (rule.key :: keys) rules

def validateUnique (rules : List SavedRule) : Except Error Unit := validateUniqueFrom [] rules

def remains (current expected : List SavedRule) (old : SavedRule) : Bool :=
  !expected.any (fun rule => sameKey rule old) &&
    current.any fun rule => sameKey rule old && !derivedParent rule

def verifyResult (current expected obsolete : List SavedRule) : Except Error Unit := do
  verifyPresent current expected
  match obsolete.find? (remains current expected) with
  | some old => .error (.ruleObsolete old.virtualPath old.uid)
  | none => .ok ()

/-- Generated ancestors may be global or scoped to the owned child. -/
def generatedAncestor (actual owned : SavedRule) : Bool :=
  (actual.uid == 0 || actual.uid == owned.uid) && derivedParent actual &&
    ancestor actual.virtualPath owned.virtualPath

def conflicts (actual owned : SavedRule) : Bool :=
  !generatedAncestor actual owned &&
    (actual.virtualPath == owned.virtualPath || ancestor actual.virtualPath owned.virtualPath ||
      ancestor owned.virtualPath actual.virtualPath)

def foreignRules (initial before : List SavedRule) : List SavedRule :=
  initial.filter fun actual => !before.any fun owned => sameKey owned actual

def firstConflict (foreign owned : List SavedRule) : Option (SavedRule × SavedRule) :=
  foreign.findSome? fun actual => (owned.find? (conflicts actual)).map fun rule => (rule, actual)

def validateSnapshot (initial before after : List SavedRule) : Except Error (List SavedRule) := do
  validateUnique before
  validateUnique after
  verifyPresent initial before
  match firstConflict (foreignRules initial before) (before ++ after) with
  | some (owned, actual) => .error (.ruleForeign owned.virtualPath actual.virtualPath actual.uid)
  | none => .ok (foreignRules initial before)

def obsoleteRules (before after : List SavedRule) : List SavedRule :=
  ordered (before.filter fun old => !after.any fun new => sameKey old new) true

def preserved (foreign : List SavedRule) : List SavedRule := foreign.filter fun rule => !derivedParent rule

def introducedRules (current before attempted : List SavedRule) : List SavedRule :=
  ordered (attempted.filter fun new =>
    !before.any (fun old => sameKey old new) && current.any (semanticEqual new)) true

def restoredRules (current before attempted : List SavedRule) : List SavedRule :=
  ordered (before.filter fun old =>
    !current.any (semanticEqual old) &&
      (current.filter fun actual => sameKey old actual).all fun actual =>
        derivedParent actual || attempted.any fun new => semanticEqual new actual) false

namespace Rules

open Traced

variable {τ : Type} [RuleTable τ]

def verifyOwned (before : List SavedRule) : Op τ Unit := do
  let current ← Op.list
  Prog.ofExcept (verifyPresent current before)

def preflight (before after : List SavedRule) : Op τ Unit := do
  let current ← Op.list
  let _ ← Prog.ofExcept (validateSnapshot current before after)

def deleteObsolete (obsolete : List SavedRule) : Op τ Unit :=
  if obsolete = [] then pure () else Op.delete obsolete

def verify (before after foreign : List SavedRule) : Op τ Unit := do
  let current ← Op.list
  Prog.ofExcept (verifyResult current after before)
  Prog.ofExcept (verifyPresent current (preserved foreign))

/-- Put what is wanted and verify; the flag tells whether a put was attempted. -/
def publish (before after foreign : List SavedRule) : Op τ (Bool × Except Error Unit) :=
  if ordered after false = [] then do
    return (false, ← Prog.attempt (verify before after foreign))
  else do
    return (true, ← Prog.attempt (do Op.put (ordered after false); verify before after foreign))

/-- The forward pass and its outcome, which the caller has to compensate. -/
def apply (before after foreign : List SavedRule) : Op τ (Bool × Except Error Unit) := do
  match ← Prog.attempt (deleteObsolete (obsoleteRules before after)) with
  | .error cause => return (false, .error cause)
  | .ok _ => publish before after foreign

def rollback (before attempted foreign : List SavedRule) : Op τ Unit := do
  let current ← Op.list
  Prog.tryEach (fun rule => Op.delete [rule]) (introducedRules current before attempted)
  let current ← Op.list
  Prog.tryEach (fun rule => Op.put [rule]) (restoredRules current before attempted)
  verify attempted before foreign

def recover (before attempted foreign : List SavedRule) (cause : Error) : Op τ Unit := do
  match ← Op.recovering (Prog.attempt (rollback before attempted foreign)) with
  | .ok _ => Prog.fail (.ruleRolledBack cause)
  | .error recovery => Prog.fail (.ruleRollbackIncomplete cause recovery)

def reconcile (before after : List SavedRule) : Op τ Unit := do
  let initial ← Op.list
  let foreign ← Prog.ofExcept (validateSnapshot initial before after)
  match ← apply before after foreign with
  | (_, .ok _) => return ()
  | (putAttempted, .error cause) => recover before (if putAttempted then after else []) foreign cause

end Rules

section

variable {current expected obsolete before after attempted initial foreign : List SavedRule}

theorem verifyPresent_eq_ok :
    verifyPresent current expected = .ok () ↔
    ∀ rule ∈ expected, ∃ actual ∈ current, semanticEqual rule actual = true := by
  unfold verifyPresent
  constructor
  · intro h rule hr
    cases hf : expected.find? fun rule => !current.any (semanticEqual rule) with
    | some bad => simp only [hf, reduceCtorEq] at h
    | none =>
      have hh := List.find?_eq_none.mp hf rule hr
      simpa only [Bool.not_eq_true, Bool.not_eq_false', List.any_eq_true] using hh
  · intro h
    have hf : (expected.find? fun rule => !current.any (semanticEqual rule)) = none := by
      rw [List.find?_eq_none]
      intro rule hr
      simpa only [Bool.not_eq_true, Bool.not_eq_false', List.any_eq_true] using h rule hr
    rw [hf]

theorem validateUniqueFrom_eq_ok {keys : List Key} {rules : List SavedRule} :
    validateUniqueFrom keys rules = .ok () ↔
      (rules.map SavedRule.key).Nodup ∧ ∀ rule ∈ rules, rule.key ∉ keys := by
  induction rules generalizing keys with
  | nil => simp [validateUniqueFrom]
  | cons rule rules ih =>
    by_cases hk : rule.key ∈ keys
    · simp [validateUniqueFrom, hk]
    · simp only [validateUniqueFrom, hk, if_false, ih, List.map_cons, List.nodup_cons, List.mem_map,
        List.mem_cons, not_or, not_exists, not_and]
      constructor
      · rintro ⟨hn, h⟩
        refine ⟨⟨fun x hx => (h x hx).1, hn⟩, ?_⟩
        rintro x (rfl | hx)
        · exact hk
        · exact (h x hx).2
      · rintro ⟨⟨h, hn⟩, h'⟩
        exact ⟨hn, fun x hx => ⟨h x hx, h' x (.inr hx)⟩⟩

theorem validateUnique_eq_ok {rules : List SavedRule} :
    validateUnique rules = .ok () ↔ (rules.map SavedRule.key).Nodup := by
  simp [validateUnique, validateUniqueFrom_eq_ok]

theorem remains_iff {old : SavedRule} :
    remains current expected old = true ↔
      (∀ rule ∈ expected, rule.key ≠ old.key) ∧
        ∃ rule ∈ current, rule.key = old.key ∧ derivedParent rule = false := by
  simp only [remains, Bool.and_eq_true, Bool.not_eq_true', List.any_eq_true, sameKey_iff,
    List.any_eq_false, ne_eq]

theorem verifyResult_eq_ok :
    verifyResult current expected obsolete = .ok () ↔
      (∀ rule ∈ expected, ∃ actual ∈ current, semanticEqual rule actual = true) ∧
        ∀ old ∈ obsolete, remains current expected old = false := by
  rw [← verifyPresent_eq_ok]
  unfold verifyResult
  cases hp : verifyPresent current expected with
  | error e => simp [bind, Except.bind]
  | ok u =>
    simp only [bind, Except.bind, true_and]
    cases hf : obsolete.find? (remains current expected) with
    | some old =>
      simp only [reduceCtorEq, false_iff, not_forall]
      exact ⟨old, List.mem_of_find?_eq_some hf, by simp [List.find?_some hf]⟩
    | none => simpa [List.find?_eq_none] using hf

theorem firstConflict_eq_none {owned : List SavedRule} :
    firstConflict foreign owned = none ↔
    ∀ actual ∈ foreign, ∀ rule ∈ owned, conflicts actual rule = false := by
  simp [firstConflict, List.findSome?_eq_none_iff]

theorem validateSnapshot_eq_ok :
    validateSnapshot initial before after = .ok foreign ↔
      (before.map SavedRule.key).Nodup ∧ (after.map SavedRule.key).Nodup ∧
        (∀ rule ∈ before, ∃ actual ∈ initial, semanticEqual rule actual = true) ∧
        foreign = foreignRules initial before ∧
        ∀ actual ∈ foreign, ∀ rule ∈ before ++ after, conflicts actual rule = false := by
  rw [← validateUnique_eq_ok, ← validateUnique_eq_ok, ← verifyPresent_eq_ok]
  unfold validateSnapshot
  cases hb : validateUnique before with
  | error e => simp [bind, Except.bind]
  | ok u =>
    cases ha : validateUnique after with
    | error e => simp [bind, Except.bind]
    | ok u =>
      cases hp : verifyPresent initial before with
      | error e => simp [bind, Except.bind]
      | ok u =>
        simp only [bind, Except.bind, true_and]
        cases hf : firstConflict (foreignRules initial before) (before ++ after) with
        | none =>
          have hh := firstConflict_eq_none.mp hf
          constructor
          · intro h
            cases h
            exact ⟨rfl, hh⟩
          · rintro ⟨rfl, -⟩
            rfl
        | some pair =>
          constructor
          · intro h
            cases h
          · rintro ⟨rfl, hc⟩
            rw [firstConflict_eq_none.mpr hc] at hf
            cases hf

theorem mem_foreignRules {rule : SavedRule} :
    rule ∈ foreignRules initial before ↔ rule ∈ initial ∧ ∀ owned ∈ before, owned.key ≠ rule.key := by
  simp only [foreignRules, List.mem_filter, Bool.not_eq_true', List.any_eq_false, sameKey_iff, ne_eq]

theorem mem_preserved {rule : SavedRule} :
    rule ∈ preserved foreign ↔ rule ∈ foreign ∧ derivedParent rule = false := by
  simp only [preserved, List.mem_filter, Bool.not_eq_true']

theorem mem_obsoleteRules {rule : SavedRule} :
    rule ∈ obsoleteRules before after ↔ rule ∈ before ∧ ∀ new ∈ after, rule.key ≠ new.key := by
  simp only [obsoleteRules, mem_ordered, List.mem_filter, Bool.not_eq_true', List.any_eq_false,
    sameKey_iff, ne_eq]

theorem mem_introducedRules {rule : SavedRule} :
    rule ∈ introducedRules current before attempted ↔ rule ∈ attempted ∧
      (∀ old ∈ before, old.key ≠ rule.key) ∧ ∃ actual ∈ current, semanticEqual rule actual = true := by
  simp only [introducedRules, mem_ordered, List.mem_filter, Bool.and_eq_true, Bool.not_eq_true',
    List.any_eq_false, List.any_eq_true, sameKey_iff, ne_eq]

theorem mem_restoredRules {rule : SavedRule} :
    rule ∈ restoredRules current before attempted ↔ rule ∈ before ∧
      (∀ actual ∈ current, semanticEqual rule actual = false) ∧
      ∀ actual ∈ current, rule.key = actual.key →
        derivedParent actual = true ∨ ∃ new ∈ attempted, semanticEqual new actual = true := by
  simp only [restoredRules, mem_ordered, List.mem_filter, Bool.and_eq_true, Bool.not_eq_true',
    List.any_eq_false, List.all_eq_true, Bool.or_eq_true, List.any_eq_true, sameKey_iff, and_imp,
    Bool.not_eq_true]

theorem keys_nodup_ordered {rules : List SavedRule} {deepestFirst : Bool}
    (h : (rules.map SavedRule.key).Nodup) : ((ordered rules deepestFirst).map SavedRule.key).Nodup :=
  ((ordered_perm rules deepestFirst).map _).nodup_iff.mpr h

/-- A foreign rule never shares the key of an owned one. -/
theorem key_ne_of_accepted (h : validateSnapshot initial before after = .ok foreign) {actual rule : SavedRule}
    (ha : actual ∈ foreign) (hr : rule ∈ before ++ after) : actual.key ≠ rule.key := by
  intro hk
  have hc := (validateSnapshot_eq_ok.mp h).2.2.2.2 actual ha rule hr
  have hp : actual.virtualPath = rule.virtualPath := congrArg Prod.fst hk
  simp [conflicts, generatedAncestor, ancestor, hp] at hc

end

end HybridMount
