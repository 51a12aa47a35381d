import HybridMount.RuleAtomicity

/-! The hot transaction: persist the intent, isolate the uids, reconcile the
rules, and undo in the reverse order what a failure leaves behind. -/

namespace HybridMount

def verifyUids (actual expected : List UInt32) : Except Error Unit :=
  match expected.find? fun uid => !actual.contains uid with
  | some uid => .error (.uidMissing uid)
  | none => .ok ()

namespace Transaction

open Traced

def introducedUids (original requested : List UInt32) : List UInt32 :=
  sortedSet (requested.filter fun uid => !original.contains uid)

def desiredRules (saved : Ledger) (before after : List SavedRule) : List SavedRule :=
  (saved.rules.filter fun rule => !before.any fun old => old.moduleId == rule.moduleId) ++ after

/-- The ledger which is persisted before anything is changed. -/
def intent (saved : Ledger) (before after : List SavedRule) (introduced : List UInt32) : Ledger :=
  { saved with
    phase := .applying
    pendingRules := desiredRules saved before after
    isolatedUids := sortedSet (saved.isolatedUids ++ introduced)
    error := none }

/-- The new rules beyond the old ones are all gone. -/
def retired (actual before after : List SavedRule) : Bool :=
  (after.filter fun new => !before.any fun old => sameKey old new).all fun new =>
    !actual.any fun rule => sameKey rule new && !derivedParent rule

def concluded (saved marked : Ledger) (err : Error) (recovered : Bool) : Ledger :=
  if recovered then
    { marked with
      phase := .ready
      error := some err.message
      pendingRules := []
      isolatedUids := saved.isolatedUids }
  else { marked with phase := .error, error := some err.message }

variable {τ : Type}

def confirmUids (expected : List UInt32) : Op τ Unit := do
  let actual ← Op.uids
  Prog.ofExcept (verifyUids actual expected)

def isolate (introduced : List UInt32) : Op τ Unit :=
  if introduced = [] then pure () else Op.addUids introduced

def uidsRecovered (original introduced : List UInt32) : Op τ Bool := do
  match ← Prog.attempt Op.uids with
  | .error _ => return false
  | .ok actual =>
    return original.all (fun uid => actual.contains uid) && introduced.all fun uid => !actual.contains uid

def releaseUids (introduced : List UInt32) : Op τ Unit :=
  Prog.tryEach (fun uid => Op.removeUids [uid]) introduced

variable [RuleTable τ]

/-- Whether the rules were applied, and the outcome. -/
def install (before after : List SavedRule) (introduced expected : List UInt32) :
    Op τ (Bool × Except Error Unit) := do
  match ← Prog.attempt (do isolate introduced; confirmUids expected; Rules.reconcile before after) with
  | .error err => return (false, .error err)
  | .ok _ => return (true, ← Prog.attempt (confirmUids expected))

/-- A final isolation readback can fail after the rules committed. -/
def retract (rulesApplied : Bool) (before after : List SavedRule) : Op τ Unit :=
  if rulesApplied then do
    let _ ← Prog.attempt (Rules.reconcile after before)
  else pure ()

def rulesRecovered (owned before after : List SavedRule) : Op τ Bool := do
  match ← Prog.attempt (Rules.verifyOwned owned) with
  | .error _ => return false
  | .ok _ =>
    match ← Prog.attempt Op.list with
    | .error _ => return false
    | .ok actual => return retired actual before after

def compensate (owned before after : List SavedRule) (original introduced : List UInt32)
    (rulesApplied : Bool) : Op τ Bool := do
  retract rulesApplied before after
  match ← rulesRecovered owned before after with
  | true =>
    releaseUids introduced
    uidsRecovered original introduced
  | false => return false

def conclude (saved marked : Ledger) (cause : Error) (recovered : Bool) : Op τ Ledger := do
  let err := if recovered then .hotRolledBack cause else .hotRollbackIncomplete cause
  Op.persist (concluded saved marked err recovered)
  Prog.fail err

def execute (saved : Ledger) (before after : List SavedRule) (original introduced : List UInt32) :
    Op τ Ledger := do
  let marked := intent saved before after introduced
  match ← install before after introduced (original ++ introduced) with
  | (_, .ok _) => return { marked with rules := desiredRules saved before after, pendingRules := [] }
  | (rulesApplied, .error cause) =>
    let recovered ← Op.recovering (compensate saved.rules before after original introduced rulesApplied)
    conclude saved marked cause recovered

/-- The updated ledger is returned on success only, as its callers drop it on an error. -/
def reconcile (saved : Ledger) (before after : List SavedRule) (requested : List UInt32) :
    Op τ Ledger := do
  Rules.preflight before after
  let original ← Op.uids
  Prog.ofExcept (verifyUids original saved.isolatedUids)
  let introduced := introducedUids original requested
  Op.persist (intent saved before after introduced)
  execute saved before after original introduced

end Transaction

theorem verifyUids_eq_ok {actual expected : List UInt32} :
    verifyUids actual expected = .ok () ↔ expected ⊆ actual := by
  unfold verifyUids
  cases hf : expected.find? fun uid => !actual.contains uid with
  | some uid =>
    have hm := List.mem_of_find?_eq_some hf
    have hn := List.find?_some hf
    simp only [reduceCtorEq, false_iff]
    intro hsub
    simp [hsub hm] at hn
  | none =>
    refine iff_of_true rfl fun uid hu => ?_
    simpa using List.find?_eq_none.mp hf uid hu

namespace Transaction

variable {saved : Ledger} {before after : List SavedRule} {requested introduced : List UInt32}

theorem mem_introducedUids {original : List UInt32} {uid : UInt32} :
    uid ∈ introducedUids original requested ↔ uid ∈ requested ∧ uid ∉ original := by
  simp [introducedUids]

theorem retired_iff {actual : List SavedRule} :
    retired actual before after = true ↔ ∀ new ∈ after, (∀ old ∈ before, old.key ≠ new.key) →
      ∀ rule ∈ actual, rule.key = new.key → derivedParent rule = true := by
  simp only [retired, List.all_eq_true, List.mem_filter, Bool.not_eq_true', List.any_eq_false, sameKey_iff,
    Bool.and_eq_true, not_and, Bool.not_eq_false, and_imp, ne_eq]

end Transaction

end HybridMount
