import HybridMount.Machine

/-! Exact mount ownership: which mounts a boot records as its own, and the checks
which a recorded set has to pass before any of it is detached. -/

namespace HybridMount

def sameIdentity (left right : OwnedMount) : Bool :=
  left.id == right.id && left.target == right.target && left.device == right.device &&
    left.fsType == right.fsType && left.source == right.source

/-- The record of a new mount, with the baseline mounts at the same path. -/
def recordMount (baseline : List OwnedMount) (entry : OwnedMount) : OwnedMount :=
  { entry with baselineIds := (baseline.filter fun old => old.target == entry.target).map OwnedMount.id }

def captureSnapshot (targets : List String) (baseline : List OwnedMount) :
    List OwnedMount → Except Error (List OwnedMount)
  | [] => .ok []
  | entry :: rest =>
    if targets.contains entry.target then
      match baseline.find? fun old => old.id == entry.id with
      | some previous =>
        if sameIdentity previous entry then captureSnapshot targets baseline rest
        else .error (.mountOwnership entry.target "baseline mount identity changed during capture")
      | none => do
        let captured ← captureSnapshot targets baseline rest
        return recordMount baseline entry :: captured
    else captureSnapshot targets baseline rest

def validateLiveFrom (ids : List Int) : List OwnedMount → Except Error Unit
  | [] => .ok ()
  | entry :: rest =>
    if entry.id ∈ ids then .error (.mountOwnership entry.target "duplicate live mount ID")
    else validateLiveFrom (entry.id :: ids) rest

def validateOwnedFrom (ids : List Int) (current : List OwnedMount) : List OwnedMount → Except Error Unit
  | [] => .ok ()
  | expected :: rest =>
    if Path.isAbsolute expected.target = false ∨ expected.id ≤ 0 ∨ expected.id ∈ ids ∨
        expected.id ∈ expected.baselineIds then
      .error (.mountOwnership expected.target "invalid saved mount identity")
    else if current.any fun actual => actual.id == expected.id && !sameIdentity expected actual then
      .error (.mountOwnership expected.target "owned mount identity changed")
    else validateOwnedFrom (expected.id :: ids) current rest

def ownedIds (owned : List OwnedMount) : List Int := owned.map OwnedMount.id

/-- A mount at an owned path which is neither owned nor older than the owned one. -/
def replaces (owned : List OwnedMount) (expected actual : OwnedMount) : Bool :=
  actual.target == expected.target && !(ownedIds owned).contains actual.id &&
    !expected.baselineIds.contains actual.id

/-- A mount below an owned path which is not owned. -/
def blocks (owned : List OwnedMount) (expected actual : OwnedMount) : Bool :=
  actual.target != expected.target && Path.startsWith actual.target expected.target &&
    !(ownedIds owned).contains actual.id

def liveOwned (owned current : List OwnedMount) : List OwnedMount :=
  owned.filter fun entry => current.any fun actual => actual.id == entry.id

def deepestFirst (mounts : List OwnedMount) : List OwnedMount :=
  mounts.insertionSort fun left right => (deepestFirstOrder left.target right.target).isLE

namespace Mounts

def preflight (owned current : List OwnedMount) : Except Error (List OwnedMount) := do
  validateLiveFrom [] current
  validateOwnedFrom [] current owned
  match owned.find? fun expected => current.any (replaces owned expected) with
  | some expected =>
    .error (.mountOwnership expected.target "foreign or replacement mount at owned target")
  | none =>
    match (liveOwned owned current).findSome? fun expected => current.find? (blocks owned expected) with
    | some actual =>
      .error (.mountOwnership actual.target "foreign descendant blocks owned mount cleanup")
    | none => .ok (deepestFirst (liveOwned owned current))

/-- What the checks establish about the owned and the live mounts. -/
structure Cleared (owned current : List OwnedMount) : Prop where
  unique : (ownedIds current).Nodup
  distinct : (ownedIds owned).Nodup
  valid : ∀ expected ∈ owned, Path.isAbsolute expected.target = true ∧ 0 < expected.id ∧
    expected.id ∉ expected.baselineIds
  identity : ∀ expected ∈ owned, ∀ actual ∈ current, actual.id = expected.id →
    sameIdentity expected actual = true
  exact : ∀ expected ∈ owned, ∀ actual ∈ current, replaces owned expected actual = false
  clear : ∀ expected ∈ liveOwned owned current, ∀ actual ∈ current, blocks owned expected actual = false

end Mounts

section

variable {owned current baseline : List OwnedMount} {targets : List String}

theorem sameIdentity_iff {left right : OwnedMount} :
    sameIdentity left right = true ↔ left.id = right.id ∧ left.target = right.target ∧
      left.device = right.device ∧ left.fsType = right.fsType ∧ left.source = right.source := by
  simp only [sameIdentity, Bool.and_eq_true, beq_iff_eq, and_assoc]

theorem validateLiveFrom_eq_ok {ids : List Int} :
    validateLiveFrom ids current = .ok () ↔ (ownedIds current).Nodup ∧ ∀ entry ∈ current, entry.id ∉ ids := by
  induction current generalizing ids with
  | nil => simp [validateLiveFrom, ownedIds]
  | cons entry rest ih =>
    by_cases hmem : entry.id ∈ ids
    · simp [validateLiveFrom, hmem]
    · simp only [validateLiveFrom, hmem, if_false, ih, ownedIds, List.map_cons, List.nodup_cons, List.mem_map,
        List.mem_cons, not_or, not_exists, not_and]
      constructor
      · rintro ⟨hn, h⟩
        refine ⟨⟨fun x hx => (h x hx).1, hn⟩, ?_⟩
        rintro x (rfl | hx)
        · exact hmem
        · exact (h x hx).2
      · rintro ⟨⟨h, hn⟩, h'⟩
        exact ⟨hn, fun x hx => ⟨h x hx, h' x (.inr hx)⟩⟩

theorem validateOwnedFrom_eq_ok {ids : List Int} :
    validateOwnedFrom ids current owned = .ok () ↔ (ownedIds owned).Nodup ∧
      (∀ expected ∈ owned, (Path.isAbsolute expected.target = true ∧ 0 < expected.id ∧
        expected.id ∉ expected.baselineIds) ∧ expected.id ∉ ids ∧
        ∀ actual ∈ current, actual.id = expected.id → sameIdentity expected actual = true) := by
  induction owned generalizing ids with
  | nil => simp [validateOwnedFrom, ownedIds]
  | cons entry rest ih =>
    by_cases hbad : Path.isAbsolute entry.target = false ∨ entry.id ≤ 0 ∨ entry.id ∈ ids ∨
        entry.id ∈ entry.baselineIds
    · simp only [validateOwnedFrom, hbad, if_true, reduceCtorEq, false_iff, not_and]
      intro _ hall
      obtain ⟨⟨habs, hpos, hbase⟩, hids, -⟩ := hall entry List.mem_cons_self
      rcases hbad with h | h | h | h
      · rw [h] at habs
        cases habs
      · omega
      · exact hids h
      · exact hbase h
    · have hgood : Path.isAbsolute entry.target = true ∧ 0 < entry.id ∧ entry.id ∉ ids ∧
          entry.id ∉ entry.baselineIds := by
        simpa only [not_or, Bool.not_eq_false, Int.not_le] using hbad
      obtain ⟨habs, hpos, hids, hbase⟩ := hgood
      simp only [validateOwnedFrom, hbad, if_false]
      by_cases hchanged : current.any fun actual => actual.id == entry.id && !sameIdentity entry actual
      · simp only [hchanged, if_true, reduceCtorEq, false_iff, not_and]
        intro _ hall
        obtain ⟨actual, hactual, hdiff⟩ := List.any_eq_true.mp hchanged
        rw [Bool.and_eq_true, beq_iff_eq] at hdiff
        rw [(hall entry List.mem_cons_self).2.2 actual hactual hdiff.1] at hdiff
        exact absurd hdiff.2 Bool.false_ne_true
      · have hsame : ∀ actual ∈ current, actual.id = entry.id → sameIdentity entry actual = true := by
          intro actual hactual hid
          by_contra hno
          rw [Bool.not_eq_true] at hno
          exact hchanged (List.any_eq_true.mpr ⟨actual, hactual, by simp [hid, hno]⟩)
        rw [if_neg hchanged, ih]
        constructor
        · rintro ⟨hn, h⟩
          refine ⟨List.nodup_cons.mpr ⟨fun hin => ?_, hn⟩, ?_⟩
          · obtain ⟨x, hx, hid⟩ := List.mem_map.mp hin
            exact (h x hx).2.1 (by rw [hid]; exact List.mem_cons_self)
          · intro x hx
            rcases List.mem_cons.mp hx with rfl | hx
            · exact ⟨⟨habs, hpos, hbase⟩, hids, hsame⟩
            · exact ⟨(h x hx).1, fun hin => (h x hx).2.1 (List.mem_cons_of_mem _ hin), (h x hx).2.2⟩
        · rintro ⟨hn, h⟩
          obtain ⟨hnot, hn'⟩ := List.nodup_cons.mp hn
          refine ⟨hn', fun x hx => ?_⟩
          obtain ⟨hv, hids', hid⟩ := h x (List.mem_cons_of_mem _ hx)
          refine ⟨hv, fun hin => ?_, hid⟩
          rcases List.mem_cons.mp hin with heq | hin
          · exact hnot (heq ▸ List.mem_map_of_mem hx)
          · exact hids' hin

theorem Mounts.preflight_eq_ok {active : List OwnedMount} :
    preflight owned current = .ok active ↔
      Cleared owned current ∧ active = deepestFirst (liveOwned owned current) := by
  have hlive := @validateLiveFrom_eq_ok current []
  have howned := @validateOwnedFrom_eq_ok owned current []
  unfold preflight
  cases hl : validateLiveFrom [] current with
  | error e =>
    simp only [bind, Except.bind, reduceCtorEq, false_iff, not_and]
    intro hc
    have hh := hlive.mpr ⟨hc.unique, fun _ _ => List.not_mem_nil⟩
    rw [hl] at hh
    cases hh
  | ok u =>
    cases ho : validateOwnedFrom [] current owned with
    | error e =>
      simp only [bind, Except.bind, reduceCtorEq, false_iff, not_and]
      intro hc
      have hh := howned.mpr ⟨hc.distinct, fun x hx => ⟨hc.valid x hx, List.not_mem_nil, hc.identity x hx⟩⟩
      rw [ho] at hh
      cases hh
    | ok u =>
      simp only [bind, Except.bind]
      cases hr : owned.find? fun expected => current.any (replaces owned expected) with
      | some expected =>
        simp only [reduceCtorEq, false_iff, not_and]
        intro hc
        have hany := List.find?_some (p := fun expected => current.any (replaces owned expected)) hr
        obtain ⟨actual, hactual, hrep⟩ := List.any_eq_true.mp hany
        rw [hc.exact expected (List.mem_of_find?_eq_some hr) actual hactual] at hrep
        cases hrep
      | none =>
        have hexact : ∀ expected ∈ owned, ∀ actual ∈ current, replaces owned expected actual = false := by
          simpa using hr
        cases hb : (liveOwned owned current).findSome? fun expected =>
          current.find? (blocks owned expected) with
        | some actual =>
          simp only [reduceCtorEq, false_iff, not_and]
          intro hc
          obtain ⟨expected, hexpected, hfind⟩ := List.exists_of_findSome?_eq_some hb
          have hblock := List.find?_some hfind
          rw [hc.clear expected hexpected actual (List.mem_of_find?_eq_some hfind)] at hblock
          cases hblock
        | none =>
          have hclear : ∀ expected ∈ liveOwned owned current, ∀ actual ∈ current,
              blocks owned expected actual = false := by
            simpa using hb
          obtain ⟨hn, hall⟩ := howned.mp ho
          have hc : Cleared owned current :=
            ⟨(hlive.mp hl).1, hn, fun x hx => (hall x hx).1, fun x hx => (hall x hx).2.2, hexact, hclear⟩
          simp only [Except.ok.injEq, hc, true_and]
          exact eq_comm

@[simp] theorem mem_liveOwned {entry : OwnedMount} :
    entry ∈ liveOwned owned current ↔ entry ∈ owned ∧ ∃ actual ∈ current, actual.id = entry.id := by
  simp only [liveOwned, List.mem_filter, List.any_eq_true, beq_iff_eq]

@[simp] theorem mem_deepestFirst {mounts : List OwnedMount} {entry : OwnedMount} :
    entry ∈ deepestFirst mounts ↔ entry ∈ mounts := List.mem_insertionSort _

theorem replaces_eq_false {expected actual : OwnedMount} :
    replaces owned expected actual = false ↔
      (actual.target = expected.target → actual.id ∈ ownedIds owned ∨ actual.id ∈ expected.baselineIds) := by
  simp only [replaces, Bool.and_eq_false_iff, beq_eq_false_iff_ne, ne_eq, Bool.not_eq_false',
    List.contains_iff_mem, or_assoc]
  tauto

theorem blocks_eq_false {expected actual : OwnedMount} :
    blocks owned expected actual = false ↔
      (actual.target ≠ expected.target → Path.startsWith actual.target expected.target = true →
        actual.id ∈ ownedIds owned) := by
  rw [← Bool.not_eq_true, blocks, Bool.and_eq_true, Bool.and_eq_true, bne_iff_ne, Bool.not_eq_true',
    ← Bool.not_eq_true, List.contains_iff_mem]
  tauto

end

end HybridMount
