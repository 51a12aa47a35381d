import HybridMount.ModuleLoad

/-! A kernel object whose load ended the kernel is not loaded again as long as the package ships it,
whatever the later boots do, and a package without it is tried at once. -/

namespace HybridMount.ModuleLoad

open BootGuard (BootId GuardIdentity GuardRecord)
open LittleEndian Traced

section Marker

variable (build : Build) (bootId : Option BootId) (candidate : Candidate)

theorem identity_wellFormed : (build.identity candidate.object).WellFormed :=
  ⟨build.wellFormed.version, build.wellFormed.binary, candidate.carried⟩

theorem fieldText_terminated {key value : String} (hkey : BootGuard.Label key)
    (hvalue : BootGuard.Plain value) :
    '\n' ∉ BootGuard.fieldText key value ∧ (BootGuard.fieldText key value).getLast? ≠ some '\r' := by
  obtain ⟨last, hlast, hspace⟩ := BootGuard.fieldText_last key hvalue
  refine ⟨fun hmem => ?_, fun hreturn => ?_⟩
  · rcases List.mem_append.mp hmem with hold | hrest
    · exact hkey.single hold
    · rcases List.mem_cons.mp hrest with heq | hold
      · exact absurd heq (by decide)
      · exact hvalue.single hold
  · rw [hlast] at hreturn
    cases hreturn
    exact absurd hspace (by decide)

theorem label_lkm : BootGuard.Label "lkm" := ⟨by decide, by decide, by decide, 'l', "km".toList, rfl, rfl⟩

/-- The lines of the marker: the fields of the build, the candidate, and an empty one. -/
theorem lines_attempt : Text.lines (attemptPayload build bootId candidate ++ "\n").toList =
    BootGuard.fieldTexts (BootGuard.payloadFields .module (build.identity candidate.object) bootId) ++
      [BootGuard.fieldText "lkm" candidate.path, []] := by
  have htext : (attemptPayload build bootId candidate ++ "\n").toList =
      (BootGuard.fieldTexts (BootGuard.payloadFields .module (build.identity candidate.object) bootId) ++
        [BootGuard.fieldText "lkm" candidate.path, []]).flatMap (· ++ ['\n']) := by
    simp only [attemptPayload, String.toList_append, BootGuard.markerPayload_toList, List.flatMap_append,
      List.flatMap_cons,
      List.flatMap_nil, List.append_nil, List.append_assoc, BootGuard.fieldText]
    rfl
  rw [htext]
  refine Text.lines_terminated fun part hpart => ?_
  rcases List.mem_append.mp hpart with hfield | hlast
  · obtain ⟨field, hmem, hsome⟩ := List.mem_filterMap.mp hfield
    obtain ⟨value, hvalue, rfl⟩ := Option.map_eq_some_iff.mp hsome
    have hplain := BootGuard.payloadFields_plain .module bootId (identity_wellFormed build candidate) hmem
      value hvalue
    exact fieldText_terminated (BootGuard.Label.of_payload hmem) hplain
  · rcases List.mem_cons.mp hlast with rfl | hempty
    · exact fieldText_terminated label_lkm candidate.plain
    · rw [List.mem_singleton.mp hempty]
      exact ⟨List.not_mem_nil, by simp⟩

theorem parse_attempt : GuardRecord.parse (attemptPayload build bootId candidate ++ "\n") =
    some (BootGuard.payloadRecord .module bootId (build.identity candidate.object)) := by
  have hwf := identity_wellFormed build candidate
  have hfields := BootGuard.foldl_fieldTexts {} fun field hf =>
    ⟨BootGuard.Label.of_payload hf, BootGuard.payloadFields_plain .module bootId hwf hf⟩
  have hpath : ∀ record : GuardRecord, record.parseLine (BootGuard.fieldText "lkm" candidate.path) = record := by
    intro record
    have hset : record.set "lkm" candidate.path = record := by simp [GuardRecord.set]
    rw [BootGuard.parseLine_fieldText record label_lkm candidate.plain, hset, ite_self]
  have hempty : ∀ record : GuardRecord, record.parseLine [] = record := fun _ => rfl
  have hne : BootGuard.payloadRecord .module bootId (build.identity candidate.object) ≠ {} := fun hh => by
    have hversion := congrArg GuardRecord.version hh
    cases hversion
  unfold GuardRecord.parse
  simp only [lines_attempt, List.foldl_append, List.foldl_cons, List.foldl_nil, hfields, hpath, hempty,
    BootGuard.foldl_setField .module bootId hwf, if_neg hne]

/-- The build takes the marker of an attempt for its own, whatever the object of the attempt was. -/
theorem inspectAt_attempt :
    BootGuard.inspectAt (some (markerBytes build bootId candidate)) (build.identity none) =
    .own (BootGuard.payloadRecord .module bootId (build.identity candidate.object)) := by
  have hmatch : (BootGuard.payloadRecord .module bootId (build.identity candidate.object)).matchesIdentity
      (build.identity none) = true := by
    have hbinary := BootGuard.agrees_self build.binary
    have hobject : GuardRecord.agrees candidate.object none = true := rfl
    simp only [GuardRecord.matchesIdentity, BootGuard.payloadRecord, Build.identity, beq_self_eq_true,
      hbinary, hobject, Bool.and_self]
  simp only [BootGuard.inspectAt, markerBytes, fromUtf8Lossy_utf8, parse_attempt, hmatch, if_true]

end Marker

/-- The marker on disk names an attempt on the candidate. -/
structure Blamed (build : Build) (candidate : Candidate) (m : Machine) : Prop where
  marker : ∃ bootId, m.marker = some (markerBytes build bootId candidate)
  settled : m.settled = true

/-- A loader runs on a candidate only under the marker which names it. -/
def Told (build : Build) (e : Event) : Prop :=
  ∀ candidate, e.inserted = some candidate → Blamed build candidate e.pre ∧ Blamed build candidate e.post

/-- What does not depend on the calls which were made. -/
def Steady (P : Machine → Prop) : Prop := ∀ s, P s → P { s with calls := s.calls + 1 }

variable {answers answers' : Nat → Answer} {build : Build} {candidate : Candidate} {G T : Event → Prop}
  {P : Machine → Prop}
  {E : String → Machine → Prop} {m m' m₁ m₂ : Machine} {payload : Bytes}

theorem steady_blamed : Steady (Blamed build candidate) := fun _ h => ⟨h.marker, h.settled⟩

theorem steady_any : Steady (fun _ => True) := fun _ _ => trivial

theorem ask_keeps (hp : Steady P) : Sat G T P (ask answers) (fun _ => P) E :=
  fun s hs _ => ⟨fun _ he => absurd he List.not_mem_nil, hp s hs⟩

theorem check_keeps (hp : Steady P) (operation : String) :
    Sat G T P (check answers operation) (fun _ => P) (fun _ => P) := by
  unfold check
  refine Sat.bind (ask_keeps hp) fun answer => ?_
  cases answer.failure with
  | some text => exact Sat.fail fun _ h => h
  | none => exact Sat.pure fun _ h => h

theorem refuseForeignNomount_keeps (hp : Steady P) :
    Sat G T P (refuseForeignNomount answers) (fun _ => P) (fun _ => P) := by
  unfold refuseForeignNomount
  refine Sat.bind (ask_keeps hp) fun nomount => ?_
  cases nomount.failure with
  | some text => exact Sat.fail fun _ h => h
  | none =>
    cases nomount.yes with
    | true => exact Sat.fail fun _ h => h
    | false => exact Sat.pure fun _ h => h

theorem told_quiet (s s' : Machine) : Told build ⟨none, s, s'⟩ := by
  intro c hc
  cases hc

section Told

variable (build) in
theorem setMarker_told (marker : Option Bytes) (settled : Bool) :
    Sat G (Told build) (fun _ => True) (setMarker marker settled) (fun _ _ => True) E :=
  Sat.update fun _ _ _ => ⟨told_quiet _ _, trivial⟩

variable (build) in
theorem removeMarker_told :
    Sat G (Told build) (fun _ => True) (removeMarker answers) (fun _ _ => True) E := by
  unfold removeMarker
  refine Sat.bind (setMarker_told build none false) fun _ => ?_
  refine Sat.bind (ask_keeps steady_any) fun synced => ?_
  cases synced.failure.isSome with
  | true => exact Sat.pure fun _ _ => trivial
  | false => exact Sat.update fun _ _ _ => ⟨told_quiet _ _, trivial⟩

variable (build) in
theorem dropGuard_told : Sat G (Told build) (fun _ => True) (dropGuard answers) (fun _ _ => True) E := by
  unfold dropGuard
  refine Sat.bind (ask_keeps steady_any) fun removed => ?_
  cases removed.failure.isSome with
  | true => exact Sat.pure fun _ _ => trivial
  | false => exact removeMarker_told build

variable (build) in
theorem withdraw_told (text : String) :
    Sat G (Told build) (fun _ => True) (dropGuard answers >>= fun _ => (Prog.fail text : Op Unit))
      (fun _ s => s.marker = some payload ∧ s.settled = true) (fun _ _ => True) :=
  Sat.bind (dropGuard_told build) fun _ => Sat.fail fun _ _ => trivial

variable (build) in
/-- Once the guard is armed, the marker is on disk. -/
theorem fillMarker_told : Sat G (Told build) (fun _ => True) (fillMarker answers payload)
    (fun _ s => s.marker = some payload ∧ s.settled = true) (fun _ _ => True) := by
  have hsteady : Steady (fun s => s.marker = some payload) := fun _ h => h
  unfold fillMarker
  refine Sat.bind (ask_keeps steady_any) fun written => ?_
  cases written.failure with
  | some text => exact Sat.bind (setMarker_told build _ false) fun _ => withdraw_told build _
  | none =>
    refine Sat.bind (Q := fun _ s => s.marker = some payload) (Sat.update fun _ _ _ => ⟨told_quiet _ _, rfl⟩)
      fun _ => ?_
    refine Sat.bind (ask_keeps hsteady) fun synced => ?_
    cases synced.failure with
    | some text => exact (withdraw_told build _).strengthen fun _ _ => trivial
    | none =>
      refine Sat.bind (ask_keeps hsteady) fun parent => ?_
      cases parent.failure with
      | some text => exact (withdraw_told build _).strengthen fun _ _ => trivial
      | none => exact Sat.update fun _ hs _ => ⟨told_quiet _ _, hs, rfl⟩

variable (build) in
theorem arm_told : Sat G (Told build) (fun _ => True) (arm answers payload)
    (fun _ s => s.marker = some payload ∧ s.settled = true) (fun _ _ => True) := by
  unfold arm
  refine Sat.bind (check_keeps steady_any _) fun _ => ?_
  refine Sat.bind (check_keeps steady_any _) fun _ => ?_
  refine Sat.bind (ask_keeps steady_any) fun opened => ?_
  refine Sat.bind (Sat.get (Q := fun _ _ => True) fun _ _ => trivial) fun s => ?_
  cases s.marker.isSome with
  | true => exact Sat.fail fun _ _ => trivial
  | false =>
    cases opened.failure with
    | some text => exact Sat.fail fun _ _ => trivial
    | none => exact Sat.bind (setMarker_told build _ false) fun _ => fillMarker_told build

theorem loadWithCandidates_told (programs : List String) (attempts : List InsmodAttempt) :
    Sat G (Told build) (Blamed build candidate) (loadWithCandidates answers candidate programs attempts)
      (fun _ => Blamed build candidate) (fun _ => Blamed build candidate) := by
  induction programs generalizing attempts with
  | nil => exact Sat.pure fun _ h => h
  | cons program rest ih =>
    unfold loadWithCandidates
    refine Sat.bind (Q := fun _ => Blamed build candidate) (Sat.update fun s hs _ => ⟨fun c hc => ?_, hs⟩)
      fun _ => ?_
    · cases hc
      exact ⟨hs, hs⟩
    · refine Sat.bind (ask_keeps steady_blamed) fun outcome => ?_
      cases outcome.failure with
      | some text => exact ih _
      | none =>
        refine Sat.bind (ask_keeps steady_blamed) fun accepted => ?_
        cases accepted.yes with
        | true => exact Sat.pure fun _ h => h
        | false => exact ih _

theorem unloadFailed_told : Sat G (Told build) (Blamed build candidate) (unloadFailed answers)
      (fun _ => Blamed build candidate) E := by
  unfold unloadFailed
  refine Sat.bind (ask_keeps steady_blamed) fun left => ?_
  split
  · exact Sat.update fun _ hs _ => ⟨told_quiet _ _, hs⟩
  · exact Sat.pure fun _ h => h

theorem tryCandidate_told (failures : List String) :
    Sat G (Told build) (Blamed build candidate) (tryCandidate answers candidate failures)
      (fun _ => Blamed build candidate) (fun _ => Blamed build candidate) := by
  unfold tryCandidate
  refine Sat.bind (loadWithCandidates_told _ _) fun loaded => ?_
  cases loaded with
  | none => exact Sat.pure fun _ h => h
  | some attempts =>
    refine Sat.bind unloadFailed_told fun _ => ?_
    refine Sat.bind (refuseForeignNomount_keeps steady_blamed) fun _ => ?_
    refine Sat.bind (ask_keeps steady_blamed) fun now => ?_
    cases ensureProviderAbsent now.presence with
    | error text => exact Sat.fail fun _ h => h
    | ok _ => exact Sat.pure fun _ h => h

theorem tryCandidates_told (candidates : List Candidate) (failures : List String) :
    Sat G (Told build) (fun _ => True) (tryCandidates answers build candidates failures) (fun _ _ => True)
      (fun _ _ => True) := by
  induction candidates generalizing failures with
  | nil => exact Sat.fail fun _ _ => trivial
  | cons candidate rest ih =>
    unfold tryCandidates
    refine Sat.bind (ask_keeps steady_any) fun boot => ?_
    refine Sat.bind (arm_told build) fun _ => ?_
    refine Sat.bind (Q := fun _ _ => True) ?_ fun outcome => ?_
    · refine Sat.attempt (((tryCandidate_told failures).strengthen fun _ hs => ⟨⟨_, hs.1⟩, hs.2⟩).weaken ?_ ?_)
      · exact fun _ _ _ => trivial
      · exact fun _ _ _ => trivial
    · refine Sat.bind (dropGuard_told build) fun _ => ?_
      rcases outcome with text | (_ | failures)
      · exact Sat.fail fun _ _ => trivial
      · exact Sat.pure fun _ _ => trivial
      · exact ih failures

theorem clearAt_told :
    Sat G (Told build) (fun _ => True) (clearAt answers) (fun _ _ => True) (fun _ _ => True) := by
  unfold clearAt
  refine Sat.bind (ask_keeps steady_any) fun removed => ?_
  cases removed.failure with
  | some text => exact Sat.fail fun _ _ => trivial
  | none => exact removeMarker_told build

theorem prepareLkmGuard_told {candidates : List Candidate} :
    Sat G (Told build) (fun _ => True) (prepareLkmGuard answers build candidates) (fun _ _ => True)
      (fun _ _ => True) := by
  unfold prepareLkmGuard
  refine Sat.bind (check_keeps steady_any _) fun _ => ?_
  refine Sat.bind (Sat.get (Q := fun _ _ => True) fun _ _ => trivial) fun s => ?_
  cases BootGuard.inspectAt s.marker (build.identity none) with
  | absent => exact Sat.pure fun _ _ => trivial
  | foreign record => exact clearAt_told
  | own record =>
    change Sat G (Told build) _ (if blamesPackagedObject record candidates then Prog.fail (incomplete record)
      else clearAt answers) _ _
    split
    · exact Sat.fail fun _ _ => trivial
    · exact clearAt_told

theorem load_told (found : Except String (List Candidate)) :
    Sat G (Told build) (fun _ => True) (load answers build found) (fun _ _ => True) (fun _ _ => True) := by
  unfold load
  refine Sat.bind (refuseForeignNomount_keeps steady_any) fun _ => ?_
  refine Sat.bind (ask_keeps steady_any) fun present => ?_
  refine Sat.bind (Sat.ofExcept (fun _ _ _ h => h) fun _ _ _ h => h) fun _ => ?_
  refine Sat.bind (Sat.ofExcept (fun _ _ _ h => h) fun _ _ _ h => h) fun candidates => ?_
  exact Sat.bind prepareLkmGuard_told fun _ => tryCandidates_told candidates []

end Told

/-- The package has the kernel object of the candidate, or the object of the candidate is not known. -/
def Ships (candidate : Candidate) (found : Except String (List Candidate)) : Prop :=
  ∀ candidates, found = .ok candidates → candidate.object = none ∨
    ∃ other ∈ candidates, other.object = candidate.object

theorem blames_unknown {record : GuardRecord} (candidates : List Candidate) (hobject : record.object = none) :
    blamesPackagedObject record candidates = true := by
  unfold blamesPackagedObject
  rw [hobject]

theorem blames_object {record : GuardRecord} {object : String} (candidates : List Candidate)
    (hobject : record.object = some object) :
    blamesPackagedObject record candidates = candidates.any fun other => other.object == some object := by
  unfold blamesPackagedObject
  rw [hobject]

theorem blames_of_ships {found : Except String (List Candidate)} {candidates : List Candidate}
    (hships : Ships candidate found)
    (hfound : found = .ok candidates) (bootId : Option BootId) :
    blamesPackagedObject (BootGuard.payloadRecord .module bootId (build.identity candidate.object))
      candidates = true := by
  cases hobject : candidate.object with
  | none => exact blames_unknown candidates rfl
  | some object =>
    rw [blames_object candidates rfl]
    obtain hnone | ⟨other, hmem, hother⟩ := hships candidates hfound
    · rw [hobject] at hnone
      cases hnone
    · rw [hobject] at hother
      exact List.any_eq_true.mpr ⟨other, hmem, beq_iff_eq.mpr hother⟩

theorem prepareLkmGuard_refuses {candidates : List Candidate}
    (hblames : ∀ bootId, blamesPackagedObject
      (BootGuard.payloadRecord .module bootId (build.identity candidate.object)) candidates = true) :
    Sat G T (Blamed build candidate) (prepareLkmGuard answers build candidates) (fun _ _ => False)
      (fun _ => Blamed build candidate) := by
  unfold prepareLkmGuard
  refine Sat.bind (check_keeps steady_blamed _) fun _ => ?_
  refine Sat.bind (Q := fun a s => a = s ∧ Blamed build candidate s) (Sat.get fun _ h => ⟨rfl, h⟩) fun a => ?_
  intro s hs hg
  obtain ⟨rfl, hblamed⟩ := hs
  obtain ⟨bootId, hmarker⟩ := hblamed.marker
  rw [hmarker, inspectAt_attempt]
  simp only [hblames bootId, if_true]
  exact ⟨fun _ he => absurd he List.not_mem_nil, hblamed⟩

/-- Under the marker of a candidate which the package still has, a load does nothing. -/
theorem load_refused {found : Except String (List Candidate)} (hships : Ships candidate found) :
    Sat G (fun _ => False) (Blamed build candidate) (load answers build found) (fun _ _ => False)
      (fun _ => Blamed build candidate) := by
  unfold load
  refine Sat.bind (refuseForeignNomount_keeps steady_blamed) fun _ => ?_
  refine Sat.bind (ask_keeps steady_blamed) fun present => ?_
  refine Sat.bind (Q := fun _ => Blamed build candidate) (Sat.ofExcept (fun _ _ _ h => h) fun _ _ _ h => h)
    fun _ => ?_
  refine Sat.bind (Q := fun candidates s => found = .ok candidates ∧ Blamed build candidate s)
    (Sat.ofExcept (fun _ _ hfound h => ⟨hfound, h⟩) fun _ _ _ h => h) fun candidates => ?_
  intro s hs hg
  have hprepare : Sat G (fun _ => False) (Blamed build candidate) (prepareLkmGuard answers build candidates)
      (fun _ _ => False)
      (fun _ => Blamed build candidate) := prepareLkmGuard_refuses fun bootId =>
        blames_of_ships hships hs.1 bootId
  have hrefused : Sat G (fun _ => False) (Blamed build candidate)
      (prepareLkmGuard answers build candidates >>= fun _ => tryCandidates answers build candidates [])
      (fun _ _ => False)
      (fun _ => Blamed build candidate) := Sat.bind hprepare fun _ s hfalse => hfalse.elim
  exact hrefused s hs.2 hg

/-- After a restart: a marker which is not on disk for sure may have become anything. -/
def Rebooted (m m' : Machine) : Prop := m.settled = true → m'.marker = m.marker ∧ m'.settled = true

theorem Blamed.reboot (h : Blamed build candidate m) (hreboot : Rebooted m m') :
    Blamed build candidate m' := by
  obtain ⟨hmarker, hsettled⟩ := hreboot h.settled
  exact ⟨hmarker ▸ h.marker, hsettled⟩

/-- What the boots of one build lead to while the package keeps the kernel object: loads, to their
end or cut short by a crash, and restarts. -/
inductive Later (build : Build) (candidate : Candidate) : Machine → Machine → Prop
  | refl (m : Machine) : Later build candidate m m
  | load {m m' : Machine} (answers : Nat → Answer) (found : Except String (List Candidate)) :
      Later build candidate m m' → Ships candidate found →
        Later build candidate m (load answers build found m').state
  | cut {m m' m'' : Machine} (answers : Nat → Answer) (found : Except String (List Candidate)) (e : Event) :
      Later build candidate m m' → Ships candidate found →
        e ∈ (ModuleLoad.load answers build found m').trace →
      Rebooted e.post m'' → Later build candidate m m''
  | reboot {m m' m'' : Machine} : Later build candidate m m' → Rebooted m' m'' → Later build candidate m m''

theorem Blamed.refused {found : Except String (List Candidate)} (h : Blamed build candidate m)
    (hships : Ships candidate found) :
    (load answers build found m).trace = [] ∧ Blamed build candidate (load answers build found m).state := by
  have hrefused : Sat (fun _ => True) (fun _ => False) (Blamed build candidate) (load answers build found)
      (fun _ _ => False)
      (fun _ => Blamed build candidate) := load_refused hships
  refine ⟨List.eq_nil_iff_forall_not_mem.mpr fun e he => hrefused.events h (fun _ _ => trivial) e he, ?_⟩
  cases hresult : (load answers build found m).result with
  | ok a => exact (hrefused.of_ok h (fun _ _ => trivial) hresult).elim
  | error text => exact hrefused.of_error h (fun _ _ => trivial) hresult

theorem Later.blamed (hlater : Later build candidate m m') (h : Blamed build candidate m) :
    Blamed build candidate m' := by
  induction hlater with
  | refl => exact h
  | load answers found _ hships ih => exact (ih.refused hships).2
  | cut answers found e _ hships he _ ih =>
    rw [(ih.refused hships).1] at he
    cases he
  | reboot _ hreboot ih => exact ih.reboot hreboot

theorem blamed_of_crash {found : Except String (List Candidate)} {e : Event}
    (he : e ∈ (load answers build found m).trace)
    (hinserted : e.inserted = some candidate) (hcrash : Rebooted e.post m₁) : Blamed build candidate m₁ := by
  have htold : Sat (fun _ => True) (Told build) (fun _ => True) (load answers build found) (fun _ _ => True)
      (fun _ _ => True) :=
    load_told found
  exact ((htold.events trivial (fun _ _ => trivial) e he candidate hinserted).2).reboot hcrash

/-- The kernel went down while a loader ran on a candidate. Whatever boots of this build follow, as
long as the package has that kernel object no load inserts anything. -/
theorem crashed_load_not_repeated {found found' : Except String (List Candidate)} {e : Event}
    (he : e ∈ (load answers build found m).trace) (hinserted : e.inserted = some candidate)
    (hcrash : Rebooted e.post m₁)
    (hlater : Later build candidate m₁ m₂) (hships : Ships candidate found') :
    (∀ e' ∈ (load answers' build found' m₂).trace, e'.inserted = none) ∧
    Blamed build candidate (load answers' build found' m₂).state := by
  have hblamed : Blamed build candidate m₂ := hlater.blamed (blamed_of_crash he hinserted hcrash)
  obtain ⟨hnone, hstands⟩ := hblamed.refused hships
  refine ⟨fun e' he' => ?_, hstands⟩
  rw [hnone] at he'
  cases he'

section Retries

/-- The calls of the load succeed, and there is neither NoMount nor a provider when it looks for them. -/
structure Unhindered (answers : Nat → Answer) (s : Machine) : Prop where
  succeeds : ∀ n, (answers n).failure = none
  nomount : (answers s.calls).yes = false
  absent : (answers (s.calls + 1)).presence = .notPresent

/-- Under the guard of the candidate. -/
def behindGuard (answers : Nat → Answer) (build : Build) (candidate : Candidate) (rest : List Candidate)
    (failures : List String) :
    Op Unit := do
  let outcome ← Prog.attempt (tryCandidate answers candidate failures)
  dropGuard answers
  match outcome with
  | .error text => Prog.fail text
  | .ok none => return ()
  | .ok (some failures) => tryCandidates answers build rest failures

theorem tryCandidates_cons (rest : List Candidate) (failures : List String) :
    tryCandidates answers build (candidate :: rest) failures = (do
      let boot ← ask answers
      arm answers (markerBytes build boot.bootId candidate)
      behindGuard answers build candidate rest failures) := rfl

/-- No loader runs. -/
def Quiet (trace : List Event) : Prop := ∀ e ∈ trace, e.inserted = none

theorem Quiet.nil : Quiet [] := fun _ he => absurd he List.not_mem_nil

theorem Quiet.append {trace later : List Event} (h : Quiet trace) (hlater : Quiet later) :
    Quiet (trace ++ later) :=
  fun e he => (List.mem_append.mp he).elim (h e) (hlater e)

/-- The marker which the machine had is taken away. -/
def Retires (s : Machine) (trace : List Event) : Prop := ∃ e ∈ trace, e.pre.marker = s.marker ∧
    e.post.marker = none

theorem Retires.append {s : Machine} {trace : List Event} (h : Retires s trace) (later : List Event) :
    Retires s (trace ++ later) := by
  obtain ⟨e, he, hmarkers⟩ := h
  exact ⟨e, List.mem_append_left _ he, hmarkers⟩

/-- The marker is taken away, and then a loader runs on the first candidate, under a marker which names
it. If the module responds to this loader, the load has succeeded, and no marker is left. -/
def Retried (answers : Nat → Answer) (build : Build) (first : Candidate) (rest : List Candidate)
    (s : Machine) : Prop :=
  ∃ before s' after, (load answers build (.ok (first :: rest)) s).trace = before ++
    ⟨some first, s', s'⟩ :: after ∧
    Quiet before ∧ Retires s before ∧ Blamed build first s' ∧
    ((answers (s'.calls + 1)).yes = true → (load answers build (.ok (first :: rest)) s).result = .ok () ∧
      (load answers build (.ok (first :: rest)) s).state.marker = none)

variable {s : Machine}

theorem ask_leads (s : Machine) :
    Leads (ask answers) s (answers s.calls) { s with calls := s.calls + 1 } [] := rfl

theorem get_leads (s : Machine) : Leads (Prog.get : Op Machine) s s s [] := rfl

theorem setMarker_leads (marker : Option Bytes) (settled : Bool) (s : Machine) :
    Leads (setMarker marker settled) s () { s with marker := marker, settled := settled }
      [⟨none, s, { s with marker := marker, settled := settled }⟩] := rfl

theorem settle_leads (s : Machine) :
    Leads settle s () { s with settled := true } [⟨none, s, { s with settled := true }⟩] := rfl

theorem check_leads (operation : String) (hok : (answers s.calls).failure = none) :
    Leads (check answers operation) s () { s with calls := s.calls + 1 } [] := by
  unfold check
  refine Leads.bind (ask_leads s) ?_
  rw [hok]
  exact Leads.pure _ _

theorem refuseForeignNomount_leads (hok : (answers s.calls).failure = none)
    (hno : (answers s.calls).yes = false) :
    Leads (refuseForeignNomount answers) s () { s with calls := s.calls + 1 } [] := by
  unfold refuseForeignNomount
  refine Leads.bind (ask_leads s) ?_
  rw [hok, hno]
  exact Leads.pure _ _

section Succeeding

variable (hok : ∀ n, (answers n).failure = none)
include hok

theorem removeMarker_leads (s : Machine) :
    ∃ trace, Leads (removeMarker answers) s () ⟨none, true, s.calls + 1⟩ trace ∧ Quiet trace ∧
    Retires s trace := by
  refine ⟨[⟨none, s, ⟨none, false, s.calls⟩⟩, ⟨none, ⟨none, false, s.calls + 1⟩, ⟨none, true, s.calls + 1⟩⟩],
    ?_, ?_, ?_⟩
  · unfold removeMarker
    refine Leads.bind (setMarker_leads none false _) (Leads.bind (ask_leads _) ?_)
    rw [hok]
    exact settle_leads _
  · intro e he
    rcases List.mem_cons.mp he with rfl | he
    · rfl
    · rw [List.mem_singleton.mp he]
  · exact ⟨_, List.mem_cons_self, rfl, rfl⟩

theorem clearAt_leads (s : Machine) :
    ∃ trace, Leads (clearAt answers) s () ⟨none, true, s.calls + 2⟩ trace ∧ Quiet trace ∧
    Retires s trace := by
  obtain ⟨trace, hleads, hquiet, hretires⟩ := removeMarker_leads hok { s with calls := s.calls + 1 }
  refine ⟨trace, ?_, hquiet, hretires⟩
  unfold clearAt
  refine Leads.bind (ask_leads s) ?_
  rw [hok]
  exact hleads

theorem dropGuard_leads (s : Machine) : ∃ s' trace, Leads (dropGuard answers) s () s' trace ∧
    s'.marker = none := by
  obtain ⟨trace, hleads, -⟩ := removeMarker_leads hok { s with calls := s.calls + 1 }
  refine ⟨⟨none, true, s.calls + 2⟩, trace, ?_, rfl⟩
  unfold dropGuard
  refine Leads.bind (ask_leads s) ?_
  rw [hok]
  exact hleads

/-- A marker which does not blame the package is not in the way. -/
theorem prepareLkmGuard_leads {candidates : List Candidate} (s : Machine)
    (hretired : ∀ record, BootGuard.inspectAt s.marker (build.identity none) = .own record →
      blamesPackagedObject record candidates = false) :
    ∃ s' trace, Leads (prepareLkmGuard answers build candidates) s () s' trace ∧ s'.marker = none ∧ Quiet trace ∧
      (s.marker ≠ none → Retires s trace) := by
  have hread := check_leads ("read vfs boot guard for " ++ VFS_LKM_BOOT_GUARD_PATH) (hok s.calls)
  obtain ⟨trace, hleads, hquiet, hretires⟩ := clearAt_leads hok { s with calls := s.calls + 1 }
  unfold prepareLkmGuard
  cases hinspect : BootGuard.inspectAt s.marker (build.identity none) with
  | absent =>
    have hnone : s.marker = none := by
      cases hmarker : s.marker with
      | none => rfl
      | some bytes =>
        rw [hmarker] at hinspect
        simp only [BootGuard.inspectAt] at hinspect
        split at hinspect
        · split at hinspect <;> cases hinspect
        · cases hinspect
    refine ⟨{ s with calls := s.calls + 1 }, [], Leads.bind hread (Leads.bind (get_leads _) ?_), hnone,
      Quiet.nil, fun h => absurd hnone h⟩
    rw [hinspect]
    exact Leads.pure _ _
  | foreign record =>
    refine ⟨⟨none, true, s.calls + 3⟩, trace, Leads.bind hread (Leads.bind (get_leads _) ?_), rfl, hquiet,
      fun _ => hretires⟩
    rw [hinspect]
    exact hleads
  | own record =>
    refine ⟨⟨none, true, s.calls + 3⟩, trace, Leads.bind hread (Leads.bind (get_leads _) ?_), rfl, hquiet,
      fun _ => hretires⟩
    rw [hinspect]
    simp only [hretired record hinspect, Bool.false_eq_true, if_false]
    exact hleads

theorem fillMarker_leads (payload : Bytes) (s : Machine) :
    ∃ trace, Leads (fillMarker answers payload) s () ⟨some payload, true, s.calls + 3⟩ trace ∧
    Quiet trace := by
  refine ⟨[⟨none, { s with calls := s.calls + 1 }, ⟨some payload, false, s.calls + 1⟩⟩,
    ⟨none, ⟨some payload, false, s.calls + 3⟩, ⟨some payload, true, s.calls + 3⟩⟩], ?_, fun e he => ?_⟩
  · unfold fillMarker
    refine Leads.bind (ask_leads _) ?_
    rw [hok]
    refine Leads.bind (setMarker_leads (some payload) false _) (Leads.bind (ask_leads _) ?_)
    rw [hok]
    refine Leads.bind (ask_leads _) ?_
    rw [hok]
    exact settle_leads _
  · rcases List.mem_cons.mp he with rfl | he
    · rfl
    · rw [List.mem_singleton.mp he]

theorem arm_leads (payload : Bytes) (hnone : s.marker = none) :
    ∃ trace, Leads (arm answers payload) s () ⟨some payload, true, s.calls + 6⟩ trace ∧ Quiet trace := by
  obtain ⟨trace, hfill, hquiet⟩ := fillMarker_leads hok payload ⟨some [], false, s.calls + 3⟩
  refine ⟨⟨none, ⟨none, s.settled, s.calls + 3⟩, ⟨some [], false, s.calls + 3⟩⟩ :: trace, ?_, fun e he => ?_⟩
  · unfold arm
    refine Leads.bind (check_leads _ (hok _))
      (Leads.bind (check_leads _ (hok _)) (Leads.bind (ask_leads _) (Leads.bind (get_leads _) ?_)))
    simp only [hnone, hok, Option.isSome_none, Bool.false_eq_true, if_false]
    exact Leads.bind (setMarker_leads (some []) false _) hfill
  · rcases List.mem_cons.mp he with rfl | he
    · rfl
    · exact hquiet e he

/-- A loader runs first, and if the module responds to it all is done. -/
theorem behindGuard_run (build : Build) (candidate : Candidate) (rest : List Candidate)
    (failures : List String) (s : Machine) :
    Starts (behindGuard answers build candidate rest failures) s ⟨some candidate, s, s⟩ ∧
      ((answers (s.calls + 1)).yes = true →
        (behindGuard answers build candidate rest failures s).result = .ok () ∧
        (behindGuard answers build candidate rest failures s).state.marker = none) := by
  have hinsert : Leads (insert candidate) s () s [⟨some candidate, s, s⟩] := rfl
  constructor
  · have hfirst : Starts (insert candidate) s ⟨some candidate, s, s⟩ := ⟨[], rfl⟩
    have hloaders : Starts (loadWithCandidates answers candidate INSMOD_CANDIDATES []) s
        ⟨some candidate, s, s⟩ := by
      unfold INSMOD_CANDIDATES loadWithCandidates
      exact hfirst.bind
    have htried : Starts (tryCandidate answers candidate failures) s ⟨some candidate, s, s⟩ := by
      unfold tryCandidate
      exact hloaders.bind
    exact htried.attempt.bind
  · intro hyes
    have hloaders : Leads (loadWithCandidates answers candidate INSMOD_CANDIDATES []) s none
        { s with calls := s.calls + 2 }
        [⟨some candidate, s, s⟩] := by
      unfold INSMOD_CANDIDATES loadWithCandidates
      refine Leads.bind hinsert (Leads.bind (ask_leads _) ?_)
      rw [hok]
      refine Leads.bind (ask_leads _) ?_
      simp only [hyes, if_true]
      exact Leads.pure _ _
    have htried : Leads (tryCandidate answers candidate failures) s none { s with calls := s.calls + 2 }
        [⟨some candidate, s, s⟩] := by
      unfold tryCandidate
      exact Leads.bind hloaders (Leads.pure _ _)
    obtain ⟨s', trace, hdropped, hnone⟩ := dropGuard_leads hok { s with calls := s.calls + 2 }
    have hall : Leads (behindGuard answers build candidate rest failures) s () s'
        ([⟨some candidate, s, s⟩] ++ (trace ++ [])) := by
      unfold behindGuard
      exact Leads.bind htried.attempt (Leads.bind hdropped (Leads.pure _ _))
    unfold Leads at hall
    rw [hall]
    exact ⟨rfl, hnone⟩

end Succeeding

/-- A load for which no marker stands in the way comes to its first candidate. -/
theorem load_run (build : Build) (candidate : Candidate) (rest : List Candidate)
    (hfree : Unhindered answers s)
    (hretired : ∀ record, BootGuard.inspectAt s.marker (build.identity none) = .own record →
      blamesPackagedObject record (candidate :: rest) = false) :
    ∃ before s', (load answers build (.ok (candidate :: rest)) s =
      ⟨(behindGuard answers build candidate rest [] s').result,
        (behindGuard answers build candidate rest [] s').state,
        before ++ (behindGuard answers build candidate rest [] s').trace⟩) ∧
      Quiet before ∧ (s.marker ≠ none → Retires s before) ∧ Blamed build candidate s' := by
  obtain ⟨s', prepared, hprepare, hnone, hquiet, hretires⟩ :=
    prepareLkmGuard_leads hfree.succeeds { s with calls := s.calls + 1 + 1 } hretired
  have hanswer : Leads (ask answers) s' (answers s'.calls) { s' with calls := s'.calls + 1 } [] :=
    ask_leads s'
  obtain ⟨armed, harm, hstill⟩ := arm_leads (s := { s' with calls := s'.calls + 1 }) hfree.succeeds
    (markerBytes build (answers s'.calls).bootId candidate) hnone
  have habsent : Leads (Prog.ofExcept (ensureProviderAbsent (answers (s.calls + 1)).presence) : Op Unit)
      { s with calls := s.calls + 1 + 1 } ()
      { s with calls := s.calls + 1 + 1 } [] := by
    rw [hfree.absent]
    rfl
  have hfound : Leads (Prog.ofExcept (.ok (candidate :: rest)) : Op (List Candidate))
      { s with calls := s.calls + 1 + 1 } (candidate :: rest)
      { s with calls := s.calls + 1 + 1 } [] := rfl
  refine ⟨prepared ++ armed, ⟨some (markerBytes build (answers s'.calls).bootId candidate), true,
    s'.calls + 1 + 6⟩, ?_,
    hquiet.append hstill, fun h => (hretires h).append armed, ⟨⟨_, rfl⟩, rfl⟩⟩
  unfold load
  rw [(refuseForeignNomount_leads (hfree.succeeds _) hfree.nomount).then_run, (ask_leads _).then_run,
    habsent.then_run, hfound.then_run,
    hprepare.then_run, tryCandidates_cons, hanswer.then_run, harm.then_run]
  simp only [List.nil_append, List.append_assoc]

end Retries

/-- A package in which no kernel object is the one that crashed is tried, with no one removing the marker. -/
theorem refreshed_package_tried {found : Except String (List Candidate)} {e : Event} {object : String}
    {first : Candidate}
    {rest : List Candidate} (he : e ∈ (load answers build found m).trace)
    (hinserted : e.inserted = some candidate)
    (hcrash : Rebooted e.post m₁) (hlater : Later build candidate m₁ m₂)
    (hobject : candidate.object = some object)
    (hnew : ∀ other ∈ first :: rest, other.object ≠ some object) (hfree : Unhindered answers' m₂) :
    Retried answers' build first rest m₂ := by
  have hblamed : Blamed build candidate m₂ := hlater.blamed (blamed_of_crash he hinserted hcrash)
  obtain ⟨bootId, hmarker⟩ := hblamed.marker
  obtain ⟨before, s', hload, hquiet, hretires, hnamed⟩ :=
      load_run build first rest hfree fun record hown => by
    rw [hmarker, inspectAt_attempt] at hown
    cases hown
    rw [blames_object (first :: rest) hobject]
    exact List.any_eq_false.mpr fun other hother heq => hnew other hother (beq_iff_eq.mp heq)
  obtain ⟨⟨after, htrace⟩, hresponds⟩ := behindGuard_run hfree.succeeds build first rest [] s'
  refine ⟨before, s', after, ?_, hquiet, hretires (by rw [hmarker]; exact Option.some_ne_none _), hnamed, ?_⟩
  · rw [hload, htrace]
  · rw [hload]
    exact hresponds

section Refreshed

theorem version_wellFormed : GuardIdentity.WellFormed ⟨"4.2.1", some "42:7", none⟩ :=
    BootGuard.releaseBuild_wellFormed

def releaseBuild : Build := ⟨"4.2.1", some "42:7", version_wellFormed⟩

theorem plain_object : BootGuard.Plain "hybridmount.ko" := ⟨by decide, by decide⟩

theorem carried_first (value : String) (h : some "1024:7" = some value) : BootGuard.Carried value := by
  cases h
  exact ⟨⟨by decide, by decide⟩, by decide⟩

theorem carried_second (value : String) (h : some "2048:9" = some value) : BootGuard.Carried value := by
  cases h
  exact ⟨⟨by decide, by decide⟩, by decide⟩

def crashing : Candidate := ⟨"hybridmount.ko", some "1024:7", plain_object, carried_first⟩

/-- The same file of the next package. -/
def refreshed : Candidate := ⟨"hybridmount.ko", some "2048:9", plain_object, carried_second⟩

def calm : Nat → Answer := fun _ => ⟨none, false, .notPresent, none, 0, "", ""⟩

/-- Here the module responds as soon as it is asked. -/
def responding : Nat → Answer := fun n => ⟨none, n ≠ 0, .notPresent, none, 0, "", ""⟩

def unmarked : Machine := ⟨none, true, 0⟩

theorem unmarked_crashes : ∃ e ∈ (load calm releaseBuild (.ok [crashing]) unmarked).trace,
    e.inserted = some crashing ∧
    e.post.settled = true := by
  have hfree : Unhindered calm unmarked := ⟨fun _ => rfl, rfl, rfl⟩
  obtain ⟨before, s', hload, -, -, hblamed⟩ := load_run releaseBuild crashing [] hfree fun record hown => by
    cases hown
  obtain ⟨⟨after, htrace⟩, -⟩ := behindGuard_run hfree.succeeds releaseBuild crashing [] [] s'
  refine ⟨⟨some crashing, s', s'⟩, ?_, rfl, hblamed.settled⟩
  rw [hload, htrace]
  exact List.mem_append_right _ List.mem_cons_self

theorem ships_crashing : Ships crashing (.ok [crashing]) := by
  intro candidates hfound
  cases hfound
  exact .inr ⟨crashing, List.mem_singleton.mpr rfl, rfl⟩

/-- The first load crashes, the second is refused, and so is the third. -/
theorem crashed_load_not_repeated_third : ∃ e ∈ (load calm releaseBuild (.ok [crashing]) unmarked).trace,
    e.inserted = some crashing ∧
      ∀ e' ∈ (load calm releaseBuild (.ok [crashing])
        (load calm releaseBuild (.ok [crashing]) e.post).state).trace, e'.inserted = none := by
  obtain ⟨e, he, hinserted, -⟩ := unmarked_crashes
  have hlater : Later releaseBuild crashing e.post (load calm releaseBuild (.ok [crashing]) e.post).state :=
    .load calm (.ok [crashing]) (.refl e.post) ships_crashing
  exact ⟨e, he, hinserted, (crashed_load_not_repeated he hinserted (fun hs => ⟨rfl, hs⟩) hlater
    ships_crashing).1⟩

/-- The next boot counts its calls from zero. -/
def started (m : Machine) : Machine := { m with calls := 0 }

/-- The second load is refused, and the one of the next package succeeds. -/
theorem refreshed_package_tried_second : ∃ e ∈ (load calm releaseBuild (.ok [crashing]) unmarked).trace,
    e.inserted = some crashing ∧
    Retried responding releaseBuild refreshed []
      (started (load calm releaseBuild (.ok [crashing]) (started e.post)).state) ∧
    (load responding releaseBuild (.ok [refreshed])
    (started (load calm releaseBuild (.ok [crashing]) (started e.post)).state)).result = .ok () := by
  obtain ⟨e, he, hinserted, -⟩ := unmarked_crashes
  have hlater : Later releaseBuild crashing (started e.post)
      (started (load calm releaseBuild (.ok [crashing]) (started e.post)).state) :=
    .reboot (.load calm (.ok [crashing]) (.refl (started e.post)) ships_crashing) fun hs => ⟨rfl, hs⟩
  have hcrash : Rebooted e.post (started e.post) := fun hs => ⟨rfl, hs⟩
  have hnew : ∀ other ∈ [refreshed], other.object ≠ some "1024:7" := fun other hother => by
    rw [List.mem_singleton.mp hother]
    decide
  have hretried : Retried responding releaseBuild refreshed []
      (started (load calm releaseBuild (.ok [crashing]) (started e.post)).state) :=
    refreshed_package_tried he hinserted hcrash hlater rfl hnew ⟨fun _ => rfl, rfl, rfl⟩
  obtain ⟨before, s', after, htrace, hquiet, hretires, hnamed, hresponds⟩ := hretried
  have hyes : (responding (s'.calls + 1)).yes = true := decide_eq_true (Nat.succ_ne_zero s'.calls)
  exact ⟨e, he, hinserted, ⟨before, s', after, htrace, hquiet, hretires, hnamed, hresponds⟩,
    (hresponds hyes).1⟩

end Refreshed

end HybridMount.ModuleLoad
