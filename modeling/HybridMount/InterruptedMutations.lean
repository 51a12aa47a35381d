import HybridMount.BootGuard

/-! Whom the marker blames over a run: it is judged this build's own exactly after an interrupted
mutation, unless an attempt to arm it fails and leaves its text behind. -/

namespace HybridMount

namespace BootGuard

def judgedOwn (marker : Option LittleEndian.Bytes) (identity : GuardIdentity) : Bool :=
  match inspectAt marker identity with
  | .own _ => true
  | _ => false

variable {identity : GuardIdentity} {s : GuardState} {event : GuardEvent}

@[simp] theorem judgedOwn_none : judgedOwn none identity = false := rfl

theorem judgedOwn_payload (hwf : identity.WellFormed) (source : VfsMutationSource) (bootId : Option BootId) :
    judgedOwn (some (payloadBytes source identity bootId)) identity = true := by
  have hparse := parse_payload source bootId hwf
  have hmatch : (payloadRecord source bootId identity).matchesIdentity identity = true :=
    payloadRecord_matches source bootId
  simp only [judgedOwn, inspectAt, payloadBytes, fromUtf8Lossy_utf8, hparse, hmatch, if_true]

theorem inspectAt_own {marker : Option LittleEndian.Bytes} (h : judgedOwn marker identity = true) :
    ∃ record, inspectAt marker identity = .own record := by
  unfold judgedOwn at h
  cases hv : inspectAt marker identity with
  | absent => rw [hv] at h; cases h
  | own record => exact ⟨record, rfl⟩
  | foreign record => rw [hv] at h; cases h

theorem inspectAt_foreign {bytes : LittleEndian.Bytes} (h : judgedOwn (some bytes) identity = false) :
    ∃ record, inspectAt (some bytes) identity = .foreign record := by
  unfold judgedOwn at h
  cases hv : inspectAt (some bytes) identity with
  | absent =>
    unfold inspectAt at hv
    dsimp only at hv
    cases hp : GuardRecord.parse (fromUtf8Lossy bytes) with
    | none => rw [hp] at hv; cases hv
    | some record =>
      rw [hp] at hv
      dsimp only at hv
      by_cases hm : record.matchesIdentity identity = true
      · rw [if_pos hm] at hv
        cases hv
      · rw [if_neg hm] at hv
        cases hv
  | own record => rw [hv] at h; cases h
  | foreign record => exact ⟨record, rfl⟩

/-- The claimed judgement in a state. -/
def Judged (identity : GuardIdentity) (s : GuardState) : Prop :=
  s.running = false → (judgedOwn s.marker identity = true ↔ s.interrupted = true)

structure Sound (identity : GuardIdentity) (s : GuardState) : Prop where
  judged : Judged identity s
  armed : s.running = true → judgedOwn s.marker identity = true ∧ s.interrupted = false

/-- An attempt does not fail with this build's text written. -/
def ArmSteps.Harmless (identity : GuardIdentity) (payload : LittleEndian.Bytes) : ArmSteps → Prop
  | .failsAfter written _ => judgedOwn (some (payload.take written)) identity = false
  | _ => True

/-- Does an attempt get to create the marker? -/
def Creates (identity : GuardIdentity) (marker : Option LittleEndian.Bytes) (schedule : ArmSchedule) : Prop :=
  schedule.readFails = none ∧ judgedOwn marker identity = false ∧
    (marker = none ∨ schedule.retireFails = none)

/-- An attempt which gets to create the marker is harmless. -/
def Harmless (identity : GuardIdentity) (s : GuardState) : GuardEvent → Prop
  | .armAt source bootId steps =>
    s.running = false → s.marker = none → steps.Harmless identity (payloadBytes source identity bootId)
  | .armForMutation source bootId schedule =>
    s.running = false → Creates identity s.marker schedule →
      schedule.steps.Harmless identity (payloadBytes source identity bootId)
  | _ => True

def HarmlessRun (identity : GuardIdentity) : GuardState → List GuardEvent → Prop
  | _, [] => True
  | s, event :: events => Harmless identity s event ∧ HarmlessRun identity (s.step identity event) events

/-- Either the marker stays and the attempt fails, or it starts without a marker. -/
theorem armForMutation_cases (marker : Option LittleEndian.Bytes) (identity : GuardIdentity)
    (payload : LittleEndian.Bytes) (schedule : ArmSchedule) :
    (¬ Creates identity marker schedule ∧ ∃ e, armForMutation marker identity payload schedule =
      (marker, .error e)) ∨
      (Creates identity marker schedule ∧ armForMutation marker identity payload schedule =
        armAt none payload schedule.steps) := by
  unfold armForMutation
  cases hread : schedule.readFails with
  | some failure => exact Or.inl ⟨fun hc => by simp [hread, Creates] at hc, failure, rfl⟩
  | none =>
    cases marker with
    | none => exact Or.inr ⟨⟨hread, rfl, Or.inl rfl⟩, rfl⟩
    | some bytes =>
      cases hjudged : judgedOwn (some bytes) identity with
      | true =>
        obtain ⟨record, hverdict⟩ := inspectAt_own hjudged
        refine Or.inl ⟨fun hc => ?_, refused record, ?_⟩
        · exact Bool.noConfusion (hjudged.symm.trans hc.2.1)
        · simp only [hverdict]
      | false =>
        obtain ⟨record, hverdict⟩ := inspectAt_foreign hjudged
        cases hretire : schedule.retireFails with
        | some failure =>
          refine Or.inl ⟨fun hc => ?_, failure, ?_⟩
          · rcases hc.2.2 with hh | hh
            · cases hh
            · rw [hretire] at hh
              cases hh
          · simp only [hverdict]
        | none =>
          refine Or.inr ⟨⟨hread, hjudged, Or.inr hretire⟩, ?_⟩
          simp only [hverdict]

theorem armed_unchanged (h : s.running = false) (e : Error) : s.armed (s.marker, .error e) = s := by
  obtain ⟨marker, running, interrupted⟩ := s
  cases h
  rfl

variable {payload : LittleEndian.Bytes} {steps : ArmSteps}

theorem Sound.create (hown : judgedOwn (some payload) identity = true) (hs : s.interrupted = false)
    (h : steps.Harmless identity payload) : Sound identity (s.armed (armAt none payload steps)) := by
  have hidle : ∀ marker, judgedOwn marker identity = false →
      Sound identity ⟨marker, false, s.interrupted⟩ := by
    intro marker hm
    refine ⟨fun _ => ?_, fun hr => Bool.noConfusion hr⟩
    rw [hm, hs]
  cases steps with
  | createFails failure => exact hidle none rfl
  | failsAfter written failure => exact hidle _ h
  | completes => exact ⟨fun hr => Bool.noConfusion hr, fun _ => ⟨hown, hs⟩⟩

theorem ArmSteps.harmless_of_judged (hs : s.interrupted = false)
    (h : Judged identity (s.armed (armAt none payload steps))) : steps.Harmless identity payload := by
  cases steps with
  | createFails failure => trivial
  | completes => trivial
  | failsAfter written failure =>
    have hiff : judgedOwn (some (payload.take written)) identity = true ↔ s.interrupted = true := h rfl
    rw [hs] at hiff
    exact Bool.eq_false_iff.mpr fun hown => Bool.noConfusion (hiff.mp hown)

theorem Sound.not_interrupted (h : Sound identity s) (hr : s.running = false)
    (hm : judgedOwn s.marker identity = false) :
    s.interrupted = false := by
  have hiff := h.judged hr
  rw [hm] at hiff
  exact Bool.eq_false_iff.mpr fun hi => Bool.noConfusion (hiff.mpr hi)

theorem Sound.released : Sound identity ⟨none, false, false⟩ :=
  ⟨fun _ => Iff.rfl, fun hr => Bool.noConfusion hr⟩

theorem Sound.crash (h : Sound identity s) : Sound identity (s.step identity .crash) := by
  refine ⟨fun _ => ?_, fun hr => Bool.noConfusion hr⟩
  change judgedOwn s.marker identity = true ↔ (s.interrupted || s.running) = true
  cases hr : s.running with
  | true => simp [(h.armed hr).1]
  | false => simp [h.judged hr]

theorem Sound.handledReturn (h : Sound identity s) : Sound identity (s.step identity .handledReturn) := by
  obtain ⟨marker, running, interrupted⟩ := s
  cases running with
  | false => exact h
  | true =>
    have hnot : interrupted = false := (h.armed rfl).2
    subst hnot
    exact Sound.released

theorem Sound.clear (h : Sound identity s) : Sound identity (s.step identity .clear) := by
  obtain ⟨marker, running, interrupted⟩ := s
  cases running with
  | true => exact h
  | false => exact Sound.released

theorem step_armAt_running (hr : s.running = true) (source : VfsMutationSource) (bootId : Option BootId)
    (steps : ArmSteps) :
    s.step identity (.armAt source bootId steps) = s := if_pos hr

theorem step_armForMutation_running (hr : s.running = true) (source : VfsMutationSource)
    (bootId : Option BootId)
    (schedule : ArmSchedule) : s.step identity (.armForMutation source bootId schedule) = s := if_pos hr

theorem step_armAt (hr : s.running = false) (source : VfsMutationSource) (bootId : Option BootId)
    (steps : ArmSteps) :
    s.step identity (.armAt source bootId steps) = s.armed
      (armAt s.marker (payloadBytes source identity bootId) steps) :=
  if_neg (by rw [hr]; decide)

theorem step_armForMutation (hr : s.running = false) (source : VfsMutationSource) (bootId : Option BootId)
    (schedule : ArmSchedule) :
    s.step identity (.armForMutation source bootId schedule) =
      s.armed (armForMutation s.marker identity (payloadBytes source identity bootId) schedule) :=
  if_neg (by rw [hr]; decide)

/-- One step keeps the judgement right exactly when it is harmless. -/
theorem Sound.step (hwf : identity.WellFormed) (h : Sound identity s) (event : GuardEvent) :
    (Harmless identity s event → Sound identity (s.step identity event)) ∧
      (Judged identity (s.step identity event) → Harmless identity s event) := by
  cases event with
  | mutate => exact ⟨fun _ => h, fun _ => trivial⟩
  | crash => exact ⟨fun _ => h.crash, fun _ => trivial⟩
  | handledReturn => exact ⟨fun _ => h.handledReturn, fun _ => trivial⟩
  | clear => exact ⟨fun _ => h.clear, fun _ => trivial⟩
  | armAt source bootId steps =>
    cases hr : s.running with
    | true =>
      rw [step_armAt_running hr]
      exact ⟨fun _ => h, fun _ hh => Bool.noConfusion (hr.symm.trans hh)⟩
    | false =>
      rw [step_armAt hr]
      cases hm : s.marker with
      | some bytes =>
        have hsame : s.armed (armAt (some bytes) (payloadBytes source identity bootId) steps) = s := by
          have hh := armed_unchanged hr (.msg "write vfs boot guard: File exists")
          rw [hm] at hh
          exact hh
        rw [hsame]
        refine ⟨fun _ => h, fun _ _ hh => ?_⟩
        rw [hm] at hh
        cases hh
      | none =>
        have hs := h.not_interrupted hr (by rw [hm]; rfl)
        exact ⟨fun hharmless => Sound.create (judgedOwn_payload hwf source bootId) hs (hharmless hr hm),
          fun hjudged _ _ => ArmSteps.harmless_of_judged hs hjudged⟩
  | armForMutation source bootId schedule =>
    cases hr : s.running with
    | true =>
      rw [step_armForMutation_running hr]
      exact ⟨fun _ => h, fun _ hh => Bool.noConfusion (hr.symm.trans hh)⟩
    | false =>
      rw [step_armForMutation hr]
      rcases armForMutation_cases s.marker identity (payloadBytes source identity bootId) schedule with
        ⟨hnot, e, hsame⟩ | ⟨hcreates, harm⟩
      · rw [hsame, armed_unchanged hr e]
        exact ⟨fun _ => h, fun _ _ hc => absurd hc hnot⟩
      · have hs := h.not_interrupted hr hcreates.2.1
        rw [harm]
        exact ⟨fun hharmless => Sound.create (judgedOwn_payload hwf source bootId) hs (hharmless hr hcreates),
          fun hjudged _ _ => ArmSteps.harmless_of_judged hs hjudged⟩

/-- The state after some events. -/
def GuardState.after (identity : GuardIdentity) (s : GuardState) (events : List GuardEvent) : GuardState :=
  events.foldl (GuardState.step identity) s

/-- The judgement is right in every state of a run exactly when all steps are harmless. -/
theorem Sound.run_iff (hwf : identity.WellFormed) (h : Sound identity s) (events : List GuardEvent) :
    (∀ n, Judged identity (s.after identity (events.take n))) ↔ HarmlessRun identity s events := by
  induction events generalizing s with
  | nil =>
    refine ⟨fun _ => trivial, fun _ n => ?_⟩
    rw [List.take_nil]
    exact h.judged
  | cons event events ih =>
    obtain ⟨hkeeps, hharmless⟩ := h.step hwf event
    constructor
    · intro hall
      have hfirst : Harmless identity s event := hharmless (hall 1)
      exact ⟨hfirst, (ih (hkeeps hfirst)).mp fun n => hall (n + 1)⟩
    · rintro ⟨hfirst, hrest⟩ n
      cases n with
      | zero => exact h.judged
      | succ n => exact (ih (hkeeps hfirst)).mpr hrest n

theorem armForMutation_refuses {marker : Option LittleEndian.Bytes} (h : judgedOwn marker identity = true)
    (payload : LittleEndian.Bytes) (schedule : ArmSchedule) :
    ∃ e, armForMutation marker identity payload schedule = (marker, .error e) := by
  rcases armForMutation_cases marker identity payload schedule with ⟨-, hrefused⟩ | ⟨hcreates, -⟩
  · exact hrefused
  · exact Bool.noConfusion (h.symm.trans hcreates.2.1)

/-- What the guard promises in every state of a run, and of its text. -/
theorem guard_blames_interrupted (identity : GuardIdentity) (hwf : identity.WellFormed)
    (marker : Option LittleEndian.Bytes) (hfresh : judgedOwn marker identity = false)
    (events : List GuardEvent) :
    ((∀ n, Judged identity (GuardState.after identity ⟨marker, false, false⟩ (events.take n))) ↔
      HarmlessRun identity ⟨marker, false, false⟩ events) ∧
    (∀ (s : GuardState) (source : VfsMutationSource) (bootId : Option BootId) (schedule : ArmSchedule),
      judgedOwn s.marker identity = true →
        ∃ e, armForMutation s.marker identity (payloadBytes source identity bootId) schedule =
          (s.marker, .error e)) ∧
    ∀ (source : VfsMutationSource) (bootId : Option BootId), ∃ record,
      GuardRecord.parse (markerPayload source identity bootId) = some record ∧
        record.matchesIdentity identity = true ∧
        ∀ other, Differs identity other → record.matchesIdentity other = false := by
  have hsound : Sound identity ⟨marker, false, false⟩ := by
    refine ⟨fun _ => ?_, fun hh => Bool.noConfusion hh⟩
    rw [hfresh]
  refine ⟨hsound.run_iff hwf events, fun s source bootId schedule hown =>
    armForMutation_refuses hown _ schedule,
    fun source bootId => ?_⟩
  exact ⟨_, parse_payload source bootId hwf, payloadRecord_matches source bootId,
    fun other hother => payloadRecord_differs source bootId hother⟩

def releaseBuild : GuardIdentity := ⟨"4.2.1", some "42:7", none⟩

theorem releaseBuild_wellFormed : releaseBuild.WellFormed := by
  refine ⟨⟨⟨by decide, by decide⟩, by decide⟩, fun value hv => ?_, fun value hv => ?_⟩
  · cases hv
    exact ⟨⟨by decide, by decide⟩, by decide⟩
  · cases hv

/-- A run with one interrupted mutation. -/
theorem guard_blames_release :
    Judged releaseBuild (GuardState.after releaseBuild ⟨none, false, false⟩
      [.armAt .runtime none .completes, .mutate, .crash]) := by
  have hall := guard_blames_interrupted releaseBuild releaseBuild_wellFormed none rfl
    [.armAt .runtime none .completes, .mutate, .crash]
  exact hall.1.mpr ⟨fun _ _ => trivial, trivial, trivial, trivial⟩ 3

/-- The text is written, and then the sync fails: nothing was interrupted. -/
theorem failed_sync_blames :
    ¬ Judged releaseBuild (GuardState.after releaseBuild ⟨none, false, false⟩
      [.armAt .runtime none (.failsAfter (payloadBytes .runtime releaseBuild none).length
        (.msg "sync"))]) := by
  intro hjudged
  have hiff : judgedOwn (some ((payloadBytes .runtime releaseBuild none).take
      (payloadBytes .runtime releaseBuild none).length)) releaseBuild = true ↔ false = true := hjudged rfl
  rw [List.take_length, judgedOwn_payload releaseBuild_wellFormed] at hiff
  exact Bool.noConfusion (hiff.mp rfl)

end BootGuard

end HybridMount
