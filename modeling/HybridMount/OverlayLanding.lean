import HybridMount.ShallowGroups

/-! Where the overlays of a plan land, by what is on the device. -/

namespace HybridMount.Plan

/-- Where an overlay for the target goes: on the target, or on the nearest directory above one that
is missing. -/
def Lands (probe : Names → Probe) (target point : Names) : Prop :=
  probe target = .directory ∧ point = target ∨
    probe target = .missing ∧ point <+: target ∧ point ≠ [] ∧ probe point = .directory ∧
      ∀ between, point <+: between → between <+: target → probe between = .directory → between = point

/-- The search for a directory at or above the target ends before anything on the way fails. -/
def Located (probe : Names → Probe) (target : Names) : Prop :=
  ∃ point, Lands probe target point ∧ ∀ between, point <+: between → between <+: target →
    ∀ error, probe between ≠ .failed error

variable {probe : Names → Probe} {plan : MountPlan} {execution execution' : OverlayExecutionPlan}
  {target point point' between destination : Names}
  {result : OverlayDirectoryTarget} {rule : Names × List Names} {rules : List (Names × List Names)}
  {operation : OverlayOperation × Nat} {operations : List (OverlayOperation × Nat)}

theorem lands_unique (h : Lands probe target point) (h' : Lands probe target point') : point = point' := by
  rcases h with ⟨hdirectory, rfl⟩ | ⟨hmissing, hpre, -, hprobe, hnearest⟩
  · rcases h' with ⟨-, rfl⟩ | ⟨hmissing, -⟩
    · rfl
    · simp [hdirectory] at hmissing
  · rcases h' with ⟨hdirectory, -⟩ | ⟨-, hpre', -, hprobe', hnearest'⟩
    · simp [hdirectory] at hmissing
    · rcases List.prefix_or_prefix_of_prefix hpre hpre' with hle | hle
      · exact (hnearest point' hle hpre' hprobe').symm
      · exact hnearest' point hle hpre hprobe

/-- On the way up to the directory nothing fails, and no other directory is passed. -/
theorem resolveAncestor_passed {n : Nat}
    (h : resolveAncestor probe target n = .ok (.missing point destination))
    (hpre : point <+: between) (hbelow : between <+: target) (hlen : between.length ≤ n) :
    between = point ∨ probe between = .other ∨ probe between = .missing := by
  induction n with
  | zero => cases h
  | succ n ih =>
    by_cases htake : between = target.take (n + 1)
    · cases htop : probe (target.take (n + 1)) with
      | directory =>
        simp only [resolveAncestor, htop, Except.ok.injEq, OverlayDirectoryTarget.missing.injEq] at h
        exact .inl (htake.trans h.1)
      | failed error =>
        simp only [resolveAncestor, htop] at h
        cases h
      | other => exact .inr (.inl (htake ▸ htop))
      | missing => exact .inr (.inr (htake ▸ htop))
    · have hshorter : between.length ≤ n := by
        by_contra hlonger
        apply htake
        rw [List.prefix_iff_eq_take.mp hbelow]
        congr 1
        omega
      cases htop : probe (target.take (n + 1)) with
      | directory =>
        simp only [resolveAncestor, htop, Except.ok.injEq, OverlayDirectoryTarget.missing.injEq] at h
        have hfits := hbelow.length_le
        have hle := hpre.length_le
        refine .inl (hpre.eq_of_length (le_antisymm hle ?_)).symm
        rw [← h.1, List.length_take] at hle ⊢
        omega
      | failed error =>
        simp only [resolveAncestor, htop] at h
        cases h
      | other =>
        simp only [resolveAncestor, htop] at h
        exact ih h hshorter
      | missing =>
        simp only [resolveAncestor, htop] at h
        exact ih h hshorter

theorem resolve_lands (h : resolveOverlayDirectoryTarget probe target = .ok result) :
    (result = .existing ∧ probe target = .directory) ∨
      ∃ point destination, result = .missing point destination ∧ probe target = .missing ∧
        Lands probe target point ∧
        ∀ between, point <+: between → between <+: target → between = point ∨ probe between = .other ∨
          probe between = .missing := by
  rcases resolve_ok h with hexisting | ⟨point, destination, rfl, hrerouted⟩
  · exact .inl hexisting
  · have hpassed : ∀ between, point <+: between → between <+: target →
        between = point ∨ probe between = .other ∨ probe between = .missing := by
      intro between hpre hbelow
      by_cases hlen : between.length = target.length
      · rw [hbelow.eq_of_length hlen]
        exact .inr (.inr hrerouted.missing)
      · have hle := hbelow.length_le
        simp only [resolveOverlayDirectoryTarget, hrerouted.missing] at h
        exact resolveAncestor_passed h hpre hbelow (by omega)
    refine .inr ⟨point, destination, rfl, hrerouted.missing,
      .inr ⟨hrerouted.missing, ?_, hrerouted.notRoot, hrerouted.directory, ?_⟩,
      hpassed⟩
    · exact hrerouted.joined ▸ List.prefix_append _ _
    · intro between hpre hbelow hprobe
      rcases hpassed between hpre hbelow with heq | hother | hmissing
      · exact heq
      · simp [hother] at hprobe
      · simp [hmissing] at hprobe

/-- Up from the target there is a directory at or above it before anything fails. -/
theorem resolveAncestor_finds {n : Nat} (hpre : point <+: target) (hne : point ≠ [])
    (hdirectory : probe point = .directory)
    (hsound : ∀ between, point <+: between → between <+: target → ∀ error, probe between ≠ .failed error)
    (hlen : point.length ≤ n) : ∃ result, resolveAncestor probe target n = .ok result := by
  induction n with
  | zero => exact absurd (List.length_eq_zero_iff.mp (Nat.le_zero.mp hlen)) hne
  | succ n ih =>
    have htop : point <+: target.take (n + 1) := List.prefix_take_iff.mpr ⟨hpre, hlen⟩
    have hshorter : probe (target.take (n + 1)) ≠ .directory → point.length ≤ n := by
      intro hother
      by_contra hlonger
      have heq : point = target.take (n + 1) := by
        rw [List.prefix_iff_eq_take.mp hpre]
        congr 1
        omega
      exact hother (heq ▸ hdirectory)
    cases hprobe : probe (target.take (n + 1)) with
    | directory =>
      exact ⟨.missing (target.take (n + 1)) (target.drop (n + 1)), by simp only [resolveAncestor, hprobe]⟩
    | failed error => exact absurd hprobe (hsound _ htop (List.take_prefix _ _) error)
    | other =>
      simp only [resolveAncestor, hprobe]
      exact ih (hshorter (by simp [hprobe]))
    | missing =>
      simp only [resolveAncestor, hprobe]
      exact ih (hshorter (by simp [hprobe]))

theorem resolve_iff : (∃ result, resolveOverlayDirectoryTarget probe target = .ok result) ↔
    Located probe target := by
  constructor
  · rintro ⟨result, h⟩
    rcases resolve_lands h with ⟨-, hdirectory⟩ | ⟨point, destination, -, hmissing, hlands, hpassed⟩
    · refine ⟨target, .inl ⟨hdirectory, rfl⟩, ?_⟩
      intro between hpre hbelow error hfailed
      rw [hbelow.eq_of_length (le_antisymm hbelow.length_le hpre.length_le), hdirectory] at hfailed
      cases hfailed
    · refine ⟨point, hlands, ?_⟩
      intro between hpre hbelow error hfailed
      rcases hpassed between hpre hbelow with heq | hother | hmissing'
      · rcases hlands with ⟨hdirectory, -⟩ | ⟨-, -, -, hdirectory, -⟩
        · simp [hmissing] at hdirectory
        · simp [heq, hdirectory] at hfailed
      · simp [hother] at hfailed
      · simp [hmissing'] at hfailed
  · rintro ⟨point, ⟨hdirectory, -⟩ | ⟨hmissing, hpre, hne, hdirectory, -⟩, hsound⟩
    · exact ⟨.existing, by simp only [resolveOverlayDirectoryTarget, hdirectory]⟩
    · simp only [resolveOverlayDirectoryTarget, hmissing]
      have hshort : point.length ≠ target.length := by
        intro hlen
        rw [hpre.eq_of_length hlen, hmissing] at hdirectory
        cases hdirectory
      have hle := hpre.length_le
      exact resolveAncestor_finds hpre hne hdirectory hsound (by omega)

/-- The groups are those of the places where single files and rerouted layers land. -/
def KeyedByLanding (probe : Names → Probe) (rules : List (Names × List Names))
    (operations : List (OverlayOperation × Nat))
    (execution : OverlayExecutionPlan) : Prop :=
  ∀ key, key ∈ execution.shallow.keys ↔ (∃ rule ∈ rules, rule.2 ≠ [] ∧ Lands probe rule.1 key) ∨
    ∃ operation ∈ operations, probe operation.1.target = .missing ∧ Lands probe operation.1.target key

theorem KeyedByLanding.files (hkeyed : KeyedByLanding probe rules [] execution)
    (h : planFiles probe execution rule = .ok execution') :
    KeyedByLanding probe (rules ++ [rule]) [] execution' := by
  obtain ⟨result, hresult, hrest⟩ := Fallible.bind_ok h
  have hkeys : ∃ point, Lands probe rule.1 point ∧ ∀ key, key ∈ execution'.shallow.keys ↔
      key = point ∧ rule.2 ≠ [] ∨ key ∈ execution.shallow.keys := by
    rcases resolve_lands hresult with ⟨rfl, hdirectory⟩ | ⟨point, destination, rfl, -, hlands, -⟩
    · exact ⟨rule.1, .inl ⟨hdirectory, rfl⟩, (pushFiles_ok [] hrest).2.2⟩
    · exact ⟨point, hlands, (pushFiles_ok destination hrest).2.2⟩
  obtain ⟨point, hlands, hkeys⟩ := hkeys
  intro key
  rw [hkeys, hkeyed key]
  constructor
  · rintro (⟨rfl, hfiles⟩ | ⟨other, hother, hlanding⟩ | ⟨_, hnone, -⟩)
    · exact .inl ⟨rule, by simp, hfiles, hlands⟩
    · exact .inl ⟨other, List.mem_append_left _ hother, hlanding⟩
    · cases hnone
  · rintro (⟨other, hother, hfiles, hlanding⟩ | ⟨_, hnone, -⟩)
    · rcases List.mem_append.mp hother with hother | hother
      · exact .inr (.inl ⟨other, hother, hfiles, hlanding⟩)
      · obtain rfl := List.mem_singleton.mp hother
        exact .inl ⟨lands_unique hlanding hlands, hfiles⟩
    · cases hnone

theorem KeyedByLanding.layers (hkeyed : KeyedByLanding probe rules operations execution)
    (h : planOperation probe execution operation = .ok execution') :
    KeyedByLanding probe rules (operations ++ [operation]) execution' := by
  obtain ⟨result, hresult, hrest⟩ := Fallible.bind_ok h
  intro key
  rcases resolve_lands hresult with ⟨rfl, hdirectory⟩ | ⟨point, destination, rfl, hmissing, hlands, -⟩
  · simp only [Except.ok.injEq] at hrest
    subst hrest
    rw [hkeyed key]
    simp [or_and_right, exists_or, hdirectory]
  · simp only [Except.ok.injEq] at hrest
    subst hrest
    have hunique : Lands probe operation.1.target key ↔ key = point :=
      ⟨fun hlanding => lands_unique hlanding hlands, fun hkey => hkey ▸ hlands⟩
    rw [mem_keys_push, hkeyed key]
    constructor
    · rintro (hkey | hfile | ⟨other, hother, hlanding⟩)
      · exact .inr ⟨operation, by simp, hmissing, hunique.mpr hkey⟩
      · exact .inl hfile
      · exact .inr ⟨other, List.mem_append_left _ hother, hlanding⟩
    · rintro (hfile | ⟨other, hother, hlanding⟩)
      · exact .inr (.inl hfile)
      · rcases List.mem_append.mp hother with hother | hother
        · exact .inr (.inr ⟨other, hother, hlanding⟩)
        · rw [List.mem_singleton.mp hother] at hlanding
          exact .inl (hunique.mp hlanding.2)

theorem keyed_execution (h : buildOverlayExecutionPlan probe plan = .ok execution) :
    KeyedByLanding probe plan.overlayFiles plan.overlayOps.zipIdx execution := by
  obtain ⟨afterFiles, hfiles, hrest⟩ := Fallible.bind_ok h
  obtain ⟨built, hops, hsorted⟩ := Fallible.bind_ok hrest
  have hempty : KeyedByLanding probe [] [] ⟨[], .empty⟩ := by
    intro key
    simp [OrderedMap.Map.keys, OrderedMap.Map.empty]
  have hafterFiles : KeyedByLanding probe plan.overlayFiles [] afterFiles :=
    Fallible.foldlM_invariant (fun done now => KeyedByLanding probe done [] now)
      (fun _ _ _ _ hkeyed hstep => hkeyed.files hstep) hfiles hempty
  have hbuilt : KeyedByLanding probe plan.overlayFiles plan.overlayOps.zipIdx built :=
    Fallible.foldlM_invariant (fun done now => KeyedByLanding probe plan.overlayFiles done now)
      (fun _ _ _ _ hkeyed hstep => hkeyed.layers hstep) hops hafterFiles
  cases hsorted
  intro key
  rw [← hbuilt key]
  simp [OrderedMap.Map.keys, OrderedMap.Map.mapValues]

/-- There is an execution plan when all its directories are located. -/
theorem execution_exists (hnamed : ∀ rule ∈ plan.overlayFiles, ∀ source ∈ rule.2, source ≠ []) :
    (∃ execution, buildOverlayExecutionPlan probe plan = .ok execution) ↔
      (∀ rule ∈ plan.overlayFiles, Located probe rule.1) ∧ ∀ operation ∈ plan.overlayOps,
        Located probe operation.target := by
  constructor
  · rintro ⟨execution, h⟩
    obtain ⟨afterFiles, hfiles, hrest⟩ := Fallible.bind_ok h
    obtain ⟨built, hops, -⟩ := Fallible.bind_ok hrest
    constructor
    · intro rule hrule
      obtain ⟨before, after, hstep⟩ := Fallible.foldlM_each hfiles hrule
      obtain ⟨result, hresult, -⟩ := Fallible.bind_ok hstep
      exact resolve_iff.mp ⟨result, hresult⟩
    · intro operation hoperation
      obtain ⟨index, hindex⟩ := List.getElem?_of_mem hoperation
      obtain ⟨before, after, hstep⟩ := Fallible.foldlM_each hops (List.mk_mem_zipIdx_iff_getElem?.mpr hindex)
      obtain ⟨result, hresult, -⟩ := Fallible.bind_ok hstep
      exact resolve_iff.mp ⟨result, hresult⟩
  · rintro ⟨hrules, hoperations⟩
    have hfiles : ∀ rule ∈ plan.overlayFiles, ∀ execution, True →
        ∃ execution', planFiles probe execution rule = .ok execution' ∧ True := by
      intro rule hrule execution _
      obtain ⟨result, hresult⟩ := resolve_iff.mpr (hrules rule hrule)
      simp only [planFiles, hresult]
      cases result with
      | existing =>
        refine Fallible.foldlM_total (fun _ => True) (fun source hsource execution _ => ?_) trivial
        rw [List.getLast?_eq_getLast_of_ne_nil (hnamed rule hrule source hsource)]
        exact ⟨_, rfl, trivial⟩
      | missing mountTarget destination =>
        refine Fallible.foldlM_total (fun _ => True) (fun source hsource execution _ => ?_) trivial
        rw [List.getLast?_eq_getLast_of_ne_nil (hnamed rule hrule source hsource)]
        exact ⟨_, rfl, trivial⟩
    have hlayers : ∀ operation ∈ plan.overlayOps.zipIdx, ∀ execution, True →
        ∃ execution', planOperation probe execution operation = .ok execution' ∧ True := by
      intro operation hoperation execution _
      obtain ⟨result, hresult⟩ :=
        resolve_iff.mpr (hoperations operation.1
        (List.mem_of_getElem? (List.mk_mem_zipIdx_iff_getElem?.mp hoperation)))
      cases result with
      | existing => exact ⟨_, by simp only [planOperation, hresult]; rfl, trivial⟩
      | missing mountTarget destination => exact ⟨_, by simp only [planOperation, hresult]; rfl, trivial⟩
    obtain ⟨afterFiles, hafter, -⟩ := Fallible.foldlM_total (fun _ => True) hfiles (b := ⟨[], .empty⟩) trivial
    obtain ⟨built, hbuilt, -⟩ := Fallible.foldlM_total (fun _ => True) hlayers (b := afterFiles) trivial
    unfold buildOverlayExecutionPlan
    rw [hafter]
    simp only [bind, Except.bind, hbuilt]
    exact ⟨_, rfl⟩

end HybridMount.Plan
