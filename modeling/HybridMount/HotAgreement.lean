import HybridMount.HotRuns
import HybridMount.VfsPlan

/-! Hot operations and a cold boot: where the modules that were operated on stand clear of the
others, the live rules are those of a fresh plan of the active modules. -/

namespace HybridMount

open Plan (PlanInput ModuleRecord Clear vfsDecisions buildPlan)

variable {installed : Installed} {host : Host} {plan fresh : Plan.MountPlan} {loaded : List String}
  {calls : List HotCall}
  {m : Machine FlatTable} {moduleId : String} {x : SavedRule} {modules' : List ModuleRecord}
  {p : ModuleRecord → Bool}

/-- A module that is active or was loaded by the boot. -/
def Present (loaded : List String) (calls : List HotCall) (moduleId : String) : Prop :=
  isActive loaded calls moduleId = true ∨ moduleId ∈ loaded

/-- The modules which were operated on stand clear of the others. -/
def Apart (installed : Installed) (loaded : List String) (calls : List HotCall) : Prop :=
  ∀ m ∈ installed.modules, ∀ n ∈ installed.modules, m ≠ n → lastAction calls m.id ≠ none →
    Present loaded calls m.id → Present loaded calls n.id →
      Clear installed.bootInput m n ∧ Clear installed.bootInput n m

/-- Every entry of an installed module goes to VFS. -/
def Installed.PureVfs (installed : Installed) : Prop :=
  ∀ m ∈ installed.modules, ∀ entry ∈ m.entries, (installed.bootInput.rulesOf m).resolveMode
    entry.relative = .vfs

/-- The explicit rules of the table are the wires of these. -/
def ExplicitRules (m : Machine FlatTable) (p : SavedRule → Prop) : Prop :=
  ∀ r, r ∈ m.rules.rules ∧ derivedParent r = false ↔ ∃ x, p x ∧ r = wire x

theorem recorded_mono (input : PlanInput) (h : buildPlan input = .ok plan)
    (h' : buildPlan { input with modules := modules' } = .ok fresh)
    (hsame : input.planned.filter p = ({ input with modules := modules' } : PlanInput).planned.filter p)
    (hclear : ∀ m ∈ input.planned, m.id = x.moduleId → ∀ n ∈ input.planned, p n = false → Clear input m n)
    (hclear' : ∀ m ∈ input.planned, m.id = x.moduleId →
      ∀ n ∈ ({ input with modules := modules' } : PlanInput).planned, p n = false → Clear input m n)
    (hx : x ∈ plannedRules (recorded plan)) : x ∈ plannedRules (recorded fresh) := by
  obtain ⟨builder, hmodules, htree, -⟩ := buildPlan_shows h
  obtain ⟨builder', hmodules', htree', -⟩ := buildPlan_shows h'
  obtain ⟨rule, hrule, rfl⟩ := mem_recorded.mp hx
  rw [htree] at hrule
  refine mem_recorded.mpr ⟨rule, ?_, rfl⟩
  rw [htree']
  exact Plan.share_mono hmodules hmodules' hsame hclear hclear' hrule

/-- The modules of one id in a list without repeated ids. -/
theorem filter_id {modules : List ModuleRecord} (hids : (modules.map ModuleRecord.id).Nodup)
    {module : ModuleRecord}
    (hmem : module ∈ modules) : (modules.filter fun m => m.id = module.id) = [module] := by
  induction modules with
  | nil => cases hmem
  | cons first rest ih =>
    rw [List.map_cons, List.nodup_cons] at hids
    rcases List.mem_cons.mp hmem with rfl | hrest
    · have hnone : (rest.filter fun m => m.id = module.id) = [] := by
        refine List.filter_eq_nil_iff.mpr fun n hn => ?_
        simp only [decide_eq_true_eq]
        exact fun hid => hids.1 (hid ▸ List.mem_map_of_mem hn)
      simp [hnone]
    · have hne : first.id ≠ module.id := fun hid => hids.1 (hid ▸ List.mem_map_of_mem hrest)
      rw [List.filter_cons_of_neg (by simpa using hne)]
      exact ih hids.2 hrest

section Inputs

variable (installed) (enabled : String → Bool)

theorem mem_inputWith {n : ModuleRecord} (hn : n ∈ (installed.inputWith enabled).planned) :
    ∃ n₀ ∈ installed.modules, n₀.id = n.id ∧ enabled n.id = true ∧ n = { n₀ with disabled := false } := by
  obtain ⟨hmem, hmountable, -⟩ := Plan.mem_planned.mp hn
  obtain ⟨n₀, hn₀, rfl⟩ := List.mem_map.mp hmem
  have henabled : enabled n₀.id = true := by
    by_contra hno
    simp [ModuleRecord.mountable, hno] at hmountable
  exact ⟨n₀, hn₀, rfl, henabled, by simp [henabled]⟩

/-- Modules which are enabled both at boot and now are planned alike. -/
theorem planned_kept (hsame : ∀ m b, p { m with disabled := b } = p m)
    (hkept : ∀ m ∈ installed.modules, p m = true → enabled m.id = true ∧ m.disabled = false) :
    installed.bootInput.planned.filter p = (installed.inputWith enabled).planned.filter p := by
  rw [Plan.planned_filter, Plan.planned_filter]
  congr 1
  have hmap : (installed.inputWith enabled).modules = installed.modules.map fun m =>
    { m with disabled := !enabled m.id } := rfl
  rw [hmap, List.filter_map]
  have hfix : ∀ m ∈ installed.modules, p m = true →
      ({ m with disabled := !enabled m.id } : ModuleRecord) = m := by
    intro m hm hp
    obtain ⟨henabled, hdisabled⟩ := hkept m hm hp
    rw [henabled, Bool.not_true, ← hdisabled]
  have hfilter : installed.modules.filter
      ((fun m => p m && (m.mountable && !(installed.inputWith enabled).config.isModuleBlacklisted m.id)) ∘
      fun m => { m with disabled := !enabled m.id }) =
      installed.bootInput.modules.filter fun m => p m &&
        (m.mountable && !installed.bootInput.config.isModuleBlacklisted m.id) := by
    refine List.filter_congr fun m hm => ?_
    by_cases hp : p m = true
    · rw [Function.comp_apply, hfix m hm hp]
      rfl
    · simp [hsame, hp]
  rw [hfilter]
  refine ((List.map_congr_left fun m hm => ?_).trans (List.map_id _)).symm
  obtain ⟨hm, hp⟩ := List.mem_filter.mp hm
  exact hfix m hm (Bool.and_eq_true_iff.mp hp).1

/-- In a plan of itself alone a module is planned as with others. -/
theorem planned_alone {module : ModuleRecord} (hmem : module ∈ installed.modules)
    (henabled : enabled module.id = true) :
    (Policy.aloneInput installed module).planned.filter (fun m => m.id = module.id) =
      (installed.inputWith enabled).planned.filter fun m => m.id = module.id := by
  rw [Plan.planned_filter, Plan.planned_filter]
  congr 1
  have hmap : (installed.inputWith enabled).modules = installed.modules.map fun m =>
    { m with disabled := !enabled m.id } := rfl
  have hone : (installed.inputWith enabled).modules.filter (fun m => m.id = module.id) =
      [{ module with disabled := false }] := by
    have hcomp : (fun m : ModuleRecord => decide (m.id = module.id)) ∘
        (fun m : ModuleRecord => { m with disabled := !enabled m.id }) =
        fun m : ModuleRecord => decide (m.id = module.id) := rfl
    rw [hmap, List.filter_map, hcomp, filter_id installed.distinct hmem, List.map_singleton, henabled,
      Bool.not_true]
  have hsplit : ∀ (modules : List ModuleRecord) (q : ModuleRecord → Bool),
      (modules.filter fun m => decide (m.id = module.id) && q m) =
        (modules.filter fun m => m.id = module.id).filter q := by
    intro modules q
    rw [List.filter_filter]
    exact List.filter_congr fun m _ => Bool.and_comm _ _
  have halone : (Policy.aloneInput installed module).modules.filter (fun m => m.id = module.id) =
      [{ module with disabled := false }] := by
    simp [Policy.aloneInput]
  rw [hsplit, hsplit, hone, halone]
  rfl

end Inputs

section Comparison

theorem isActive_touched {action : HotAction} (h : lastAction calls moduleId = some action) :
    isActive loaded calls moduleId = true ↔ action ≠ .unload := by
  simp [isActive, h]

theorem isActive_untouched (h : lastAction calls moduleId = none) : isActive loaded calls moduleId = true ↔
    moduleId ∈ loaded := by
  simp [isActive, h]

theorem Apart.clear (h : Apart installed loaded calls) {m n : ModuleRecord} (hm : m ∈ installed.modules)
    (hn : n ∈ installed.modules)
    (hne : m.id ≠ n.id) (htouched : lastAction calls m.id ≠ none ∨ lastAction calls n.id ≠ none)
    (hpm : Present loaded calls m.id)
    (hpn : Present loaded calls n.id) : Clear installed.bootInput m n := by
  rcases htouched with ht | ht
  · exact (h m hm n hn (fun heq => hne (heq ▸ rfl)) ht hpm hpn).1
  · exact (h n hn m hm (fun heq => hne (heq ▸ rfl)) ht hpn hpm).2

theorem Apart.clear_active (h : Apart installed loaded calls) {m n : ModuleRecord}
    (hm : m ∈ installed.modules)
    (hn : n ∈ (installed.inputWith (isActive loaded calls)).planned) (hne : m.id ≠ n.id)
    (htouched : lastAction calls m.id ≠ none ∨ lastAction calls n.id ≠ none)
    (hpm : Present loaded calls m.id) :
    Clear installed.bootInput m n := by
  obtain ⟨n₀, hn₀, hid, hactive, rfl⟩ := mem_inputWith installed _ hn
  show Clear installed.bootInput m n₀
  exact h.clear hm hn₀ hne htouched hpm (.inl hactive)

/-- Unless nothing was loaded, the boot has loaded what has something for VFS. -/
theorem Ran.mem_loaded (hrun : Ran installed host plan loaded calls m) (hsome : ∃ id, id ∈ loaded) :
    moduleId ∈ loaded ↔
    ∃ n ∈ installed.bootInput.planned, n.id = moduleId ∧ vfsDecisions installed.bootInput n ≠ [] := by
  obtain ⟨hplan, hloaded⟩ := hrun.booted
  obtain ⟨builder, hmodules, -, hkeys⟩ := buildPlan_shows hplan
  rcases hloaded with hids | hnone
  · rw [hids, hkeys]
    exact Plan.mem_vfsModuleIds hmodules
  · rw [hnone] at hsome
    simp at hsome

theorem Ran.loaded_planned (hrun : Ran installed host plan loaded calls m) {n : ModuleRecord}
    (hn : n ∈ installed.modules)
    (hload : n.id ∈ loaded) : n ∈ installed.bootInput.planned := by
  obtain ⟨n', hn', hid, -⟩ := (hrun.mem_loaded ⟨_, hload⟩).mp hload
  obtain rfl := List.inj_on_of_nodup_map installed.distinct (Plan.mem_planned.mp hn').1 hn hid
  exact hn'

/-- A module that was operated on has the rules of its own plan in the fresh one. -/
theorem agrees_touched (htracks : Tracks installed host plan loaded calls m)
    (hapart : Apart installed loaded calls)
    (hfresh : buildPlan (installed.inputWith (isActive loaded calls)) = .ok fresh)
    (hactive : isActive loaded calls x.moduleId = true)
    {action : HotAction} (hlast : lastAction calls x.moduleId = some action) :
    x ∈ installed.aloneRules x.moduleId ↔ x ∈ plannedRules (recorded fresh) := by
  obtain ⟨module, alone, hfind, halone⟩ := htracks.alone _ action hlast ((isActive_touched hlast).mp hactive)
  have hid : module.id = x.moduleId := by simpa using List.find?_some hfind
  have hmem := List.mem_of_find?_eq_some hfind
  have hplanned := planned_alone installed (isActive loaded calls) hmem (by rw [hid]; exact hactive)
  rw [aloneRules_eq hfind halone]
  have hsingle : ∀ n ∈ (Policy.aloneInput installed module).planned, n = { module with disabled := false } :=
    fun n hn => List.mem_singleton.mp (Plan.mem_planned.mp hn).1
  have htouched : ∀ m : ModuleRecord, m.id = x.moduleId → lastAction calls m.id ≠ none := by
    intro m hm
    rw [hm, hlast]
    exact Option.some_ne_none _
  constructor
  · refine recorded_mono (Policy.aloneInput installed module) halone hfresh hplanned (fun m _ _ n hn hp => ?_)
      fun m hm hmid n hn hp => ?_
    · rw [hsingle n hn] at hp
      simp at hp
    · rw [hsingle m hm]
      show Clear installed.bootInput module n
      refine hapart.clear_active hmem hn (fun heq => ?_) (.inl (htouched module hid)) (.inl (hid ▸ hactive))
      simp [heq] at hp
  · refine recorded_mono (installed.inputWith (isActive loaded calls)) hfresh halone hplanned.symm
      (fun m hm hmid n hn hp => ?_)
      fun m _ _ n hn hp => ?_
    · obtain ⟨m₀, hm₀, -, -, rfl⟩ := mem_inputWith installed _ hm
      show Clear installed.bootInput m₀ n
      refine hapart.clear_active hm₀ hn (fun heq => ?_) (.inl (htouched m₀ hmid)) (.inl ?_)
      · have hnid : n.id = module.id := heq.symm.trans (hmid.trans hid.symm)
        simp [hnid] at hp
      · rw [show m₀.id = x.moduleId from hmid]
        exact hactive
    · rw [hsingle n hn] at hp
      simp at hp

/-- A module which the boot loaded and nothing has touched has its share of the boot's plan in the fresh one. -/
theorem agrees_untouched (hrun : Ran installed host plan loaded calls m)
    (hapart : Apart installed loaded calls)
    (hfresh : buildPlan (installed.inputWith (isActive loaded calls)) = .ok fresh)
    (hactive : isActive loaded calls x.moduleId = true)
    (hlast : lastAction calls x.moduleId = none) : x ∈ plannedRules (recorded plan) ↔
    x ∈ plannedRules (recorded fresh) := by
  have hplan := hrun.booted.1
  have hin : x.moduleId ∈ loaded := (isActive_untouched hlast).mp hactive
  let kept : ModuleRecord → Bool := fun n => decide (lastAction calls n.id = none ∧ n.id ∈ loaded)
  have hplanned : installed.bootInput.planned.filter kept =
      (installed.inputWith (isActive loaded calls)).planned.filter kept := by
    refine planned_kept installed _ (fun _ _ => rfl) fun n hn hkept => ?_
    obtain ⟨huntouched, hload⟩ := of_decide_eq_true hkept
    refine ⟨(isActive_untouched huntouched).mpr hload, ?_⟩
    obtain ⟨-, hmountable, -⟩ := Plan.mem_planned.mp (hrun.loaded_planned hn hload)
    simp only [ModuleRecord.mountable, Bool.and_eq_true, Bool.not_eq_true'] at hmountable
    exact hmountable.1.2
  -- A module of the boot's plan that is not kept was operated on, or has nothing for VFS.
  have hboot : ∀ m ∈ installed.modules, m.id = x.moduleId → ∀ n ∈ installed.bootInput.planned,
      kept n = false →
      Clear installed.bootInput m n := by
    intro m hm hmid n hn hkept
    by_cases hload : n.id ∈ loaded
    · have htouched : lastAction calls n.id ≠ none := fun hno => by simp [kept, hno, hload] at hkept
      refine hapart.clear hm (Plan.mem_planned.mp hn).1 (fun heq => htouched ?_) (.inr htouched)
        (.inl (hmid ▸ hactive)) (.inr hload)
      rw [← heq, hmid, hlast]
    · intro d _ _ e he
      exact absurd ((hrun.mem_loaded ⟨x.moduleId, hin⟩).mpr ⟨n, hn, rfl, List.ne_nil_of_mem he⟩) hload
  have hnow : ∀ m ∈ installed.modules, m.id = x.moduleId →
      ∀ n ∈ (installed.inputWith (isActive loaded calls)).planned,
      kept n = false → Clear installed.bootInput m n := by
    intro m hm hmid n hn hkept
    have htouched : lastAction calls n.id ≠ none := by
      intro hno
      obtain ⟨-, -, -, hload, -⟩ := mem_inputWith installed _ hn
      simp [kept, hno, (isActive_untouched hno).mp hload] at hkept
    refine hapart.clear_active hm hn (fun heq => htouched ?_) (.inr htouched) (.inl (hmid ▸ hactive))
    rw [← heq, hmid, hlast]
  constructor
  · refine recorded_mono installed.bootInput hplan hfresh hplanned (fun m hm hmid n hn hp => ?_)
      fun m hm hmid n hn hp => ?_
    · exact hboot m (Plan.mem_planned.mp hm).1 hmid n hn hp
    · exact hnow m (Plan.mem_planned.mp hm).1 hmid n hn hp
  · refine recorded_mono (installed.inputWith (isActive loaded calls)) hfresh hplan hplanned.symm
      (fun m hm hmid n hn hp => ?_) fun m hm hmid n hn hp => ?_
    · obtain ⟨m₀, hm₀, -, -, rfl⟩ := mem_inputWith installed _ hm
      exact hnow m₀ hm₀ hmid n hn hp
    · obtain ⟨m₀, hm₀, -, -, rfl⟩ := mem_inputWith installed _ hm
      exact hboot m₀ hm₀ hmid n hn hp

/-- The shares of the active modules are what the fresh plan has. -/
theorem agrees (hrun : Ran installed host plan loaded calls m) (hapart : Apart installed loaded calls)
    (hfresh : buildPlan (installed.inputWith (isActive loaded calls)) = .ok fresh) :
    isActive loaded calls x.moduleId = true ∧ x ∈ installed.shareOf plan calls x.moduleId ↔
    x ∈ plannedRules (recorded fresh) := by
  have hshare : isActive loaded calls x.moduleId = true →
      (x ∈ installed.shareOf plan calls x.moduleId ↔ x ∈ plannedRules (recorded fresh)) := by
    intro hactive
    unfold Installed.shareOf
    cases hlast : lastAction calls x.moduleId with
    | some action => exact agrees_touched hrun.tracks hapart hfresh hactive hlast
    | none => simpa using agrees_untouched hrun hapart hfresh hactive hlast
  refine ⟨fun h => (hshare h.1).mp h.2, fun h => ?_⟩
  obtain ⟨-, n, hn, hid⟩ := recorded_module hfresh h
  obtain ⟨-, -, -, hactive, -⟩ := mem_inputWith installed _ hn
  rw [hid] at hactive
  exact ⟨hactive, (hshare hactive).mpr h⟩

end Comparison

section Success

theorem planned_touched (hrun : Ran installed host plan loaded calls m) {n : ModuleRecord}
    (hn : n ∈ (installed.inputWith (isActive loaded calls)).planned)
    (htouched : lastAction calls n.id ≠ none) :
    ∃ module alone, buildPlan (Policy.aloneInput installed module) = .ok alone ∧
    n ∈ (Policy.aloneInput installed module).planned := by
  obtain ⟨action, hlast⟩ := Option.ne_none_iff_exists'.mp htouched
  obtain ⟨hmem, hmountable, hlisted⟩ := Plan.mem_planned.mp hn
  obtain ⟨n₀, hn₀, hid, hactive, rfl⟩ := mem_inputWith installed _ hn
  obtain ⟨module, alone, hfind, halone⟩ :=
    hrun.tracks.alone _ action hlast ((isActive_touched hlast).mp hactive)
  have hsame : module.id = n₀.id := by simpa using List.find?_some hfind
  obtain rfl := List.inj_on_of_nodup_map installed.distinct (List.mem_of_find?_eq_some hfind) hn₀ hsame
  exact ⟨module, alone, halone, Plan.mem_planned.mpr ⟨List.mem_singleton.mpr rfl, hmountable, hlisted⟩⟩

theorem planned_untouched (hrun : Ran installed host plan loaded calls m) {n : ModuleRecord}
    (hn : n ∈ (installed.inputWith (isActive loaded calls)).planned)
    (huntouched : lastAction calls n.id = none) :
    n ∈ installed.bootInput.planned := by
  obtain ⟨n₀, hn₀, -, hactive, rfl⟩ := mem_inputWith installed _ hn
  have hplanned := hrun.loaded_planned hn₀ ((isActive_untouched huntouched).mp hactive)
  obtain ⟨-, hmountable, -⟩ := Plan.mem_planned.mp hplanned
  simp only [ModuleRecord.mountable, Bool.and_eq_true, Bool.not_eq_true'] at hmountable
  rwa [← hmountable.1.2]

/-- Where everything goes to VFS, the fresh plan of the active modules succeeds. -/
theorem fresh_succeeds (hrun : Ran installed host plan loaded calls m) (hpure : installed.PureVfs)
    (hapart : Apart installed loaded calls) :
    ∃ fresh, buildPlan (installed.inputWith (isActive loaded calls)) = .ok fresh := by
  let input := installed.inputWith (isActive loaded calls)
  have hmode : ∀ n ∈ input.planned, ∀ d ∈ Plan.decisions n (input.rulesOf n) input.layout, d.mode = .vfs := by
    intro n hn d hd
    obtain ⟨hentry, -, hmode⟩ := Plan.mem_decisions.mp hd
    obtain ⟨n₀, hn₀, -, -, rfl⟩ := mem_inputWith installed _ hn
    exact hmode.trans (hpure n₀ hn₀ d.entry hentry)
  have hmapped : ∀ n ∈ input.planned, ∀ d ∈ Plan.decisions n (input.rulesOf n) input.layout,
      ∃ place, input.layout.mapTarget d.entry.relative = .ok place := by
    intro n hn d hd
    by_cases htouched : lastAction calls n.id = none
    · obtain ⟨builder, hmodules, -⟩ := buildPlan_shows hrun.booted.1
      exact ⟨_, (Plan.decision_mapped hmodules (planned_untouched hrun hn htouched) hd).2⟩
    · obtain ⟨module, alone, halone, hplanned⟩ := planned_touched hrun hn htouched
      obtain ⟨builder, hmodules, -⟩ := buildPlan_shows halone
      exact ⟨_, (Plan.decision_mapped hmodules hplanned hd).2⟩
  obtain ⟨builder, hmodules⟩ := Plan.planModules_vfs fun n hn d hd => ⟨hmode n hn d hd, hmapped n hn d hd⟩
  refine Plan.buildPlan_vfs hmodules ⟨Plan.ordered_plan_tree hmodules, fun path s hs => ?_,
    fun path s hs htype rest other ho => ?_⟩
  · obtain ⟨n, d, hd, rfl, -⟩ := (Plan.mem_plan_tree hmodules).mp hs
    exact hmode n hd.module d hd.decision
  · obtain ⟨n, d, hd, rfl, rfl⟩ := (Plan.mem_plan_tree hmodules).mp hs
    obtain ⟨n', e, he, rfl, hplace⟩ := (Plan.mem_plan_tree hmodules).mp ho
    have hactive : d.mode ≠ .ignore := by simp [hmode n hd.module d hd.decision]
    have hactive' : e.mode ≠ .ignore := by simp [hmode n' he.module e he.decision]
    have hvfs : ∀ k f, Plan.Planned input k f → f ∈ vfsDecisions input k := fun k f hf =>
      List.mem_filter.mpr ⟨hf.decision, by simp [hmode k hf.module f hf.decision]⟩
    obtain ⟨n₀, hn₀, hid, hon, hnew⟩ := mem_inputWith installed _ hd.module
    by_cases hsame : n.id = n'.id
    · obtain ⟨n₁, hn₁, hid₁, -, hnew₁⟩ := mem_inputWith installed _ he.module
      obtain rfl : n₀ = n₁ := List.inj_on_of_nodup_map installed.distinct hn₀ hn₁
        (hid.trans (hsame.trans hid₁.symm))
      obtain rfl : n = n' := hnew.trans hnew₁.symm
      by_cases htouched : lastAction calls n.id = none
      · have hplanned := planned_untouched hrun hd.module htouched
        exact Plan.whiteout_place hrun.booted.1 ⟨hplanned, hd.decision⟩ ⟨hplanned, he.decision⟩ htype hactive
          hactive' hplace.symm
      · obtain ⟨module, alone, halone, hplanned⟩ := planned_touched hrun hd.module htouched
        exact Plan.whiteout_place halone ⟨hplanned, hd.decision⟩ ⟨hplanned, he.decision⟩ htype hactive
          hactive' hplace.symm
    · by_cases htouched : lastAction calls n.id ≠ none ∨ lastAction calls n'.id ≠ none
      · have hclear : Clear installed.bootInput n₀ n' :=
          hapart.clear_active hn₀ he.module (hid ▸ hsame) (by rw [hid]; exact htouched)
            (.inl (by rw [hid]; exact hon))
        subst hnew
        have hsolid : (Plan.sourceOf n₀ d).Solid := .inl fun hdir => by
          have hwhite : d.entry.fileType = .whiteout := htype
          have hdirectory : d.entry.fileType = .directory := hdir
          rw [hwhite] at hdirectory
          cases hdirectory
        have hin := hvfs _ d hd
        exact absurd ⟨rest, hplace⟩ (hclear d hin hsolid e (hvfs n' e he))
      · obtain ⟨huntouched, huntouched'⟩ := not_or.mp htouched
        exact Plan.whiteout_place hrun.booted.1 ⟨planned_untouched hrun hd.module (not_not.mp huntouched),
          hd.decision⟩
          ⟨planned_untouched hrun he.module (not_not.mp huntouched'), he.decision⟩ htype hactive
            hactive' hplace.symm

end Success

theorem planned_aloneRules (h : x ∈ installed.aloneRules moduleId) : derivedParent x = false := by
  unfold Installed.aloneRules at h
  split at h
  · cases h
  · split at h
    · cases h
    · exact planned_explicit h

theorem shareOf_explicit (h : x ∈ installed.shareOf plan calls moduleId) : derivedParent x = false := by
  unfold Installed.shareOf at h
  split at h
  · exact planned_aloneRules h
  · exact planned_explicit (List.mem_of_mem_filter h)

/-- After a boot and hot operations that all returned, the explicit rules are the shares of the active
modules; where what was operated on stands clear of the others, they are the rules of a fresh plan. -/
theorem hot_agrees_with_boot (hpure : installed.PureVfs) (hrun : Ran installed host plan loaded calls m) :
    ExplicitRules m
      (fun x => isActive loaded calls x.moduleId = true ∧ x ∈ installed.shareOf plan calls x.moduleId) ∧
      (Apart installed loaded calls →
        ∃ fresh, buildPlan (installed.inputWith (isActive loaded calls)) = .ok fresh ∧
        ExplicitRules m fun x => x ∈ plannedRules (recorded fresh)) := by
  have hlive : ExplicitRules m fun x => isActive loaded calls x.moduleId = true ∧
      x ∈ installed.shareOf plan calls x.moduleId := by
    intro r
    rw [hrun.tracks.live r]
    constructor
    · rintro ⟨⟨x, hx, rfl⟩, -⟩
      exact ⟨x, (hrun.tracks.shares x).mp hx, rfl⟩
    · rintro ⟨x, hx, rfl⟩
      exact ⟨⟨x, (hrun.tracks.shares x).mpr hx, rfl⟩, (derivedParent_wire x).trans (shareOf_explicit hx.2)⟩
  refine ⟨hlive, fun hapart => ?_⟩
  obtain ⟨fresh, hfresh⟩ := fresh_succeeds hrun hpure hapart
  refine ⟨fresh, hfresh, fun r => ?_⟩
  rw [hlive r]
  exact exists_congr fun x => and_congr_left fun _ => agrees hrun hapart hfresh

section Examples

def phoneHost : Host := ⟨"boot", "ns"⟩

/-- A boot of a blank machine with the provider at hand. -/
def bootRun (installed : Installed) : Option (Plan.MountPlan × List String × Machine FlatTable) :=
  match buildPlan installed.bootInput with
  | .error _ => none
  | .ok plan =>
    let run := Boot.complete phoneHost (.ok .hm) (recorded plan) ⟨[], false⟩ false
      ⟨.ok (), .ok (), .ok .hm, .hybridMount⟩
      ⟨true, ⟨[], [], [], [], ""⟩, [], [], .ok [], .ok .hm⟩ ⟨⟨⟨[], List.nodup_nil⟩, [], none, 1, [], []⟩, []⟩
    run.result.toOption.map fun stats => (plan, stats.mountedModuleIds, run.state.machine)

/-- Operations after it, the last one first. -/
def hotRun (installed : Installed) : List HotCall → Option (Plan.MountPlan × List String × Machine FlatTable)
  | [] => bootRun installed
  | call :: calls => (hotRun installed calls).bind fun before =>
    let run := call.run installed phoneHost before.2.2
    run.result.toOption.map fun _ => (before.1, before.2.1, run.state.machine)

theorem hotRun_ran {reached : Plan.MountPlan × List String × Machine FlatTable}
    (h : hotRun installed calls = some reached) :
    Ran installed phoneHost reached.1 reached.2.1 calls reached.2.2 := by
  induction calls generalizing reached with
  | nil =>
    unfold hotRun bootRun at h
    split at h
    · cases h
    · rename_i plan hplan
      obtain ⟨stats, hok, rfl⟩ := Option.map_eq_some_iff.mp h
      exact .boot rfl hplan (Fallible.ok_of_toOption hok)
  | cons call calls ih =>
    obtain ⟨before, hbefore, h⟩ := Option.bind_eq_some_iff.mp h
    obtain ⟨generation, hok, rfl⟩ := Option.map_eq_some_iff.mp h
    exact .hot call (ih hbefore) (Fallible.ok_of_toOption hok)

/-- A call which meets no obstacle. -/
def plainCall (action : HotAction) (moduleId : String) : HotCall := ⟨action, moduleId, .ok .hm, .ok (), []⟩

def etcFiles (id : String) (files : List String) : ModuleRecord where
  id := id
  sourcePath := ["data", "adb", "modules", id]
  entries := files.map fun name => { relative := ["system", "etc", name], fileType := .regularFile }

/-- Two modules with files below `/system/etc`. -/
def etcPair (fonts hosts : List String) (hnames : ∀ name ∈ fonts ++ hosts, '/' ∉ name.toList) :
    Installed where
  modules := [etcFiles "fonts" fonts, etcFiles "hosts" hosts]
  config := ⟨.vfs, [], []⟩
  isolateUids := []
  layout := ⟨⟨[("system", ["system"])], [], []⟩, []⟩
  pendingRemoval := []
  distinct := by simp [etcFiles]
  entryNames := by
    have hfile : ∀ id files, files ⊆ fonts ++ hosts → ∀ entry ∈ (etcFiles id files).entries,
        Plan.Slashless entry.relative := by
      intro id files hfiles entry hentry name hname
      obtain ⟨file, hfile, rfl⟩ := List.mem_map.mp hentry
      simp only [List.mem_cons, List.not_mem_nil, or_false] at hname
      rcases hname with rfl | rfl | rfl
      · decide
      · decide
      · exact hnames _ (hfiles hfile)
    intro m hm
    rcases List.mem_pair.mp hm with rfl | rfl
    · exact hfile _ _ (List.subset_append_left _ _)
    · exact hfile _ _ (List.subset_append_right _ _)
  rootNames := by simp [Plan.Slashless]

def separateFiles : Installed := etcPair ["fonts.xml"] ["hosts"] (by decide)

def separateCalls : List HotCall :=
  [plainCall .unload "hosts", plainCall .reload "fonts", plainCall .reload "hosts"]

theorem hot_agrees_with_boot_fonts : ∃ reached, hotRun separateFiles separateCalls = some reached ∧
    reached.2.2.rules.rules.map SavedRule.virtualPath = ["/system/etc/fonts.xml"] ∧
      ∃ fresh, buildPlan (separateFiles.inputWith (isActive reached.2.1 separateCalls)) = .ok fresh ∧
        ExplicitRules reached.2.2 fun x => x ∈ plannedRules (recorded fresh) := by
  have hpure : separateFiles.PureVfs := by
    unfold Installed.PureVfs
    decide +kernel
  have hclear : ∀ m ∈ separateFiles.modules, ∀ n ∈ separateFiles.modules, m ≠ n →
      Clear separateFiles.bootInput m n := by
    decide +kernel
  have hseen : (hotRun separateFiles separateCalls).map
      (fun reached => reached.2.2.rules.rules.map SavedRule.virtualPath) =
      some ["/system/etc/fonts.xml"] := by decide +kernel
  obtain ⟨reached, hreached, hpaths⟩ := Option.map_eq_some_iff.mp hseen
  refine ⟨reached, hreached, hpaths, (hot_agrees_with_boot hpure (hotRun_ran hreached)).2
    fun m hm n hn hne _ _ _ => ?_⟩
  exact ⟨hclear m hm n hn hne, hclear n hn m hm hne.symm⟩

/-- Both modules have the same file. -/
def sharedFile : Installed := etcPair ["fonts.xml", "hosts"] ["hosts"] (by decide)

/-- The file of the module that stays does not come back. -/
theorem shared_target_lost :
    ¬ ∀ (installed : Installed) (host : Host) (plan : Plan.MountPlan) (loaded : List String)
    (calls : List HotCall) (m : Machine FlatTable), installed.PureVfs →
    Ran installed host plan loaded calls m →
      ∀ fresh, buildPlan (installed.inputWith (isActive loaded calls)) = .ok fresh →
        ExplicitRules m fun x => x ∈ plannedRules (recorded fresh) := by
  intro hclaim
  have hpure : sharedFile.PureVfs := by
    unfold Installed.PureVfs
    decide +kernel
  have hseen : (hotRun sharedFile [plainCall .unload "hosts"]).map (fun reached =>
      (reached.2.1, reached.2.2.rules.rules.map SavedRule.virtualPath)) =
        some (["fonts", "hosts"], ["/system/etc/fonts.xml"]) := by
    decide +kernel
  obtain ⟨⟨plan, loaded, m⟩, hreached, hpaths⟩ := Option.map_eq_some_iff.mp hseen
  obtain ⟨rfl, hpaths⟩ := Prod.mk.inj hpaths
  have hview : (buildPlan (sharedFile.inputWith
      (isActive ["fonts", "hosts"] [plainCall .unload "hosts"]))).toOption.map
      (fun fresh => (plannedRules (recorded fresh)).map SavedRule.virtualPath) =
        some ["/system/etc/fonts.xml", "/system/etc/hosts"] := by
    decide +kernel
  obtain ⟨fresh, hfresh, hplanned⟩ := Plan.buildPlan_of_view hview
  have hrules := hclaim sharedFile phoneHost plan _ _ m hpure (hotRun_ran hreached) fresh hfresh
  have hmem : "/system/etc/hosts" ∈ (plannedRules (recorded fresh)).map SavedRule.virtualPath := by
    simp [hplanned]
  obtain ⟨x, hx, hpath⟩ := List.mem_map.mp hmem
  have hlive : (wire x).virtualPath ∈ m.rules.rules.map SavedRule.virtualPath :=
    List.mem_map_of_mem ((hrules (wire x)).mpr ⟨x, hx, rfl⟩).1
  rw [show m.rules.rules.map SavedRule.virtualPath = _ from hpaths, show (wire x).virtualPath = _ from hpath]
    at hlive
  simp at hlive

end Examples

end HybridMount
