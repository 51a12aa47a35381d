import HybridMount.OrderedLists
import HybridMount.OverlayExecution
import HybridMount.PlanCoverage
import HybridMount.PlanTree
import HybridMount.VfsRules

/-! Whose file is seen where several modules provide one, for each of the three backends. Magic
binds the file of the first module and VFS injects the file of the last. -/

namespace HybridMount.Plan

/-- The module whose file Magic binds at a target. -/
def magicSeen (tree : MountNode) (target : Names) : Option String :=
  (MountTree.find tree target).bind fun node =>
    if MountNode.fileTypeFor node .magic = some .regularFile
      then (MountNode.sourceFor node .magic).map MountSource.moduleId else none

/-- The module whose file the VFS rules inject at a target. -/
def vfsSeen (tree : MountNode) (target : Names) : Option String :=
  ((buildVfsRules tree).find? fun rule => rule.action.virtualPath = targetComponents target).bind fun rule =>
    match rule.action with
    | .inject _ _ => some rule.moduleId
    | _ => none

def overlaySeen (plan : MountPlan) (execution : OverlayExecutionPlan) (target : Names) : Option String :=
  mountOverlayPhase plan execution target

/-- One module's file is seen at the target, whichever backend the modules are planned for. -/
def Agree (overlay magic vfs : MountPlan) (execution : OverlayExecutionPlan) (target : Names) : Prop :=
  ∃ id, overlaySeen overlay execution target = some id ∧ magicSeen magic.tree target = some id ∧
    vfsSeen vfs.tree target = some id

structure SameModules (input input' : PlanInput) : Prop where
  modules : input.modules = input'.modules
  layout : input.layout = input'.layout
  blacklist : input.config.moduleBlacklist = input'.config.moduleBlacklist

/-- Every entry of every module goes to one backend. -/
def AllOn (input : PlanInput) (mode : Mode) : Prop :=
  ∀ m ∈ input.planned, ∀ entry ∈ m.entries, (input.rulesOf m).resolveMode entry.relative = mode

variable {input input' : PlanInput} {m m' : ModuleRecord} {entry entry' : ModuleEntry} {mode mode' : Mode}
  {rules rules' : ModuleRulesView} {layout : PartitionLayout} {tree : MountNode} {path target : Names}
  {source s : MountSource} {builder : PlanBuilder} {plan : MountPlan}

section Order

def SourceLe (left right : MountSource) : Prop := sourceOrder left right ≠ .gt

instance : DecidableRel SourceLe :=
    fun left right => inferInstanceAs (Decidable (sourceOrder left right ≠ .gt))

instance : Std.TransCmp sourceOrder :=
  inferInstanceAs (Std.TransCmp
    (compareLex (compareOn MountSource.moduleId) (compareOn fun source => text source.relative)))

instance : Std.Total SourceLe where
  total a b := Comparison.total a b

instance : IsTrans MountSource SourceLe where
  trans _ _ _ hab hbc := Comparison.trans hab hbc

theorem SourceLe.moduleId (h : SourceLe source s) : compare source.moduleId s.moduleId ≠ .gt := by
  intro hgt
  simp [SourceLe, sourceOrder, hgt] at h

def Sorted (tree : MountNode) : Prop := ∀ path, (MountTree.sourcesAt path tree).Pairwise SourceLe

theorem Sorted.insert (h : Sorted tree) : Sorted (MountTree.insert tree target source) := by
  intro path
  rw [MountTree.sourcesAt_insert]
  split
  · exact List.pairwise_insertionSort SourceLe _
  · exact h path

theorem Sorted.insertModules (h : Sorted tree) (modules : List ModuleRecord) :
    Sorted (modules.foldl (insertModule input) tree) := by
  have hdecisions : ∀ (m : ModuleRecord) (chosen : List EntryDecision) (tree : MountNode), Sorted tree →
      Sorted (chosen.foldl (insertDecision m input.layout) tree) := by
    intro m chosen
    induction chosen with
    | nil => exact fun _ h => h
    | cons d rest ih => exact fun tree h => ih _ h.insert
  induction modules generalizing tree with
  | nil => exact h
  | cons m rest ih => exact ih (hdecisions m _ _ h)

theorem sorted_plan_tree (h : planModules input = .ok builder) : Sorted builder.tree := by
  rw [planModules_tree h]
  refine Sorted.insertModules (fun path => ?_) _
  rw [sourcesAt_root]
  exact .nil

theorem find?_le {α : Type} {r : α → α → Prop} {l : List α} {p : α → Bool} {a b : α} (hl : l.Pairwise r)
    (ha : l.find? p = some a)
    (hb : b ∈ l) (hp : p b = true) : a = b ∨ r a b := by
  obtain ⟨-, before, after, rfl, hbefore⟩ := List.find?_eq_some_iff_append.mp ha
  rcases List.mem_append.mp hb with hb | hb
  · exact absurd hp (by simpa using hbefore b hb)
  · rcases List.mem_cons.mp hb with rfl | hb
    · exact .inl rfl
    · obtain ⟨-, hafter, -⟩ := List.pairwise_append.mp hl
      exact .inr ((List.pairwise_cons.mp hafter).1 b hb)

theorem find?_reverse_le {α : Type} {r : α → α → Prop} {l : List α} {p : α → Bool} {a b : α}
    (hl : l.Pairwise r)
    (ha : l.reverse.find? p = some a) (hb : b ∈ l) (hp : p b = true) : a = b ∨ r b a :=
  find?_le (r := fun x y => r y x) (List.pairwise_reverse.mpr hl) ha (List.mem_reverse.mpr hb) hp

end Order

section Winners

/-- Magic takes the first module that has a source at the target. -/
theorem magicSeen_first {id : String} (hsorted : Sorted tree) (h : magicSeen tree target = some id)
    (hs : s ∈ MountTree.sourcesAt (targetComponents target) tree) (hbackend : s.backend = .magic) :
    compare id s.moduleId ≠ .gt := by
  simp only [magicSeen, Option.bind_eq_some_iff] at h
  obtain ⟨node, hnode, h⟩ := h
  split at h
  · obtain ⟨first, hfirst, rfl⟩ := Option.map_eq_some_iff.mp h
    obtain ⟨node', hnode', hmem⟩ := mem_sourcesAt_find.mp hs
    obtain rfl := Option.some.inj (hnode.symm.trans hnode')
    have hlist : MountTree.sourcesAt (targetComponents target) tree = node.value.sources := by
      simp [MountTree.sourcesAt, Trie.valueAt, hnode']
    have hpair := hsorted (targetComponents target)
    rw [hlist] at hpair
    rcases find?_le hpair hfirst hmem (by simpa using hbackend) with rfl | hle
    · simp [Std.ReflCmp.compare_self]
    · exact hle.moduleId
  · cases h

/-- VFS takes the last module that has a source other than a directory at the target. -/
theorem vfsSeen_last {id : String} (hordered : tree.Ordered compare) (hsorted : Sorted tree)
    (h : vfsSeen tree target = some id)
    (hs : s ∈ MountTree.sourcesAt (targetComponents target) tree) (hbackend : s.backend = .vfs)
    (htype : s.fileType ≠ .directory) :
    compare s.moduleId id ≠ .gt := by
  simp only [vfsSeen, Option.bind_eq_some_iff] at h
  obtain ⟨⟨action, moduleId⟩, hrule, h⟩ := h
  have hpath := List.find?_some hrule
  have hmem := List.mem_of_find?_eq_some hrule
  cases action with
  | whiteout path => cases h
  | opaqueDir path => cases h
  | inject path realPath =>
    cases h
    obtain rfl : path = targetComponents target := of_decide_eq_true hpath
    obtain ⟨node, last, hnode, rfl, -, hlast⟩ := mem_buildVfsRules_inject hordered hmem
    obtain ⟨node', hnode', hmem'⟩ := mem_sourcesAt_find.mp hs
    obtain rfl := Option.some.inj (hnode.symm.trans hnode')
    have hlist : MountTree.sourcesAt (targetComponents target) tree = node.value.sources := by
      simp [MountTree.sourcesAt, Trie.valueAt, hnode']
    have hpair := hsorted (targetComponents target)
    rw [hlist] at hpair
    rcases find?_reverse_le hpair hlast hmem' (by simp [hbackend, htype]) with rfl | hle
    · simp [Std.ReflCmp.compare_self]
    · exact hle.moduleId

end Winners

section Modules

theorem screenEntry_congr
    (h : (rules.resolveMode entry.relative = .ignore) = (rules'.resolveMode entry.relative = .ignore)) :
    screenEntry m rules layout entry = screenEntry m rules' layout entry := by
  unfold screenEntry
  by_cases hignore : rules.resolveMode entry.relative = .ignore
  · have hignore' : rules'.resolveMode entry.relative = .ignore := by rwa [← h]
    rw [if_pos hignore, if_pos hignore']
  · have hignore' : ¬rules'.resolveMode entry.relative = .ignore := by rwa [← h]
    rw [if_neg hignore, if_neg hignore']

theorem accepts_congr
    (h : ∀ x ∈ m.entries, (rules.resolveMode x.relative = .ignore) =
    (rules'.resolveMode x.relative = .ignore)) :
    accepts m rules layout entry = accepts m rules' layout entry := by
  have hblocked : blockedSubtrees m rules layout = blockedSubtrees m rules' layout := by
    unfold blockedSubtrees
    congr 1
    exact List.filter_congr fun x hx => by rw [screenEntry_congr (h x hx)]
  simp only [accepts, isBlocked, hblocked]

/-- The same modules, given to another backend, are accepted entry by entry. -/
theorem Planned.transfer (hsame : SameModules input input') (hall : AllOn input mode)
    (hall' : AllOn input' mode')
    (hmode : mode ≠ .ignore) (hmode' : mode' ≠ .ignore) (h : Planned input m ⟨entry, mode⟩) :
    Planned input' m ⟨entry, mode'⟩ := by
  obtain ⟨hm, hd⟩ := h
  have hm' : m ∈ input'.planned := by
    rw [mem_planned] at hm ⊢
    simpa only [← hsame.modules, Config.isModuleBlacklisted, ← hsame.blacklist] using hm
  obtain ⟨hmem, haccepts, -⟩ := mem_decisions.mp hd
  refine ⟨hm', mem_decisions.mpr ⟨hmem, ?_, (hall' m hm' entry hmem).symm⟩⟩
  rw [← hsame.layout, ← haccepts]
  apply accepts_congr
  intro x hx
  rw [hall m hm x hx, hall' m hm' x hx]
  exact propext ⟨fun h => absurd h hmode', fun h => absurd h hmode⟩

end Modules

/-- Where two modules provide a file, the three backends never show the file of one module. -/
theorem backends_never_agree {overlayInput magicInput vfsInput : PlanInput} {overlay magic vfs : MountPlan}
    {probe : Names → Probe} {execution : OverlayExecutionPlan} (_ : buildPlan overlayInput = .ok overlay)
    (hmagic : buildPlan magicInput = .ok magic) (hvfs : buildPlan vfsInput = .ok vfs)
    (_ : buildOverlayExecutionPlan probe overlay = .ok execution)
    (hsame : SameModules magicInput overlayInput ∧ SameModules magicInput vfsInput)
    (hall : AllOn overlayInput .overlay ∧ AllOn magicInput .magic ∧ AllOn vfsInput .vfs)
    (hm : Planned magicInput m ⟨entry, .magic⟩) (hm' : Planned magicInput m' ⟨entry', .magic⟩)
    (hne : m.id ≠ m'.id)
    (hfile : entry.fileType = .regularFile ∧ entry'.fileType = .regularFile)
    (htarget : magicInput.layout.targetOf entry.relative = target ∧
      magicInput.layout.targetOf entry'.relative = target) :
    ¬Agree overlay magic vfs execution target := by
  rintro ⟨id, -, hfirst, hlast⟩
  obtain ⟨magicBuilder, hmagicBuilt⟩ := buildPlan_finished hmagic
  obtain ⟨vfsBuilder, hvfsBuilt⟩ := buildPlan_finished hvfs
  have hmagicModules := hmagicBuilt.modules
  have hvfsModules := hvfsBuilt.modules
  rw [hmagicBuilt.tree] at hfirst
  rw [hvfsBuilt.tree] at hlast
  -- Every provider comes after Magic's choice and before that of VFS.
  have hbetween : ∀ m entry, Planned magicInput m ⟨entry, .magic⟩ → entry.fileType = .regularFile →
      magicInput.layout.targetOf entry.relative = target → m.id = id := by
    intro m entry hplanned htype hplace
    have hplanned' := hplanned.transfer hsame.2 hall.2.1 hall.2.2 (by decide) (by decide)
    have hmem := (mem_plan_tree hmagicModules).mpr ⟨m, _, hplanned, rfl, rfl⟩
    have hmem' := (mem_plan_tree hvfsModules).mpr ⟨m, _, hplanned', rfl, rfl⟩
    have hplace' : vfsInput.layout.targetOf entry.relative = target := hsame.2.layout ▸ hplace
    simp only [PlanInput.target, hplace] at hmem
    simp only [PlanInput.target, hplace'] at hmem'
    have hle := magicSeen_first (sorted_plan_tree hmagicModules) hfirst hmem rfl
    have hge := vfsSeen_last (ordered_plan_tree hvfsModules) (sorted_plan_tree hvfsModules) hlast hmem' rfl
      (by simp [sourceOf, htype])
    have heq : compare m.id id = .eq := by
      rw [@Std.OrientedCmp.eq_swap String compare] at hle
      cases hcmp : compare m.id id with
      | lt => simp [sourceOf, hcmp] at hle
      | eq => rfl
      | gt => exact absurd hcmp hge
    exact Std.LawfulEqCmp.eq_of_compare heq
  exact hne ((hbetween m entry hm hfile.1 htarget.1).trans (hbetween m' entry' hm' hfile.2 htarget.2).symm)

def hostsEntry : ModuleEntry := { relative := ["system", "etc", "hosts"], fileType := .regularFile }

def hostsModule (id : String) : ModuleRecord where
  id
  sourcePath := ["modules", id]
  entries := [{ relative := ["system", "etc"], fileType := .directory }, hostsEntry]

/-- Two modules provide the same file, and every entry goes to one backend. -/
def hostsOn (mode : Mode) : PlanInput where
  modules := [hostsModule "a", hostsModule "b"]
  config := { defaultMode := mode, rules := [], moduleBlacklist := [] }
  layout := { roots := [("system", ["system"])], errors := [], mountPoints := [] }
  vfsAvailable := true

def hostsPath : Names := ["system", "etc", "hosts"]

theorem hosts_same (mode mode' : Mode) : SameModules (hostsOn mode) (hostsOn mode') := ⟨rfl, rfl, rfl⟩

theorem hosts_allOn : AllOn (hostsOn .overlay) .overlay ∧ AllOn (hostsOn .magic) .magic ∧
    AllOn (hostsOn .vfs) .vfs := by
  simp only [AllOn]
  decide +kernel

theorem hosts_planned : Planned (hostsOn .magic) (hostsModule "a") ⟨hostsEntry, .magic⟩ ∧
    Planned (hostsOn .magic) (hostsModule "b") ⟨hostsEntry, .magic⟩ := by
  have hall : ∀ m ∈ [hostsModule "a", hostsModule "b"], m ∈ (hostsOn .magic).planned ∧
      ⟨hostsEntry, .magic⟩ ∈ decisions m ((hostsOn .magic).rulesOf m) (hostsOn .magic).layout := by
        decide +kernel
  have ha := hall (hostsModule "a") (by simp)
  have hb := hall (hostsModule "b") (by simp)
  exact ⟨⟨ha.1, ha.2⟩, ⟨hb.1, hb.2⟩⟩

theorem hosts_target : (hostsOn .magic).layout.targetOf hostsEntry.relative = hostsPath := by decide +kernel

/-- Every directory of the device exists. -/
def complete : Names → Probe := fun _ => .directory

theorem hosts_plans : ∃ overlay execution magic vfs, buildPlan (hostsOn .overlay) = .ok overlay ∧
    buildOverlayExecutionPlan complete overlay = .ok execution ∧ buildPlan (hostsOn .magic) = .ok magic ∧
      buildPlan (hostsOn .vfs) = .ok vfs ∧ magicSeen magic.tree hostsPath = some "a" ∧
        vfsSeen vfs.tree hostsPath = some "b" := by
  have hseen : (buildPlan (hostsOn .overlay)).toOption.map
    (fun plan => (buildOverlayExecutionPlan complete plan).toOption.isSome) =
        some true ∧
      (buildPlan (hostsOn .magic)).toOption.map (fun plan => magicSeen plan.tree hostsPath) =
        some (some "a") ∧
      (buildPlan (hostsOn .vfs)).toOption.map (fun plan => vfsSeen plan.tree hostsPath) =
          some (some "b") := by
        decide +kernel
  obtain ⟨hoverlay, hmagic, hvfs⟩ := hseen
  obtain ⟨overlay, hoverlay, hbuilt⟩ := buildPlan_of_view hoverlay
  obtain ⟨execution, hexecution⟩ := Option.isSome_iff_exists.mp hbuilt
  obtain ⟨magic, hmagic, hfirst⟩ := buildPlan_of_view hmagic
  obtain ⟨vfs, hvfs, hlast⟩ := buildPlan_of_view hvfs
  exact ⟨overlay, execution, magic, vfs, hoverlay, Fallible.ok_of_toOption hexecution, hmagic, hvfs,
    hfirst, hlast⟩

theorem backends_never_agree_hosts :
    ∃ overlay magic vfs execution, buildPlan (hostsOn .overlay) = .ok overlay ∧
    buildPlan (hostsOn .magic) = .ok magic ∧ buildPlan (hostsOn .vfs) = .ok vfs ∧
    ¬Agree overlay magic vfs execution hostsPath := by
  obtain ⟨overlay, execution, magic, vfs, hoverlay, hexecution, hmagic, hvfs, -⟩ := hosts_plans
  obtain ⟨ha, hb⟩ := hosts_planned
  exact ⟨overlay, magic, vfs, execution, hoverlay, hmagic, hvfs,
    backends_never_agree hoverlay hmagic hvfs hexecution
    ⟨hosts_same _ _, hosts_same _ _⟩ hosts_allOn ha hb (by decide) ⟨rfl, rfl⟩ ⟨hosts_target, hosts_target⟩⟩

theorem backends_agree_refuted :
    ¬∀ (overlayInput magicInput vfsInput : PlanInput) (overlay magic vfs : MountPlan)
    (probe : Names → Probe) (execution : OverlayExecutionPlan) (m m' : ModuleRecord)
    (entry entry' : ModuleEntry) (target : Names),
    buildPlan overlayInput = .ok overlay → buildPlan magicInput = .ok magic → buildPlan vfsInput = .ok vfs →
      buildOverlayExecutionPlan probe overlay = .ok execution →
        SameModules magicInput overlayInput ∧ SameModules magicInput vfsInput →
          AllOn overlayInput .overlay ∧ AllOn magicInput .magic ∧ AllOn vfsInput .vfs →
            Planned magicInput m ⟨entry, .magic⟩ → Planned magicInput m' ⟨entry', .magic⟩ → m.id ≠ m'.id →
              entry.fileType = .regularFile ∧ entry'.fileType = .regularFile →
                magicInput.layout.targetOf entry.relative = target ∧
                  magicInput.layout.targetOf entry'.relative = target →
                  (∀ m d, Planned magicInput m d → magicInput.target d = target →
                    d.entry.fileType = .regularFile) →
                    Agree overlay magic vfs execution target := by
  intro hall
  obtain ⟨overlay, execution, magic, vfs, hoverlay, hexecution, hmagic, hvfs, hfirst, hlast⟩ := hosts_plans
  obtain ⟨ha, hb⟩ := hosts_planned
  have honly : ∀ m d, Planned (hostsOn .magic) m d → (hostsOn .magic).target d = hostsPath →
      d.entry.fileType = .regularFile := by
    have hcheck : ∀ m ∈ (hostsOn .magic).planned,
        ∀ d ∈ decisions m ((hostsOn .magic).rulesOf m) (hostsOn .magic).layout,
        (hostsOn .magic).target d = hostsPath → d.entry.fileType = .regularFile := by decide +kernel
    exact fun m d h => hcheck m h.module d h.decision
  obtain ⟨id, -, hid, hid'⟩ := hall _ _ _ _ _ _ _ _ _ _ _ _ hostsPath hoverlay hmagic hvfs hexecution
    ⟨hosts_same _ _, hosts_same _ _⟩ hosts_allOn ha hb (by decide) ⟨rfl, rfl⟩
      ⟨hosts_target, hosts_target⟩ honly
  rw [hfirst] at hid
  rw [hlast] at hid'
  exact absurd (hid.trans hid'.symm) (by decide)

end HybridMount.Plan
