import HybridMount.Fallible
import HybridMount.Planner

/-! What the modules contribute to the overlays of a finished plan. A module asks for layers and
for files; of the layers it asks for at one target, the plan keeps the last. -/

namespace HybridMount.Plan

inductive Contribution where
  | layer (dir : Names)
  | file (parent relative : Names)
  deriving DecidableEq, Repr

namespace Contribution

def dir? : Contribution → Option Names
  | layer dir => some dir
  | file _ _ => none

/-- The path that has to be mapped before the contribution can be made. -/
def mapped : Contribution → Names
  | layer dir => dir
  | file parent _ => parent

end Contribution

/-- The overlays of a plan: the directory a module layers over a target, and the files which are
to appear in one. -/
structure Overlays where
  layer : Names → String → Option Names
  file : Names → String → Names → Prop

namespace Overlays

def contribute (module : ModuleRecord) (layout : PartitionLayout) (overlays : Overlays) :
    Contribution → Overlays
  | .layer dir => { overlays with
      layer := fun target id =>
        if target = layout.targetOf dir ∧ id = module.id then some (module.sourcePath ++ dir)
          else overlays.layer target id }
  | .file parent relative => { overlays with
      file := fun target id source => overlays.file target id source ∨
        target = layout.targetOf parent ∧ id = module.id ∧ source = module.sourcePath ++ relative }

end Overlays

def PlanBuilder.overlays (builder : PlanBuilder) : Overlays where
  layer target id := (builder.overlayByTarget.get target).bind fun entry => entry.2.get id
  file target id source := ∃ sources, builder.overlayFilesByTarget.get target = some sources ∧
    (id, source) ∈ sources.keys

section

variable (layout : PartitionLayout)

def wholeContribution (replaced : List Names) (decision : EntryDecision) : Option Contribution :=
  let relative := decision.entry.relative
  let rootLen := layout.rootLen relative
  if hasOverlayAncestor relative replaced then none
  else if relative.length = rootLen && decision.entry.replace then some (.layer relative)
  else if rootLen + 1 < relative.length ||
      (decision.entry.fileType = .directory && relative.length = rootLen + 1) then
    some (.layer (relative.take (rootLen + 1)))
  else if decision.entry.fileType ≠ .directory && relative.length = rootLen + 1 then
    some (.file (relative.take rootLen) relative)
  else none

def partialFile (decision : EntryDecision) : Option Contribution :=
  if decision.entry.relative.length ≤ 1 then none
  else some (.file decision.entry.relative.dropLast decision.entry.relative)

def partialContributions (decisions : List EntryDecision) : List Contribution :=
  let rels := overlayRels decisions
  ((decisions.filter (isOverlayDirRoot rels)).map fun decision => .layer decision.entry.relative) ++
    (decisions.filter (isOverlayFile rels)).filterMap partialFile

def contributions (module : ModuleRecord) (rules : ModuleRulesView) : List Contribution :=
  let chosen := decisions module rules layout
  if overlayRels chosen = [] then []
  else if isWholeOverlay rules chosen
    then chosen.filterMap (wholeContribution layout (replacedRoots layout chosen))
  else partialContributions chosen

end

variable {module : ModuleRecord} {rules : ModuleRulesView} {layout : PartitionLayout}
  {builder b b' : PlanBuilder}
  {chosen : List EntryDecision} {decision : EntryDecision} {overlays : Overlays} {c : Contribution}
  {cs : List Contribution} {relative parent target dir source : Names} {id partition : String}

namespace PlanBuilder

theorem overlays_addOverlayLayer :
    (b.addOverlayLayer partition (layout.targetOf dir) module.id (module.sourcePath ++ dir)).overlays =
      b.overlays.contribute module layout (.layer dir) := by
  have hlayer : ∀ target id, (b.addOverlayLayer partition (layout.targetOf dir) module.id
      (module.sourcePath ++ dir)).overlays.layer
      target id = (b.overlays.contribute module layout (.layer dir)).layer target id := by
    intro target id
    simp only [overlays, addOverlayLayer, Overlays.contribute, OrderedMap.Map.get_insert]
    by_cases ht : target = layout.targetOf dir
    · subst ht
      cases hget : b.overlayByTarget.get (layout.targetOf dir) with
      | none => simp [OrderedMap.Map.get_insert]
      | some entry => simp [OrderedMap.Map.get_insert]
    · simp [ht]
  exact congrArg (fun layer => Overlays.mk layer b.overlays.file) (funext₂ hlayer)

theorem overlays_addOverlayFile :
    (b.addOverlayFile (layout.targetOf parent) module.id (module.sourcePath ++ relative)).overlays =
      b.overlays.contribute module layout (.file parent relative) := by
  have hfile : ∀ target id source,
      (b.addOverlayFile (layout.targetOf parent) module.id (module.sourcePath ++ relative)).overlays.file
        target id source =
        (b.overlays.contribute module layout (.file parent relative)).file target id source := by
    intro target id source
    apply propext
    simp only [overlays, addOverlayFile, Overlays.contribute, OrderedMap.Map.get_insert]
    by_cases ht : target = layout.targetOf parent
    · subst ht
      cases hget : b.overlayFilesByTarget.get (layout.targetOf parent) with
      | none => simp [OrderedMap.Map.mem_keys_add]
      | some sources =>
        simp [OrderedMap.Map.mem_keys_add]
        tauto
    · simp [ht]
  exact congrArg (Overlays.mk b.overlays.layer) (funext₃ hfile)

end PlanBuilder

theorem addLayer_ok (h : addLayer module layout b dir = .ok b') :
    b'.overlays = b.overlays.contribute module layout (.layer dir) := by
  obtain ⟨⟨partition, target⟩, hmap, hok⟩ := Fallible.bind_ok h
  cases hok
  obtain ⟨-, -, -, rfl, -⟩ := PartitionLayout.mapTarget_ok hmap
  exact PlanBuilder.overlays_addOverlayLayer

theorem addFile_ok (h : addFile module layout b parent relative = .ok b') :
    b'.overlays = b.overlays.contribute module layout (.file parent relative) := by
  obtain ⟨⟨partition, target⟩, hmap, hok⟩ := Fallible.bind_ok h
  cases hok
  obtain ⟨-, -, -, rfl, -⟩ := PartitionLayout.mapTarget_ok hmap
  exact PlanBuilder.overlays_addOverlayFile

/-- What a step does to the overlays when it succeeds. -/
def Overlays.contribute? (module : ModuleRecord) (layout : PartitionLayout) (overlays : Overlays) :
    Option Contribution → Overlays
  | none => overlays
  | some c => overlays.contribute module layout c

theorem Overlays.foldl_contribute? {α : Type} (contribution : α → Option Contribution) (items : List α) :
    items.foldl (fun overlays item => overlays.contribute? module layout (contribution item)) overlays =
      (items.filterMap contribution).foldl (contribute module layout) overlays := by
  induction items generalizing overlays with
  | nil => rfl
  | cons item rest ih =>
    rw [List.foldl_cons, ih]
    cases hc : contribution item with
    | none => rw [List.filterMap_cons_none hc, contribute?]
    | some c => rw [List.filterMap_cons_some hc, List.foldl_cons, contribute?]

theorem addWholeOverlayLayer_ok {replaced : List Names}
    (h : addWholeOverlayLayer module layout replaced b decision = .ok b') :
    b'.overlays = b.overlays.contribute? module layout (wholeContribution layout replaced decision) := by
  unfold addWholeOverlayLayer at h
  unfold wholeContribution
  dsimp only at h ⊢
  by_cases hancestor : hasOverlayAncestor decision.entry.relative replaced = true
  · rw [if_pos hancestor] at h ⊢
    cases h
    rfl
  rw [if_neg hancestor] at h ⊢
  split at h
  · rename_i hroot
    rw [if_pos hroot]
    exact addLayer_ok h
  rename_i hroot
  rw [if_neg hroot]
  split at h
  · rename_i hdeep
    rw [if_pos hdeep]
    exact addLayer_ok h
  rename_i hdeep
  rw [if_neg hdeep]
  split at h
  · rename_i hfile
    rw [if_pos hfile]
    exact addFile_ok h
  · rename_i hfile
    rw [if_neg hfile]
    cases h
    rfl

theorem addPartialFile_ok (h : addPartialFile module layout b decision = .ok b') :
    b'.overlays = b.overlays.contribute? module layout (partialFile decision) := by
  unfold addPartialFile at h
  unfold partialFile
  by_cases hlen : decision.entry.relative.length ≤ 1
  · rw [if_pos hlen]
    simp only [hlen, if_true, Except.ok.injEq] at h
    exact h ▸ rfl
  · rw [if_neg hlen]
    simp only [hlen, if_false] at h
    exact addFile_ok h

theorem addPartialOverlay_ok (h : addPartialOverlay module layout chosen b = .ok b') :
    b'.overlays = (partialContributions chosen).foldl (Overlays.contribute module layout) b.overlays := by
  obtain ⟨mid, hlayers, hfiles⟩ := Fallible.bind_ok h
  have hl := Fallible.foldlM_view PlanBuilder.overlays (fun overlays (decision : EntryDecision) =>
    overlays.contribute module layout (.layer decision.entry.relative))
      (fun _ _ _ _ hstep => addLayer_ok hstep) hlayers
  have hf := Fallible.foldlM_view PlanBuilder.overlays (fun overlays decision =>
    overlays.contribute? module layout (partialFile decision))
      (fun _ _ _ _ hstep => addPartialFile_ok hstep) hfiles
  rw [hf, Overlays.foldl_contribute?, hl, partialContributions, List.foldl_append, List.foldl_map]

section Views

variable {α : Type} {v : PlanBuilder → α} {entries : List ModuleEntry}

theorem collected_view
    (hview : ∀ b magic vfs, v { b with magicModuleIds := magic, vfsModuleIds := vfs } = v b) :
    v (collectVfs module chosen (collectMagic module chosen b)) = v b := by
  unfold collectVfs collectMagic
  split
  · split
    · exact hview b _ _
    · exact hview b b.magicModuleIds _
  · split
    · exact hview b _ b.vfsModuleIds
    · rfl

theorem noted_view (hview : ∀ b errors, v { b with partitionErrors := errors } = v b) :
    v (entries.foldl (notePartitionError module rules layout) b) = v b := by
  induction entries generalizing b with
  | nil => rfl
  | cons entry rest ih =>
    rw [List.foldl_cons, ih]
    unfold notePartitionError
    dsimp only
    split
    · split
      · rfl
      · exact hview b _
    · rfl

/-- Registering an entry changes the tree and the assignments only. -/
theorem registered_view
    (hview : ∀ b tree assignments, v { b with tree := tree, assignments := assignments } = v b)
    (h : registerDecision module layout b decision = .ok b') : v b' = v b := by
  obtain ⟨⟨partition, target⟩, -, hok⟩ := Fallible.bind_ok h
  dsimp only at hok
  split at hok
  · cases hok
    exact hview b _ b.assignments
  · unfold PlanBuilder.register at hok
    dsimp only at hok
    split at hok
    · cases hok
    · cases hok
      exact hview b _ _

theorem foldl_const {β : Type} (items : List β) (x : α) : items.foldl (fun x _ => x) x = x := by
  induction items with
  | nil => rfl
  | cons _ rest ih => exact ih

theorem registered_all_view
    (hview : ∀ b tree assignments, v { b with tree := tree, assignments := assignments } = v b)
    (h : chosen.foldlM (registerDecision module layout) b = .ok b') : v b' = v b :=
  (Fallible.foldlM_view v (fun seen _ => seen) (fun _ _ _ _ hstep => registered_view hview hstep) h).trans
    (foldl_const _ _)

end Views

theorem register_ok {mode : Mode} {fileType : NodeFileType} {replace : Bool}
    (h : b.register target mode id relative fileType replace = .ok b') :
    b'.overlays = b.overlays ∧ b'.tree = b.tree := by
  unfold PlanBuilder.register at h
  dsimp only at h
  split at h
  · cases h
  · cases h
    exact ⟨rfl, rfl⟩

theorem registerDecision_ok (h : registerDecision module layout b decision = .ok b') :
    b'.overlays = b.overlays ∧
      b'.tree = MountTree.insert b.tree (layout.targetOf decision.entry.relative)
        (sourceOf module decision) := by
  obtain ⟨⟨partition, target⟩, hmap, hok⟩ := Fallible.bind_ok h
  obtain ⟨-, -, -, rfl, -⟩ := PartitionLayout.mapTarget_ok hmap
  dsimp only at hok
  split at hok
  · cases hok
    exact ⟨rfl, rfl⟩
  · exact register_ok hok

theorem addOverlays_ok (h : addOverlays module rules layout (decisions module rules layout) b = .ok b') :
    b'.overlays = (contributions layout module rules).foldl (Overlays.contribute module layout)
      b.overlays := by
  unfold addOverlays at h
  unfold contributions
  dsimp only
  by_cases hnone : overlayRels (decisions module rules layout) = []
  · rw [if_pos hnone] at h ⊢
    cases h
    exact collected_view fun _ _ _ => rfl
  rw [if_neg hnone] at h ⊢
  by_cases hwhole : isWholeOverlay rules (decisions module rules layout) = true
  · rw [if_pos hwhole] at h ⊢
    rw [← Overlays.foldl_contribute?]
    exact Fallible.foldlM_view PlanBuilder.overlays _ (fun _ _ _ _ hstep => addWholeOverlayLayer_ok hstep) h
  · rw [if_neg hwhole] at h ⊢
    obtain ⟨mid, hpartial, hok⟩ := Fallible.bind_ok h
    cases hok
    exact (collected_view fun _ _ _ => rfl).trans (addPartialOverlay_ok hpartial)

theorem processModule_ok (h : processModule module rules layout b = .ok b') :
    b'.overlays = (contributions layout module rules).foldl (Overlays.contribute module layout)
      b.overlays := by
  obtain ⟨registered, hregister, hoverlays⟩ := Fallible.bind_ok h
  rw [addOverlays_ok hoverlays, registered_all_view (v := PlanBuilder.overlays) (fun _ _ _ => rfl) hregister,
    noted_view (v := PlanBuilder.overlays) fun _ _ => rfl]
  rfl

section Folding

theorem file_contribute {a : String} : (overlays.contribute module layout c).file target a source ↔
    overlays.file target a source ∨
    ∃ parent relative, c = .file parent relative ∧ target = layout.targetOf parent ∧ a = module.id ∧
      source = module.sourcePath ++ relative := by
  cases c with
  | layer dir => simp [Overlays.contribute]
  | file parent relative => simp [Overlays.contribute]

theorem file_contributions : (cs.foldl (Overlays.contribute module layout) overlays).file target id source ↔
    overlays.file target id source ∨ ∃ parent relative, .file parent relative ∈ cs ∧
    target = layout.targetOf parent ∧
      id = module.id ∧ source = module.sourcePath ++ relative := by
  induction cs generalizing overlays with
  | nil => simp
  | cons c rest ih =>
    rw [List.foldl_cons, ih, file_contribute]
    simp only [List.mem_cons]
    constructor
    · rintro ((h | ⟨parent, relative, rfl, hrest⟩) | ⟨parent, relative, hmem, hrest⟩)
      · exact .inl h
      · exact .inr ⟨parent, relative, .inl rfl, hrest⟩
      · exact .inr ⟨parent, relative, .inr hmem, hrest⟩
    · rintro (h | ⟨parent, relative, rfl | hmem, hrest⟩)
      · exact .inl (.inl h)
      · exact .inl (.inr ⟨parent, relative, rfl, hrest⟩)
      · exact .inr ⟨parent, relative, hmem, hrest⟩

/-- The directories layered over a target, in the order in which they are asked for. -/
def dirsAt (layout : PartitionLayout) (cs : List Contribution) (target : Names) : List Names :=
  (cs.filterMap Contribution.dir?).filter fun dir => layout.targetOf dir = target

/-- Of the layers one module asks for at a target the last one stays. -/
theorem layer_contributions : (cs.foldl (Overlays.contribute module layout) overlays).layer target id =
    if id = module.id then ((dirsAt layout cs target).getLast?.map fun dir => module.sourcePath ++ dir).or
      (overlays.layer target id)
    else overlays.layer target id := by
  induction cs generalizing overlays with
  | nil => simp [dirsAt]
  | cons c rest ih =>
    rw [List.foldl_cons, ih]
    by_cases hid : id = module.id
    · simp only [hid, if_true]
      cases c with
      | file parent relative =>
        have hskip : dirsAt layout (.file parent relative :: rest) target = dirsAt layout rest target := rfl
        rw [hskip]
        rfl
      | layer dir =>
        by_cases ht : layout.targetOf dir = target
        · have hsplit : dirsAt layout (.layer dir :: rest) target = dir :: dirsAt layout rest target := by
            simp [dirsAt, Contribution.dir?, ht]
          rw [hsplit, List.getLast?_cons]
          cases hlast : (dirsAt layout rest target).getLast? with
          | none => simp [Overlays.contribute, ht]
          | some last => simp
        · have hskip : dirsAt layout (.layer dir :: rest) target = dirsAt layout rest target := by
            simp [dirsAt, Contribution.dir?, ht]
          rw [hskip]
          have hne : ¬target = layout.targetOf dir := fun h => ht h.symm
          simp [Overlays.contribute, hne]
    · simp only [hid, if_false]
      cases c with
      | file parent relative => rfl
      | layer dir => simp [Overlays.contribute, hid]

end Folding

section Finished

variable {input : PlanInput} {plan : MountPlan}

/-- What stands behind a successful plan: the builder whose parts it took over, and the walks which
its tree passed. -/
structure Finished (input : PlanInput) (plan : MountPlan) (builder : PlanBuilder) : Prop where
  modules : planModules input = .ok builder
  plan : plan = { builder.finish with
    partitionLayout := input.layout, protectedTargets := protectedTargets input.layout }
  replaceConsistent : ensureReplaceBackendConsistency builder.tree = .ok ()
  vfsNotShadowed : ensureVfsNotShadowed builder.tree = .ok ()
  vfsOpaqueExclusive : ensureVfsOpaqueExclusive builder.tree = .ok ()
  whiteoutExclusive : ensureWhiteoutExclusive builder.tree = .ok ()

theorem buildPlan_finished (h : buildPlan input = .ok plan) : ∃ builder, Finished input plan builder := by
  obtain ⟨builder, hmodules, h⟩ := Fallible.bind_ok h
  obtain ⟨_, hreplace, h⟩ := Fallible.bind_ok h
  obtain ⟨_, hshadow, h⟩ := Fallible.bind_ok h
  obtain ⟨_, hopaque, h⟩ := Fallible.bind_ok h
  obtain ⟨_, hwhiteout, h⟩ := Fallible.bind_ok h
  exact ⟨builder, hmodules, (Except.ok.inj h).symm, hreplace, hshadow, hopaque, hwhiteout⟩

theorem Finished.tree {builder : PlanBuilder} (h : Finished input plan builder) :
    plan.tree = builder.tree := by
  rw [h.plan]
  rfl

end Finished

end HybridMount.Plan
