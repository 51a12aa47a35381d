import HybridMount.PlanContributions

/-! The tree of a finished plan holds the sources of all accepted entries, and the checks have
visited every one of its nodes. -/

namespace HybridMount.Plan

/-- An accepted entry of a module that takes part, on whatever backend. -/
structure Planned (input : PlanInput) (m : ModuleRecord) (d : EntryDecision) : Prop where
  module : m ∈ input.planned
  decision : d ∈ decisions m (input.rulesOf m) input.layout

/-- An active contribution: its backend is not to ignore it. -/
structure Active (input : PlanInput) (m : ModuleRecord)
    (d : EntryDecision) : Prop extends Planned input m d where
  mode : d.mode ≠ .ignore

def PlanInput.target (input : PlanInput) (d : EntryDecision) : Names := input.layout.targetOf d.entry.relative

/-- What the registration of entries builds, apart from the overlays. -/
def PlanBuilder.registry (builder : PlanBuilder) :
    MountNode × OrderedMap.Map Names (List TargetAssignment) textOrder :=
  (builder.tree, builder.assignments)

variable {input : PlanInput} {plan : MountPlan} {module m m' : ModuleRecord} {rules : ModuleRulesView}
  {layout : PartitionLayout} {builder b b' : PlanBuilder} {chosen : List EntryDecision}
    {decision d d' : EntryDecision}
  {path target dir relative parent : Names} {source s : MountSource} {modules : List ModuleRecord}
    {tree node : MountNode}

section Overlays

/-- What neither a layer nor a file of an overlay disturbs. -/
structure OverlaySteady (P : PlanBuilder → Prop) : Prop where
  layer : ∀ b partition target moduleId source, P b → P (b.addOverlayLayer partition target moduleId source)
  file : ∀ b target moduleId source, P b → P (b.addOverlayFile target moduleId source)

namespace OverlaySteady

variable {P : PlanBuilder → Prop}

theorem of_view {α : Type} {view : PlanBuilder → α} {seen : α}
    (hlayer : ∀ b partition target moduleId source,
      view (b.addOverlayLayer partition target moduleId source) = view b)
    (hfile : ∀ b target moduleId source, view (b.addOverlayFile target moduleId source) = view b) :
    OverlaySteady fun b => view b = seen :=
  ⟨fun b _ _ _ _ h => (hlayer b ..).trans h, fun b _ _ _ h => (hfile b ..).trans h⟩

theorem addLayer (hP : OverlaySteady P) (h : addLayer module layout b dir = .ok b') (hb : P b) : P b' := by
  obtain ⟨⟨partition, target⟩, -, hok⟩ := Fallible.bind_ok h
  cases hok
  exact hP.layer _ _ _ _ _ hb

theorem addFile (hP : OverlaySteady P) (h : addFile module layout b parent relative = .ok b')
    (hb : P b) : P b' := by
  obtain ⟨⟨partition, target⟩, -, hok⟩ := Fallible.bind_ok h
  cases hok
  exact hP.file _ _ _ _ hb

theorem fold {α : Type} {step : PlanBuilder → α → Except PlanError PlanBuilder} {items : List α}
    (hstep : ∀ b a b', step b a = .ok b' → P b → P b') (h : items.foldlM step b = .ok b') (hb : P b) : P b' :=
  Fallible.foldlM_invariant (fun _ => P) (fun _ a b b' hb hs => hstep b a b' hs hb) h hb

theorem addWholeOverlayLayer (hP : OverlaySteady P) {replaced : List Names}
    (h : addWholeOverlayLayer module layout replaced b decision = .ok b') (hb : P b) : P b' := by
  unfold Plan.addWholeOverlayLayer at h
  dsimp only at h
  split at h
  · cases h
    exact hb
  split at h
  · exact hP.addLayer h hb
  split at h
  · exact hP.addLayer h hb
  split at h
  · exact hP.addFile h hb
  · cases h
    exact hb

theorem addPartialFile (hP : OverlaySteady P) (h : addPartialFile module layout b decision = .ok b')
    (hb : P b) : P b' := by
  unfold Plan.addPartialFile at h
  dsimp only at h
  split at h
  · cases h
    exact hb
  · exact hP.addFile h hb

theorem addPartialOverlay (hP : OverlaySteady P) (h : addPartialOverlay module layout chosen b = .ok b')
    (hb : P b) : P b' := by
  obtain ⟨mid, hlayers, hfiles⟩ := Fallible.bind_ok h
  exact fold (fun _ _ _ => hP.addPartialFile) hfiles (fold (fun _ _ _ => hP.addLayer) hlayers hb)

/-- The other backends are collected after the overlays, unless the module is all overlay. -/
theorem addOverlays (hP : OverlaySteady P) (h : addOverlays module rules layout chosen b = .ok b') (hb : P b) :
    (isWholeOverlay rules chosen = true ∧ P b') ∨
      ∃ mid, P mid ∧ b' = collectVfs module chosen (collectMagic module chosen mid) := by
  unfold Plan.addOverlays at h
  split at h
  · cases h
    exact .inr ⟨b, hb, rfl⟩
  split at h
  · rename_i hwhole
    exact .inl ⟨hwhole, fold (fun _ _ _ => hP.addWholeOverlayLayer) h hb⟩
  · obtain ⟨mid, hpartial, hok⟩ := Fallible.bind_ok h
    cases hok
    exact .inr ⟨mid, hP.addPartialOverlay hpartial hb, rfl⟩

end OverlaySteady

end Overlays

section Registry

theorem registry_addOverlays (h : addOverlays module rules layout chosen b = .ok b') :
    b'.registry = b.registry := by
  have hsteady : OverlaySteady fun b' => b'.registry = b.registry :=
    .of_view (fun _ _ _ _ _ => rfl) fun _ _ _ _ => rfl
  rcases hsteady.addOverlays h rfl with ⟨-, hb'⟩ | ⟨mid, hmid, rfl⟩
  · exact hb'
  · exact (collected_view fun _ _ _ => rfl).trans hmid

theorem processModule_registry (h : processModule module rules layout b = .ok b') : ∃ start done,
    start.registry = b.registry ∧ b'.registry = done.registry ∧
      (decisions module rules layout).foldlM (registerDecision module layout) start = .ok done := by
  obtain ⟨registered, hregister, hoverlays⟩ := Fallible.bind_ok h
  refine ⟨_, registered, ?_, registry_addOverlays hoverlays, hregister⟩
  exact noted_view fun _ _ => rfl

end Registry

section Tree

def insertDecision (module : ModuleRecord) (layout : PartitionLayout) (tree : MountNode)
    (decision : EntryDecision) : MountNode :=
  MountTree.insert tree (layout.targetOf decision.entry.relative) (sourceOf module decision)

def insertModule (input : PlanInput) (tree : MountNode) (m : ModuleRecord) : MountNode :=
  (decisions m (input.rulesOf m) input.layout).foldl (insertDecision m input.layout) tree

theorem planModules_tree (h : planModules input = .ok builder) :
    builder.tree = input.planned.foldl (insertModule input) MountTree.root := by
  refine Fallible.foldlM_view PlanBuilder.tree _ (fun m _ b b' hstep => ?_) h
  obtain ⟨start, done, hstart, hdone, hfold⟩ := processModule_registry hstep
  have hview := Fallible.foldlM_view PlanBuilder.tree (insertDecision m input.layout)
    (fun _ _ _ _ hregister => (registerDecision_ok hregister).2) hfold
  rw [show b'.tree = done.tree from congrArg Prod.fst hdone, hview, show start.tree = b.tree
    from congrArg Prod.fst hstart]
  rfl

theorem mem_insertModule : s ∈ MountTree.sourcesAt path (insertModule input tree m) ↔
    s ∈ MountTree.sourcesAt path tree ∨
    ∃ d ∈ decisions m (input.rulesOf m) input.layout, s = sourceOf m d ∧
    path = targetComponents (input.target d) := by
  unfold insertModule
  induction decisions m (input.rulesOf m) input.layout generalizing tree with
  | nil => simp
  | cons d rest ih =>
    rw [List.foldl_cons, ih, insertDecision, MountTree.mem_sourcesAt_insert,
      List.exists_mem_cons_iff, or_assoc]
    rfl

theorem mem_insertModules : s ∈ MountTree.sourcesAt path (modules.foldl (insertModule input) tree) ↔
    s ∈ MountTree.sourcesAt path tree ∨ ∃ m ∈ modules, ∃ d ∈ decisions m (input.rulesOf m) input.layout,
      s = sourceOf m d ∧ path = targetComponents (input.target d) := by
  induction modules generalizing tree with
  | nil => simp
  | cons m rest ih => rw [List.foldl_cons, ih, mem_insertModule, List.exists_mem_cons_iff, or_assoc]

theorem sourcesAt_root : MountTree.sourcesAt path MountTree.root = [] := by
  cases path with
  | nil => rfl
  | cons name rest => rfl

theorem mem_plan_tree (h : planModules input = .ok builder) : s ∈ MountTree.sourcesAt path builder.tree ↔
    ∃ m d, Planned input m d ∧ s = sourceOf m d ∧ path = targetComponents (input.target d) := by
  rw [planModules_tree h, mem_insertModules, sourcesAt_root]
  constructor
  · rintro (h | ⟨m, hm, d, hd, hs⟩)
    · cases h
    · exact ⟨m, d, ⟨hm, hd⟩, hs⟩
  · rintro ⟨m, d, ⟨hm, hd⟩, hs⟩
    exact .inr ⟨m, hm, d, hd, hs⟩

theorem mem_sourcesAt_find : s ∈ MountTree.sourcesAt path tree ↔ ∃ node, tree.find compare path = some node ∧
    s ∈ node.value.sources := by
  cases hnode : tree.find compare path with
  | none => simp [MountTree.sourcesAt, Trie.valueAt, hnode]
  | some node => simp [MountTree.sourcesAt, Trie.valueAt, hnode]

theorem ordered_insertModules (h : tree.Ordered compare) :
    (modules.foldl (insertModule input) tree).Ordered compare := by
  have hdecisions : ∀ (chosen : List EntryDecision) (m : ModuleRecord) (tree : MountNode),
      tree.Ordered compare →
      (chosen.foldl (insertDecision m input.layout) tree).Ordered compare := by
    intro chosen m
    induction chosen with
    | nil => exact fun _ h => h
    | cons d rest ih => exact fun tree h => ih _ (Trie.ordered_grow h)
  induction modules generalizing tree with
  | nil => exact h
  | cons m rest ih => exact ih (hdecisions _ _ _ h)

theorem ordered_plan_tree (h : planModules input = .ok builder) : builder.tree.Ordered compare := by
  rw [planModules_tree h]
  exact ordered_insertModules (.intro .nil (by simp [MountTree.root]))

end Tree

section Checks

theorem mem_active_sources (hs : s ∈ node.value.sources) (hbackend : s.backend ≠ .ignore)
    (hnone : ∀ mode, mode ≠ .ignore → node.value.sourceFor mode = none) : False := by
  have hh := List.find?_eq_none.mp (hnone s.backend hbackend) s hs
  simp at hh

/-- At the node of an active whiteout every active source is a whiteout, and no node below has one. -/
theorem whiteout_exclusive (h : ensureWhiteoutExclusive tree = .ok ())
    (hnode : tree.find compare path = some node)
    (hs : s ∈ node.value.sources) (htype : s.fileType = .whiteout) (hbackend : s.backend ≠ .ignore) :
    (∀ other ∈ node.value.sources, other.backend ≠ .ignore → other.fileType = .whiteout) ∧
      ∀ below rest, node.find compare rest = some below → rest ≠ [] → ∀ other ∈ below.value.sources,
        other.backend = .ignore := by
  obtain ⟨_, hvisit⟩ := Trie.visit_find h hnode
  obtain ⟨_, hcheck, -⟩ := Trie.visit_ok hvisit
  unfold checkWhiteout at hcheck
  dsimp only at hcheck
  cases hremoval : node.value.sources.find?
    (fun source => source.fileType = .whiteout && source.backend ≠ .ignore) with
  | none =>
    have hh := List.find?_eq_none.mp hremoval s hs
    simp [htype, hbackend] at hh
  | some removal =>
    rw [hremoval] at hcheck
    split at hcheck
    · cases hcheck
    · rename_i hnone
      have hother := Option.eq_none_iff_forall_ne_some.mpr fun other hother => hnone removal other rfl hother
      obtain ⟨hsame, hbelow⟩ := Option.or_eq_none_iff.mp hother
      constructor
      · intro other hmem hactive
        have hh := List.find?_eq_none.mp hsame other hmem
        simpa [hactive] using hh
      · intro below rest hfind hrest other hmem
        by_contra hactive
        refine mem_active_sources hmem hactive fun mode hmode => ?_
        have hmodes : ∀ mode ∈ [Mode.overlay, .magic, .vfs], firstDescendantSource node mode = none := by
          simpa using hbelow
        exact Trie.firstBelow_none (hmodes mode (by cases mode <;> simp_all)) hfind hrest

end Checks

end HybridMount.Plan
