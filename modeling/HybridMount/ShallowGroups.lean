import HybridMount.Fallible
import HybridMount.OrderedLists
import HybridMount.OverlayExecution

/-! The execution plan neither loses nor repeats an overlay: what becomes of every operation and
of every single file. -/

namespace HybridMount.Plan

/-- The single files, each with the path where it is to be seen. -/
def filePieces (rules : List (Names × List Names)) : List (Names × Names) :=
  rules.flatMap fun rule => rule.2.map fun source => (source, rule.1 ++ source.getLast?.toList)

/-- The lower directories of the operations whose target is no directory yet. -/
def layerPieces (probe : Names → Probe) (operations : List OverlayOperation) : List (Names × Names) :=
  (operations.filter fun operation => probe operation.target ≠ .directory).flatMap fun operation =>
    operation.lowerdirs.map fun lower => (lower, operation.target)

def directIndices (probe : Names → Probe) (operations : List (OverlayOperation × Nat)) : List Nat :=
  (operations.filter fun operation => probe operation.1.target = .directory).map Prod.snd

/-- The sources of all shallow groups, each with the path where it is seen. -/
def OverlayExecutionPlan.pieces (execution : OverlayExecutionPlan) : List (Names × Names) :=
  execution.shallow.grouped.map fun item => (item.2.source, item.1 ++ item.2.destinationRelative)

variable {probe : Names → Probe} {execution execution' : OverlayExecutionPlan}
  {target mountTarget destination key : Names}
  {sources : List ShallowOverlaySource} {rule : Names × List Names} {rules : List (Names × List Names)}
  {operation : OverlayOperation × Nat} {operations : List (OverlayOperation × Nat)}

section Push

theorem mem_keys_push : key ∈ (execution.push mountTarget sources).shallow.keys ↔
    key = mountTarget ∨ key ∈ execution.shallow.keys := by
  simp only [OverlayExecutionPlan.push, OrderedMap.Map.mem_keys, OrderedMap.Map.get_insert]
  by_cases h : key = mountTarget
  · simp [h]
  · simp [h]

theorem grouped_push : (execution.push mountTarget sources).shallow.grouped.Perm
    (execution.shallow.grouped ++ sources.map fun source => (mountTarget, source)) :=
  OrderedMap.Map.grouped_extend

theorem pieces_push : (execution.push mountTarget sources).pieces.Perm
    (execution.pieces ++ sources.map fun source =>
      (source.source, mountTarget ++ source.destinationRelative)) := by
  have hgrouped : (execution.push mountTarget sources).shallow.grouped.Perm
      (execution.shallow.grouped ++ sources.map fun source => (mountTarget, source)) := grouped_push
  have hh := hgrouped.map fun item => (item.2.source, item.1 ++ item.2.destinationRelative)
  simpa only [OverlayExecutionPlan.pieces, List.map_append, List.map_map, Function.comp_def] using hh

end Push

section Resolve

/-- The directory found above a missing target, and what is left of the target below it. -/
structure Rerouted (probe : Names → Probe) (target mountTarget destination : Names) : Prop where
  joined : mountTarget ++ destination = target
  directory : probe mountTarget = .directory
  notRoot : mountTarget ≠ []
  missing : probe target = .missing

theorem resolveAncestor_ok {n : Nat} (hn : n < target.length) (hmissing : probe target = .missing)
    {result : OverlayDirectoryTarget} (h : resolveAncestor probe target n = .ok result) :
    ∃ mountTarget destination, result = .missing mountTarget destination ∧
    Rerouted probe target mountTarget destination := by
  induction n with
  | zero => cases h
  | succ n ih =>
    cases hprobe : probe (target.take (n + 1)) with
    | directory =>
      simp only [resolveAncestor, hprobe, Except.ok.injEq] at h
      have hne : target.take (n + 1) ≠ [] := by
        apply List.ne_nil_of_length_pos
        rw [List.length_take]
        omega
      exact ⟨_, _, h.symm, List.take_append_drop _ _, hprobe, hne, hmissing⟩
    | failed error =>
      simp only [resolveAncestor, hprobe] at h
      cases h
    | other =>
      simp only [resolveAncestor, hprobe] at h
      exact ih (by omega) h
    | missing =>
      simp only [resolveAncestor, hprobe] at h
      exact ih (by omega) h

theorem resolve_ok {result : OverlayDirectoryTarget}
    (h : resolveOverlayDirectoryTarget probe target = .ok result) :
    (result = .existing ∧ probe target = .directory) ∨
      ∃ mountTarget destination, result = .missing mountTarget destination ∧
        Rerouted probe target mountTarget destination := by
  cases hprobe : probe target with
  | directory =>
    simp only [resolveOverlayDirectoryTarget, hprobe, Except.ok.injEq] at h
    exact .inl ⟨h.symm, rfl⟩
  | other =>
    simp only [resolveOverlayDirectoryTarget, hprobe] at h
    cases h
  | failed error =>
    simp only [resolveOverlayDirectoryTarget, hprobe] at h
    cases h
  | missing =>
    simp only [resolveOverlayDirectoryTarget, hprobe] at h
    cases target with
    | nil => cases h
    | cons name rest => exact .inr (resolveAncestor_ok (by simp) hprobe h)

end Resolve

/-- What is built once some rules and some operations have been looked at. -/
structure Built (probe : Names → Probe) (rules : List (Names × List Names))
    (operations : List (OverlayOperation × Nat))
    (execution : OverlayExecutionPlan) : Prop where
  direct : execution.direct = directIndices probe operations
  pieces : execution.pieces.Perm (filePieces rules ++ layerPieces probe (operations.map Prod.fst))
  keys : ∀ key ∈ execution.shallow.keys, probe key = .directory ∧ (key = [] → ∃ rule ∈ rules, rule.1 = [])
  ruled : ∀ rule ∈ rules, probe rule.1 = .directory → rule.2 ≠ [] → rule.1 ∈ execution.shallow.keys
  placed : ∀ operation ∈ operations, probe operation.1.target ≠ .directory →
    ∃ mountTarget ∈ execution.shallow.keys, ∃ destination, mountTarget ++ destination = operation.1.target ∧
      ∀ lower ∈ operation.1.lowerdirs, (mountTarget, ⟨lower, destination⟩) ∈ execution.shallow.grouped

section Files

theorem filePieces_append : filePieces (rules ++ [rule]) =
    filePieces rules ++ rule.2.map fun source => (source, rule.1 ++ source.getLast?.toList) := by
  simp [filePieces]

/-- All sources of one rule go below one mount point. -/
theorem pushFiles_ok (destination : Names) {files : List Names} (h : files.foldlM (fun execution source =>
      match source.getLast? with
      | none => .error (.noFileName source)
      | some fileName => .ok (execution.push mountTarget [⟨source, destination ++ [fileName]⟩])) execution =
        Except.ok (ε := ExecutionError) execution') :
    execution'.direct = execution.direct ∧
      execution'.pieces.Perm (execution.pieces ++ files.map fun source =>
        (source, mountTarget ++ destination ++ source.getLast?.toList)) ∧
      ∀ key, key ∈ execution'.shallow.keys ↔ key = mountTarget ∧ files ≠ [] ∨
        key ∈ execution.shallow.keys := by
  refine Fallible.foldlM_invariant (fun done now => now.direct = execution.direct ∧
      now.pieces.Perm (execution.pieces ++ done.map fun source =>
        (source, mountTarget ++ destination ++ source.getLast?.toList)) ∧
      ∀ key, key ∈ now.shallow.keys ↔ key = mountTarget ∧ done ≠ [] ∨ key ∈ execution.shallow.keys) ?_ h
        ⟨rfl, by simp, by simp⟩
  intro done source now next hnow hstep
  obtain ⟨hdirect, hpieces, hkeys⟩ := hnow
  cases hname : source.getLast? with
  | none =>
    simp only [hname] at hstep
    cases hstep
  | some fileName =>
    simp only [hname, Except.ok.injEq] at hstep
    subst hstep
    have hpush : (now.push mountTarget [⟨source, destination ++ [fileName]⟩]).pieces.Perm
        (now.pieces ++ [(source, mountTarget ++ (destination ++ [fileName]))]) := pieces_push
    have hone := hpush.trans (hpieces.append_right _)
    have hkeys' : ∀ key, key ∈ (now.push mountTarget [⟨source, destination ++ [fileName]⟩]).shallow.keys ↔
        key = mountTarget ∧ done ++ [source] ≠ [] ∨ key ∈ execution.shallow.keys := by
      intro key
      rw [mem_keys_push, hkeys key]
      simp only [ne_eq, List.append_eq_nil_iff, List.cons_ne_self, and_false, not_false_eq_true, and_true]
      tauto
    exact ⟨hdirect, by simpa [hname] using hone, hkeys'⟩

theorem planFiles_ok (h : planFiles probe execution rule = .ok execution') :
    ∃ mountTarget, probe mountTarget = .directory ∧
    (mountTarget = [] ∨ probe rule.1 = .directory → rule.1 = mountTarget) ∧
      execution'.direct = execution.direct ∧
      execution'.pieces.Perm (execution.pieces ++ rule.2.map fun source =>
        (source, rule.1 ++ source.getLast?.toList)) ∧
      ∀ key, key ∈ execution'.shallow.keys ↔ key = mountTarget ∧ rule.2 ≠ [] ∨
        key ∈ execution.shallow.keys := by
  obtain ⟨result, hresult, hrest⟩ := Fallible.bind_ok h
  rcases resolve_ok hresult with ⟨rfl, hdirectory⟩ | ⟨mountTarget, destination, rfl, hrerouted⟩
  · have hpushed := pushFiles_ok [] hrest
    exact ⟨rule.1, hdirectory, fun _ => rfl, by simpa using hpushed⟩
  · have hpushed := pushFiles_ok destination hrest
    rw [hrerouted.joined] at hpushed
    refine ⟨mountTarget, hrerouted.directory, ?_, hpushed⟩
    simp [hrerouted.notRoot, hrerouted.missing]

theorem Built.files (hbuilt : Built probe rules [] execution)
    (h : planFiles probe execution rule = .ok execution') :
    Built probe (rules ++ [rule]) [] execution' := by
  obtain ⟨mountTarget, hdirectory, hroot, hdirect, hpieces, hkeys⟩ := planFiles_ok h
  refine ⟨hdirect.trans hbuilt.direct, ?_, ?_, ?_, by simp⟩
  · have hold : execution.pieces.Perm (filePieces rules) := by simpa [layerPieces] using hbuilt.pieces
    rw [filePieces_append]
    simpa [layerPieces] using hpieces.trans (hold.append_right _)
  · intro key hkey
    rcases (hkeys key).mp hkey with ⟨rfl, -⟩ | hkey
    · exact ⟨hdirectory, fun h => ⟨rule, by simp, (hroot (.inl h)).trans h⟩⟩
    · obtain ⟨hkeyDirectory, hkeyRoot⟩ := hbuilt.keys key hkey
      refine ⟨hkeyDirectory, fun h => ?_⟩
      obtain ⟨rule, hrule, htarget⟩ := hkeyRoot h
      exact ⟨rule, List.mem_append_left _ hrule, htarget⟩
  · intro other hother hexists hfiles
    rcases List.mem_append.mp hother with hother | hother
    · exact (hkeys _).mpr (.inr (hbuilt.ruled other hother hexists hfiles))
    · obtain rfl := List.mem_singleton.mp hother
      exact (hkeys _).mpr (.inl ⟨hroot (.inr hexists), hfiles⟩)

end Files

section Operations

theorem Built.layers (hbuilt : Built probe rules operations execution)
    (h : planOperation probe execution operation = .ok execution') :
    Built probe rules (operations ++ [operation]) execution' := by
  obtain ⟨result, hresult, hrest⟩ := Fallible.bind_ok h
  rcases resolve_ok hresult with ⟨rfl, hdirectory⟩ | ⟨mountTarget, destination, rfl, hrerouted⟩
  · simp only [Except.ok.injEq] at hrest
    subst hrest
    refine ⟨by simp [directIndices, hbuilt.direct, hdirectory], ?_, hbuilt.keys, hbuilt.ruled, ?_⟩
    · have hsame : layerPieces probe ((operations ++ [operation]).map Prod.fst) =
          layerPieces probe (operations.map Prod.fst) := by
        simp [layerPieces, hdirectory]
      rw [hsame]
      exact hbuilt.pieces
    · intro other hother hmissing
      rcases List.mem_append.mp hother with hother | hother
      · exact hbuilt.placed other hother hmissing
      · rw [List.mem_singleton.mp hother] at hmissing
        exact absurd hdirectory hmissing
  · simp only [Except.ok.injEq] at hrest
    subst hrest
    refine ⟨by simp [directIndices, hbuilt.direct, hrerouted.missing, OverlayExecutionPlan.push],
      ?_, ?_, ?_, ?_⟩
    · have hnew : layerPieces probe ((operations ++ [operation]).map Prod.fst) =
          layerPieces probe (operations.map Prod.fst) ++
          operation.1.lowerdirs.map fun lower => (lower, operation.1.target) := by
        simp [layerPieces, hrerouted.missing]
      have hpush := pieces_push.trans (hbuilt.pieces.append_right
        ((operation.1.lowerdirs.map fun source => ShallowOverlaySource.mk source destination).map fun source =>
          (source.source, mountTarget ++ source.destinationRelative)))
      rw [hnew, ← List.append_assoc]
      simpa [Function.comp_def, hrerouted.joined] using hpush
    · intro key hkey
      rcases mem_keys_push.mp hkey with rfl | hkey
      · exact ⟨hrerouted.directory, fun hroot => absurd hroot hrerouted.notRoot⟩
      · exact hbuilt.keys key hkey
    · exact fun rule hrule hexists hfiles => mem_keys_push.mpr (.inr (hbuilt.ruled rule hrule hexists hfiles))
    · intro other hother hmissing
      rcases List.mem_append.mp hother with hother | hother
      · obtain ⟨key, hkey, rel, hjoined, hlowers⟩ := hbuilt.placed other hother hmissing
        refine ⟨key, mem_keys_push.mpr (.inr hkey), rel, hjoined, fun lower hlower => ?_⟩
        exact grouped_push.mem_iff.mpr (List.mem_append_left _ (hlowers lower hlower))
      · obtain rfl := List.mem_singleton.mp hother
        refine ⟨mountTarget, mem_keys_push.mpr (.inl rfl), destination, hrerouted.joined,
          fun lower hlower => ?_⟩
        apply grouped_push.mem_iff.mpr
        exact List.mem_append_right _ (by simpa using hlower)

end Operations

section Order

instance : Std.TransCmp shallowOrder :=
  inferInstanceAs (Std.TransCmp
    (compareLex (compareOn ShallowOverlaySource.source) (compareOn ShallowOverlaySource.destinationRelative)))

theorem shallowOrder_source {left right : ShallowOverlaySource} (h : shallowOrder left right ≠ .gt) :
    compare left.source right.source ≠ .gt := by
  intro hgt
  simp [shallowOrder, hgt] at h

theorem compare_below {base below below' : Names} {name name' : String}
    (h : compare (base ++ name :: below) (base ++ name' :: below') ≠ .gt) : compare name name' ≠ .gt := by
  induction base with
  | nil =>
    intro hgt
    simp [List.compare_cons_cons, hgt] at h
  | cons first base ih =>
    apply ih
    simpa [List.compare_cons_cons] using h

end Order

variable {plan : MountPlan}

theorem build_ok (h : buildOverlayExecutionPlan probe plan = .ok execution) :
    ∃ built : OverlayExecutionPlan, Built probe plan.overlayFiles plan.overlayOps.zipIdx built ∧
    execution.direct = built.direct ∧
      execution.shallow = built.shallow.mapValues fun sources => sources.insertionSort fun left right =>
        shallowOrder left right ≠ .gt := by
  obtain ⟨afterFiles, hfiles, hrest⟩ := Fallible.bind_ok h
  obtain ⟨built, hops, hsorted⟩ := Fallible.bind_ok hrest
  have hempty : Built probe [] [] ⟨[], .empty⟩ := ⟨rfl, .nil, by simp, by simp, by simp⟩
  have hafterFiles : Built probe plan.overlayFiles [] afterFiles :=
    Fallible.foldlM_invariant (fun done now => Built probe done [] now)
      (fun _ _ _ _ hbuilt hstep => hbuilt.files hstep) hfiles hempty
  have hbuilt : Built probe plan.overlayFiles plan.overlayOps.zipIdx built :=
    Fallible.foldlM_invariant (fun done now => Built probe plan.overlayFiles done now)
      (fun _ _ _ _ hbuilt hstep => hbuilt.layers hstep) hops hafterFiles
  cases hsorted
  exact ⟨built, hbuilt, rfl, rfl⟩

theorem build_grouped (h : buildOverlayExecutionPlan probe plan = .ok execution) :
    ∃ built : OverlayExecutionPlan, Built probe plan.overlayFiles plan.overlayOps.zipIdx built ∧
    execution.direct = built.direct ∧
      execution.shallow.grouped.Perm built.shallow.grouped ∧ execution.shallow.keys = built.shallow.keys ∧
      ∀ group ∈ execution.shallow.entries, group.2.Pairwise fun left right =>
        shallowOrder left right ≠ .gt := by
  obtain ⟨built, hbuilt, hdirect, hshallow⟩ := build_ok h
  refine ⟨built, hbuilt, hdirect, ?_, ?_, ?_⟩
  · rw [hshallow]
    exact OrderedMap.Map.grouped_mapValues fun _ => List.perm_insertionSort _ _
  · rw [hshallow]
    simp [OrderedMap.Map.keys, OrderedMap.Map.mapValues]
  · intro group hgroup
    rw [hshallow] at hgroup
    simp only [OrderedMap.Map.mapValues, List.mem_map] at hgroup
    obtain ⟨entry, -, heq⟩ := hgroup
    rw [← heq]
    exact Comparison.pairwise_insertionSort entry.2

theorem build_pieces (h : buildOverlayExecutionPlan probe plan = .ok execution) :
    execution.pieces.Perm (filePieces plan.overlayFiles ++ layerPieces probe plan.overlayOps) := by
  obtain ⟨built, hbuilt, -, hgrouped, -⟩ := build_grouped h
  have hpieces : execution.pieces.Perm built.pieces := hgrouped.map _
  simpa using hpieces.trans hbuilt.pieces

/-- The groups of the execution plan together hold every single file and every layer whose target is no
directory yet exactly once, for the path where the plan wants it; all other operations are direct. -/
theorem execution_plan_partitions (h : buildOverlayExecutionPlan probe plan = .ok execution) :
    execution.direct = directIndices probe plan.overlayOps.zipIdx ∧
    execution.pieces.Perm (filePieces plan.overlayFiles ++ layerPieces probe plan.overlayOps) ∧
    (∀ operation ∈ plan.overlayOps, probe operation.target ≠ .directory →
      ∃ group ∈ execution.shallow.entries, ∃ destination, group.1 ++ destination = operation.target ∧
        ∀ lower ∈ operation.lowerdirs, ⟨lower, destination⟩ ∈ group.2) ∧
    (∀ group ∈ execution.shallow.entries,
      probe group.1 = .directory ∧ (group.1 = [] → ∃ rule ∈ plan.overlayFiles, rule.1 = []) ∧
      group.2.Pairwise (fun left right => compare left.source right.source ≠ .gt) ∧
      group.2.Pairwise (fun left right => ∀ base module module' below below', left.source = base ++
        module :: below →
        right.source = base ++ module' :: below' → compare module module' ≠ .gt)) := by
  obtain ⟨built, hbuilt, hdirect, hgrouped, hkeys, hsortedGroups⟩ := build_grouped h
  refine ⟨hdirect.trans hbuilt.direct, build_pieces h, ?_, ?_⟩
  · intro operation hoperation hmissing
    obtain ⟨index, hindex⟩ := List.getElem?_of_mem hoperation
    obtain ⟨mountTarget, hmem, destination, hjoined, hlowers⟩ :=
      hbuilt.placed (operation, index) (List.mk_mem_zipIdx_iff_getElem?.mpr hindex) hmissing
    obtain ⟨sources, hsources⟩ := OrderedMap.Map.mem_keys.mp (hkeys ▸ hmem)
    refine ⟨(mountTarget, sources), OrderedMap.Map.mem_entries.mpr hsources, destination, hjoined,
      fun lower hlower => ?_⟩
    obtain ⟨⟨key, found⟩, hgroup, hkey, hin⟩ :=
      OrderedMap.Map.mem_grouped.mp (hgrouped.mem_iff.mpr (hlowers lower hlower))
    obtain rfl : key = mountTarget := hkey
    obtain rfl : found = sources :=
      Option.some.inj ((OrderedMap.Map.mem_entries.mp hgroup).symm.trans hsources)
    exact hin
  · intro group hgroup
    have hkey : group.1 ∈ built.shallow.keys := hkeys ▸ List.mem_map_of_mem hgroup
    have hsources : group.2.Pairwise fun left right => compare left.source right.source ≠ .gt :=
      (hsortedGroups group hgroup).imp shallowOrder_source
    refine ⟨(hbuilt.keys _ hkey).1, (hbuilt.keys _ hkey).2, hsources, hsources.imp ?_⟩
    intro left right hle base module module' below below' hleft hright
    rw [hleft, hright] at hle
    exact compare_below hle

/-- Product has no fonts and vendor no firmware on this device. -/
def fontsProbe (path : Names) : Probe :=
  if path = ["product", "fonts"] ∨ path = ["vendor", "firmware"] then .missing else .directory

def overlaysOnly (operations : List OverlayOperation) (files : List (Names × List Names)) : MountPlan :=
  { PlanBuilder.finish {} with overlayOps := operations, overlayFiles := files }

def fontsPlan : MountPlan :=
  overlaysOnly [⟨"product", ["product", "fonts"], [["m", "fonts"]]⟩,
    ⟨"system", ["system", "etc"], [["m", "system", "etc"]]⟩]
    [(["vendor", "firmware"], [["m", "vendor", "firmware", "a.bin"]])]

theorem fonts_partition : ∃ execution, buildOverlayExecutionPlan fontsProbe fontsPlan = .ok execution ∧
    execution.direct = [1] ∧
    execution.pieces.Perm [(["m", "vendor", "firmware", "a.bin"], ["vendor", "firmware", "a.bin"]),
      (["m", "fonts"], ["product", "fonts"])] := by
  have hbuilds : (buildOverlayExecutionPlan fontsProbe fontsPlan).toOption.isSome = true := by decide +kernel
  obtain ⟨execution, hexecution⟩ := Option.isSome_iff_exists.mp hbuilds
  have hok := Fallible.ok_of_toOption hexecution
  obtain ⟨hdirect, hpieces, -, -⟩ := execution_plan_partitions hok
  exact ⟨execution, hok, hdirect.trans (by decide +kernel), hpieces⟩

/-- The root is left out among the directories above a missing target only: a file rule may name it. -/
theorem root_file_group :
    ∃ execution, buildOverlayExecutionPlan fontsProbe (overlaysOnly [] [([], [["m", "init.rc"]])]) =
    .ok execution ∧
    ∃ group ∈ execution.shallow.entries, group.1 = [] := by
  have hkeys : (buildOverlayExecutionPlan fontsProbe
      (overlaysOnly [] [([], [["m", "init.rc"]])])).toOption.map
      (fun execution => execution.shallow.entries) = some [([], [⟨["m", "init.rc"], ["init.rc"]⟩])] := by
        decide +kernel
  obtain ⟨execution, hexecution, hentries⟩ := Option.map_eq_some_iff.mp hkeys
  exact ⟨execution, Fallible.ok_of_toOption hexecution, _, hentries ▸ List.mem_cons_self, rfl⟩

end HybridMount.Plan
