import HybridMount.OverlayView

/-! What the mount phases attach and register, and how a failed boot takes it away again. -/

namespace HybridMount

open Mounted Plan Traced

/-- The live tree, or the private staging directory, which lies outside of every target. -/
inductive Area where
  | live
  | staging
  deriving DecidableEq, Repr

structure ManagedTarget where
  area : Area
  path : Names
  deriving DecidableEq, Repr

/-- The mounts of the process and the targets registered for the rollback, oldest first. -/
structure PipelineMounts where
  live : LiveTree
  staging : LiveTree
  registered : List ManagedTarget

namespace PipelineMounts

def tree (s : PipelineMounts) : Area → LiveTree
  | .live => s.live
  | .staging => s.staging

def withTree (s : PipelineMounts) : Area → LiveTree → PipelineMounts
  | .live, tree => { s with live := tree }
  | .staging, tree => { s with staging := tree }

def register (s : PipelineMounts) (targets : List ManagedTarget) : PipelineMounts :=
  { s with registered := s.registered ++ targets }

end PipelineMounts

/-- A copy as a bind makes it: nothing is stacked upon its root. -/
structure BoundTree where
  tree : LiveTree
  layered : tree.Layered
  uncovered : tree.uncovered

def BoundTree.file (content : String) : BoundTree where
  tree := .mk (fun q => if q = [] then some (.regular content) else none) []
  layered := .mk List.Pairwise.nil fun _ hb => absurd hb List.not_mem_nil
  uncovered := rfl

def MountEffect.managed : MountEffect → Option ManagedTarget
  | .target path => some ⟨.live, path⟩
  | .staging _ => none

/-- What the overlay and the Magic phase do to the mounts. An overlay may fail at any of its
system calls. A bind in the staging directory is registered under its staging path; the bind of
the staging directory upon itself is not. -/
inductive MountStep where
  | overlay (root : Names) (moduleRoots : List ModuleRoot) (stagingRoot : Names) (failing : List Bool)
  | bindFile (target : Names) (content : String)
  | bindStaged (target : Names) (copy : BoundTree) (registered : Bool)
  | moveStaged (source target : Names)

def MountStep.perform (s : PipelineMounts) : MountStep → PipelineMounts
  | overlay root moduleRoots stagingRoot failing =>
    let run := mountOverlay root moduleRoots stagingRoot ⟨s.live, 0, failing⟩
    ({ s with live := run.state.live }).register (run.trace.filterMap MountEffect.managed)
  | bindFile target content =>
    ({ s with live := s.live.graft target (BoundTree.file content).tree }).register [⟨.live, target⟩]
  | bindStaged target copy registered =>
    ({ s with staging := s.staging.graft target copy.tree }).register
      (if registered then [⟨.staging, target⟩] else [])
  | moveStaged source target =>
    -- Only the root of a mount can be moved; what is attached to it comes along.
    if (s.staging.locate source).2 = [] then
      match s.staging.unmount true source with
      | .ok staging =>
        ({ s with live := s.live.graft target (s.staging.locate source).1, staging := staging }).register
          [⟨.live, target⟩]
      | .error _ => s
    else s

/-- Every unmount is an event, which shows the live tree after it. -/
abbrev Unmounting := Prog PipelineMounts LiveTree Error

def tryUnmount (detach : Bool) (target : ManagedTarget) : Unmounting (Except Refusal Unit) := fun s =>
  match (s.tree target.area).unmount detach target.path with
  | .ok tree => ⟨.ok (.ok ()), s.withTree target.area tree, [(s.withTree target.area tree).live]⟩
  | .error refusal => ⟨.ok (.error refusal), s, []⟩

/-- The deepest points come first; a point which carries several mounts is listed once. -/
def deepestFirstNames (left right : Names) : Bool :=
  ((compare right.length left.length).then (compare right left)).isLE

def descendants (tree : LiveTree) (path : Names) : List Names :=
  (tree.points.dedup.filter (isBelow path)).insertionSort fun left right => deepestFirstNames left right

def unmountTarget (target : ManagedTarget) : Unmounting Unit := do
  match ← tryUnmount false target with
  | .ok _ | .error .noent | .error .inval => return ()
  | .error .busy =>
    match ← tryUnmount true target with
    | .ok _ => return ()
    | .error _ => Prog.fail (.msg ("lazy unmount mount target " ++ showPath target.path))

def rollbackMountTarget (target : ManagedTarget) : Unmounting Unit := do
  let s ← Prog.get
  Prog.forEach (fun path => unmountTarget ⟨target.area, path⟩)
    (descendants (s.tree target.area) target.path ++ [target.path])

def runAction (failures : List Error) (target : ManagedTarget) : Unmounting (List Error) := do
  match ← Prog.attempt (rollbackMountTarget target) with
  | .ok _ => return failures
  | .error error => return failures ++ [error]

/-- Run every action in reverse order, and report the failures. -/
def rollbackMounts : Unmounting (List Error) := do
  let s ← Prog.get
  s.registered.reverse.foldlM runAction []

/-- `tree` is `base` with further trees attached to it, one after another. -/
inductive Raised (base : LiveTree) : LiveTree → Prop
  | base : Raised base base
  | graft {tree : LiveTree} : Raised base tree → ∀ (path : Names) (copy : LiveTree),
      Raised base (tree.graft path copy)

/-- How the live tree has grown together with the list of registered targets. -/
inductive Built (base : LiveTree) : LiveTree → List ManagedTarget → Prop
  | base : Built base base []
  | staged {tree : LiveTree} {registered : List ManagedTarget} {path : Names} :
      Built base tree registered → Built base tree (registered ++ [⟨.staging, path⟩])
  | raised {tree : LiveTree} {registered : List ManagedTarget} {root : Names} {below : List Names}
      (copy : BoundTree) :
      Built base tree registered → (∀ path ∈ below, isBelow root path) →
      Built base (tree.graft root copy.tree) (registered ++ (root :: below).map (⟨.live, ·⟩))

variable {base tree : LiveTree} {registered : List ManagedTarget} {s : PipelineMounts}

theorem Built.raised_base (h : Built base tree registered) : Raised base tree := by
  induction h with
  | base => exact .base
  | staged _ ih => exact ih
  | raised copy _ _ ih => exact ih.graft _ _

theorem Built.layered (hbase : base.Layered) (h : Built base tree registered) : tree.Layered := by
  induction h with
  | base => exact hbase
  | staged _ ih => exact ih
  | raised copy _ _ ih => exact ih.graft copy.layered _

/-- What holds of the mounts between two steps. -/
structure Standing (base : LiveTree) (s : PipelineMounts) : Prop where
  built : Built base s.live s.registered
  staging : s.staging.Layered

theorem managed_targets (paths : List Names) :
    (paths.map MountEffect.target).filterMap MountEffect.managed = paths.map (⟨.live, ·⟩) := by
  rw [List.filterMap_map]
  exact List.filterMap_eq_map ▸ rfl

theorem managed_staging {trace : List MountEffect} (h : ∀ effect ∈ trace, effect.isTarget = false) :
    trace.filterMap MountEffect.managed = [] := by
  refine List.filterMap_eq_nil_iff.mpr fun effect he => ?_
  cases effect with
  | target path => exact absurd (h _ he) (by simp [MountEffect.isTarget])
  | staging path => rfl

/-- Completed or not, an overlay registers exactly what it has attached. -/
theorem Standing.overlay (hbase : base.Layered) (h : Standing base s) (root : Names)
    (moduleRoots : List ModuleRoot) (stagingRoot : Names) (failing : List Bool) :
    Standing base ((MountStep.overlay root moduleRoots stagingRoot failing).perform s) := by
  have hlive := h.built.layered hbase
  have hspec := prepareTarget_spec hlive root moduleRoots stagingRoot ⟨s.live, 0, failing⟩ rfl
    fun _ _ => trivial
  rw [MountStep.perform]
  cases hrun : prepareTarget root moduleRoots stagingRoot ⟨s.live, 0, failing⟩ with
  | mk result s' trace =>
    rw [hrun] at hspec
    cases result with
    | error e =>
      rw [mountOverlay, Prog.bind_error hrun]
      obtain ⟨htrace, hkept, -⟩ := hspec
      simp only at hkept htrace
      simp only [PipelineMounts.register, hkept, managed_staging htrace, List.append_nil]
      exact h
    | ok prepared =>
      obtain ⟨htrace, hkept, hchildren, hprepared⟩ := hspec
      simp only at hkept htrace
      rw [mountOverlay_ok hrun]
      simp only [PipelineMounts.register, hkept, List.filterMap_append, managed_staging htrace,
        List.nil_append,
        managed_targets]
      refine ⟨h.built.raised ⟨prepared.1, hprepared.layered, hprepared.uncovered⟩ fun path hp =>
        ?_, h.staging⟩
      rw [hchildren] at hp
      exact (mem_childMountPoints.mp hp).2

theorem Standing.perform (hbase : base.Layered) (h : Standing base s) (step : MountStep) :
    Standing base (step.perform s) := by
  cases step with
  | overlay root moduleRoots stagingRoot failing => exact h.overlay hbase root moduleRoots stagingRoot failing
  | bindFile target content =>
    exact ⟨h.built.raised (.file content) fun _ hp => absurd hp List.not_mem_nil, h.staging⟩
  | bindStaged target copy registered =>
    have hstaging := h.staging.graft copy.layered target
    cases registered with
    | true => exact ⟨h.built.staged, hstaging⟩
    | false => exact ⟨by simpa [MountStep.perform, PipelineMounts.register] using h.built, hstaging⟩
  | moveStaged source target =>
    rw [MountStep.perform]
    split
    · split
      · rename_i staging hu
        let copy : BoundTree := ⟨_, h.staging.locate source, Mount.uncovered_locate _ _⟩
        exact ⟨h.built.raised copy fun _ hp => absurd hp List.not_mem_nil, h.staging.unmount hu⟩
      · exact h
    · exact h

theorem Standing.run (hbase : base.Layered) (h : Standing base s) (steps : List MountStep) :
    Standing base (steps.foldl MountStep.perform s) := by
  induction steps generalizing s with
  | nil => exact h
  | cons step steps ih => exact ih (h.perform hbase step)

/-- The live tree is `tree` with some copy attached at the path, whatever is left inside it. -/
def Atop (tree : LiveTree) (path : Names) (s : PipelineMounts) : Prop :=
  ∃ copy : LiveTree, copy.uncovered ∧ s.live = tree.graft path copy

/-- A step of the rollback which does not fail and takes no baseline mount away. -/
def Undoes {α : Type} (base : LiveTree) (P : PipelineMounts → Prop) (m : Unmounting α)
    (Q : PipelineMounts → Prop) :
    Prop :=
  Sat (fun _ => True) (Raised base) P m (fun _ => Q) fun _ _ => False

theorem tryUnmount_spec {detach : Bool} {target : ManagedTarget} {T : LiveTree → Prop}
    {P : PipelineMounts → Prop}
    {Q : Except Refusal Unit → PipelineMounts → Prop} {E : Error → PipelineMounts → Prop}
    (hok : ∀ s tree, P s → (s.tree target.area).unmount detach target.path = .ok tree →
      T (s.withTree target.area tree).live ∧ Q (.ok ()) (s.withTree target.area tree))
    (herr : ∀ s refusal, P s → (s.tree target.area).unmount detach target.path = .error refusal →
      Q (.error refusal) s) :
    Sat (fun _ => True) T P (tryUnmount detach target) Q E := by
  intro s hs _
  unfold tryUnmount
  cases h : (s.tree target.area).unmount detach target.path with
  | ok tree =>
    obtain ⟨ht, hq⟩ := hok s tree hs h
    exact ⟨List.forall_mem_singleton.mpr ht, hq⟩
  | error refusal => exact ⟨fun _ he => absurd he List.not_mem_nil, herr s refusal hs h⟩

/-- A strict unmount and the lazy one after a busy mount: where the strict call leads to `Q`,
the lazy one has to lead there too. -/
theorem Undoes.unmountTarget {target : ManagedTarget} {P Q : PipelineMounts → Prop}
    (hok : ∀ detach s tree, P s → (s.tree target.area).unmount detach target.path = .ok tree →
      Raised base (s.withTree target.area tree).live ∧ Q (s.withTree target.area tree))
    (hgone : ∀ s refusal, P s → (s.tree target.area).unmount false target.path = .error refusal →
      refusal ≠ .busy → Q s) :
    Undoes base P (HybridMount.unmountTarget target) Q := by
  let R : Except Refusal Unit → PipelineMounts → Prop := fun result s =>
    match result with
    | .error .busy => P s ∧ ∃ tree, (s.tree target.area).unmount true target.path = .ok tree
    | _ => Q s
  have hstrict : Sat (fun _ => True) (Raised base) P (tryUnmount false target) R fun _ _ => False := by
    refine tryUnmount_spec (fun s tree hs hu => hok false s tree hs hu) fun s refusal hs hu => ?_
    cases refusal with
    | noent => exact hgone s _ hs hu nofun
    | inval => exact hgone s _ hs hu nofun
    | busy => exact ⟨hs, Mount.unmount_of_busy hu⟩
  refine Sat.bind hstrict fun result => ?_
  match result with
  | .ok _ => exact Sat.pure fun _ hs => hs
  | .error .noent => exact Sat.pure fun _ hs => hs
  | .error .inval => exact Sat.pure fun _ hs => hs
  | .error .busy =>
    have hlazy : Sat (fun _ => True) (Raised base) (R (.error .busy)) (tryUnmount true target)
        (fun result s => result = .ok () ∧ Q s) fun _ _ => False := by
      refine tryUnmount_spec (fun s tree hs hu => ?_) fun s refusal hs hu => ?_
      · obtain ⟨hraised, hq⟩ := hok true s tree hs.1 hu
        exact ⟨hraised, rfl, hq⟩
      · obtain ⟨-, tree, htree⟩ := hs
        rw [htree] at hu
        cases hu
    refine Sat.bind hlazy fun result => ?_
    cases result with
    | ok _ => exact Sat.pure fun _ hs => hs.2
    | error refusal => exact fun s hs => absurd hs.1 nofun

/-- Below the point of an attached copy an unmount acts inside the copy. -/
theorem Undoes.below (hraised : Raised base tree) (hlive : tree.Layered) {root path : Names}
    (hp : isBelow root path) :
    Undoes base (Atop tree root) (HybridMount.unmountTarget ⟨.live, path⟩) (Atop tree root) := by
  obtain ⟨⟨q, rfl⟩, hne⟩ := isBelow_iff.mp hp
  have hq : q ≠ [] := fun hh => hne (by rw [hh, List.append_nil])
  refine unmountTarget (fun detach s after hs hu => ?_) fun s _ hs _ _ => hs
  obtain ⟨copy, hcopy, hlivetree⟩ := hs
  change s.live.unmount detach (root ++ q) = .ok after at hu
  rw [hlivetree, Mount.unmount_graft hlive root hq] at hu
  cases hc : copy.unmount detach q with
  | error refusal =>
    rw [hc] at hu
    cases hu
  | ok copy' =>
    rw [hc] at hu
    cases hu
    exact ⟨hraised.graft root copy', copy', Mount.uncovered_unmount hcopy hc, rfl⟩

/-- At its point the copy itself is taken away, and nothing else. -/
theorem Undoes.root (hraised : Raised base tree) (hlive : tree.Layered) (root : Names) :
    Undoes base (Atop tree root) (HybridMount.unmountTarget ⟨.live, root⟩) fun s => s.live = tree := by
  refine unmountTarget (fun detach s after hs hu => ?_) fun s refusal hs hu hbusy => ?_
  · obtain ⟨copy, hcopy, hlivetree⟩ := hs
    change s.live.unmount detach root = .ok after at hu
    rw [hlivetree, Mount.unmount_graft_self hlive root hcopy] at hu
    split at hu
    · cases hu
      exact ⟨hraised, rfl⟩
    · cases hu
  · obtain ⟨copy, hcopy, hlivetree⟩ := hs
    change s.live.unmount false root = .error refusal at hu
    rw [hlivetree, Mount.unmount_graft_self hlive root hcopy] at hu
    split at hu
    · cases hu
    · cases hu
      exact absurd rfl hbusy

theorem Undoes.staged (hraised : Raised base tree) (path : Names) :
    Undoes base (fun s => s.live = tree) (HybridMount.unmountTarget ⟨.staging, path⟩) fun s =>
    s.live = tree :=
  unmountTarget (fun _ s _ hs _ => ⟨by rw [← hs] at hraised; exact hraised, hs⟩) fun _ _ hs _ _ => hs

theorem isBelow_of_mem_descendants {path point : Names} (h : point ∈ descendants tree path) :
    isBelow path point := by
  rw [descendants, List.mem_insertionSort] at h
  exact (List.mem_filter.mp h).2

theorem Undoes.rollbackMountTarget {P Q : PipelineMounts → Prop} {target : ManagedTarget}
    (hbelow : ∀ path, isBelow target.path path →
      Undoes base P (HybridMount.unmountTarget ⟨target.area, path⟩) P)
    (hself : Undoes base P (HybridMount.unmountTarget target) Q) :
    Undoes base P (HybridMount.rollbackMountTarget target) Q := by
  refine Sat.bind (Q := fun _ s => P s) (Sat.get fun _ hs => hs) fun s => ?_
  exact Sat.forEach_last _ (fun path hp => hbelow path (isBelow_of_mem_descendants hp)) hself

theorem isBelow_trans {root path point : Names} (h : isBelow root path) (h' : isBelow path point) :
    isBelow root point := by
  obtain ⟨q, rfl⟩ := (isBelow_iff.mp h').1
  exact isBelow_append h

theorem Undoes.runAction {P Q : PipelineMounts → Prop} {target : ManagedTarget}
    (h : Undoes base P (HybridMount.rollbackMountTarget target) Q) :
    Sat (fun _ => True) (Raised base) P (HybridMount.runAction [] target)
      (fun failures s => failures = [] ∧ Q s)
      fun _ _ => False := by
  have hattempt : Sat (fun _ => True) (Raised base) P (Prog.attempt (HybridMount.rollbackMountTarget target))
      (fun result s => (∃ u, result = .ok u) ∧ Q s) (fun _ _ => False) :=
    Sat.attempt (h.weaken (fun u _ hq => ⟨⟨u, rfl⟩, hq⟩) fun _ _ he => he.elim)
  refine Sat.bind hattempt fun result => ?_
  cases result with
  | ok u => exact Sat.pure fun _ hs => ⟨rfl, hs.2⟩
  | error e => exact fun s hs => absurd hs.1 nofun

/-- The whole of what is left to run succeeds from `P` and ends in the baseline. -/
def UndoesAll (base : LiveTree) (P : PipelineMounts → Prop) (targets : List ManagedTarget) : Prop :=
  Sat (fun _ => True) (Raised base) P (targets.foldlM HybridMount.runAction [])
    (fun failures s => failures = [] ∧ s.live = base) fun _ _ => False

theorem UndoesAll.cons {P Q : PipelineMounts → Prop} {target : ManagedTarget} {rest : List ManagedTarget}
    (h : Undoes base P (HybridMount.rollbackMountTarget target) Q) (hrest : UndoesAll base Q rest) :
    UndoesAll base P (target :: rest) := by
  unfold UndoesAll
  rw [List.foldlM_cons]
  refine Sat.bind h.runAction fun failures => ?_
  intro s hs
  obtain ⟨rfl, hq⟩ := hs
  exact hrest s hq

theorem UndoesAll.below (hraised : Raised base tree) (hlive : tree.Layered) {root : Names}
    {rest : List ManagedTarget}
    (hrest : UndoesAll base (Atop tree root) rest) (paths : List Names)
    (hp : ∀ path ∈ paths, isBelow root path) :
    UndoesAll base (Atop tree root) (paths.map (⟨.live, ·⟩) ++ rest) := by
  induction paths with
  | nil => exact hrest
  | cons path paths ih =>
    obtain ⟨hpath, hpaths⟩ := List.forall_mem_cons.mp hp
    refine UndoesAll.cons (.rollbackMountTarget (fun point hpoint => ?_) (.below hraised hlive hpath)) (ih hpaths)
    exact .below hraised hlive (isBelow_trans hpath hpoint)

/-- The actions undo in reverse order what was built, one attached copy after another. -/
theorem Built.undone (hbase : base.Layered) (h : Built base tree registered) :
    UndoesAll base (fun s => s.live = tree) registered.reverse := by
  induction h with
  | base => exact Sat.pure fun _ hs => ⟨rfl, hs⟩
  | @staged tree registered path h ih =>
    rw [List.reverse_append]
    have hstaged : ∀ path, Undoes base (fun s => s.live = tree) (HybridMount.unmountTarget ⟨.staging, path⟩)
        fun s => s.live = tree := fun path => .staged h.raised_base path
    exact ih.cons (.rollbackMountTarget (fun path _ => hstaged path) (hstaged path))
  | @raised tree registered root below copy h hbelow ih =>
    have hlive := h.layered hbase
    have hraised := h.raised_base
    have hroot : UndoesAll base (Atop tree root) (⟨.live, root⟩ :: registered.reverse) :=
      ih.cons (.rollbackMountTarget (fun path hp => .below hraised hlive hp) (.root hraised hlive root))
    have hall := UndoesAll.below hraised hlive hroot below.reverse fun path hp =>
      hbelow path (List.mem_reverse.mp hp)
    have hlist : (registered ++ (root :: below).map (ManagedTarget.mk .live ·)).reverse =
        below.reverse.map (ManagedTarget.mk .live ·) ++ ⟨.live, root⟩ :: registered.reverse := by
      simp
    rw [hlist]
    exact hall.strengthen fun s hs => ⟨copy.tree, copy.uncovered, hs⟩

/-- Wherever the boot gives up, the rollback of the registered targets takes away every mount of
the run at a managed target; at every moment the baseline is there with what is left of them. -/
theorem rollback_restores (base : PipelineMounts) (hlive : base.live.Layered)
    (hstaging : base.staging.Layered)
    (hnew : base.registered = []) (steps : List MountStep) :
    (rollbackMounts (steps.foldl MountStep.perform base)).result = .ok [] ∧
      (rollbackMounts (steps.foldl MountStep.perform base)).state.live = base.live ∧
      Raised base.live (steps.foldl MountStep.perform base).live ∧
      ∀ tree ∈ (rollbackMounts (steps.foldl MountStep.perform base)).trace, Raised base.live tree := by
  have hstart : Standing base.live base := ⟨hnew ▸ .base, hstaging⟩
  have hbuilt := (hstart.run hlive steps).built
  have hall : Sat (fun _ => True) (Raised base.live) (fun s => s = steps.foldl MountStep.perform base)
      rollbackMounts
      (fun failures s => failures = [] ∧ s.live = base.live) fun _ _ => False := by
    refine Sat.bind (Q := fun s s' => s = steps.foldl MountStep.perform base ∧ s' = s)
      (Sat.get fun _ hs => ⟨hs, rfl⟩) fun s => ?_
    rintro s' ⟨rfl, hs⟩
    exact hbuilt.undone hlive s' (congrArg PipelineMounts.live hs)
  obtain ⟨htrace, hend⟩ := hall _ rfl fun _ _ => trivial
  cases hresult : (rollbackMounts (steps.foldl MountStep.perform base)).result with
  | ok failures =>
    rw [hresult] at hend
    obtain ⟨rfl, hrestored⟩ := hend
    exact ⟨rfl, hrestored, hbuilt.raised_base, htrace⟩
  | error e =>
    rw [hresult] at hend
    exact hend.elim

/-- The vendor partition before the mount phases, and a staging directory of its own. -/
def vendorMounts : PipelineMounts where
  live := vendorNamespace.live
  staging := .mk (fun p => if p = [] ∨ p = ["etc"] then some .directory else none) []
  registered := []

/-- The partition is covered twice, a directory is built aside and moved, one call fails. -/
def vendorSteps : List MountStep :=
  [.overlay ["vendor"] [libraryModule] ["mnt"] [], .overlay ["vendor"] [libraryModule] ["mnt"] [],
    .bindFile ["vendor", "lib", "libz.so"] "magic", .bindStaged ["etc"] (.file "self") false,
    .bindStaged ["etc", "hosts"] (.file "hosts") true, .moveStaged ["etc"] ["vendor", "lib"],
    .overlay ["vendor"] [libraryModule] ["mnt"] [false, true]]

example : (vendorSteps.foldl MountStep.perform vendorMounts).registered.map ManagedTarget.path =
    [["vendor"], ["vendor", "lib"], ["vendor", "lib", "hw"], ["vendor"], ["vendor", "lib"],
      ["vendor", "lib", "hw"],
      ["vendor", "lib", "libz.so"], ["etc", "hosts"], ["vendor", "lib"]] := by decide +kernel

theorem rollback_restores_vendor :
    (rollbackMounts (vendorSteps.foldl MountStep.perform vendorMounts)).result = .ok [] ∧
      (rollbackMounts (vendorSteps.foldl MountStep.perform vendorMounts)).state.live = vendorMounts.live ∧
      Raised vendorMounts.live (vendorSteps.foldl MountStep.perform vendorMounts).live ∧
      ∀ tree ∈ (rollbackMounts (vendorSteps.foldl MountStep.perform vendorMounts)).trace,
        Raised vendorMounts.live tree :=
  rollback_restores vendorMounts vendorNamespace_layered
    (.mk List.Pairwise.nil fun _ h => absurd h List.not_mem_nil) rfl vendorSteps

end HybridMount
