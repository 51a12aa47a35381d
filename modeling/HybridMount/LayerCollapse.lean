import HybridMount.OverlayMount

/-! Collapsing a stack of layers. The run keeps, with each layer, what it was staged from;
forgetting that gives the run on the plain paths. -/

namespace HybridMount

open Traced

/-- A directory of the stack, or an intermediate overlay together with its lower layers. -/
inductive StackedLayer (α : Type) where
  | dir (path : α)
  | overlay (path : α) (lowers : List (StackedLayer α))

namespace StackedLayer

variable {α : Type}

def path : StackedLayer α → α
  | dir path => path
  | overlay path _ => path

mutual

/-- The directories below a layer, from the top. -/
def dirs : StackedLayer α → List α
  | dir path => [path]
  | overlay _ lowers => dirsAll lowers

def dirsAll : List (StackedLayer α) → List α
  | [] => []
  | layer :: layers => dirs layer ++ dirsAll layers

end

/-- Every overlay of a layer has at least two lower layers, and not more than one mount takes. -/
inductive Mountable : StackedLayer α → Prop
  | dir (path : α) : Mountable (dir path)
  | overlay (path : α) {lowers : List (StackedLayer α)} (htwo : 2 ≤ lowers.length)
      (hmax : lowers.length ≤ maxLayers) (hlowers : ∀ layer ∈ lowers, Mountable layer) :
      Mountable (overlay path lowers)

theorem dirsAll_append (upper lower : List (StackedLayer α)) :
    dirsAll (upper ++ lower) = dirsAll upper ++ dirsAll lower := by
  induction upper with
  | nil => rfl
  | cons layer upper ih => rw [List.cons_append, dirsAll, ih, dirsAll, List.append_assoc]

theorem dirsAll_dir (paths : List α) : dirsAll (paths.map dir) = paths := by
  induction paths with
  | nil => rfl
  | cons path paths ih => rw [List.map_cons, dirsAll, dirs, ih, List.singleton_append]

/-- The staging step which remembers what it was given. -/
def stage (createStagingLayer : List α → Mounting α) (layers : List (StackedLayer α)) :
    Mounting (StackedLayer α) := do
  let staged ← createStagingLayer (layers.map path)
  return overlay staged layers

end StackedLayer

open StackedLayer

variable {α : Type} {layers : List α}

/-- The layers which stay in a round. -/
def untouched (layers : List α) : List α := layers.take (layers.length - (maxLayers - 1))

/-- The low-priority tail which a round stages. -/
def lowest (layers : List α) : List α := layers.drop (layers.length - (maxLayers - 1))

theorem untouched_append_lowest (layers : List α) : untouched layers ++ lowest layers = layers :=
  List.take_append_drop _ _

theorem lowest_length (h : ¬ layers.length ≤ maxLayers) : (lowest layers).length = maxLayers - 1 := by
  simp only [maxLayers] at h
  simp only [lowest, maxLayers, List.length_drop]
  omega

theorem round_length (h : ¬ layers.length ≤ maxLayers) (staged : α) :
    (untouched layers ++ [staged]).length < layers.length := by
  simp only [maxLayers] at h
  simp only [untouched, maxLayers, List.length_append, List.length_take, List.length_singleton]
  omega

theorem collapse_short (create : List α → Mounting α) (h : layers.length ≤ maxLayers) :
    collapseStagingLayers create layers = Pure.pure layers := by
  rw [collapseStagingLayers, if_pos h]

theorem collapse_long (create : List α → Mounting α) (h : ¬ layers.length ≤ maxLayers) :
    collapseStagingLayers create layers =
      (create (lowest layers) >>= fun staged =>
        collapseStagingLayers create (untouched layers ++ [staged])) := by
  rw [collapseStagingLayers, if_neg h]
  rfl

theorem dirsAll_round (layers : List (StackedLayer α)) (staged : α) :
    dirsAll (untouched layers ++ [overlay staged (lowest layers)]) = dirsAll layers := by
  rw [dirsAll_append, dirsAll, dirsAll, dirs, List.append_nil, ← dirsAll_append, untouched_append_lowest]

theorem mountable_round {layers : List (StackedLayer α)} (h : ¬ layers.length ≤ maxLayers)
    (hm : ∀ layer ∈ layers, Mountable layer) (staged : α) :
    ∀ layer ∈ untouched layers ++ [overlay staged (lowest layers)], Mountable layer := by
  intro layer hl
  rcases List.mem_append.mp hl with hl | hl
  · exact hm layer (List.mem_of_mem_take hl)
  · rw [List.mem_singleton.mp hl]
    have hlength := lowest_length h
    simp only [maxLayers] at hlength
    have htwo : 2 ≤ (lowest layers).length := by omega
    have hmax : (lowest layers).length ≤ maxLayers := by
      simp only [maxLayers]
      omega
    exact Mountable.overlay staged htwo hmax fun lower hlower => hm lower (List.mem_of_mem_drop hlower)

/-- What a collapse of some layers may end with. -/
structure Collapsed (layers collapsed : List (StackedLayer α)) : Prop where
  length_le : collapsed.length ≤ maxLayers
  dirs_eq : dirsAll collapsed = dirsAll layers
  mountable : ∀ layer ∈ collapsed, Mountable layer

variable {create : List α → Mounting α}

/-- No staging step fails in silence. -/
abbrev FailsToStage (create : List α → Mounting α) (e : Error) : Prop :=
    ∃ layers s, (create layers s).result = .error e

theorem stage_sat (layers : List (StackedLayer α)) :
    Sat (fun _ => True) (fun _ => True) (fun _ => True) (stage create layers)
      (fun layer _ => ∃ staged, layer = overlay staged layers) (fun e _ => FailsToStage create e) := by
  have hcreate : Sat (fun _ => True) (fun _ => True) (fun _ => True) (create (layers.map path))
      (fun _ _ => True) (fun e _ => FailsToStage create e) := by
    intro s _ _
    refine ⟨fun _ _ => trivial, ?_⟩
    cases h : (create (layers.map path) s).result with
    | ok staged => trivial
    | error e => exact ⟨_, s, h⟩
  exact Sat.bind hcreate fun staged => Sat.pure fun _ _ => ⟨staged, rfl⟩

theorem collapse_sat (create : List α → Mounting α) (layers : List (StackedLayer α))
    (hm : ∀ layer ∈ layers, Mountable layer) :
    Sat (fun _ => True) (fun _ => True) (fun _ => True) (collapseStagingLayers (stage create) layers)
      (fun collapsed _ => Collapsed layers collapsed) (fun e _ => FailsToStage create e) := by
  induction hn : layers.length using Nat.strong_induction_on generalizing layers with
  | _ n ih =>
    by_cases hlong : layers.length ≤ maxLayers
    · rw [collapse_short _ hlong]
      exact Sat.pure fun _ _ => ⟨hlong, rfl, hm⟩
    · rw [collapse_long _ hlong]
      refine Sat.bind (stage_sat _) fun layer => ?_
      rintro s ⟨staged, rfl⟩
      have hnext := ih _ (hn ▸ round_length hlong _) _ (mountable_round hlong hm staged) rfl
      have hwhole : Sat (fun _ => True) (fun _ => True) (fun _ => True)
          (collapseStagingLayers (stage create) (untouched layers ++ [overlay staged (lowest layers)]))
          (fun collapsed _ => Collapsed layers collapsed) (fun e _ => FailsToStage create e) :=
        hnext.weaken (fun _ _ hc =>
          ⟨hc.length_le, hc.dirs_eq.trans (dirsAll_round layers staged), hc.mountable⟩)
          fun _ _ he => he
      exact hwhole s trivial

theorem stage_run (create : List α → Mounting α) (layers : List (StackedLayer α)) (s : MountNamespace) :
    stage create layers s =
      ⟨(create (layers.map path) s).result.map (overlay · layers), (create (layers.map path) s).state,
        (create (layers.map path) s).trace⟩ := by
  cases h : create (layers.map path) s with
  | mk result state trace =>
    cases result with
    | ok staged =>
      rw [stage, Prog.bind_ok h]
      simp only [Pure.pure, Prog.pure, List.append_nil, Except.map]
    | error e =>
      rw [stage, Prog.bind_error h]
      rfl

theorem map_path_round (layers : List (StackedLayer α)) (staged : α) :
    (untouched layers ++ [overlay staged (lowest layers)]).map path = untouched (layers.map path) ++
    [staged] := by
  simp only [untouched, List.map_append, List.map_take, List.length_map, List.map_cons, List.map_nil, path]

theorem map_path_lowest (layers : List (StackedLayer α)) :
    (lowest layers).map path = lowest (layers.map path) := by
  simp only [lowest, List.map_drop, List.length_map]

/-- The run on the plain paths is the run on the stacked layers. -/
theorem collapse_paths (create : List α → Mounting α) (layers : List (StackedLayer α)) (s : MountNamespace) :
    collapseStagingLayers create (layers.map path) s =
      ⟨(collapseStagingLayers (stage create) layers s).result.map (List.map path),
        (collapseStagingLayers (stage create) layers s).state,
        (collapseStagingLayers (stage create) layers s).trace⟩ := by
  induction hn : layers.length using Nat.strong_induction_on generalizing layers s with
  | _ n ih =>
    by_cases hlong : layers.length ≤ maxLayers
    · have hlong' : (layers.map path).length ≤ maxLayers := by rwa [List.length_map]
      rw [collapse_short _ hlong, collapse_short _ hlong']
      rfl
    · have hlong' : ¬ (layers.map path).length ≤ maxLayers := by rwa [List.length_map]
      have hrun := stage_run create (lowest layers) s
      rw [collapse_long _ hlong, collapse_long _ hlong']
      cases hc : create (lowest (layers.map path)) s with
      | mk result state trace =>
        rw [map_path_lowest, hc] at hrun
        cases result with
        | error e => rw [Prog.bind_error hc, Prog.bind_error hrun]; rfl
        | ok staged =>
          have hnext := ih _ (hn ▸ round_length hlong _)
            (untouched layers ++ [overlay staged (lowest layers)]) state rfl
          rw [map_path_round] at hnext
          rw [Prog.bind_ok hc, Prog.bind_ok hrun, hnext]

/-- The staging step which refuses what does not fit one mount, or needs none. -/
def withinLimits (create : List α → Mounting α) (layers : List α) : Mounting α :=
  if 2 ≤ layers.length ∧ layers.length ≤ maxLayers then create layers else Prog.fail .unfinished

theorem collapse_withinLimits (create : List α → Mounting α) (layers : List α) :
    collapseStagingLayers (withinLimits create) layers = collapseStagingLayers create layers := by
  induction hn : layers.length using Nat.strong_induction_on generalizing layers with
  | _ n ih =>
    by_cases hlong : layers.length ≤ maxLayers
    · rw [collapse_short _ hlong, collapse_short _ hlong]
    · have hlength := lowest_length hlong
      simp only [maxLayers] at hlength
      have hlimits : 2 ≤ (lowest layers).length ∧ (lowest layers).length ≤ maxLayers := by
        simp only [maxLayers]
        omega
      have hnext : ∀ staged, collapseStagingLayers (withinLimits create) (untouched layers ++ [staged]) =
          collapseStagingLayers create (untouched layers ++ [staged]) :=
        fun staged => ih _ (hn ▸ round_length hlong staged) _ rfl
      rw [collapse_long _ hlong, collapse_long _ hlong, withinLimits, if_pos hlimits]
      exact congrArg _ (funext hnext)

/-- The collapsed stack fits one mount, and so does every overlay in it; expanding them gives the
directories back in their order. Nothing else is ever staged, and a collapse fails only where a
staging step does. -/
theorem collapse_preserves_stack (create : List α → Mounting α) (lowerDirs : List α) (s : MountNamespace) :
    collapseStagingLayers (withinLimits create) lowerDirs = collapseStagingLayers create lowerDirs ∧
    match (collapseStagingLayers create lowerDirs s).result with
    | .ok collapsed => ∃ stack : List (StackedLayer α),
        (collapseStagingLayers (stage create) (lowerDirs.map dir) s).result = .ok stack ∧
        collapsed = stack.map path ∧ collapsed.length ≤ maxLayers ∧
        dirsAll stack = lowerDirs ∧ ∀ layer ∈ stack, Mountable layer
    | .error e => ∃ layers s', (create layers s').result = .error e := by
  refine ⟨collapse_withinLimits create lowerDirs, ?_⟩
  have hm : ∀ layer ∈ lowerDirs.map dir, Mountable layer := by
    intro layer hl
    obtain ⟨path, -, rfl⟩ := List.mem_map.mp hl
    exact Mountable.dir path
  have hsat := (collapse_sat create _ hm s trivial fun _ _ => trivial).2
  have hpaths := collapse_paths create (lowerDirs.map dir) s
  have hid : (lowerDirs.map dir).map path = lowerDirs := by
    rw [List.map_map]
    exact List.map_id lowerDirs
  rw [hid] at hpaths
  rw [hpaths]
  cases h : (collapseStagingLayers (stage create) (lowerDirs.map dir) s).result with
  | error e =>
    rw [h] at hsat
    exact hsat
  | ok stack =>
    rw [h] at hsat
    have hle : (stack.map path).length ≤ maxLayers := (List.length_map path).trans_le hsat.length_le
    exact ⟨stack, rfl, rfl, hle, hsat.dirs_eq.trans (dirsAll_dir lowerDirs), hsat.mountable⟩

end HybridMount
