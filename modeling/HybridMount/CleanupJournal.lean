import HybridMount.Ledger
import Mathlib.Data.List.Basic

/-! The cleanup journal of the mount pipeline. What undoes a side effect is registered
when the effect takes place and runs, if at all, when the journal ends. A cleanup is any
change of the world which may fail. -/

namespace HybridMount

namespace CleanupJournal

inductive ActionKind where
  | cleanup
  | retainable
  | rollbackOnly
  deriving DecidableEq, Repr

structure CleanupFailure where
  label : String
  error : Error

structure RollbackReport where
  cleaned : Nat := 0
  retained : Nat := 0
  failures : List CleanupFailure := []

structure CleanupAction (σ : Type) where
  label : String
  kind : ActionKind
  cleanup : σ → Except Error Unit × σ

structure MountTransaction (σ : Type) where
  actions : List (CleanupAction σ) := []
  finished : Bool := false

variable {σ : Type}

def summaryError (report : RollbackReport) : Error :=
  .msg ("mount transaction commit failed: " ++
    "; ".intercalate (report.failures.map fun failure => failure.label ++ ": " ++ failure.error.message))

def runAction (run : RollbackReport × σ) (action : CleanupAction σ) : RollbackReport × σ :=
  let ended := action.cleanup run.2
  match ended.1 with
  | .ok () => ({ run.1 with cleaned := run.1.cleaned + 1 }, ended.2)
  | .error e => ({ run.1 with failures := run.1.failures ++ [⟨action.label, e⟩] }, ended.2)

def runEach (actions : List (CleanupAction σ)) (run : RollbackReport × σ) : RollbackReport × σ :=
  actions.foldl runAction run

namespace MountTransaction

def push (transaction : MountTransaction σ) (kind : ActionKind) (label : String)
    (cleanup : σ → Except Error Unit × σ) : MountTransaction σ :=
  { transaction with actions := transaction.actions ++ [⟨label, kind, cleanup⟩] }

def register (transaction : MountTransaction σ) (label : String) (cleanup : σ → Except Error Unit × σ) :
    MountTransaction σ :=
  transaction.push .cleanup label cleanup

def registerRetainable (transaction : MountTransaction σ) (label : String)
    (cleanup : σ → Except Error Unit × σ) :
    MountTransaction σ :=
  transaction.push .retainable label cleanup

def registerRollbackOnly (transaction : MountTransaction σ) (label : String)
    (cleanup : σ → Except Error Unit × σ) :
    MountTransaction σ :=
  transaction.push .rollbackOnly label cleanup

def runAll (transaction : MountTransaction σ) (world : σ) : RollbackReport × σ :=
  runEach transaction.actions.reverse ({}, world)

/-- Does a commit put an action off until it is known whether the others succeed? -/
def defers (retainResources : Bool) (kind : ActionKind) : Bool :=
  kind == .rollbackOnly || (retainResources && kind == .retainable)

def commitStep (retainResources : Bool) (acc : List (CleanupAction σ) × RollbackReport × σ)
    (action : CleanupAction σ) : List (CleanupAction σ) × RollbackReport × σ :=
  if defers retainResources action.kind then (acc.1 ++ [action], acc.2)
  else (acc.1, runAction acc.2 action)

/-- What is left of the journal goes with the outcome, for it is dropped afterwards. -/
def commit (transaction : MountTransaction σ) (retainResources : Bool) (world : σ) :
    Except Error Unit × MountTransaction σ × σ :=
  let (deferred, report, world) :=
    transaction.actions.reverse.foldl (commitStep retainResources) ([], {}, world)
  -- the deferred actions are discarded; how many were retained is only logged
  if report.failures.isEmpty then (.ok (), ⟨[], true⟩, world)
  else
    let (report, world) := runEach deferred (report, world)
    (.error (summaryError report), ⟨[], true⟩, world)

def rollback (transaction : MountTransaction σ) (world : σ) : RollbackReport × MountTransaction σ × σ :=
  let (report, world) := transaction.runAll world
  (report, ⟨[], true⟩, world)

def drop (transaction : MountTransaction σ) (world : σ) : MountTransaction σ × σ :=
  if transaction.finished then (transaction, world) else (⟨[], true⟩, (transaction.runAll world).2)

def registerAs (transaction : MountTransaction σ) (action : CleanupAction σ) : MountTransaction σ :=
  match action.kind with
  | .cleanup => transaction.register action.label action.cleanup
  | .retainable => transaction.registerRetainable action.label action.cleanup
  | .rollbackOnly => transaction.registerRollbackOnly action.label action.cleanup

def registerAll (actions : List (CleanupAction σ)) : MountTransaction σ := actions.foldl registerAs {}

theorem registerAs_actions (transaction : MountTransaction σ) (action : CleanupAction σ) :
    transaction.registerAs action = { transaction with actions := transaction.actions ++ [action] } := by
  obtain ⟨label, kind, cleanup⟩ := action
  cases kind <;> rfl

theorem foldl_registerAs (actions : List (CleanupAction σ)) (transaction : MountTransaction σ) :
    actions.foldl registerAs transaction =
    { transaction with actions := transaction.actions ++ actions } := by
  induction actions generalizing transaction with
  | nil => rw [List.append_nil]; rfl
  | cons action actions ih =>
    rw [List.foldl_cons, registerAs_actions, ih, List.append_assoc]
    rfl

theorem registerAll_eq (actions : List (CleanupAction σ)) : registerAll actions = ⟨actions, false⟩ := by
  rw [registerAll, foldl_registerAs, List.nil_append]

end MountTransaction

/-- An action which also writes down its number when it runs. -/
def recorded (entry : CleanupAction σ × Nat) : CleanupAction (σ × List Nat) where
  label := entry.1.label
  kind := entry.1.kind
  cleanup world := ((entry.1.cleanup world.1).1, (entry.1.cleanup world.1).2, world.2 ++ [entry.2])

/-- The actions numbered in the order of their registration. -/
def numbered (actions : List (CleanupAction σ)) : List (CleanupAction (σ × List Nat)) :=
  actions.zipIdx.map recorded

/-- The numbers of the actions of some kinds, in the order of registration. -/
def numbersOf (p : ActionKind → Bool) (actions : List (CleanupAction σ)) : List Nat :=
  (actions.zipIdx.filter fun entry => p entry.1.kind).map Prod.snd

theorem numbers_zipIdx (actions : List (CleanupAction σ)) :
    actions.zipIdx.map Prod.snd = List.range actions.length := by
  rw [List.zipIdx_map_snd, List.range_eq_range']

@[simp] theorem runAction_calls (run : RollbackReport × σ × List Nat) (entry : CleanupAction σ × Nat) :
    (runAction run (recorded entry)).2.2 = run.2.2 ++ [entry.2] := by
  unfold runAction
  cases h : ((recorded entry).cleanup run.2).1 <;> simp only [h] <;> rfl

theorem runEach_calls (entries : List (CleanupAction σ × Nat)) (run : RollbackReport × σ × List Nat) :
    (runEach (entries.map recorded) run).2.2 = run.2.2 ++ entries.map Prod.snd := by
  induction entries generalizing run with
  | nil => exact (List.append_nil _).symm
  | cons entry entries ih =>
    have hstep : runEach ((entry :: entries).map recorded) run =
        runEach (entries.map recorded) (runAction run (recorded entry)) := rfl
    rw [hstep, ih, runAction_calls, List.append_assoc]
    rfl

namespace MountTransaction

/-- The first pass of a commit runs what is not deferred and keeps the rest in its order. -/
theorem commitPass (retain : Bool) (actions : List (CleanupAction σ))
    (acc : List (CleanupAction σ) × RollbackReport × σ) :
    actions.foldl (commitStep retain) acc =
      (acc.1 ++ actions.filter (fun action => defers retain action.kind),
        runEach (actions.filter fun action => !defers retain action.kind) acc.2) := by
  induction actions generalizing acc with
  | nil => rw [List.filter_nil, List.append_nil]; rfl
  | cons action actions ih =>
    rw [List.foldl_cons, ih]
    cases h : defers retain action.kind with
    | true =>
      simp only [commitStep, h, List.filter_cons, if_true, Bool.not_true, Bool.false_eq_true, if_false,
        List.append_assoc, List.singleton_append]
    | false =>
      simp only [commitStep, h, List.filter_cons, if_true, Bool.not_false, Bool.false_eq_true, if_false]
      rfl

variable (actions : List (CleanupAction σ)) (world : σ)

theorem reverse_numbered : (numbered actions).reverse = actions.zipIdx.reverse.map recorded := by
  rw [numbered, List.map_reverse]

theorem filter_recorded (p : ActionKind → Bool) (entries : List (CleanupAction σ × Nat)) :
    (entries.map recorded).filter (fun action => p action.kind) =
      (entries.filter fun entry => p entry.1.kind).map recorded := by
  rw [List.filter_map]
  rfl

theorem rollback_calls :
    ((registerAll (numbered actions)).rollback (world, [])).2.2.2 = (List.range actions.length).reverse := by
  have hcalls := runEach_calls actions.zipIdx.reverse ({}, world, [])
  rw [← reverse_numbered, List.map_reverse, numbers_zipIdx] at hcalls
  rw [registerAll_eq]
  exact hcalls

theorem drop_calls :
    ((registerAll (numbered actions)).drop (world, [])).2.2 = (List.range actions.length).reverse := by
  have hcalls := rollback_calls actions world
  rw [registerAll_eq] at hcalls ⊢
  exact hcalls

theorem numbersOf_reverse (p : ActionKind → Bool) :
    (actions.zipIdx.reverse.filter fun entry => p entry.1.kind).map Prod.snd =
    (numbersOf p actions).reverse := by
  rw [numbersOf, List.filter_reverse, List.map_reverse]

/-- What a commit has run after its first pass. -/
def firstPass (retain : Bool) : RollbackReport × σ × List Nat :=
  runEach ((numbered actions).reverse.filter fun action => !defers retain action.kind) ({}, world, [])

theorem firstPass_calls (retain : Bool) :
    (firstPass actions world retain).2.2 = (numbersOf (fun kind => !defers retain kind) actions).reverse := by
  rw [firstPass, reverse_numbered, filter_recorded fun kind => !defers retain kind, runEach_calls,
    numbersOf_reverse actions fun kind => !defers retain kind]
  rfl

theorem commit_eq (retain : Bool) :
    (registerAll (numbered actions)).commit retain (world, []) =
      if (firstPass actions world retain).1.failures.isEmpty then
        (.ok (), ⟨[], true⟩, (firstPass actions world retain).2)
      else
        let last := runEach ((numbered actions).reverse.filter fun action => defers retain action.kind)
          (firstPass actions world retain)
        (.error (summaryError last.1), ⟨[], true⟩, last.2) := by
  rw [registerAll_eq, commit, commitPass, List.nil_append]
  rfl

theorem commit_ok_calls {retain : Bool}
    (h : ((registerAll (numbered actions)).commit retain (world, [])).1 = .ok ()) :
    ((registerAll (numbered actions)).commit retain (world, [])).2.2.2 =
      (numbersOf (fun kind => !defers retain kind) actions).reverse := by
  rw [commit_eq] at h ⊢
  by_cases hempty : (firstPass actions world retain).1.failures.isEmpty
  · rw [if_pos hempty]
    exact firstPass_calls actions world retain
  · rw [if_neg hempty] at h
    cases h

theorem commit_error_calls {retain : Bool} {e : Error}
    (h : ((registerAll (numbered actions)).commit retain (world, [])).1 = .error e) :
    ((registerAll (numbered actions)).commit retain (world, [])).2.2.2 =
      (numbersOf (fun kind => !defers retain kind) actions).reverse ++
        (numbersOf (defers retain) actions).reverse := by
  rw [commit_eq] at h ⊢
  by_cases hempty : (firstPass actions world retain).1.failures.isEmpty
  · rw [if_pos hempty] at h
    cases h
  · rw [if_neg hempty, reverse_numbered, filter_recorded (defers retain)]
    dsimp only
    rw [runEach_calls, numbersOf_reverse, firstPass_calls]

theorem passes_perm (retain : Bool) :
    ((numbersOf (fun kind => !defers retain kind) actions).reverse ++
      (numbersOf (defers retain) actions).reverse).Perm (List.range actions.length) := by
  have hboth : (numbersOf (defers retain) actions ++ numbersOf (fun kind => !defers retain kind) actions).Perm
      (List.range actions.length) := by
    rw [numbersOf, numbersOf, ← List.map_append, ← numbers_zipIdx]
    exact (List.filter_append_perm _ _).map Prod.snd
  rw [← List.reverse_append]
  exact (List.reverse_perm _).trans hboth

theorem drop_finished (transaction : MountTransaction σ) (h : transaction.finished = true) :
    transaction.drop world = (transaction, world) := by
  rw [drop, h]
  rfl

theorem commit_finished (transaction : MountTransaction σ) (retain : Bool) :
    (transaction.commit retain world).2.1.finished = true := by
  unfold commit
  split
  split <;> rfl

end MountTransaction

open MountTransaction

/-- How often and in which order the registered actions run, for every way to end the journal. -/
theorem undo_actions_run_once (actions : List (CleanupAction σ)) (world : σ) :
    let journal := registerAll (numbered actions)
    let rolledBack := journal.rollback (world, [])
    let dropped := journal.drop (world, [])
    (rolledBack.2.2.2 = (List.range actions.length).reverse ∧ rolledBack.2.1.drop rolledBack.2.2 =
      rolledBack.2) ∧
    (dropped.2.2 = (List.range actions.length).reverse ∧ dropped.1.drop dropped.2 = dropped) ∧
    ∀ retain, let committed := journal.commit retain (world, [])
      committed.2.1.drop committed.2.2 = committed.2 ∧
      match committed.1 with
      | .ok () => committed.2.2.2 =
          (numbersOf (fun kind => kind = .cleanup || kind = .retainable && !retain) actions).reverse
      | .error _ => committed.2.2.2.Perm (List.range actions.length) := by
  intro journal rolledBack dropped
  have hruns : ∀ retain, (fun kind => !defers retain kind) =
      fun kind => decide (kind = .cleanup) || decide (kind = .retainable) && !retain := by
    intro retain
    funext kind
    cases kind <;> cases retain <;> rfl
  refine ⟨⟨rollback_calls actions world, rfl⟩, ⟨drop_calls actions world, ?_⟩, fun retain => ?_⟩
  · have hended : dropped.1.finished = true := by
      simp only [dropped, journal, registerAll_eq, drop, Bool.false_eq_true, if_false]
    exact drop_finished _ _ hended
  · intro committed
    refine ⟨drop_finished _ _ (commit_finished _ _ _), ?_⟩
    cases h : committed.1 with
    | ok _ =>
      rw [← hruns]
      exact commit_ok_calls actions world h
    | error e =>
      have hcalls : committed.2.2.2 = _ := commit_error_calls actions world h
      rw [hcalls]
      exact passes_perm actions retain

end CleanupJournal

end HybridMount
