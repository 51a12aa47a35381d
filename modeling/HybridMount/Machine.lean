import HybridMount.Ledger
import HybridMount.Traced

/-! The kernel and the ledger file as the runtime operations see them, with a
schedule of failures. An operation may fail after any part of its effect; every
request, effect and failure is an event with the states around it. -/

namespace HybridMount

/-- A rule table of the kernel: how it is listed and what one record does. -/
class RuleTable (τ : Type) where
  listing : τ → List SavedRule
  put : SavedRule → τ → Except Error τ
  delete : SavedRule → τ → Except Error τ

structure Machine (τ : Type) where
  rules : τ
  uids : List UInt32
  stored : Option Ledger
  root : Int
  mounts : List MountEntry
  unmounts : List String

/-- A failing step performs the first `applied` of its effects. -/
structure Fault where
  applied : Nat
  detail : String
  deriving DecidableEq, Repr

/-- The machine and the outcomes of the operations to come. -/
structure Session (τ : Type) where
  machine : Machine τ
  faults : List (Option Fault)

inductive Operation where
  | list
  | put (rules : List SavedRule)
  | delete (rules : List SavedRule)
  | uids
  | addUids (uids : List UInt32)
  | removeUids (uids : List UInt32)
  | persist (saved : Ledger)
  | mountinfo
  | visibleId (path : String)
  | detach (path : String)
  | release (paths : List String)
  | load
  | refresh
  | unmark
  deriving DecidableEq, Repr

inductive Action where
  | request (operation : Operation)
  | effect (operation : Operation)
  | done (operation : Operation)
  | failed (operation : Operation)
  deriving DecidableEq, Repr

def Action.operation : Action → Operation
  | .request operation | .effect operation | .done operation | .failed operation => operation

def Action.isFailed : Action → Bool
  | .failed _ => true
  | _ => false

/-- The rules which an operation puts or deletes. -/
def Operation.targets : Operation → List SavedRule
  | .put rules | .delete rules => rules
  | _ => []

/-- Does the operation change the kernel's rules or isolated uids? -/
def Operation.mutates : Operation → Bool
  | .put _ | .delete _ | .addUids _ | .removeUids _ => true
  | _ => false

structure Event (τ : Type) where
  action : Action
  recovering : Bool
  before : Machine τ
  after : Machine τ

/-- Isolating a uid twice is tolerated, as is releasing one that is not isolated. -/
def addUid (uids : List UInt32) (uid : UInt32) : List UInt32 :=
  if uid ∈ uids then uids else uids ++ [uid]

def dropUid (uids : List UInt32) (uid : UInt32) : List UInt32 := uids.filter (· ≠ uid)

@[simp] theorem mem_foldl_addUid {uids xs : List UInt32} {uid : UInt32} :
    uid ∈ xs.foldl addUid uids ↔ uid ∈ uids ∨ uid ∈ xs := by
  induction xs generalizing uids with
  | nil => simp
  | cons x xs ih =>
    rw [List.foldl_cons, ih, addUid]
    by_cases hx : x ∈ uids
    · simp only [hx, if_true, List.mem_cons]
      constructor
      · rintro (h | h)
        · exact .inl h
        · exact .inr (.inr h)
      · rintro (h | rfl | h)
        · exact .inl h
        · exact .inl hx
        · exact .inr h
    · simp only [hx, if_false, List.mem_append, List.mem_cons, List.not_mem_nil, or_false, or_assoc]

@[simp] theorem mem_foldl_dropUid {uids xs : List UInt32} {uid : UInt32} :
    uid ∈ xs.foldl dropUid uids ↔ uid ∈ uids ∧ uid ∉ xs := by
  induction xs generalizing uids with
  | nil => simp
  | cons x xs ih => simp [ih, dropUid, and_assoc]

def Machine.withUids {τ : Type} (m : Machine τ) (uids : List UInt32) : Machine τ := { m with uids := uids }

def Machine.withStored {τ : Type} (m : Machine τ) (saved : Ledger) : Machine τ :=
  { m with stored := some saved }

def Machine.withRules {τ : Type} (m : Machine τ) (t : τ) : Machine τ := { m with rules := t }

namespace Machine

@[simp] theorem withRules_self {τ : Type} (m : Machine τ) : m.withRules m.rules = m := rfl

@[simp] theorem withRules_rules {τ : Type} (m : Machine τ) (t : τ) : (m.withRules t).rules = t := rfl

@[simp] theorem withRules_withRules {τ : Type} (m : Machine τ) (t t' : τ) :
    (m.withRules t).withRules t' = m.withRules t' := rfl

end Machine

abbrev Op (τ α : Type) := Traced.Prog (Session τ) (Event τ) Error α

variable {τ α : Type}

namespace Op

open Traced

def note (action : Action) : Op τ Unit :=
  Prog.update id fun s t => ⟨action, false, s.machine, t.machine⟩

/-- Take the outcome of the next operation from the schedule. -/
def schedule : Op τ (Option Fault) := fun s =>
  ⟨.ok s.faults.head?.join, { s with faults := s.faults.tail }, []⟩

def machine : Op τ (Machine τ) := fun s => ⟨.ok s.machine, s, []⟩

def change (operation : Operation) (f : Machine τ → Machine τ) : Op τ Unit :=
  Prog.update (fun s => { s with machine := f s.machine })
    fun s t => ⟨.effect operation, false, s.machine, t.machine⟩

def refuse (operation : Operation) (e : Error) : Op τ α := do
  note (.failed operation)
  Prog.fail e

/-- An operation which only reads. -/
def query (operation : Operation) (read : Machine τ → α) : Op τ α := do
  note (.request operation)
  match ← schedule with
  | none =>
    note (.done operation)
    return read (← machine)
  | some fault => refuse operation (.msg fault.detail)

/-- An operation on a batch of records, which a failure stops half way. -/
def perform {β : Type} (operation : Operation) (one : β → Op τ Unit) (records : List β) : Op τ Unit := do
  match ← schedule with
  | none =>
    Prog.forEach one records
    note (.done operation)
  | some fault =>
    Prog.forEach one (records.take fault.applied)
    refuse operation (.msg fault.detail)

def batch {β : Type} (operation : Operation) (one : β → Op τ Unit) (records : List β) : Op τ Unit := do
  note (.request operation)
  perform operation one records

/-- Mark the events of a compensation. -/
def recovering (m : Op τ α) : Op τ α := Prog.mapEvents (fun e => { e with recovering := true }) m

variable [RuleTable τ]

def record (operation : Operation) (f : τ → Except Error τ) : Op τ Unit := do
  let current ← machine
  match f current.rules with
  | .ok rules => change operation fun m => m.withRules rules
  | .error e => refuse operation e

def list : Op τ (List SavedRule) := query .list fun m => RuleTable.listing m.rules

def put (rules : List SavedRule) : Op τ Unit :=
  batch (.put rules) (fun rule => record (.put [rule]) (RuleTable.put rule)) rules

def delete (rules : List SavedRule) : Op τ Unit :=
  batch (.delete rules) (fun rule => record (.delete [rule]) (RuleTable.delete rule)) rules

omit [RuleTable τ]

def uids : Op τ (List UInt32) := query .uids Machine.uids

def addUids (uids : List UInt32) : Op τ Unit :=
  batch (.addUids uids) (fun uid => change (.addUids [uid]) fun m =>
    m.withUids (addUid m.uids uid)) uids

def removeUids (uids : List UInt32) : Op τ Unit := do
  batch (.removeUids uids) (fun uid => change (.removeUids [uid]) fun m =>
    m.withUids (dropUid m.uids uid)) uids
  let current ← Op.uids
  if current.any (uids.contains ·) then
    Prog.fail (.msg "VFS isolation UID cleanup could not be verified")

/-- A failing save may or may not have replaced the file. -/
def persist (saved : Ledger) : Op τ Unit :=
  batch (.persist saved) (fun saved => change (.persist saved) fun m =>
    m.withStored saved) [saved]

def mountinfo : Op τ (List MountEntry) := query .mountinfo Machine.mounts

def visibleMountId (path : String) : Op τ Int :=
  query (.visibleId path) fun m => MountTable.visibleId m.mounts m.root path

def detach (path : String) : Op τ Unit :=
  batch (.detach path) (fun path => change (.detach path) fun m =>
    { m with mounts := MountTable.detach m.mounts m.root path }) [path]

def release (paths : List String) : Op τ Unit :=
  batch (.release paths) (fun path => change (.release [path]) fun m =>
    { m with unmounts := m.unmounts.filter (· ≠ path) }) paths

end Op

open Traced in
/-- A batch that succeeds says so in the trace. -/
theorem Op.batch_done {β : Type} {operation : Operation} {one : β → Op τ Unit} {records : List β}
    {s : Session τ} (h : (Op.batch operation one records s).result = .ok ()) :
    ∃ e ∈ (Op.batch operation one records s).trace, e.action = .done operation := by
  cases hf : s.faults.head?.join with
  | some fault =>
    exfalso
    cases hr : (Prog.forEach one (records.take fault.applied) ⟨s.machine, s.faults.tail⟩).result <;>
      simp [Op.batch, Op.perform, Bind.bind, Prog.bind, Op.note, Op.schedule, Op.refuse, Prog.update,
        Prog.fail, hf, hr] at h
  | none =>
    cases hr : (Prog.forEach one records ⟨s.machine, s.faults.tail⟩).result with
    | error e =>
      simp [Op.batch, Op.perform, Bind.bind, Prog.bind, Op.note, Op.schedule, Prog.update, hf, hr] at h
    | ok u =>
      simp [Op.batch, Op.perform, Bind.bind, Prog.bind, Op.note, Op.schedule, Prog.update, hf, hr]

/-- The part of a batch which a step of the schedule lets through. -/
def partDone {β : Type} (fault : Option Fault) (records : List β) : List β :=
  match fault with
  | none => records
  | some fault => records.take fault.applied

/-- Every state of a run lies between the two ends of the changes that were made. -/
def Between {β : Type} (step : Machine τ → β → Machine τ) (m : Machine τ) (done : List β)
    (e : Event τ) : Prop :=
  (∃ xs, xs <+: done ∧ e.before = xs.foldl step m) ∧ ∃ xs, xs <+: done ∧ e.after = xs.foldl step m

open Traced in
theorem Op.forEach_change {β : Type} (each : β → Operation) (step : Machine τ → β → Machine τ) (xs : List β)
    (s : Session τ) :
    let run := Prog.forEach (fun x => Op.change (each x) fun m => step m x) xs s
    run.result = .ok () ∧ run.state = ⟨xs.foldl step s.machine, s.faults⟩ ∧
      ∀ e ∈ run.trace, Between step s.machine xs e := by
  induction xs generalizing s with
  | nil => exact ⟨rfl, rfl, fun _ he => absurd he List.not_mem_nil⟩
  | cons x xs ih =>
    obtain ⟨hresult, hstate, htrace⟩ := ih ⟨step s.machine x, s.faults⟩
    refine ⟨hresult, hstate, ?_⟩
    intro e he
    rcases List.mem_append.mp he with he | he
    · rw [List.mem_singleton.mp he]
      exact ⟨⟨[], List.nil_prefix, rfl⟩, [x], ⟨xs, rfl⟩, rfl⟩
    · obtain ⟨⟨ys, hys, hbefore⟩, zs, hzs, hafter⟩ := htrace e he
      exact ⟨⟨x :: ys, (List.prefix_cons_inj x).mpr hys, hbefore⟩, x :: zs,
        (List.prefix_cons_inj x).mpr hzs, hafter⟩

open Traced in
/-- A batch of plain changes, from its request to its last record. -/
theorem Op.batch_run {β : Type} (operation : Operation) (each : β → Operation)
    (step : Machine τ → β → Machine τ)
    (records : List β) (s : Session τ) :
    let run := Op.batch operation (fun x => Op.change (each x) fun m => step m x) records s
    let done := partDone s.faults.head?.join records
    run.result = (match s.faults.head?.join with
      | none => .ok ()
      | some fault => .error (.msg fault.detail)) ∧
    run.state = ⟨done.foldl step s.machine, s.faults.tail⟩ ∧
      (∀ e ∈ run.trace, Between step s.machine done e) ∧
      (∃ e ∈ run.trace, e.before = s.machine) ∧ ∃ e ∈ run.trace, e.after = done.foldl step s.machine := by
  have hstart : ∀ done : List β, ∃ xs, xs <+: done ∧ s.machine = xs.foldl step s.machine :=
    fun done => ⟨[], List.nil_prefix, rfl⟩
  cases hf : s.faults.head?.join with
  | none =>
    obtain ⟨hresult, hstate, htrace⟩ := forEach_change each step records ⟨s.machine, s.faults.tail⟩
    generalize hloop : Prog.forEach (fun x => Op.change (each x) fun m => step m x) records
      ⟨s.machine, s.faults.tail⟩ = loop at *
    have hrun : Op.batch operation (fun x => Op.change (each x) fun m => step m x) records s =
        ⟨.ok (), loop.state, ⟨.request operation, false, s.machine, s.machine⟩ ::
          (loop.trace ++ [⟨.done operation, false, loop.state.machine, loop.state.machine⟩])⟩ := by
      simp [Op.batch, Op.perform, Bind.bind, Prog.bind, Op.note, Op.schedule, Prog.update, hf, hloop, hresult]
    rw [hrun, hstate]
    refine ⟨rfl, rfl, ?_, ⟨_, List.mem_cons_self, rfl⟩,
      ⟨_, List.mem_cons_of_mem _ (List.mem_append_right _ List.mem_cons_self), rfl⟩⟩
    intro e he
    rcases List.mem_cons.mp he with rfl | he
    · exact ⟨hstart _, hstart _⟩
    · rcases List.mem_append.mp he with he | he
      · exact htrace e he
      · rw [List.mem_singleton.mp he]
        exact ⟨⟨records, List.prefix_rfl, rfl⟩, records, List.prefix_rfl, rfl⟩
  | some fault =>
    obtain ⟨hresult, hstate, htrace⟩ :=
      forEach_change each step (records.take fault.applied) ⟨s.machine, s.faults.tail⟩
    generalize hloop : Prog.forEach (fun x => Op.change (each x) fun m => step m x)
      (records.take fault.applied)
      ⟨s.machine, s.faults.tail⟩ = loop at *
    have hrun : Op.batch operation (fun x => Op.change (each x) fun m => step m x) records s =
        ⟨.error (.msg fault.detail), loop.state, ⟨.request operation, false, s.machine, s.machine⟩ ::
          (loop.trace ++ [⟨.failed operation, false, loop.state.machine, loop.state.machine⟩])⟩ := by
      simp [Op.batch, Op.perform, Bind.bind, Prog.bind, Op.note, Op.schedule, Op.refuse, Prog.fail,
        Prog.update, hf, hloop,
        hresult]
    rw [hrun, hstate]
    refine ⟨rfl, rfl, ?_, ⟨_, List.mem_cons_self, rfl⟩,
      ⟨_, List.mem_cons_of_mem _ (List.mem_append_right _ List.mem_cons_self), rfl⟩⟩
    intro e he
    rcases List.mem_cons.mp he with rfl | he
    · exact ⟨hstart _, hstart _⟩
    · rcases List.mem_append.mp he with he | he
      · exact htrace e he
      · rw [List.mem_singleton.mp he]
        exact ⟨⟨_, List.prefix_rfl, rfl⟩, _, List.prefix_rfl, rfl⟩

section

open Traced

variable {G T : Event τ → Prop} {P : Machine τ → Prop} {Q : α → Machine τ → Prop}
  {E : Error → Machine τ → Prop} {operation : Operation}

/-- The triple of a program whose conditions do not mention the schedule. -/
abbrev Ensures (G T : Event τ → Prop) (P : Machine τ → Prop) (m : Op τ α)
    (Q : α → Machine τ → Prop) (E : Error → Machine τ → Prop) : Prop :=
  Sat G T (fun s => P s.machine) m (fun a s => Q a s.machine) (fun e s => E e s.machine)

namespace Ensures

theorem of_eq {m : Op τ α} (h : ∀ m₀, P m₀ → Ensures G T (· = m₀) m Q E) : Ensures G T P m Q E :=
  fun s hs hg => h s.machine hs s rfl hg

theorem note {action : Action} (h : ∀ m, P m → T ⟨action, false, m, m⟩) :
    Ensures G T P (Op.note action) (fun _ => P) E :=
  Sat.update fun s hs _ => ⟨h s.machine hs, hs⟩

theorem change {f : Machine τ → Machine τ} {Q : Unit → Machine τ → Prop}
    (h : ∀ m, P m → G ⟨.effect operation, false, m, f m⟩ →
      T ⟨.effect operation, false, m, f m⟩ ∧ Q () (f m)) :
    Ensures G T P (Op.change operation f) Q E :=
  Sat.update fun s hs hg => h s.machine hs hg

theorem refuse {e : Error} (h : ∀ m, P m → G ⟨.failed operation, false, m, m⟩ →
      T ⟨.failed operation, false, m, m⟩ ∧ E e m) :
    Ensures G T P (Op.refuse operation e : Op τ α) Q E := by
  have hn : Ensures G T P (Op.note (.failed operation)) (fun _ m => E e m) E :=
    Sat.update fun s hs hg => h s.machine hs hg
  exact Sat.bind hn fun _ => Sat.fail fun _ hs => hs

theorem schedule : Ensures G T P (Op.schedule : Op τ (Option Fault)) (fun _ => P) E :=
  fun _ hs _ => ⟨fun _ he => absurd he List.not_mem_nil, hs⟩

theorem query {read : Machine τ → α}
    (hT : ∀ action m, action.operation = operation → P m → T ⟨action, false, m, m⟩)
    (hok : ∀ m, P m → Q (read m) m)
    (hfail : ∀ m detail, P m → G ⟨.failed operation, false, m, m⟩ → E (.msg detail) m) :
    Ensures G T P (Op.query operation read) Q E := by
  refine Sat.bind (note fun m hp => hT _ m rfl hp) fun _ => Sat.bind schedule fun fault => ?_
  cases fault with
  | none =>
    refine Sat.bind (note fun m hp => hT _ m rfl hp) fun _ => ?_
    have hm : Ensures G T P (Op.machine : Op τ (Machine τ)) (fun m m' => P m ∧ m' = m) E :=
      fun _ hs _ => ⟨fun _ he => absurd he List.not_mem_nil, hs, rfl⟩
    refine Sat.bind hm fun m => Sat.pure ?_
    rintro s ⟨hp, rfl⟩
    exact hok _ hp
  | some fault => exact refuse fun m hp hg => ⟨hT _ m rfl hp, hfail m fault.detail hp hg⟩

theorem read {read : Machine τ → α} (hT : ∀ action m, P m → T ⟨action, false, m, m⟩) :
    Ensures G T P (Op.query operation read) (fun a m => P m ∧ a = read m) (fun _ => P) :=
  query (fun action m _ hp => hT action m hp) (fun _ hp => ⟨hp, rfl⟩) fun _ _ hp _ => hp

/-- `I rest` holds while the records `rest` are still to be processed. -/
theorem perform {β : Type} {one : β → Op τ Unit} {records : List β} {I : List β → Machine τ → Prop}
    (hT : ∀ action rest m, action.operation = operation → action ≠ .request operation →
      rest <:+ records → I rest m →
      T ⟨action, false, m, m⟩)
    (hone : ∀ x rest, Ensures G T (I (x :: rest)) (one x) (fun _ => I rest) E)
    (hfail : ∀ rest m detail, rest <:+ records → I rest m → G ⟨.failed operation, false, m, m⟩ →
      E (.msg detail) m) :
    Ensures G T (I records) (Op.perform operation one records) (fun _ => I []) E := by
  refine Sat.bind schedule fun fault => ?_
  cases fault with
  | none =>
    exact Sat.bind (Sat.forEach (I := fun rest (s : Session τ) => I rest s.machine) records hone)
      fun _ => note fun m hm => hT _ _ m rfl Action.noConfusion List.nil_suffix hm
  | some fault =>
    have hpart := Sat.forEach (G := G) (T := T) (E := fun e s => E e s.machine)
      (f := one) (I := fun xs s => I (xs ++ records.drop fault.applied) s.machine)
      (records.take fault.applied) fun x xs => hone x (xs ++ records.drop fault.applied)
    rw [List.take_append_drop, List.nil_append] at hpart
    have hsuffix := List.drop_suffix fault.applied records
    exact Sat.bind hpart fun _ => refuse fun m hm hg =>
      ⟨hT _ _ m rfl Action.noConfusion hsuffix hm, hfail _ m fault.detail hsuffix hm hg⟩

theorem batch {β : Type} {one : β → Op τ Unit} {records : List β} {I : List β → Machine τ → Prop}
    (hT : ∀ action rest m, action.operation = operation → rest <:+ records → I rest m →
      T ⟨action, false, m, m⟩)
    (hone : ∀ x rest, Ensures G T (I (x :: rest)) (one x) (fun _ => I rest) E)
    (hfail : ∀ rest m detail, rest <:+ records → I rest m → G ⟨.failed operation, false, m, m⟩ →
      E (.msg detail) m) :
    Ensures G T (I records) (Op.batch operation one records) (fun _ => I []) E :=
  Sat.bind (note fun m hm => hT _ _ m rfl (List.suffix_refl _) hm) fun _ =>
    perform (fun action rest m ha _ => hT action rest m ha) hone hfail

/-- A batch of plain changes stops after some of its records, and only if it fails. -/
theorem batch_change {β : Type} {m : Machine τ} (records : List β) (operation : List β → Operation)
    (step : Machine τ → β → Machine τ)
    (hT : ∀ action l xs ys, action.operation = operation l → l ⊆ records → xs <+: records →
      ys <+: records → T ⟨action, false, xs.foldl step m, ys.foldl step m⟩) :
    Ensures G T (· = m)
      (Op.batch (operation records) (fun x => Op.change (operation [x]) fun m => step m x) records)
      (fun _ m' => m' = records.foldl step m)
      (fun _ m' => G ⟨.failed (operation records), false, m', m'⟩ ∧
        ∃ xs, xs <+: records ∧ m' = xs.foldl step m) := by
  let I := fun rest m' => ∃ done, records = done ++ rest ∧ m' = done.foldl step m
  have hpre : ∀ {done rest}, records = done ++ rest → done <+: records := fun h => ⟨_, h.symm⟩
  have hbatch : Ensures G T (I records)
      (Op.batch (operation records) (fun x => Op.change (operation [x]) fun m => step m x) records)
      (fun _ => I []) (fun _ m' => G ⟨.failed (operation records), false, m', m'⟩ ∧
        ∃ xs, xs <+: records ∧ m' = xs.foldl step m) := by
    refine batch ?_ (fun x rest => change ?_) ?_
    · rintro action rest m' ha _ ⟨done, hd, rfl⟩
      exact hT _ records done done ha (List.Subset.refl _) (hpre hd) (hpre hd)
    · rintro m' ⟨done, hd, rfl⟩ _
      have hd' : records = (done ++ [x]) ++ rest := by rw [hd, List.append_assoc]; rfl
      have hx : [x] ⊆ records := by rw [hd]; simp
      have hh := hT (.effect (operation [x])) [x] done (done ++ [x]) rfl hx (hpre hd) (hpre hd')
      rw [List.foldl_append] at hh
      exact ⟨hh, done ++ [x], hd', by rw [List.foldl_append]; rfl⟩
    · rintro rest m' detail _ ⟨done, hd, rfl⟩ hg
      exact ⟨hg, done, hpre hd, rfl⟩
  refine hbatch.consequence (fun s hs => ⟨[], rfl, hs⟩) ?_ (fun _ _ he => he)
  rintro _ s ⟨done, hd, hs⟩
  rw [hd, List.append_nil]
  exact hs

theorem foldl_withUids {step : List UInt32 → UInt32 → List UInt32} (m : Machine τ) (xs : List UInt32) :
    xs.foldl (fun m x => m.withUids (step m.uids x)) m = m.withUids (xs.foldl step m.uids) := by
  induction xs generalizing m with
  | nil => rfl
  | cons x xs ih => exact ih _

theorem addUids {m : Machine τ} (uids : List UInt32)
    (hT : ∀ action xs ys, action.operation.mutates = true → (∀ l, action.operation ≠ .removeUids l) →
      xs ⊆ uids → ys ⊆ uids →
      T ⟨action, false, m.withUids (xs.foldl addUid m.uids), m.withUids (ys.foldl addUid m.uids)⟩) :
    Ensures G T (· = m) (Op.addUids uids) (fun _ m' => m' = m.withUids (uids.foldl addUid m.uids))
      (fun _ m' => ∃ xs, xs ⊆ uids ∧ m' = m.withUids (xs.foldl addUid m.uids)) := by
  have hh := batch_change (G := G) (T := T) (m := m) uids .addUids fun m x => m.withUids (addUid m.uids x)
  simp only [foldl_withUids] at hh
  refine (hh fun action l xs ys ha _ hxs hys => hT action xs ys ?_ ?_ hxs.subset hys.subset).weaken
    (fun _ _ hq => hq) ?_
  · rw [ha]; rfl
  · intro l'
    rw [ha]
    exact Operation.noConfusion
  · rintro _ s ⟨-, xs, hxs, hs⟩
    exact ⟨xs, hxs.subset, hs⟩

theorem persist {m : Machine τ} (saved : Ledger)
    (hT : ∀ action x y, action.operation = .persist saved → (x = m ∨ x = m.withStored saved) →
      (y = m ∨ y = m.withStored saved) → T ⟨action, false, x, y⟩) :
    Ensures G T (· = m) (Op.persist saved) (fun _ m' => m' = m.withStored saved)
      (fun _ m' => m' = m ∨ m' = m.withStored saved) := by
  have hpart : ∀ xs : List Ledger, xs <+: [saved] →
      xs.foldl (fun m saved => m.withStored saved) m = m ∨
        xs.foldl (fun m saved => m.withStored saved) m = m.withStored saved := by
    intro xs hxs
    rcases List.prefix_cons_iff.mp hxs with rfl | ⟨ys, rfl, hys⟩
    · exact .inl rfl
    · rw [List.prefix_nil.mp hys]
      exact .inr rfl
  have hone : ∀ x rest, Ensures G T
      (fun m' => (x :: rest = [saved] ∧ m' = m) ∨ (x :: rest = [] ∧ m' = m.withStored saved))
      (Op.change (.persist x) fun m => m.withStored x)
      (fun _ m' => (rest = [saved] ∧ m' = m) ∨ (rest = [] ∧ m' = m.withStored saved))
      (fun _ m' => m' = m ∨ m' = m.withStored saved) := by
    intro x rest
    refine change ?_
    rintro m' (⟨hx, rfl⟩ | ⟨hx, -⟩) _
    · obtain ⟨rfl, rfl⟩ := List.cons.inj hx
      exact ⟨hT _ _ _ rfl (.inl rfl) (.inr rfl), .inr ⟨rfl, rfl⟩⟩
    · cases hx
  let I := fun rest m' => (rest = [saved] ∧ m' = m) ∨ (rest = [] ∧ m' = m.withStored saved)
  have hb : Ensures G T (I [saved]) (Op.persist saved) (fun _ => I [])
      (fun _ m' => m' = m ∨ m' = m.withStored saved) := by
    refine batch ?_ hone ?_
    · rintro action rest m' ha - (⟨-, rfl⟩ | ⟨-, rfl⟩)
      · exact hT _ _ _ ha (.inl rfl) (.inl rfl)
      · exact hT _ _ _ ha (.inr rfl) (.inr rfl)
    · rintro rest m' detail - (⟨-, rfl⟩ | ⟨-, rfl⟩) -
      · exact .inl rfl
      · exact .inr rfl
  refine hb.consequence (fun s hs => .inl ⟨rfl, hs⟩) ?_ fun _ _ he => he
  rintro _ s (⟨hx, -⟩ | ⟨-, hs⟩)
  · cases hx
  · exact hs

theorem record [RuleTable τ] {f : τ → Except Error τ} {Q : Unit → Machine τ → Prop}
    (hok : ∀ m t, P m → f m.rules = .ok t → G ⟨.effect operation, false, m, m.withRules t⟩ →
      T ⟨.effect operation, false, m, m.withRules t⟩ ∧ Q () (m.withRules t))
    (hfail : ∀ m e, P m → f m.rules = .error e → G ⟨.failed operation, false, m, m⟩ →
      T ⟨.failed operation, false, m, m⟩ ∧ E e m) :
    Ensures G T P (Op.record operation f) Q E := by
  have hm : Ensures G T P (Op.machine : Op τ (Machine τ)) (fun m m' => P m ∧ m' = m) E :=
    fun _ hs _ => ⟨fun _ he => absurd he List.not_mem_nil, hs, rfl⟩
  refine Sat.bind hm fun m => ?_
  cases hf : f m.rules with
  | ok t =>
    have hc : Ensures G T (fun m' => P m ∧ m' = m)
        (Op.change operation fun m => m.withRules t) Q E := by
      refine change ?_
      rintro _ ⟨hp, rfl⟩ hg
      exact hok _ t hp hf hg
    exact hc
  | error e =>
    have hr : Ensures G T (fun m' => P m ∧ m' = m) (Op.refuse operation e) Q E := by
      refine refuse ?_
      rintro _ ⟨hp, rfl⟩ hg
      exact hfail _ e hp hf hg
    exact hr

end Ensures

end

end HybridMount
