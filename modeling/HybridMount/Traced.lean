import Mathlib.Order.Basic
import Mathlib.Data.List.Basic
import Mathlib.Algebra.GroupWithZero.Nat

/-! Fallible programs over a state which record the events of a run. Rely and
guarantee are predicates on single events, so that a run restricted by a
schedule and the safety of every intermediate point are stated alike. -/

namespace Traced

/-- What one execution leaves behind. -/
structure Run (σ ω ε α : Type) where
  result : Except ε α
  state : σ
  trace : List ω

def Prog (σ ω ε α : Type) : Type := σ → Run σ ω ε α

variable {σ ω ε α β : Type}

namespace Prog

def pure (a : α) : Prog σ ω ε α := fun s => ⟨.ok a, s, []⟩

def bind (m : Prog σ ω ε α) (f : α → Prog σ ω ε β) : Prog σ ω ε β := fun s =>
  match (m s).result with
  | .ok a =>
    let next := f a (m s).state
    ⟨next.result, next.state, (m s).trace ++ next.trace⟩
  | .error e => ⟨.error e, (m s).state, (m s).trace⟩

instance : Monad (Prog σ ω ε) where
  pure := Prog.pure
  bind := Prog.bind

def fail (e : ε) : Prog σ ω ε α := fun s => ⟨.error e, s, []⟩

def get : Prog σ ω ε σ := fun s => ⟨.ok s, s, []⟩

/-- Lift a pure computation that may fail. -/
def ofExcept (x : Except ε α) : Prog σ ω ε α := fun s => ⟨x, s, []⟩

/-- Run a program and hand its outcome to the caller instead of failing. -/
def attempt (m : Prog σ ω ε α) : Prog σ ω ε (Except ε α) := fun s =>
  ⟨.ok (m s).result, (m s).state, (m s).trace⟩

/-- Replace the state and record one event about the change. -/
def update (f : σ → σ) (event : σ → σ → ω) : Prog σ ω ε Unit := fun s =>
  ⟨.ok (), f s, [event s (f s)]⟩

/-- Relabel the events of a run. -/
def mapEvents (f : ω → ω) (m : Prog σ ω ε α) : Prog σ ω ε α := fun s =>
  ⟨(m s).result, (m s).state, (m s).trace.map f⟩

def forEach (f : α → Prog σ ω ε Unit) : List α → Prog σ ω ε Unit
  | [] => Pure.pure ()
  | x :: xs => f x >>= fun _ => forEach f xs

/-- Process every element, whatever the outcome of the earlier ones. -/
def tryEach (f : α → Prog σ ω ε Unit) (xs : List α) : Prog σ ω ε Unit :=
  forEach (fun x => attempt (f x) >>= fun _ => Pure.pure ()) xs

theorem bind_ok {m : Prog σ ω ε α} {f : α → Prog σ ω ε β} {s s' : σ} {a : α} {trace : List ω}
    (h : m s = ⟨.ok a, s', trace⟩) :
    (m >>= f) s = ⟨(f a s').result, (f a s').state, trace ++ (f a s').trace⟩ := by
  simp only [Bind.bind, bind, h]

theorem bind_error {m : Prog σ ω ε α} {f : α → Prog σ ω ε β} {s s' : σ} {e : ε} {trace : List ω}
    (h : m s = ⟨.error e, s', trace⟩) : (m >>= f) s = ⟨.error e, s', trace⟩ := by
  simp only [Bind.bind, bind, h]

end Prog

/-- If the events of a run from `P` satisfy the rely `G`, they satisfy the
guarantee `T`, and the outcome satisfies `Q` or, for an error, `E`. -/
def Sat (G T : ω → Prop) (P : σ → Prop) (m : Prog σ ω ε α)
    (Q : α → σ → Prop) (E : ε → σ → Prop) : Prop :=
  ∀ s, P s → (∀ e ∈ (m s).trace, G e) →
    (∀ e ∈ (m s).trace, T e) ∧
      match (m s).result with
      | .ok a => Q a (m s).state
      | .error e => E e (m s).state

variable {G T : ω → Prop} {P P' : σ → Prop} {Q Q' : α → σ → Prop} {R : β → σ → Prop} {E E' : ε → σ → Prop}

namespace Sat

theorem events {m : Prog σ ω ε α} {s : σ} (h : Sat G T P m Q E) (hs : P s)
    (hg : ∀ e ∈ (m s).trace, G e) : ∀ e ∈ (m s).trace, T e :=
  (h s hs hg).1

theorem of_ok {m : Prog σ ω ε α} {s : σ} {a : α} (h : Sat G T P m Q E) (hs : P s)
    (hg : ∀ e ∈ (m s).trace, G e) (ha : (m s).result = .ok a) : Q a (m s).state := by
  have hr := (h s hs hg).2
  rw [ha] at hr
  exact hr

theorem of_error {m : Prog σ ω ε α} {s : σ} {e : ε} (h : Sat G T P m Q E) (hs : P s)
    (hg : ∀ e ∈ (m s).trace, G e) (he : (m s).result = .error e) : E e (m s).state := by
  have hr := (h s hs hg).2
  rw [he] at hr
  exact hr

theorem consequence {m : Prog σ ω ε α} (h : Sat G T P m Q E) (hp : ∀ s, P' s → P s)
    (hq : ∀ a s, Q a s → Q' a s) (he : ∀ e s, E e s → E' e s) : Sat G T P' m Q' E' := by
  intro s hs hg
  obtain ⟨ht, hr⟩ := h s (hp s hs) hg
  refine ⟨ht, ?_⟩
  cases hm : (m s).result with
  | ok a => rw [hm] at hr; exact hq a _ hr
  | error e => rw [hm] at hr; exact he e _ hr

theorem guarantee {T' : ω → Prop} {m : Prog σ ω ε α} (h : Sat G T P m Q E) (ht : ∀ e, T e → T' e) :
    Sat G T' P m Q E :=
  fun s hs hg => ⟨fun e he => ht e ((h s hs hg).1 e he), (h s hs hg).2⟩

theorem strengthen {m : Prog σ ω ε α} (h : Sat G T P m Q E) (hp : ∀ s, P' s → P s) :
    Sat G T P' m Q E :=
  h.consequence hp (fun _ _ hq => hq) (fun _ _ he => he)

theorem weaken {m : Prog σ ω ε α} (h : Sat G T P m Q E)
    (hq : ∀ a s, Q a s → Q' a s) (he : ∀ e s, E e s → E' e s) : Sat G T P m Q' E' :=
  h.consequence (fun _ hs => hs) hq he

theorem given {φ : Prop} {m : Prog σ ω ε α} (h : φ → Sat G T P m Q E) : Sat G T (fun s => P s ∧ φ) m Q E :=
  fun s hs => h hs.2 s hs.1

/-- Two triples of one program hold together. -/
theorem both {m : Prog σ ω ε α} (h : Sat G T P m Q E) (h' : Sat G T P' m Q' E') :
    Sat G T (fun s => P s ∧ P' s) m (fun a s => Q a s ∧ Q' a s) (fun e s => E e s ∧ E' e s) := by
  intro s hs hg
  obtain ⟨ht, hr⟩ := h s hs.1 hg
  obtain ⟨-, hr'⟩ := h' s hs.2 hg
  refine ⟨ht, ?_⟩
  cases hm : (m s).result with
  | ok a =>
    rw [hm] at hr hr'
    exact ⟨hr, hr'⟩
  | error e =>
    rw [hm] at hr hr'
    exact ⟨hr, hr'⟩

theorem pure {a : α} (h : ∀ s, P s → Q a s) : Sat G T P (Pure.pure a : Prog σ ω ε α) Q E :=
  fun s hs _ => ⟨fun _ he => absurd he List.not_mem_nil, h s hs⟩

theorem fail {e : ε} (h : ∀ s, P s → E e s) : Sat G T P (Prog.fail e : Prog σ ω ε α) Q E :=
  fun s hs _ => ⟨fun _ he => absurd he List.not_mem_nil, h s hs⟩

theorem get {Q : σ → σ → Prop} (h : ∀ s, P s → Q s s) : Sat G T P (Prog.get : Prog σ ω ε σ) Q E :=
  fun s hs _ => ⟨fun _ he => absurd he List.not_mem_nil, h s hs⟩

theorem ofExcept {x : Except ε α} (hok : ∀ a s, x = .ok a → P s → Q a s)
    (herr : ∀ e s, x = .error e → P s → E e s) : Sat G T P (Prog.ofExcept x : Prog σ ω ε α) Q E := by
  intro s hs _
  refine ⟨fun _ he => absurd he List.not_mem_nil, ?_⟩
  cases x with
  | ok a => exact hok a s rfl hs
  | error e => exact herr e s rfl hs

theorem bind {m : Prog σ ω ε α} {f : α → Prog σ ω ε β} (hm : Sat G T P m Q E)
    (hf : ∀ a, Sat G T (Q a) (f a) R E) : Sat G T P (m >>= f) R E := by
  intro s hs hg
  cases h : (m s).result with
  | ok a =>
    have he : (m >>= f) s =
        ⟨(f a (m s).state).result, (f a (m s).state).state, (m s).trace ++ (f a (m s).state).trace⟩ := by
      simp only [Bind.bind, Prog.bind, h]
    rw [he] at hg ⊢
    obtain ⟨ht, hq⟩ := hm s hs (fun e he => hg e (List.mem_append_left _ he))
    rw [h] at hq
    obtain ⟨ht', hr⟩ := hf a _ hq (fun e he => hg e (List.mem_append_right _ he))
    exact ⟨fun e he => (List.mem_append.mp he).elim (ht e) (ht' e), hr⟩
  | error e =>
    have he : (m >>= f) s = ⟨.error e, (m s).state, (m s).trace⟩ := by
      simp only [Bind.bind, Prog.bind, h]
    rw [he] at hg ⊢
    obtain ⟨ht, hq⟩ := hm s hs hg
    rw [h] at hq
    exact ⟨ht, hq⟩

theorem attempt {m : Prog σ ω ε α} {Q : Except ε α → σ → Prop}
    (h : Sat G T P m (fun a => Q (.ok a)) (fun e => Q (.error e))) :
    Sat G T P (Prog.attempt m) Q E := by
  intro s hs hg
  obtain ⟨ht, hr⟩ := h s hs hg
  refine ⟨ht, ?_⟩
  change Q (m s).result (m s).state
  cases hm : (m s).result with
  | ok a => rw [hm] at hr; exact hr
  | error e => rw [hm] at hr; exact hr

/-- A program whose outcome decides what comes next. -/
theorem attempt_bind {m : Prog σ ω ε α} {f : Except ε α → Prog σ ω ε β} (h : Sat G T P m Q E')
    (hok : ∀ a, Sat G T (Q a) (f (.ok a)) R E)
    (herr : ∀ e, Sat G T (E' e) (f (.error e)) R E) : Sat G T P (Prog.attempt m >>= f) R E := by
  refine bind (Q := fun out s => (∃ a, out = .ok a ∧ Q a s) ∨ ∃ e, out = .error e ∧ E' e s)
    (attempt (h.weaken (fun a s hq => .inl ⟨a, rfl, hq⟩) fun e s he => .inr ⟨e, rfl, he⟩)) fun out => ?_
  cases out with
  | ok a =>
    refine (hok a).strengthen fun s hs => ?_
    rcases hs with ⟨a', heq, hq⟩ | ⟨e, heq, -⟩
    · cases heq
      exact hq
    · cases heq
  | error e =>
    refine (herr e).strengthen fun s hs => ?_
    rcases hs with ⟨a, heq, -⟩ | ⟨e', heq, he⟩
    · cases heq
    · cases heq
      exact he

theorem update {f : σ → σ} {event : σ → σ → ω} {Q : Unit → σ → Prop}
    (h : ∀ s, P s → G (event s (f s)) → T (event s (f s)) ∧ Q () (f s)) :
    Sat G T P (Prog.update f event : Prog σ ω ε Unit) Q E := by
  intro s hs hg
  obtain ⟨ht, hq⟩ := h s hs (hg _ (List.mem_singleton.mpr rfl))
  exact ⟨fun e he => List.mem_singleton.mp he ▸ ht, hq⟩

theorem mapEvents {f : ω → ω} {m : Prog σ ω ε α}
    (h : Sat (fun e => G (f e)) (fun e => T (f e)) P m Q E) : Sat G T P (Prog.mapEvents f m) Q E := by
  intro s hs hg
  obtain ⟨ht, hr⟩ := h s hs (fun e he => hg _ (List.mem_map_of_mem he))
  refine ⟨fun e he => ?_, hr⟩
  obtain ⟨e', he', rfl⟩ := List.mem_map.mp he
  exact ht e' he'

theorem forEach {f : α → Prog σ ω ε Unit} {I : List α → σ → Prop} (xs : List α)
    (h : ∀ x xs, Sat G T (I (x :: xs)) (f x) (fun _ => I xs) E) :
    Sat G T (I xs) (Prog.forEach f xs) (fun _ => I []) E := by
  induction xs with
  | nil => exact pure (fun _ hs => hs)
  | cons x xs ih => exact bind (h x xs) (fun _ => ih)

theorem attempt_keeps {m : Prog σ ω ε α} {I : σ → Prop} (h : Sat G T P m (fun _ => I) (fun _ => I)) :
    Sat G T P (Prog.attempt m) (fun _ => I) E := attempt h

theorem attempt_ignore {m : Prog σ ω ε α} {I : σ → Prop} (h : Sat G T P m (fun _ => I) (fun _ => I)) :
    Sat G T P (Prog.attempt m >>= fun _ => Pure.pure ()) (fun _ => I) E :=
  bind (attempt_keeps h) (fun _ => pure (fun _ hs => hs))

theorem tryEach {f : α → Prog σ ω ε Unit} {I : List α → σ → Prop} (xs : List α)
    (h : ∀ x xs, Sat G T (I (x :: xs)) (f x) (fun _ => I xs) (fun _ => I xs)) :
    Sat G T (I xs) (Prog.tryEach f xs) (fun _ => I []) E :=
  forEach xs fun x xs => attempt_ignore (h x xs)

/-- `I done` holds once the elements `done` are processed, none of them in vain. -/
theorem tryEach_done {f : α → Prog σ ω ε Unit} {I : List α → σ → Prop} (xs : List α)
    (h : ∀ done x, done ++ [x] <+: xs →
      Sat G T (I done) (f x) (fun _ => I (done ++ [x])) (fun _ _ => False)) :
    Sat G T (I []) (Prog.tryEach f xs) (fun _ => I xs) E := by
  let J := fun rest s => ∃ done, xs = done ++ rest ∧ I done s
  have hstep : ∀ x rest, Sat G T (J (x :: rest)) (f x) (fun _ => J rest) (fun _ => J rest) := by
    rintro x rest s ⟨done, hd, hs⟩ hg
    have hd' : xs = done ++ [x] ++ rest := by rw [hd, List.append_assoc]; rfl
    refine (h done x ⟨rest, hd'.symm⟩).weaken ?_ ?_ s hs hg
    · exact fun _ s' hs' => ⟨done ++ [x], hd', hs'⟩
    · exact fun _ _ he => he.elim
  refine (tryEach xs hstep).consequence (fun s hs => ⟨[], rfl, hs⟩) ?_ (fun _ _ he => he)
  rintro _ s ⟨done, hd, hs⟩
  rw [hd, List.append_nil]
  exact hs

theorem forEach_invariant {f : α → Prog σ ω ε Unit} {I : σ → Prop} (xs : List α)
    (h : ∀ x ∈ xs, Sat G T I (f x) (fun _ => I) E) :
    Sat G T I (Prog.forEach f xs) (fun _ => I) E := by
  induction xs with
  | nil => exact pure (fun _ hs => hs)
  | cons x xs ih =>
    exact bind (h x List.mem_cons_self) fun _ => ih fun y hy => h y (List.mem_cons_of_mem _ hy)

theorem forEach_last {f : α → Prog σ ω ε Unit} {I : σ → Prop} {Q : Unit → σ → Prop} {y : α} (xs : List α)
    (h : ∀ x ∈ xs, Sat G T I (f x) (fun _ => I) E) (hlast : Sat G T I (f y) Q E) :
    Sat G T I (Prog.forEach f (xs ++ [y])) Q E := by
  induction xs with
  | nil => exact bind hlast fun _ => pure fun _ hs => hs
  | cons x xs ih =>
    exact bind (h x List.mem_cons_self) fun _ => ih fun y hy => h y (List.mem_cons_of_mem _ hy)

theorem tryEach_invariant {f : α → Prog σ ω ε Unit} {I : σ → Prop} (xs : List α)
    (h : ∀ x ∈ xs, Sat G T I (f x) (fun _ => I) (fun _ => I)) :
    Sat G T I (Prog.tryEach f xs) (fun _ => I) E :=
  forEach_invariant xs fun x hx => attempt_ignore (h x hx)

/-- `I done b` holds once the elements `done` have been folded into `b`. -/
theorem foldlM {f : β → α → Prog σ ω ε β} {I : List α → β → σ → Prop} (xs : List α)
    (h : ∀ done x rest b, xs = done ++ x :: rest → Sat G T (I done b) (f b x) (I (done ++ [x])) E) (b : β) :
    Sat G T (I [] b) (xs.foldlM f b) (I xs) E := by
  have hstep : ∀ rest done b, xs = done ++ rest → Sat G T (I done b) (rest.foldlM f b) (I xs) E := by
    intro rest
    induction rest with
    | nil =>
      intro done b hxs
      rw [List.append_nil] at hxs
      exact pure fun _ hs => hxs ▸ hs
    | cons x rest ih =>
      intro done b hxs
      exact bind (h done x rest b hxs) fun b' => ih (done ++ [x]) b' (by rw [hxs, List.append_assoc]; rfl)
  exact hstep xs [] b rfl

end Sat

/-- From `P` the events of a run weigh at most `n`, and a success leaves `k` unused. -/
def Costs (weigh : ω → Nat) (P : σ → Prop) (n : Nat) (m : Prog σ ω ε α) (Q : α → σ → Prop) (k : Nat) : Prop :=
  ∀ s, P s →
    match (m s).result with
    | .ok a => Q a (m s).state ∧ ((m s).trace.map weigh).sum + k ≤ n
    | .error _ => ((m s).trace.map weigh).sum ≤ n

namespace Costs

variable {weigh : ω → Nat} {n k l : Nat}

theorem bind {m : Prog σ ω ε α} {f : α → Prog σ ω ε β} (hm : Costs weigh P n m Q k)
    (hf : ∀ a, Costs weigh (Q a) k (f a) R l) : Costs weigh P n (m >>= f) R l := by
  intro s hs
  have hh := hm s hs
  cases h : (m s).result with
  | ok a =>
    rw [h] at hh
    have he : (m >>= f) s =
        ⟨(f a (m s).state).result, (f a (m s).state).state, (m s).trace ++ (f a (m s).state).trace⟩ := by
      simp only [Bind.bind, Prog.bind, h]
    have hnext := hf a _ hh.1
    rw [he]
    cases hr : (f a (m s).state).result with
    | ok b =>
      rw [hr] at hnext
      refine ⟨hnext.1, ?_⟩
      simp only [List.map_append, List.sum_append]
      have h1 := hh.2
      have h2 := hnext.2
      omega
    | error e =>
      rw [hr] at hnext
      simp only [List.map_append, List.sum_append]
      have h1 := hh.2
      omega
  | error e =>
    rw [h] at hh
    have he : (m >>= f) s = ⟨.error e, (m s).state, (m s).trace⟩ := by
      simp only [Bind.bind, Prog.bind, h]
    rw [he]
    exact hh

/-- A program whose events weigh nothing leaves the whole allowance. -/
theorem of_free {m : Prog σ ω ε α} (h : Sat (fun _ => True) (fun e => weigh e = 0) P m Q E) :
    Costs weigh P n m Q n := by
  intro s hs
  obtain ⟨ht, hq⟩ := h s hs fun _ _ => trivial
  have hzero : ((m s).trace.map weigh).sum = 0 := by
    refine List.sum_eq_zero_iff_forall_eq_nat.mpr fun w hw => ?_
    obtain ⟨e, he, rfl⟩ := List.mem_map.mp hw
    exact ht e he
  cases hr : (m s).result with
  | ok a =>
    rw [hr] at hq
    exact ⟨hq, by omega⟩
  | error e => exact hzero ▸ Nat.zero_le n

theorem mono {n' k' : Nat} {m : Prog σ ω ε α} (h : Costs weigh P n m Q k) (hn : n ≤ n') (hk : k' ≤ k) :
    Costs weigh P n' m Q k' := by
  intro s hs
  have hh := h s hs
  cases hr : (m s).result with
  | ok a =>
    rw [hr] at hh
    have hle := hh.2
    exact ⟨hh.1, by omega⟩
  | error e =>
    rw [hr] at hh
    exact Nat.le_trans hh hn

theorem given {φ : Prop} {m : Prog σ ω ε α} (h : φ → Costs weigh P n m Q k) :
    Costs weigh (fun s => P s ∧ φ) n m Q k :=
  fun s hs => h hs.2 s hs.1

theorem update {f : σ → σ} {event : σ → σ → ω} {Q : Unit → σ → Prop}
    (h : ∀ s, P s → Q () (f s) ∧ weigh (event s (f s)) + k ≤ n) :
    Costs weigh P n (Prog.update f event : Prog σ ω ε Unit) Q k := by
  intro s hs
  obtain ⟨hq, hle⟩ := h s hs
  refine ⟨hq, ?_⟩
  simpa only [Prog.update, List.map_cons, List.map_nil, List.sum_cons, List.sum_nil, Nat.add_zero] using hle

theorem sum_le {m : Prog σ ω ε α} {s : σ} (h : Costs weigh P n m Q k) (hs : P s) :
    ((m s).trace.map weigh).sum ≤ n := by
  have hh := h s hs
  cases hr : (m s).result with
  | ok a =>
    rw [hr] at hh
    have h1 := hh.2
    omega
  | error e =>
    rw [hr] at hh
    exact hh

end Costs

/-- The program succeeds with the value, and leaves this state and this trace. -/
def Leads (m : Prog σ ω ε α) (s : σ) (a : α) (s' : σ) (trace : List ω) : Prop := m s = ⟨.ok a, s', trace⟩

namespace Leads

variable {m : Prog σ ω ε α} {f : α → Prog σ ω ε β} {s s' s'' : σ} {a : α} {b : β} {trace later : List ω}

theorem pure (a : α) (s : σ) : Leads (Pure.pure a : Prog σ ω ε α) s a s [] := rfl

/-- What comes next runs on what the program leaves. -/
theorem then_run (hm : Leads m s a s' trace) :
    (m >>= f) s = ⟨(f a s').result, (f a s').state, trace ++ (f a s').trace⟩ :=
  Prog.bind_ok hm

theorem bind (hm : Leads m s a s' trace) (hf : Leads (f a) s' b s'' later) :
    Leads (m >>= f) s b s'' (trace ++ later) := by
  unfold Leads at hf
  rw [Leads, hm.then_run, hf]

theorem attempt (hm : Leads m s a s' trace) : Leads (Prog.attempt m) s (.ok a) s' trace := by
  unfold Leads at hm
  simp only [Leads, Prog.attempt, hm]

end Leads

/-- The run begins with the event. -/
def Starts (m : Prog σ ω ε α) (s : σ) (e : ω) : Prop := ∃ rest, (m s).trace = e :: rest

namespace Starts

variable {m : Prog σ ω ε α} {f : α → Prog σ ω ε β} {s : σ} {e : ω}

theorem bind (h : Starts m s e) : Starts (m >>= f) s e := by
  obtain ⟨rest, hrest⟩ := h
  simp only [Starts, Bind.bind, Prog.bind]
  cases (m s).result with
  | ok a => exact ⟨rest ++ (f a (m s).state).trace, congrArg (· ++ (f a (m s).state).trace) hrest⟩
  | error _ => exact ⟨rest, hrest⟩

theorem attempt (h : Starts m s e) : Starts (Prog.attempt m) s e := h

end Starts

/-- Every `M` of a trace comes after some `I`. -/
def Precedes (I M : ω → Prop) (trace : List ω) : Prop :=
  ∀ pre e post, trace = pre ++ e :: post → M e → ∃ e' ∈ pre, I e'

namespace Precedes

variable {I M : ω → Prop}

theorem of_quiet {trace : List ω} (h : ∀ e ∈ trace, ¬ M e) : Precedes I M trace := by
  intro pre e post ht hm
  exact absurd hm (h e (by rw [ht]; simp))

theorem append {xs ys : List ω} (hx : ∀ e ∈ xs, ¬ M e)
    (hy : (∃ e ∈ xs, I e) ∨ Precedes I M ys) : Precedes I M (xs ++ ys) := by
  intro pre e post ht hm
  rcases List.append_eq_append_iff.mp ht with ⟨as, hpre, hys⟩ | ⟨bs, hxs, hrest⟩
  · rcases hy with ⟨i, hi, hI⟩ | hy
    · exact ⟨i, by rw [hpre]; exact List.mem_append_left _ hi, hI⟩
    · obtain ⟨i, hi, hI⟩ := hy as e post hys hm
      exact ⟨i, by rw [hpre]; exact List.mem_append_right _ hi, hI⟩
  · cases bs with
    | nil =>
      rw [List.nil_append] at hrest
      rw [List.append_nil] at hxs
      rcases hy with ⟨i, hi, hI⟩ | hy
      · exact ⟨i, hxs ▸ hi, hI⟩
      · obtain ⟨i, hi, -⟩ := hy [] e post hrest.symm hm
        cases hi
    | cons b bs =>
      obtain ⟨rfl, -⟩ := List.cons.inj hrest
      exact absurd hm (hx e (by rw [hxs]; simp))

theorem bind {m : Prog σ ω ε α} {f : α → Prog σ ω ε β} {s : σ} (hm : ∀ e ∈ (m s).trace, ¬ M e)
    (hf : ∀ a, (m s).result = .ok a → (∃ e ∈ (m s).trace, I e) ∨ Precedes I M (f a (m s).state).trace) :
    Precedes I M ((m >>= f) s).trace := by
  cases h : (m s).result with
  | ok a =>
    have he : ((m >>= f) s).trace = (m s).trace ++ (f a (m s).state).trace := by
      simp only [Bind.bind, Prog.bind, h]
    rw [he]
    exact append hm (hf a h)
  | error e =>
    have he : ((m >>= f) s).trace = (m s).trace := by
      simp only [Bind.bind, Prog.bind, h]
    rw [he]
    exact of_quiet hm

end Precedes

end Traced
