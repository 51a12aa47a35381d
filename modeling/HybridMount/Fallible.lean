import Mathlib.Tactic

/-! Computations which may fail: what holds when they succeed, above all of folds whose steps may fail,
and what excuses a failure. -/

namespace Fallible

variable {α β γ ε : Type} {step : β → α → Except ε β} {items : List α} {b r : β} {a : α}

theorem bind_ok {x : Except ε α} {f : α → Except ε β} (h : x >>= f = .ok r) :
    ∃ a, x = .ok a ∧ f a = .ok r := by
  cases x with
  | error e => cases h
  | ok a => exact ⟨a, rfl, h⟩

theorem ok_of_toOption {x : Except ε α} (h : x.toOption = some a) : x = .ok a := by
  cases x with
  | error e => cases h
  | ok b =>
    cases h
    rfl

theorem foldlM_extends (I : List α → β → Prop)
    (hstep : ∀ done a b b', I done b → step b a = .ok b' → I (done ++ [a]) b')
    (h : items.foldlM step b = .ok r)
    {done : List α} (hi : I done b) : I (done ++ items) r := by
  induction items generalizing b done with
  | nil =>
    cases h
    simpa using hi
  | cons a rest ih =>
    obtain ⟨b', hb, hrest⟩ := bind_ok (by simpa only [List.foldlM_cons] using h)
    have hh := ih hrest (hstep done a b b' hi hb)
    simpa using hh

theorem foldlM_invariant (I : List α → β → Prop)
    (hstep : ∀ done a b b', I done b → step b a = .ok b' → I (done ++ [a]) b')
    (h : items.foldlM step b = .ok r)
    (hi : I [] b) : I items r :=
  foldlM_extends I hstep h hi

theorem foldlM_view (view : β → γ) (change : γ → α → γ)
    (hstep : ∀ a ∈ items, ∀ b b', step b a = .ok b' → view b' = change (view b) a)
    (h : items.foldlM step b = .ok r) :
    view r = items.foldl change (view b) := by
  induction items generalizing b with
  | nil =>
    cases h
    rfl
  | cons a rest ih =>
    obtain ⟨b', hb, hrest⟩ := bind_ok (by simpa only [List.foldlM_cons] using h)
    obtain ⟨ha, hall⟩ := List.forall_mem_cons.mp hstep
    rw [ih hall hrest, ha b b' hb, List.foldl_cons]

theorem foldlM_each (h : items.foldlM step b = .ok r) (ha : a ∈ items) : ∃ b₀ b₁, step b₀ a = .ok b₁ := by
  induction items generalizing b with
  | nil => cases ha
  | cons x rest ih =>
    obtain ⟨b', hb, hrest⟩ := bind_ok (by simpa only [List.foldlM_cons] using h)
    rcases List.mem_cons.mp ha with rfl | ha
    · exact ⟨b, b', hb⟩
    · exact ih hrest ha

theorem foldlM_total (I : β → Prop) (hstep : ∀ a ∈ items, ∀ b, I b → ∃ b', step b a = .ok b' ∧ I b') (hb : I b) :
    ∃ r, items.foldlM step b = .ok r ∧ I r := by
  induction items generalizing b with
  | nil => exact ⟨b, rfl, hb⟩
  | cons a rest ih =>
    obtain ⟨ha, hall⟩ := List.forall_mem_cons.mp hstep
    obtain ⟨b', hok, hb'⟩ := ha b hb
    obtain ⟨r, hr, hi⟩ := ih hall hb'
    exact ⟨r, by rw [List.foldlM_cons, hok]; exact hr, hi⟩

section Ends

variable {Q Q' : α → Prop} {R : γ → Prop} {E E' P : Prop} {x : Except ε α} {y : Except ε γ}
  {f : γ → Except ε α} {e : ε}

/-- The result is as described, or the failure is excused. -/
def Ends (x : Except ε α) (Q : α → Prop) (E : Prop) : Prop :=
  match x with
  | .ok a => Q a
  | .error _ => E

theorem Ends.ok (h : Q a) : Ends (.ok a : Except ε α) Q E := h

theorem Ends.error (h : E) : Ends (.error e : Except ε α) Q E := h

theorem Ends.of_ok (h : Ends x Q E) (hx : x = .ok a) : Q a := by
  rw [hx] at h
  exact h

theorem Ends.imp (h : Ends x Q E) (hq : ∀ a, Q a → Q' a) (he : E → E') : Ends x Q' E' := by
  cases x with
  | ok a => exact hq a h
  | error e => exact he h

theorem Ends.bind (h : Ends y R E) (hf : ∀ c, R c → Ends (f c) Q E) : Ends (y >>= f) Q E := by
  cases y with
  | ok c => exact hf c h
  | error e => exact h

/-- Failing just where the condition fails is succeeding just where it holds. -/
theorem Ends.succeeds_iff (h : Ends x (fun a => Q a ∧ P) (¬ P)) : (∃ a, x = .ok a) ↔ P := by
  cases x with
  | ok a => exact iff_of_true ⟨a, rfl⟩ h.2
  | error e =>
    refine iff_of_false ?_ h
    rintro ⟨a, ha⟩
    cases ha

theorem Ends.foldlM_extends (I : List α → β → Prop) (done : List α)
    (hstep : ∀ before a b, before ++ [a] <+: done ++ items → I before b →
      Ends (step b a) (I (before ++ [a])) E) (hi : I done b) :
    Ends (items.foldlM step b) (I (done ++ items)) E := by
  induction items generalizing b done with
  | nil =>
    rw [List.append_nil]
    exact hi
  | cons a rest ih =>
    have hsplit : done ++ a :: rest = (done ++ [a]) ++ rest := by simp
    rw [hsplit] at hstep ⊢
    rw [List.foldlM_cons]
    refine Ends.bind (hstep done a b ⟨rest, rfl⟩ hi) fun b' hb' => ih (done ++ [a]) hstep hb'

theorem Ends.foldlM (I : List α → β → Prop)
    (hstep : ∀ before a b, before ++ [a] <+: items → I before b → Ends (step b a) (I (before ++ [a])) E)
    (hi : I [] b) :
    Ends (items.foldlM step b) (I items) E :=
  Ends.foldlM_extends I [] hstep hi

end Ends

end Fallible
