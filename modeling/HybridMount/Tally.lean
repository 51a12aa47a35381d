import Mathlib.Data.Finset.Card
import Mathlib.Logic.Function.Basic

/-! A counter which says how many of any number of parties are in a phase that counts. -/

namespace HybridMount

/-- `n` of the parties are in a phase which counts. -/
def Tally {α β : Type} (counts : β → Bool) (phase : α → β) (n : Nat) : Prop :=
  ∃ F : Finset α, (∀ i, i ∈ F ↔ counts (phase i) = true) ∧ F.card = n

namespace Tally

variable {α β : Type} {counts : β → Bool} {phase : α → β} {n : Nat} {i : α}

theorem none (hnone : ∀ i, counts (phase i) = false) : Tally counts phase 0 :=
    ⟨∅, fun i => by simp [hnone i], rfl⟩

theorem pos (h : Tally counts phase n) (hi : counts (phase i) = true) : 0 < n := by
  obtain ⟨F, hF, hcard⟩ := h
  rw [← hcard, Finset.card_pos]
  exact ⟨i, (hF i).mpr hi⟩

theorem zero (h : Tally counts phase 0) (i : α) : counts (phase i) = false := by
  cases hi : counts (phase i) with
  | false => rfl
  | true => exact absurd (h.pos hi) (lt_irrefl 0)

theorem eq_zero (h : Tally counts phase n) (hzero : ∀ i, counts (phase i) = false) : n = 0 := by
  obtain ⟨F, hF, rfl⟩ := h
  rw [Finset.card_eq_zero, Finset.eq_empty_iff_forall_notMem]
  intro i hi
  have hcounted := (hF i).mp hi
  rw [hzero i] at hcounted
  cases hcounted

variable [DecidableEq α] {x : β}

/-- A party moves between two phases which both count, or both do not. -/
theorem keep (h : Tally counts phase n) (hx : counts x = counts (phase i)) :
    Tally counts (Function.update phase i x) n := by
  obtain ⟨F, hF, hcard⟩ := h
  refine ⟨F, fun j => ?_, hcard⟩
  by_cases hj : j = i
  · rw [hj, Function.update_self, hx, hF i]
  · rw [Function.update_of_ne hj, hF j]

theorem gain (h : Tally counts phase n) (hi : counts (phase i) = false) (hx : counts x = true) :
    Tally counts (Function.update phase i x) (n + 1) := by
  obtain ⟨F, hF, hcard⟩ := h
  have hnot : i ∉ F := by
    rw [hF i, hi]
    exact Bool.false_ne_true
  refine ⟨insert i F, fun j => ?_, by rw [Finset.card_insert_of_notMem hnot, hcard]⟩
  rw [Finset.mem_insert]
  by_cases hj : j = i
  · simp [hj, hx]
  · rw [Function.update_of_ne hj, hF j]
    simp [hj]

theorem loss (h : Tally counts phase n) (hi : counts (phase i) = true) (hx : counts x = false) :
    Tally counts (Function.update phase i x) (n - 1) := by
  obtain ⟨F, hF, hcard⟩ := h
  refine ⟨F.erase i, fun j => ?_, by rw [Finset.card_erase_of_mem ((hF i).mpr hi), hcard]⟩
  rw [Finset.mem_erase]
  by_cases hj : j = i
  · simp [hj, hx]
  · rw [Function.update_of_ne hj, hF j]
    simp [hj]

end Tally

end HybridMount
