import Mathlib.Data.List.Basic

/-! Reading a list to its end through calls which take a few items from a cursor and return the
cursor to go on from. -/

namespace CursorReads

variable {α κ : Type}

/-- The items read by calls that have room for one item more than each number says, and whether a
call found nothing more to read. -/
def readAll (call : Nat → κ → List α × κ) : List Nat → κ → List α × Bool
  | [], _ => ([], false)
  | room :: rooms, cursor =>
    let (items, next) := call (room + 1) cursor
    if items.isEmpty then ([], true)
    else
      let (more, ended) := readAll call rooms next
      (items ++ more, ended)

/-- A call takes items off the front of what remains, and some unless nothing does. -/
structure Exact (call : Nat → κ → List α × κ) (remaining : κ → List α) : Prop where
  split : ∀ room cursor,
    (call room cursor).1 ++ remaining (call room cursor).2 = remaining cursor
  progress : ∀ room cursor, (call (room + 1) cursor).1 = [] → remaining cursor = []

variable {call : Nat → κ → List α × κ} {remaining : κ → List α}

/-- However the reads are cut, they give what remains in order, and all of it when they end. -/
theorem readAll_prefix (h : Exact call remaining) (rooms : List Nat) (cursor : κ) :
    (readAll call rooms cursor).1 <+: remaining cursor ∧
      ((readAll call rooms cursor).2 = true →
        (readAll call rooms cursor).1 = remaining cursor) := by
  induction rooms generalizing cursor with
  | nil => simp [readAll]
  | cons room rooms ih =>
    have hsplit := h.split (room + 1) cursor
    have hprogress := h.progress room cursor
    cases hcall : call (room + 1) cursor with
    | mk items next =>
      rw [hcall] at hsplit hprogress
      simp only [readAll, hcall]
      split
      next hempty =>
        have hnone := hprogress (List.isEmpty_iff.mp hempty)
        exact ⟨List.nil_prefix, fun _ => hnone.symm⟩
      next hsome =>
        obtain ⟨hpre, hall⟩ := ih next
        simp only at hsplit ⊢
        rw [← hsplit]
        refine ⟨(List.prefix_append_right_inj items).mpr hpre, ?_⟩
        intro hended
        rw [hall hended]

/-- More calls than there are items reach the end. -/
theorem readAll_ends (h : Exact call remaining) (rooms : List Nat) (cursor : κ)
    (hmore : (remaining cursor).length < rooms.length) :
    (readAll call rooms cursor).2 = true := by
  induction rooms generalizing cursor with
  | nil => simp at hmore
  | cons room rooms ih =>
    have hsplit := h.split (room + 1) cursor
    cases hcall : call (room + 1) cursor with
    | mk items next =>
      rw [hcall] at hsplit
      simp only [readAll, hcall]
      split
      next hempty => rfl
      next hsome =>
        apply ih next
        have hlen := congrArg List.length hsplit
        have hpos : 0 < items.length := by
          cases items with
          | nil => simp at hsome
          | cons item items => simp
        simp only [List.length_append, List.length_cons] at hlen hmore
        omega

end CursorReads
