import HybridMount.SaturatingWord
import Mathlib.Data.List.DropRight

/-! The output which is kept of a subprocess: so many bytes from its start and so many from its end,
whatever pieces the pipe hands out. -/

namespace HybridMount.Process

open SaturatingWord

structure OutputCapture where
  head : List UInt8
  tail : List UInt8
  omitted : UInt64
  headBudget : Nat
  tailBudget : Nat
  deriving DecidableEq, Repr

namespace OutputCapture

def new (maxBytes : Nat) : OutputCapture := ⟨[], [], 0, maxBytes / 2, maxBytes - maxBytes / 2⟩

/-- What the head has no room for goes to the tail. -/
def pushTail (capture : OutputCapture) (rest : List UInt8) : OutputCapture :=
  if rest = [] then capture
  else if capture.tailBudget ≤ rest.length then
    let keep := min capture.tailBudget rest.length
    let start := rest.length - keep
    { capture with
      tail := rest.drop start
      omitted := saturatingAdd (saturatingAdd capture.omitted (clamp capture.tail.length)) (clamp start) }
  else
    let overflow := capture.tail.length + rest.length - capture.tailBudget
    { capture with
      tail := capture.tail.drop overflow ++ rest
      omitted := if 0 < overflow then saturatingAdd capture.omitted (clamp overflow) else capture.omitted }

def push (capture : OutputCapture) (chunk : List UInt8) : OutputCapture :=
  if chunk = [] then capture
  else if capture.headBudget = 0 ∧ capture.tailBudget = 0 then
    { capture with omitted := saturatingAdd capture.omitted (clamp chunk.length) }
  else if capture.head.length < capture.headBudget then
    let take := min (capture.headBudget - capture.head.length) chunk.length
    { capture with head := capture.head ++ chunk.take take }.pushTail (chunk.drop take)
  else capture.pushTail chunk

def omittedBytes (capture : OutputCapture) : UInt64 := capture.omitted

/-- `lossy` is the text of some bytes; what is no UTF-8 is replaced. -/
def render (lossy : List UInt8 → String) (capture : OutputCapture) : String :=
  let text := lossy capture.head
  let marked := if 0 < capture.omitted then text ++ "\n[... omitted " ++ toString capture.omitted ++
    " bytes ...]\n" else text
  marked ++ lossy capture.tail

/-- The capture of so many bytes as a whole. -/
def whole (maxBytes : Nat) (output : List UInt8) : OutputCapture where
  head := output.take (maxBytes / 2)
  tail := (output.drop (maxBytes / 2)).rtake (maxBytes - maxBytes / 2)
  omitted := clamp (output.length - maxBytes)
  headBudget := maxBytes / 2
  tailBudget := maxBytes - maxBytes / 2

variable {maxBytes : Nat} {output chunk : List UInt8}

theorem length_rtake {α : Type} (l : List α) (n : Nat) : (l.rtake n).length = min n l.length := by
  rw [List.rtake, List.length_drop]
  omega

theorem rtake_append_short {α : Type} {l m : List α} {n : Nat} (h : m.length ≤ n) :
    (l ++ m).rtake n = (l.rtake n).drop ((l.rtake n).length + m.length - n) ++ m := by
  rw [length_rtake]
  simp only [List.rtake, List.drop_drop, List.length_append]
  rw [List.drop_append_of_le_length (by omega)]
  congr 2
  omega

theorem rtake_append_long {α : Type} {l m : List α} {n : Nat} (h : n ≤ m.length) :
    (l ++ m).rtake n = m.drop (m.length - n) := by
  rw [List.rtake, List.length_append, List.drop_append, List.drop_eq_nil_of_le (by omega), List.nil_append]
  congr 1
  omega

/-- The tail after more bytes, once the head is full. -/
theorem pushTail_whole (hfull : maxBytes / 2 ≤ output.length) :
    (whole maxBytes output).pushTail chunk = whole maxBytes (output ++ chunk) := by
  have hhead : (output ++ chunk).take (maxBytes / 2) = output.take (maxBytes / 2) :=
    List.take_append_of_le_length hfull
  have hdrop : (output ++ chunk).drop (maxBytes / 2) = output.drop (maxBytes / 2) ++ chunk :=
    List.drop_append_of_le_length hfull
  have htail : (whole maxBytes output).tail.length = min (maxBytes - maxBytes / 2)
      (output.length - maxBytes / 2) := by
    rw [whole, length_rtake, List.length_drop]
  unfold pushTail
  by_cases hnone : chunk = []
  · rw [if_pos hnone, hnone, List.append_nil]
  rw [if_neg hnone]
  by_cases hlong : (whole maxBytes output).tailBudget ≤ chunk.length
  · have hlong' : maxBytes - maxBytes / 2 ≤ chunk.length := hlong
    rw [if_pos hlong]
    dsimp only
    rw [htail, min_eq_left hlong]
    simp only [whole, saturatingAdd_clamp, hhead, hdrop, rtake_append_long hlong', List.length_append]
    congr 2
    omega
  · have hshort : chunk.length ≤ maxBytes - maxBytes / 2 := by
      simp only [whole] at hlong
      omega
    rw [if_neg hlong]
    dsimp only
    have homitted : (if 0 < (whole maxBytes output).tail.length + chunk.length -
      (whole maxBytes output).tailBudget then
        saturatingAdd (whole maxBytes output).omitted
          (clamp ((whole maxBytes output).tail.length + chunk.length - (whole maxBytes output).tailBudget))
        else (whole maxBytes output).omitted) = (whole maxBytes (output ++ chunk)).omitted := by
      rw [htail]
      simp only [whole, saturatingAdd_clamp, List.length_append]
      split
      · congr 1
        omega
      · congr 1
        omega
    rw [homitted]
    simp only [whole, hhead, hdrop, rtake_append_short hshort]

theorem whole_short (h : output.length ≤ maxBytes / 2) :
    whole maxBytes output = ⟨output, [], 0, maxBytes / 2, maxBytes - maxBytes / 2⟩ := by
  have hzero : output.length - maxBytes = 0 := by omega
  simp [whole, List.take_of_length_le h, List.drop_eq_nil_of_le h, List.rtake, hzero, clamp, top]

theorem push_whole : (whole maxBytes output).push chunk = whole maxBytes (output ++ chunk) := by
  unfold push
  by_cases hnone : chunk = []
  · rw [if_pos hnone, hnone, List.append_nil]
  rw [if_neg hnone]
  by_cases hzero : (whole maxBytes output).headBudget = 0 ∧ (whole maxBytes output).tailBudget = 0
  · rw [if_pos hzero]
    obtain rfl : maxBytes = 0 := by
      simp only [whole] at hzero
      omega
    simp [whole, List.rtake]
  rw [if_neg hzero]
  by_cases hroom : (whole maxBytes output).head.length < (whole maxBytes output).headBudget
  · rw [if_pos hroom]
    have hlen : output.length < maxBytes / 2 := by
      simp only [whole, List.length_take] at hroom
      omega
    rw [whole_short hlen.le]
    dsimp only
    -- the head takes what it has room for, which is the capture of so much more output
    obtain ⟨take, htake⟩ : ∃ take, take = min (maxBytes / 2 - output.length) chunk.length := ⟨_, rfl⟩
    rw [← htake]
    have hfit : (output ++ chunk.take take).length ≤ maxBytes / 2 := by
      rw [List.length_append, List.length_take]
      omega
    rw [← whole_short hfit]
    by_cases hall : chunk.length ≤ take
    · rw [List.drop_eq_nil_of_le hall, List.take_of_length_le hall, pushTail, if_pos rfl]
    · have hfull : maxBytes / 2 ≤ (output ++ chunk.take take).length := by
        rw [List.length_append, List.length_take]
        omega
      rw [pushTail_whole hfull, List.append_assoc, List.take_append_drop]
  · rw [if_neg hroom]
    refine pushTail_whole ?_
    simp only [whole, List.length_take] at hroom
    omega

theorem new_eq_whole : new maxBytes = whole maxBytes [] := (whole_short (Nat.zero_le _)).symm

theorem foldl_push (chunks : List (List UInt8)) :
    chunks.foldl push (whole maxBytes output) = whole maxBytes (output ++ chunks.flatten) := by
  induction chunks generalizing output with
  | nil => simp
  | cons chunk rest ih => rw [List.foldl_cons, push_whole, ih, List.flatten_cons, List.append_assoc]

theorem whole_bounded :
    (whole maxBytes output).head.length + (whole maxBytes output).tail.length ≤ maxBytes := by
  simp only [whole, length_rtake, List.length_take, List.length_drop]
  omega

theorem whole_fits (h : output.length ≤ maxBytes) :
    (whole maxBytes output).head ++ (whole maxBytes output).tail = output ∧
    (whole maxBytes output).omitted = 0 := by
  have hstart : maxBytes / 2 + (output.length - maxBytes / 2 - (maxBytes - maxBytes / 2)) = maxBytes / 2 := by
    omega
  have hzero : output.length - maxBytes = 0 := by omega
  simp [whole, List.rtake, hstart, hzero, clamp, top]

/-- Whatever the pieces are, the head, the tail and the count are those of the output as a whole. -/
theorem captured_whole (chunks : List (List UInt8)) :
    chunks.foldl push (new maxBytes) = whole maxBytes chunks.flatten ∧
      (chunks.foldl push (new maxBytes)).head.length +
        (chunks.foldl push (new maxBytes)).tail.length ≤ maxBytes ∧
      (chunks.flatten.length ≤ maxBytes →
        (chunks.foldl push (new maxBytes)).head ++ (chunks.foldl push (new maxBytes)).tail = chunks.flatten ∧
          (chunks.foldl push (new maxBytes)).omitted = 0) := by
  have hwhole : chunks.foldl push (new maxBytes) = whole maxBytes chunks.flatten := by
    rw [new_eq_whole, foldl_push, List.nil_append]
  rw [hwhole]
  exact ⟨rfl, whole_bounded, whole_fits⟩

example : ([[1, 2], [], [3, 4, 5], [6]].foldl push (new 4)).omittedBytes = 2 := by decide

end OutputCapture

end HybridMount.Process
