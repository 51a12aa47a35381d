import Mathlib.Tactic

/-! Fixed-width little-endian numbers and byte ranges. -/

namespace LittleEndian

abbrev Bytes := List UInt8

/-- The low `width` bytes of a number, least significant first. -/
def encode : Nat → Nat → Bytes
  | 0, _ => []
  | width + 1, n => UInt8.ofNat n :: encode width (n / 256)

def decode : Bytes → Nat
  | [] => 0
  | b :: bs => b.toNat + 256 * decode bs

/-- The bytes from `start` up to `stop`, when there are that many. -/
def slice (bytes : Bytes) (start stop : Nat) : Option Bytes :=
  if stop ≤ bytes.length then some ((bytes.drop start).take (stop - start)) else none

/-- Write bytes over the ones from `start` on. -/
def overwrite (bytes : Bytes) (start : Nat) (part : Bytes) : Bytes :=
  bytes.take start ++ (part ++ bytes.drop (start + part.length))

variable {n width start : Nat} {bytes before after part : Bytes}

@[simp] theorem length_encode (width n : Nat) : (encode width n).length = width := by
  induction width generalizing n with
  | zero => rfl
  | succ width ih => simp [encode, ih]

theorem decode_encode (width n : Nat) : decode (encode width n) = n % 256 ^ width := by
  induction width generalizing n with
  | zero => simp [encode, decode, Nat.mod_one]
  | succ width ih =>
    have hsplit : n % (256 * 256 ^ width) = n % 256 + 256 * (n / 256 % 256 ^ width) := Nat.mod_mul
    have hbyte : (UInt8.ofNat n).toNat = n % 256 := UInt8.toNat_ofNat'
    rw [encode, decode, ih, hbyte, pow_succ 256 width, mul_comm (256 ^ width) 256, hsplit]

theorem decode_encode_of_lt (h : n < 256 ^ width) : decode (encode width n) = n := by
  rw [decode_encode, Nat.mod_eq_of_lt h]

theorem slice_append (before bytes after : Bytes) :
    slice (before ++ (bytes ++ after)) before.length (before.length + bytes.length) = some bytes := by
  simp [slice]

theorem slice_of_eq (before after : Bytes) {whole : Bytes} {stop : Nat}
    (hw : whole = before ++ (bytes ++ after))
    (hs : start = before.length) (he : stop = before.length + bytes.length) :
    slice whole start stop = some bytes := by
  subst hw hs he
  exact slice_append before bytes after

theorem length_of_slice {stop : Nat} {part : Bytes} (h : slice bytes start stop = some part) :
    part.length = stop - start ∧ stop ≤ bytes.length := by
  unfold slice at h
  split at h
  · rename_i hle
    cases h
    refine ⟨?_, hle⟩
    simp only [List.length_take, List.length_drop]
    omega
  · cases h

theorem slice_eq {stop : Nat} (h : stop ≤ bytes.length) :
    slice bytes start stop = some ((bytes.drop start).take (stop - start)) := by
  rw [slice, if_pos h]

theorem length_overwrite (h : start + part.length ≤ bytes.length) :
    (overwrite bytes start part).length = bytes.length := by
  simp only [overwrite, List.length_append, List.length_take, List.length_drop]
  omega

theorem getElem?_overwrite_outside {i : Nat} (h : start + part.length ≤ bytes.length)
    (hi : i < start ∨ start + part.length ≤ i) : (overwrite bytes start part)[i]? = bytes[i]? := by
  have htake : (bytes.take start).length = start := by
    rw [List.length_take]
    omega
  rw [overwrite]
  rcases hi with hi | hi
  · rw [List.getElem?_append_left (by omega), List.getElem?_take_of_lt hi]
  · rw [List.getElem?_append_right (by omega), htake, List.getElem?_append_right (by omega),
      List.getElem?_drop]
    congr 1
    omega

theorem slice_overwrite (h : start + part.length ≤ bytes.length) :
    slice (overwrite bytes start part) start (start + part.length) = some part := by
  have htake : (bytes.take start).length = start := by
    rw [List.length_take]
    omega
  exact slice_of_eq (bytes.take start) _ rfl htake.symm (by rw [htake])

theorem slice_congr {other : Bytes} {stop : Nat} (hle : stop ≤ bytes.length) (hle' : stop ≤ other.length)
    (h : ∀ i, start ≤ i → i < stop → bytes[i]? = other[i]?) :
    slice bytes start stop = slice other start stop := by
  rw [slice_eq hle, slice_eq hle']
  refine congrArg some (List.ext_getElem? fun i => ?_)
  by_cases hi : i < stop - start
  · rw [List.getElem?_take_of_lt hi, List.getElem?_take_of_lt hi, List.getElem?_drop, List.getElem?_drop]
    exact h _ (by omega) (by omega)
  · rw [List.getElem?_take_eq_none (by omega), List.getElem?_take_eq_none (by omega)]

end LittleEndian
