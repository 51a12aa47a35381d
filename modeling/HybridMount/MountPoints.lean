import HybridMount.LittleEndian

/-! The paths of `mountinfo`. The kernel writes four bytes of a path as a backslash with
three octal digits, and the reader puts them back. -/

namespace HybridMount.Mountinfo

open LittleEndian

/-- The bytes which have a sequence of their own. -/
inductive Escape where
  | space
  | tab
  | newline
  | backslash
  deriving DecidableEq, Repr

namespace Escape

def byte : Escape → UInt8
  | space => 0x20
  | tab => 0x09
  | newline => 0x0A
  | backslash => 0x5C

/-- The sequences `\040`, `\011`, `\012` and `\134`. -/
def sequence : Escape → Bytes
  | space => [0x5C, 0x30, 0x34, 0x30]
  | tab => [0x5C, 0x30, 0x31, 0x31]
  | newline => [0x5C, 0x30, 0x31, 0x32]
  | backslash => [0x5C, 0x31, 0x33, 0x34]

end Escape

def escaped (tail : Bytes) : Option UInt8 :=
  if Escape.space.sequence.isPrefixOf tail then some Escape.space.byte
  else if Escape.tab.sequence.isPrefixOf tail then some Escape.tab.byte
  else if Escape.newline.sequence.isPrefixOf tail then some Escape.newline.byte
  else if Escape.backslash.sequence.isPrefixOf tail then some Escape.backslash.byte
  else none

def decodeLoop (bytes : Bytes) (offset : Nat) (decoded : Bytes) : Bytes :=
  if h : offset < bytes.length then
    match escaped (bytes.drop offset) with
    | some byte => decodeLoop bytes (offset + 4) (decoded ++ [byte])
    | none => decodeLoop bytes (offset + 1) (decoded ++ [bytes[offset]])
  else decoded
  termination_by bytes.length - offset

def decodeMountPath (bytes : Bytes) : Bytes := decodeLoop bytes 0 []

/-- A backslash and the three octal digits of a byte. -/
def octal (byte : UInt8) : Bytes := [0x5C, 0x30 + byte / 64, 0x30 + byte / 8 % 8, 0x30 + byte % 8]

/-- How the kernel writes a path into `mountinfo`. -/
def encodeMountPath (path : Bytes) : Bytes :=
  path.flatMap fun byte => if [0x20, 0x09, 0x0A, 0x5C].contains byte then octal byte else [byte]

inductive Piece where
  | escape (e : Escape)
  | byte (b : UInt8)
  deriving DecidableEq, Repr

def Piece.value : Piece → UInt8
  | .escape e => e.byte
  | .byte b => b

/-- The pieces of a text from the left to the right: where one of the sequences starts it is
one piece, and any other byte is a piece of its own. -/
inductive Reads : List Piece → Bytes → Prop
  | nil : Reads [] []
  | escape {pieces rest} (e : Escape) : Reads pieces rest → Reads (.escape e :: pieces) (e.sequence ++ rest)
  | byte {pieces rest} (b : UInt8) : (∀ e : Escape, ¬ e.sequence <+: b :: rest) → Reads pieces rest →
      Reads (.byte b :: pieces) (b :: rest)

variable {tail bytes decoded rest : Bytes} {pieces pieces' : List Piece}

theorem Escape.length_sequence (e : Escape) : e.sequence.length = 4 := by
  cases e <;> rfl

theorem Escape.eq_of_prefix {e e' : Escape} (h : e.sequence <+: tail) (h' : e'.sequence <+: tail) : e = e' := by
  have heq : e.sequence = e'.sequence := by
    rw [List.prefix_iff_eq_take.mp h, List.prefix_iff_eq_take.mp h', e.length_sequence, e'.length_sequence]
  cases e <;> cases e' <;> first | rfl | exact absurd heq (by decide)

/-- At most one of the sequences starts a text, so the order of the tests does not matter. -/
theorem escaped_of_prefix {e : Escape} (h : e.sequence <+: tail) : escaped tail = some e.byte := by
  have hother : ∀ e' : Escape, e' ≠ e → ¬ e'.sequence.isPrefixOf tail = true := by
    intro e' hne hp
    exact hne (Escape.eq_of_prefix (List.isPrefixOf_iff_prefix.mp hp) h)
  have hthis : e.sequence.isPrefixOf tail = true := List.isPrefixOf_iff_prefix.mpr h
  unfold escaped
  cases e with
  | space => rw [if_pos hthis]
  | tab => rw [if_neg (hother .space (by decide)), if_pos hthis]
  | newline => rw [if_neg (hother .space (by decide)), if_neg (hother .tab (by decide)), if_pos hthis]
  | backslash =>
    rw [if_neg (hother .space (by decide)), if_neg (hother .tab (by decide)),
      if_neg (hother .newline (by decide)),
      if_pos hthis]

theorem escaped_eq_none (h : ∀ e : Escape, ¬ e.sequence <+: tail) : escaped tail = none := by
  have hnot : ∀ e : Escape, ¬ e.sequence.isPrefixOf tail = true :=
    fun e hp => h e (List.isPrefixOf_iff_prefix.mp hp)
  rw [escaped, if_neg (hnot .space), if_neg (hnot .tab), if_neg (hnot .newline), if_neg (hnot .backslash)]

theorem decodeLoop_end (before : Bytes) : decodeLoop before before.length decoded = decoded := by
  rw [decodeLoop, dif_neg (Nat.lt_irrefl _)]

theorem decodeLoop_sequence (before : Bytes) (e : Escape) :
    decodeLoop (before ++ (e.sequence ++ rest)) before.length decoded =
    decodeLoop ((before ++ e.sequence) ++ rest) (before ++ e.sequence).length (decoded ++ [e.byte]) := by
  have hlt : before.length < (before ++ (e.sequence ++ rest)).length := by
    simp only [List.length_append, e.length_sequence]
    omega
  rw [decodeLoop, dif_pos hlt, List.drop_left, escaped_of_prefix (List.prefix_append _ _)]
  simp only [List.length_append, e.length_sequence, List.append_assoc]

theorem decodeLoop_byte (before : Bytes) {b : UInt8} (h : ∀ e : Escape, ¬ e.sequence <+: b :: rest) :
    decodeLoop (before ++ b :: rest) before.length decoded =
      decodeLoop ((before ++ [b]) ++ rest) (before ++ [b]).length (decoded ++ [b]) := by
  have hlt : before.length < (before ++ b :: rest).length := by
    simp only [List.length_append, List.length_cons]
    omega
  have hb : (before ++ b :: rest)[before.length] = b := by simp
  rw [decodeLoop, dif_pos hlt, List.drop_left, escaped_eq_none h]
  simp only [hb, List.length_append, List.length_singleton, List.append_assoc, List.singleton_append]

theorem Reads.decodeLoop_eq (h : Reads pieces tail) (before decoded : Bytes) :
    decodeLoop (before ++ tail) before.length decoded = decoded ++ pieces.map Piece.value := by
  induction h generalizing before decoded with
  | nil => rw [List.append_nil, decodeLoop_end, List.map_nil, List.append_nil]
  | escape e _ ih =>
    rw [decodeLoop_sequence, ih, List.append_assoc]
    rfl
  | byte b hb _ ih =>
    rw [decodeLoop_byte before hb, ih, List.append_assoc]
    rfl

theorem Reads.decode_eq (h : Reads pieces bytes) : decodeMountPath bytes = pieces.map Piece.value :=
  h.decodeLoop_eq [] []

theorem reads_exists (bytes : Bytes) : ∃ pieces, Reads pieces bytes := by
  induction hn : bytes.length using Nat.strong_induction_on generalizing bytes with
  | _ n ih =>
    cases bytes with
    | nil => exact ⟨[], .nil⟩
    | cons b rest =>
      by_cases h : ∃ e : Escape, e.sequence <+: b :: rest
      · obtain ⟨e, after, he⟩ := h
        have hlen : after.length < n := by
          have hh := congrArg List.length he
          rw [List.length_append, e.length_sequence] at hh
          omega
        obtain ⟨pieces, hp⟩ := ih after.length hlen after rfl
        exact ⟨.escape e :: pieces, he ▸ .escape e hp⟩
      · obtain ⟨pieces, hp⟩ := ih rest.length (by rw [← hn]; simp) rest rfl
        exact ⟨.byte b :: pieces, .byte b (fun e he => h ⟨e, he⟩) hp⟩

theorem Reads.unique (h : Reads pieces bytes) (h' : Reads pieces' bytes) : pieces' = pieces := by
  induction h generalizing pieces' with
  | nil =>
    generalize ht : ([] : Bytes) = text at h'
    cases h' with
    | nil => rfl
    | escape e _ => cases e <;> simp [Escape.sequence] at ht
    | byte b _ _ => simp at ht
  | @escape pieces rest e _ ih =>
    generalize ht : e.sequence ++ rest = text at h'
    cases h' with
    | nil => cases e <;> simp [Escape.sequence] at ht
    | @escape pieces' rest' e' hr =>
      obtain rfl : e = e' := Escape.eq_of_prefix (ht ▸ List.prefix_append _ _) (List.prefix_append _ _)
      obtain rfl := List.append_cancel_left ht
      rw [ih hr]
    | byte b hb _ => exact absurd (ht ▸ List.prefix_append _ _) (hb e)
  | @byte pieces rest b hb _ ih =>
    generalize ht : b :: rest = text at h'
    cases h' with
    | nil => simp at ht
    | escape e _ => exact absurd (ht ▸ List.prefix_append _ _) (hb e)
    | byte b' _ hr =>
      obtain ⟨rfl, rfl⟩ := List.cons.inj ht
      rw [ih hr]

/-- The piece as which the kernel writes a byte. -/
def pieceOf (b : UInt8) : Piece :=
  if b = 0x20 then .escape .space
  else if b = 0x09 then .escape .tab
  else if b = 0x0A then .escape .newline
  else if b = 0x5C then .escape .backslash
  else .byte b

theorem value_pieceOf (b : UInt8) : (pieceOf b).value = b := by
  unfold pieceOf
  split
  · next h => exact h.symm
  split
  · next h => exact h.symm
  split
  · next h => exact h.symm
  split
  · next h => exact h.symm
  rfl

/-- Every sequence starts with a backslash, which the encoding does not leave as it is. -/
theorem reads_encode (path : Bytes) : Reads (path.map pieceOf) (encodeMountPath path) := by
  induction path with
  | nil => exact .nil
  | cons b path ih =>
    rw [encodeMountPath, List.flatMap_cons, List.map_cons]
    by_cases hspace : b = 0x20
    · subst hspace
      exact .escape .space ih
    by_cases htab : b = 0x09
    · subst htab
      exact .escape .tab ih
    by_cases hnewline : b = 0x0A
    · subst hnewline
      exact .escape .newline ih
    by_cases hbackslash : b = 0x5C
    · subst hbackslash
      exact .escape .backslash ih
    have hplain : [0x20, 0x09, 0x0A, 0x5C].contains b = false := by
      simp [hspace, htab, hnewline, hbackslash]
    have hpiece : pieceOf b = .byte b := by
      rw [pieceOf, if_neg hspace, if_neg htab, if_neg hnewline, if_neg hbackslash]
    rw [hplain, hpiece, if_neg Bool.false_ne_true]
    refine .byte b (fun e he => hbackslash ?_) ih
    obtain ⟨after, ha⟩ := he
    cases e <;> exact (List.cons.inj ha).1.symm

/-- The reader undoes the kernel's encoding of every path, and of any text it replaces exactly
the pieces which are one of the four sequences, by the one way to read it from the left. -/
theorem decodeMountPath_spec :
    (∀ path, decodeMountPath (encodeMountPath path) = path) ∧
      ∀ bytes, ∃ pieces, Reads pieces bytes ∧ (∀ pieces', Reads pieces' bytes → pieces' = pieces) ∧
        decodeMountPath bytes = pieces.map Piece.value := by
  constructor
  · intro path
    have hvalues : (path.map pieceOf).map Piece.value = path := by
      rw [List.map_map]
      exact (List.map_congr_left fun b _ => value_pieceOf b).trans (List.map_id path)
    rw [(reads_encode path).decode_eq, hvalues]
  · intro bytes
    obtain ⟨pieces, hp⟩ := reads_exists bytes
    exact ⟨pieces, hp, fun _ h' => hp.unique h', hp.decode_eq⟩

end HybridMount.Mountinfo
