import Mathlib.Data.List.Basic

/-! Operations on texts as lists of characters: white space, splitting and hexadecimal numbers. -/

namespace Text

/-- The characters of Unicode's property White_Space. -/
def isWhitespace (c : Char) : Bool :=
  (0x9 ≤ c.toNat && c.toNat ≤ 0xD) || c.toNat == 0x20 || c.toNat == 0x85 || c.toNat == 0xA0 ||
    c.toNat == 0x1680 ||
    (0x2000 ≤ c.toNat && c.toNat ≤ 0x200A) || c.toNat == 0x2028 || c.toNat == 0x2029 || c.toNat == 0x202F ||
    c.toNat == 0x205F || c.toNat == 0x3000

def splitWhitespace (text : List Char) : List (List Char) := (text.splitOnP isWhitespace).filter (· ≠ [])

/-- What comes before and after the first occurrence of a separator. -/
def splitOnce (separator : List Char) : List Char → Option (List Char × List Char)
  | [] => if separator = [] then some ([], []) else none
  | c :: text =>
    if separator.isPrefixOf (c :: text) then some ([], (c :: text).drop separator.length)
    else (splitOnce separator text).map fun parts => (c :: parts.1, parts.2)

def trimStart (text : List Char) : List Char := text.dropWhile isWhitespace

def trim (text : List Char) : List Char := (trimStart (trimStart text).reverse).reverse

/-- A line which a line feed ends loses one carriage return before it. -/
def stripReturn (line : List Char) : List Char := if line.getLast? = some '\r' then line.dropLast else line

def unterminated (last : List Char) : List (List Char) := if last = [] then [] else [last]

def lines (text : List Char) : List (List Char) :=
  (text.splitOn '\n').dropLast.map stripReturn ++ unterminated ((text.splitOn '\n').getLast?.getD [])

def hexDigit (c : Char) : Option Nat :=
  if '0' ≤ c ∧ c ≤ '9' then some (c.toNat - '0'.toNat)
  else if 'a' ≤ c ∧ c ≤ 'f' then some (c.toNat - 'a'.toNat + 10)
  else if 'A' ≤ c ∧ c ≤ 'F' then some (c.toNat - 'A'.toNat + 10)
  else none

def appendDigit (bound n : Nat) (c : Char) : Option Nat := do
  let digit ← hexDigit c
  if n * 16 + digit < bound then some (n * 16 + digit) else none

/-- A number in base 16 below a bound, with or without a plus sign. -/
def fromHex (bound : Nat) (text : List Char) : Option Nat :=
  let digits := match text with
    | '+' :: rest => rest
    | _ => text
  if digits = [] then none else digits.foldlM (appendDigit bound) 0

theorem appendDigit_lt {bound n m : Nat} {c : Char} (h : appendDigit bound n c = some m) : m < bound := by
  unfold appendDigit at h
  cases hd : hexDigit c with
  | none => rw [hd] at h; cases h
  | some digit =>
    rw [hd] at h
    change (if n * 16 + digit < bound then some (n * 16 + digit) else none) = some m at h
    by_cases hlt : n * 16 + digit < bound
    · rw [if_pos hlt] at h
      cases h
      exact hlt
    · rw [if_neg hlt] at h
      cases h

theorem foldlM_appendDigit_lt {bound n m : Nat} {text : List Char}
    (h : text.foldlM (appendDigit bound) n = some m)
    (hn : n < bound) : m < bound := by
  induction text generalizing n with
  | nil =>
    cases h
    exact hn
  | cons c text ih =>
    rw [List.foldlM_cons] at h
    cases hc : appendDigit bound n c with
    | none => rw [hc] at h; cases h
    | some next =>
      rw [hc] at h
      exact ih h (appendDigit_lt hc)

theorem fromHex_lt {bound n : Nat} {text : List Char} (h : fromHex bound text = some n) (hb : 0 < bound) :
    n < bound := by
  unfold fromHex at h
  dsimp only at h
  generalize (match text with | '+' :: rest => rest | _ => text) = digits at h
  by_cases hempty : digits = []
  · rw [if_pos hempty] at h
    cases h
  · rw [if_neg hempty] at h
    exact foldlM_appendDigit_lt h hb

theorem splitOn_terminated {α : Type} [BEq α] [LawfulBEq α] {a : α} {parts : List (List α)}
    (h : ∀ part ∈ parts, a ∉ part) :
    (parts.flatMap (· ++ [a])).splitOn a = parts ++ [[]] := by
  induction parts with
  | nil => rfl
  | cons part parts ih =>
    have hshape : (part :: parts).flatMap (· ++ [a]) = part ++ a :: parts.flatMap (· ++ [a]) := by
      rw [List.flatMap_cons, List.append_assoc]
      rfl
    rw [hshape, List.splitOn_append_cons_self_of_not_mem (h part List.mem_cons_self),
      ih fun p hp => h p (List.mem_cons_of_mem _ hp)]
    rfl

theorem lines_terminated {parts : List (List Char)}
    (h : ∀ part ∈ parts, '\n' ∉ part ∧ part.getLast? ≠ some '\r') :
    lines (parts.flatMap (· ++ ['\n'])) = parts := by
  have hsplit := splitOn_terminated fun part hp => (h part hp).1
  have hstrip : parts.map stripReturn = parts := by
    refine (List.map_congr_left fun part hp => ?_).trans (List.map_id parts)
    rw [stripReturn, if_neg (h part hp).2]
    rfl
  rw [lines, hsplit, List.dropLast_concat, List.getLast?_concat, hstrip, Option.getD_some,
    unterminated, if_pos rfl,
    List.append_nil]

theorem trimStart_cons {c : Char} (h : isWhitespace c = false) (text : List Char) :
    trimStart (c :: text) = c :: text := by
  rw [trimStart, List.dropWhile_cons_of_neg (by rw [h]; decide)]

theorem trim_of_ends {first last : Char} {middle : List Char} (hfirst : isWhitespace first = false)
    (hlast : isWhitespace last = false) :
    trim (first :: (middle ++ [last])) = first :: (middle ++ [last]) := by
  have hshape : (first :: (middle ++ [last])).reverse = last :: (middle.reverse ++ [first]) := by
    simp
  rw [trim, trimStart_cons hfirst, hshape, trimStart_cons hlast, ← hshape, List.reverse_reverse]

/-- The first separator splits a text whose first part does not hold it. -/
theorem splitOnce_char {c : Char} {before : List Char} (h : c ∉ before) (after : List Char) :
    splitOnce [c] (before ++ c :: after) = some (before, after) := by
  induction before with
  | nil =>
    have hprefix : [c].isPrefixOf (c :: after) = true := by simp [List.isPrefixOf]
    rw [List.nil_append, splitOnce, if_pos hprefix]
    rfl
  | cons b before ih =>
    have hne : c ≠ b := fun hh => h (hh ▸ List.mem_cons_self)
    have hrest : c ∉ before := fun hh => h (List.mem_cons_of_mem _ hh)
    have hprefix : ¬ [c].isPrefixOf (b :: (before ++ c :: after)) = true := by
      simp [List.isPrefixOf, hne]
    rw [List.cons_append, splitOnce, if_neg hprefix, ih hrest]
    rfl

theorem getLast?_of_trimmed {text : List Char} {c : Char} (h : trim text = text)
    (hc : text.getLast? = some c) :
    isWhitespace c = false := by
  have hhead : (trimStart (trimStart text).reverse).head? = some c := by
    rw [← h, trim, List.getLast?_reverse] at hc
    exact hc
  have hnot := List.head?_dropWhile_not isWhitespace (trimStart text).reverse
  rw [trimStart] at hhead
  rw [hhead] at hnot
  exact hnot

end Text
