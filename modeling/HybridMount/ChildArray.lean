import Mathlib.Data.Int.Bitwise
import HybridMount.LittleEndian
import HybridMount.Art

/-! The child set of one directory node: nothing, a single child under a tagged pointer, or
parallel arrays of hashes and rules in the order of the hashes. -/

namespace HybridMount.Vfs.ChildArray

open LittleEndian

/-- The name of a rule in its directory, the uid it is for, and the hash of names. -/
structure Naming (ρ : Type) where
  name : ρ → Bytes
  uid : ρ → UInt32
  hash : Bytes → UInt32

def Naming.hashOf {ρ : Type} (N : Naming ρ) (rule : ρ) : UInt32 := N.hash (N.name rule)

def Naming.key {ρ : Type} (N : Naming ρ) (rule : ρ) : Bytes × UInt32 := (N.name rule, N.uid rule)

/-- The arrays have `capacity` slots, of which the first `count` are in use. -/
structure Slots (ρ : Type) where
  count : Nat
  capacity : Nat
  hashes : Nat → UInt32
  rules : Nat → Option ρ

inductive Children (ρ : Type) where
  | null
  | single (rule : ρ)
  | slots (arr : Slots ρ)

structure ChildSet (ρ : Type) where
  children : Children ρ
  bloomMask : UInt64

/-- What the allocator leaves in new arrays. -/
structure Memory (ρ : Type) where
  hashes : Nat → UInt32
  rules : Nat → Option ρ

variable {ρ : Type}

def empty : ChildSet ρ := ⟨.null, 0⟩

def bloomBit (hash : UInt32) : UInt64 := 1 <<< (hash &&& 63).toUInt64

theorem ldiff_zero (n : Nat) : Nat.ldiff n 0 = n := by
  apply Nat.eq_of_testBit_eq
  simp [Nat.testBit_ldiff]

theorem zero_ldiff (n : Nat) : Nat.ldiff 0 n = 0 := by
  apply Nat.eq_of_testBit_eq
  simp [Nat.testBit_ldiff]

@[simp] theorem land_zero (x : Int) : x.land 0 = 0 := by
  cases x with
  | ofNat n => exact congrArg Int.ofNat n.and_zero
  | negSucc n => exact congrArg Int.ofNat (zero_ldiff n)

@[simp] theorem land_ones (x : Int) : x.land (-1) = x := by
  cases x with
  | ofNat n => exact congrArg Int.ofNat (ldiff_zero n)
  | negSucc n => exact congrArg Int.negSucc n.or_zero

theorem half_eq (n : Int) : n >>> (1 : Nat) = n / 2 := by
  simp [Int.shiftRight_eq_div_pow]

/-- The loop of the search without branches: `mask` is all ones when the probe is less. -/
def bsearchLoop (hashes : Nat → UInt32) (hash : UInt32) (l n : Int) : Int :=
  if _h : 0 < n then
    let step := n >>> (1 : Nat)
    let m := l + step
    let less : Int := if hashes m.toNat < hash then 1 else 0
    let mask := -less
    bsearchLoop hashes hash (l + (step + 1).land mask)
      (step + (n - step <<< (1 : Nat) - 1).land mask)
  else l
  termination_by n.toNat
  decreasing_by
    split <;> simp only [Int.neg_zero, land_zero, land_ones, half_eq, Int.shiftLeft_eq] <;> omega

@[simp] theorem bsearchLoop_none (hashes : Nat → UInt32) (hash : UInt32) (l : Nat) :
    bsearchLoop hashes hash l 0 = l := by
  rw [bsearchLoop]
  simp

/-- One probe drops the lower half with the probe, or keeps the half below it. -/
theorem bsearchLoop_step (hashes : Nat → UInt32) (hash : UInt32) (l n : Nat) (hn : 0 < n) :
    bsearchLoop hashes hash l n =
      if hashes (l + n / 2) < hash then
        bsearchLoop hashes hash (l + n / 2 + 1 : Nat) (n - n / 2 - 1 : Nat)
      else bsearchLoop hashes hash l (n / 2 : Nat) := by
  rw [bsearchLoop, dif_pos (by omega)]
  have hm : ((l : Int) + (n : Int) / 2).toNat = l + n / 2 := by omega
  simp only [half_eq, hm, Int.shiftLeft_eq]
  split
  · simp only [land_ones]
    congr 1
    omega
  · simp only [Int.neg_zero, land_zero]
    congr 1

/-- The first of the `count` slots whose hash is not less than `hash`. -/
structure LowerBound (hashes : Nat → UInt32) (count : Nat) (hash : UInt32) (p : Nat) : Prop where
  le : p ≤ count
  below : ∀ i < p, hashes i < hash
  above : ∀ i, p ≤ i → i < count → hash ≤ hashes i

theorem bsearchLoop_bounds {hashes : Nat → UInt32} {count : Nat} (hash : UInt32)
    (hsort : ∀ i j, i ≤ j → j < count → hashes i ≤ hashes j) (n : Nat) (l : Nat)
    (hle : l + n ≤ count) (hbelow : ∀ i < l, hashes i < hash)
    (habove : ∀ i, l + n ≤ i → i < count → hash ≤ hashes i) :
    ∃ p : Nat, bsearchLoop hashes hash l n = p ∧ LowerBound hashes count hash p := by
  induction n using Nat.strong_induction_on generalizing l with
  | _ n ih =>
    by_cases hn : 0 < n
    · rw [bsearchLoop_step hashes hash l n hn]
      split
      next hless =>
        apply ih (n - n / 2 - 1) (by omega)
        · omega
        · intro i hi
          exact UInt32.lt_of_le_of_lt (hsort i (l + n / 2) (by omega) (by omega)) hless
        · intro i hi hc
          exact habove i (by omega) hc
      next hless =>
        apply ih (n / 2) (by omega)
        · omega
        · exact hbelow
        · intro i hi hc
          exact UInt32.le_trans (UInt32.not_lt.mp hless) (hsort (l + n / 2) i hi hc)
    · obtain rfl : n = 0 := by omega
      exact ⟨l, bsearchLoop_none hashes hash l, by omega, hbelow, habove⟩

theorem bsearchLoop_lower {hashes : Nat → UInt32} {count : Nat} (hash : UInt32)
    (hsort : ∀ i j, i ≤ j → j < count → hashes i ≤ hashes j) :
    LowerBound hashes count hash (bsearchLoop hashes hash 0 count).toNat := by
  obtain ⟨p, hp, hlow⟩ := bsearchLoop_bounds hash hsort count 0 (by omega)
    (by omega) (by omega)
  simp only [Nat.cast_zero] at hp
  rw [hp]
  exact hlow

/-- The walk over the run of equal hashes from slot `l`, up to the first rule of the name. -/
def bsearchScan (N : Naming ρ) (arr : Slots ρ) (name : Bytes) (hash : UInt32)
    (l : Nat) : Option (Nat × ρ) :=
  if l < arr.count ∧ arr.hashes l = hash then
    match arr.rules l with
    | some rule =>
      if N.name rule = name then some (l, rule) else bsearchScan N arr name hash (l + 1)
    | none => bsearchScan N arr name hash (l + 1)
  else none
  termination_by arr.count - l

/-- The index written and the rule returned. -/
def bsearchChild (N : Naming ρ) (arr : Slots ρ) (name : Bytes) (hash : UInt32) :
    Nat × Option ρ :=
  let l := (bsearchLoop arr.hashes hash 0 arr.count).toNat
  match bsearchScan N arr name hash l with
  | some (index, rule) => (index, some rule)
  | none => (l, none)

/-- The walk for the rule of one uid; only a rule of that very uid writes the index. -/
def childScan (N : Naming ρ) (arr : Slots ρ) (name : Bytes) (hash uid : UInt32) (exact : Bool)
    (pos : Nat) (fallback : Option ρ) : Option ρ × Option Nat :=
  if pos < arr.count ∧ arr.hashes pos = hash then
    match arr.rules pos with
    | some rule =>
      if N.name rule ≠ name then childScan N arr name hash uid exact (pos + 1) fallback
      else if N.uid rule = uid then (some rule, some pos)
      else if exact = false ∧ N.uid rule = 0 then
        childScan N arr name hash uid exact (pos + 1) (some rule)
      else childScan N arr name hash uid exact (pos + 1) fallback
    | none => childScan N arr name hash uid exact (pos + 1) fallback
  else (fallback, none)
  termination_by arr.count - pos

def childForUid (N : Naming ρ) (arr : Slots ρ) (name : Bytes) (hash uid : UInt32)
    (exact : Bool) : Option ρ × Option Nat :=
  match bsearchChild N arr name hash with
  | (_, none) => (none, none)
  | (pos, some _) => childScan N arr name hash uid exact pos none

/-- The rule that a lookup in the directory settles on. -/
def getRuleInfo (N : Naming ρ) (d : ChildSet ρ) (name : Bytes) (fsuid : UInt32) : Option ρ :=
  let rule := match d.children with
    | .null => none
    | .single rule => if N.name rule = name then some rule else none
    | .slots arr => (childForUid N arr name (N.hash name) fsuid false).1
  rule.filter fun rule => N.uid rule = 0 ∨ N.uid rule = fsuid

/-- Slots move up one place, from `i` down to the one after `pos`. -/
def shiftUp (pos : Nat) : Nat → Slots ρ → Slots ρ
  | 0, arr => arr
  | i + 1, arr =>
    if pos < i + 1 then
      shiftUp pos i { arr with
        hashes := Function.update arr.hashes (i + 1) (arr.hashes i)
        rules := Function.update arr.rules (i + 1) (arr.rules i) }
    else arr

/-- Slots move down one place, from `i` up to the one before `last`. -/
def shiftDown (last i : Nat) (arr : Slots ρ) : Slots ρ :=
  if i < last then
    shiftDown last (i + 1) { arr with
      hashes := Function.update arr.hashes i (arr.hashes (i + 1))
      rules := Function.update arr.rules i (arr.rules (i + 1)) }
  else arr
  termination_by last - i

def Slots.put (arr : Slots ρ) (pos : Nat) (hash : UInt32) (rule : ρ) : Slots ρ :=
  { arr with
    hashes := Function.update arr.hashes pos hash
    rules := Function.update arr.rules pos (some rule) }

/-- A copy of `length` cells of `source` to `at`. -/
def memcpy {α : Type} (target : Nat → α) (start : Nat) (source : Nat → α) (first length : Nat) :
    Nat → α :=
  fun i => if start ≤ i ∧ i < start + length then source (first + (i - start)) else target i

def newCap (capacity : Nat) : Nat := if capacity = 0 then 4 else capacity * 2

/-- A larger array with room for one more child at `pos`. -/
def grow (memory : Memory ρ) (old : Slots ρ) (pos : Nat) (hash : UInt32) (rule : ρ) : Slots ρ :=
  let low : Slots ρ := {
    count := old.count + 1
    capacity := newCap old.capacity
    hashes := memcpy memory.hashes 0 old.hashes 0 pos
    rules := memcpy memory.rules 0 old.rules 0 pos }
  let both := { low with
    hashes := memcpy low.hashes (pos + 1) old.hashes pos (old.count - pos)
    rules := memcpy low.rules (pos + 1) old.rules pos (old.count - pos) }
  both.put pos hash rule

/-- The new child goes to `pos`: in place while there is room, else into arrays twice as large. -/
def insertAt (memory : Option (Memory ρ)) (d : ChildSet ρ) (old : Slots ρ) (pos : Nat)
    (hash : UInt32) (rule : ρ) : Int × ChildSet ρ :=
  let bloomMask := d.bloomMask ||| bloomBit hash
  if old.count < old.capacity then
    let moved := if pos < old.count then shiftUp pos old.count old else old
    let arr := moved.put pos hash rule
    (0, ⟨.slots { arr with count := old.count + 1 }, bloomMask⟩)
  else match memory with
    | none => (-12, d)
    | some memory =>
      -- `new_cap` is an `int`: one that has overflowed asks for more memory than there is
      if newCap old.capacity < 2 ^ 31 then (0, ⟨.slots (grow memory old pos hash rule), bloomMask⟩) else (-12, d)

def injectChild (N : Naming ρ) (memory : Option (Memory ρ)) (rule : ρ) (d : ChildSet ρ) :
    Int × ChildSet ρ :=
  let targetHash := N.hashOf rule
  match d.children with
  | .null => (0, ⟨.single rule, d.bloomMask ||| bloomBit targetHash⟩)
  | .single single =>
    if N.uid single = N.uid rule ∧ N.name single = N.name rule then
      (0, ⟨.single rule, d.bloomMask ||| bloomBit targetHash⟩)
    else
      -- the single child stands for arrays of one slot and no capacity
      let singleHash := N.hashOf single
      insertAt memory d ⟨1, 0, fun _ => singleHash, fun _ => some single⟩
        (if singleHash < targetHash then 1 else 0) targetHash rule
  | .slots arr =>
    match childForUid N arr (N.name rule) targetHash (N.uid rule) true with
    | (some _, index) =>
      (0, { d with children := .slots { arr with
        rules := Function.update arr.rules (index.getD 0) (some rule) } })
    | (none, _) =>
      insertAt memory d arr (bsearchChild N arr (N.name rule) targetHash).1 targetHash rule

/-- The slot of the rule, by its address. -/
def slotOf [DecidableEq ρ] (arr : Slots ρ) (rule : ρ) : Option Nat :=
  (List.range arr.count).find? fun i => arr.rules i = some rule

def bloomOf (arr : Slots ρ) : UInt64 :=
  (List.range arr.count).foldl (fun mask i => mask ||| bloomBit (arr.hashes i)) 0

def removeAt (d : ChildSet ρ) (arr : Slots ρ) (target : Nat) : ChildSet ρ :=
  if arr.count ≤ 2 then
    if arr.count = 2 then
      match arr.rules (1 - target) with
      | some rule => ⟨.single rule, bloomBit (arr.hashes (1 - target))⟩
      -- the slots in use all hold a rule
      | none => d
    else ⟨.null, 0⟩
  else
    let moved := if target < arr.count - 1 then shiftDown (arr.count - 1) target arr else arr
    let cut : Slots ρ := {
      count := arr.count - 1
      capacity := arr.capacity
      hashes := Function.update moved.hashes (arr.count - 1) 0
      rules := Function.update moved.rules (arr.count - 1) none }
    ⟨.slots cut, bloomOf cut⟩

def deleteChild [DecidableEq ρ] (rule : ρ) (d : ChildSet ρ) : ChildSet ρ :=
  match d.children with
  | .null => d
  | .single single => if single = rule then ⟨.null, 0⟩ else d
  | .slots arr =>
    match slotOf arr rule with
    | some target => removeAt d arr target
    | none => d

end HybridMount.Vfs.ChildArray
