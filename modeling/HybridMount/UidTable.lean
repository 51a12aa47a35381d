import Mathlib.Data.Finset.Card
import HybridMount.ListingComplete
import HybridMount.PayloadLoop

/-! The isolated uids of the kernel module: an array that is replaced as a whole by every
change and bisected by every lookup. -/

namespace HybridMount.Vfs

open LittleEndian

def EEXIST : Int32 := -17

/-- The entries of an array in memory. Fresh memory may hold anything. -/
abbrev Cells := Nat → UInt32

/-- `struct hm_uid_array`. -/
structure HmUidArray where
  count : Nat
  uids : Cells

/-- The fresh memory for an array. The allocator never grants one whose count leaves an `int`. -/
def kmalloc (fresh : Option Cells) (count : Nat) : Option Cells := if count < 2 ^ 31 then fresh else none

def memcpy (cells : Cells) (start : Nat) (source : Cells) (offset length : Nat) : Cells := fun i =>
  if start ≤ i ∧ i < start + length then source (offset + (i - start)) else cells i

/-- The scan of `hm_uid_add` for the first entry which is not below the uid. -/
def insertPos (old : HmUidArray) (target : UInt32) (pos : Nat) : Nat :=
  if pos < old.count ∧ old.uids pos < target then insertPos old target (pos + 1) else pos
  termination_by old.count - pos

/-- What stands behind the pointer; behind a null pointer no entry is read or copied. -/
def behind (table : Option HmUidArray) : HmUidArray := table.getD ⟨0, fun _ => 0⟩

def hmUidAdd (table : Option HmUidArray) (target : UInt32) (fresh : Option Cells) :
    Option HmUidArray × Int32 :=
  let old := behind table
  let count := old.count
  let pos := insertPos old target 0
  if pos < count ∧ old.uids pos = target then (table, EEXIST)
  else
    match kmalloc fresh (count + 1) with
    | none => (table, ENOMEM)
    | some cells =>
      let cells := Function.update cells pos target
      let cells := if 0 < pos then memcpy cells 0 old.uids 0 pos else cells
      let cells := if pos < count then memcpy cells (pos + 1) old.uids pos (count - pos) else cells
      (some ⟨count + 1, cells⟩, 0)

/-- The bisection of `hm_uid_del` and of the lookup, with the index at which it ends. -/
def bisect (arr : HmUidArray) (target : UInt32) (lo hi : Nat) : Option Nat :=
  if lo < hi then
    let mid := lo + (hi - lo) / 2
    if arr.uids mid = target then some mid
    else if arr.uids mid < target then bisect arr target (mid + 1) hi
    else bisect arr target lo mid
  else none
  termination_by hi - lo

def hmUidDel (table : Option HmUidArray) (target : UInt32) (fresh : Option Cells) :
    Option HmUidArray × Int32 :=
  match table with
  | none => (table, ENOENT)
  | some old =>
    match bisect old target 0 old.count with
    | none => (table, ENOENT)
    | some targetIdx =>
      if 1 < old.count then
        match kmalloc fresh (old.count - 1) with
        | none => (table, ENOMEM)
        | some cells =>
          let cells := if 0 < targetIdx then memcpy cells 0 old.uids 0 targetIdx else cells
          let cells := if targetIdx < old.count - 1 then
            memcpy cells targetIdx old.uids (targetIdx + 1) (old.count - targetIdx - 1) else cells
          (some ⟨old.count - 1, cells⟩, 0)
      else (none, 0)

def isUidBlocked (table : Option HmUidArray) (targetUid : UInt32) : Bool :=
  match table with
  | none => false
  | some arr => (bisect arr targetUid 0 arr.count).isSome

inductive UidCall where
  | add (target : UInt32)
  | del (target : UInt32)
  deriving DecidableEq, Repr

def UidCall.run (call : UidCall) (table : Option HmUidArray) (fresh : Option Cells) :
    Option HmUidArray × Int32 :=
  match call with
  | .add target => hmUidAdd table target fresh
  | .del target => hmUidDel table target fresh

/-- A call on a finite set, of which an allocation may fail. -/
def UidCall.apply (call : UidCall) (uids : Finset UInt32) (granted : Bool) : Finset UInt32 × Int32 :=
  match call with
  | .add target =>
    if target ∈ uids then (uids, EEXIST)
    else if granted ∧ uids.card + 1 < 2 ^ 31 then (insert target uids, 0)
    else (uids, ENOMEM)
  | .del target =>
    if target ∉ uids then (uids, ENOENT)
    else if uids.card = 1 ∨ granted then (uids.erase target, 0)
    else (uids, ENOMEM)

/-- The calls one after the other, with what they answer. -/
def runUidCalls (table : Option HmUidArray) : List (UidCall × Option Cells) → Option HmUidArray × List Int32
  | [] => (table, [])
  | (call, fresh) :: later =>
    let result := call.run table fresh
    let rest := runUidCalls result.1 later
    (rest.1, result.2 :: rest.2)

def applyUidCalls (uids : Finset UInt32) : List (UidCall × Option Cells) → Finset UInt32 × List Int32
  | [] => (uids, [])
  | (call, fresh) :: later =>
    let result := call.apply uids fresh.isSome
    let rest := applyUidCalls result.1 later
    (rest.1, result.2 :: rest.2)

def Increasing (arr : HmUidArray) : Prop := ∀ i j, i < j → j < arr.count → arr.uids i < arr.uids j

/-- What holds of the table between two calls. An empty table is a null pointer. -/
structure UidTable (table : Option HmUidArray) : Prop where
  increasing : Increasing (behind table)
  counted : (behind table).count < 2 ^ 31
  filled : ∀ arr, table = some arr → 0 < arr.count

/-- The uids of a table. -/
def content (table : Option HmUidArray) :
    Finset UInt32 := (Finset.range (behind table).count).image (behind table).uids

variable {table : Option HmUidArray} {arr old : HmUidArray} {target uid : UInt32} {fresh : Option Cells}
  {cells source : Cells} {start offset length i lo hi m : Nat}

theorem mem_content : uid ∈ content table ↔ ∃ i, i < (behind table).count ∧ (behind table).uids i = uid := by
  simp [content]

theorem UidTable.null : UidTable none where
  increasing _ _ _ h := absurd h (Nat.not_lt_zero _)
  counted := by decide
  filled _ h := by cases h

theorem Increasing.lt_iff (h : Increasing arr) {j : Nat} (hi : i < arr.count) (hj : j < arr.count) :
    arr.uids i < arr.uids j ↔ i < j := by
  constructor
  · intro hlt
    by_contra hge
    rcases Nat.lt_or_eq_of_le (Nat.le_of_not_lt hge) with hlt' | rfl
    · exact absurd (h j i hlt' hi) (UInt32.lt_asymm hlt)
    · exact UInt32.lt_irrefl _ hlt
  · intro hlt
    exact h i j hlt hj

theorem card_content (h : UidTable table) : (content table).card = (behind table).count := by
  have hinj : Set.InjOn (behind table).uids (Finset.range (behind table).count) := by
    intro i hi j hj heq
    have hi' := Finset.mem_range.mp (Finset.mem_coe.mp hi)
    have hj' := Finset.mem_range.mp (Finset.mem_coe.mp hj)
    rcases Nat.lt_trichotomy i j with hlt | rfl | hlt
    · exact absurd (heq ▸ h.increasing i j hlt hj') (UInt32.lt_irrefl _)
    · rfl
    · exact absurd (heq ▸ h.increasing j i hlt hi') (UInt32.lt_irrefl _)
  rw [content, Finset.card_image_of_injOn hinj, Finset.card_range]

theorem memcpy_inside (h : start ≤ i) (h' : i < start + length) :
    memcpy cells start source offset length i = source (offset + (i - start)) := if_pos ⟨h, h'⟩

theorem memcpy_outside (h : i < start ∨ start + length ≤ i) :
    memcpy cells start source offset length i = cells i :=
  if_neg (by omega)

/-- A copy which is skipped because it would be empty changes nothing. -/
theorem memcpy_guarded {p : Prop} [Decidable p] (h : p ↔ 0 < length) :
    (if p then memcpy cells start source offset length else cells) = memcpy cells start source offset length := by
  split
  · rfl
  · next hp =>
    have hzero : ¬ 0 < length := fun hh => hp (h.mpr hh)
    funext i
    rw [memcpy_outside (by omega)]

theorem insertPos_spec (old : HmUidArray) (target : UInt32) (pos : Nat) (hle : pos ≤ old.count)
    (hbelow : ∀ i, i < pos → old.uids i < target) :
    insertPos old target pos ≤ old.count ∧ (∀ i, i < insertPos old target pos → old.uids i < target) ∧
      (insertPos old target pos < old.count → target ≤ old.uids (insertPos old target pos)) := by
  fun_induction insertPos old target pos with
  | case1 pos hstep ih =>
    refine ih hstep.1 fun i hi => ?_
    rcases Nat.lt_or_eq_of_le (Nat.le_of_lt_succ hi) with hi | rfl
    · exact hbelow i hi
    · exact hstep.2
  | case2 pos hstop =>
    refine ⟨hle, hbelow, fun hlt => ?_⟩
    exact UInt32.not_lt.mp fun hh => hstop ⟨hlt, hh⟩

theorem bisect_some (h : bisect arr target lo hi = some m) : m < hi ∧ arr.uids m = target := by
  fun_induction bisect arr target lo hi with
  | case1 lo hi hlt mid heq =>
    have hmid : mid = lo + (hi - lo) / 2 := rfl
    obtain rfl := Option.some.inj h
    exact ⟨by omega, heq⟩
  | case2 lo hi hlt mid hne hless ih => exact ih h
  | case3 lo hi hlt mid hne hless ih =>
    have hmid : mid = lo + (hi - lo) / 2 := rfl
    obtain ⟨hm, heq⟩ := ih h
    exact ⟨by omega, heq⟩
  | case4 => cases h

/-- Where the bisection finds nothing, no entry of its window is the uid. -/
theorem bisect_none (hinc : Increasing arr) (hhi : hi ≤ arr.count) (h : bisect arr target lo hi = none) :
    ∀ i, lo ≤ i → i < hi → arr.uids i ≠ target := by
  fun_induction bisect arr target lo hi with
  | case1 => cases h
  | case2 lo hi hlt mid hne hless ih =>
    have hmid : mid = lo + (hi - lo) / 2 := rfl
    intro i hlo hi' heq
    have hright : mid < i := (hinc.lt_iff (by omega) (by omega)).mp (heq ▸ hless)
    exact ih hhi h i hright hi' heq
  | case3 lo hi hlt mid hne hless ih =>
    have hmid : mid = lo + (hi - lo) / 2 := rfl
    intro i hlo hi' heq
    have habove : target < arr.uids mid := UInt32.lt_of_le_of_ne (UInt32.not_lt.mp hless) (Ne.symm hne)
    have hleft : i < mid := (hinc.lt_iff (by omega) (by omega)).mp (heq ▸ habove)
    exact ih (by omega) h i hlo hleft heq
  | case4 lo hi hge =>
    intro i hlo hi'
    omega

theorem bisect_isSome (hinc : Increasing arr) : (bisect arr target 0 arr.count).isSome = true ↔
    ∃ i, i < arr.count ∧ arr.uids i = target := by
  cases hb : bisect arr target 0 arr.count with
  | none =>
    have hnot := bisect_none hinc (Nat.le_refl _) hb
    constructor
    · intro h
      cases h
    · intro h
      obtain ⟨i, hi, heq⟩ := h
      exact absurd heq (hnot i (Nat.zero_le _) hi)
  | some m =>
    obtain ⟨hm, heq⟩ := bisect_some hb
    exact ⟨fun _ => ⟨m, hm, heq⟩, fun _ => rfl⟩

theorem isUidBlocked_iff (h : UidTable table) : isUidBlocked table uid = true ↔ uid ∈ content table := by
  rw [mem_content]
  cases table with
  | none =>
    constructor
    · intro hh
      cases hh
    · intro hh
      obtain ⟨i, hi, -⟩ := hh
      exact absurd hi (Nat.not_lt_zero _)
  | some arr => exact bisect_isSome h.increasing

/-- The array around the position at which a uid goes in. -/
def Inserted (old : HmUidArray) (target : UInt32) (pos : Nat) (cells : Cells) : Prop :=
  ∀ i, i ≤ old.count → cells i = if i < pos then old.uids i else if i = pos then target else old.uids (i - 1)

/-- The array around the index which is taken out. -/
def Removed (old : HmUidArray) (index : Nat) (cells : Cells) : Prop :=
  ∀ i, i < old.count - 1 → cells i = if i < index then old.uids i else old.uids (i + 1)

theorem inserted_cells (target : UInt32) (cells : Cells) {pos : Nat} (hpos : pos ≤ old.count) :
    Inserted old target pos
    (memcpy (memcpy (Function.update cells pos target) 0 old.uids 0 pos) (pos + 1) old.uids pos
      (old.count - pos)) := by
  intro i hi
  rcases Nat.lt_trichotomy i pos with hlt | rfl | hgt
  · rw [if_pos hlt, memcpy_outside (by omega), memcpy_inside (by omega) (by omega)]
    congr 1
    omega
  · rw [if_neg (Nat.lt_irrefl _), if_pos rfl, memcpy_outside (by omega), memcpy_outside (by omega),
      Function.update_self]
  · rw [if_neg (by omega), if_neg (by omega), memcpy_inside (by omega) (by omega)]
    congr 1
    omega

theorem removed_cells (cells : Cells) {index : Nat} (hindex : index < old.count) : Removed old index
    (memcpy (memcpy cells 0 old.uids 0 index) index old.uids (index + 1) (old.count - index - 1)) := by
  intro i hi
  by_cases hlt : i < index
  · rw [if_pos hlt, memcpy_outside (by omega), memcpy_inside (by omega) (by omega)]
    congr 1
    omega
  · rw [if_neg hlt, memcpy_inside (by omega) (by omega)]
    congr 1
    omega

theorem Inserted.increasing {pos : Nat} (h : Inserted old target pos cells) (hinc : Increasing old)
    (hpos : pos ≤ old.count)
    (hbelow : ∀ i, i < pos → old.uids i < target) (habove : pos < old.count → target < old.uids pos) :
    Increasing ⟨old.count + 1, cells⟩ := by
  intro i j hij hj
  change j < old.count + 1 at hj
  change cells i < cells j
  rw [h i (by omega), h j (by omega)]
  have hafter : ∀ k, pos ≤ k → k < old.count → target < old.uids k := by
    intro k hk hlt
    rcases Nat.lt_or_eq_of_le hk with hk | rfl
    · exact UInt32.lt_trans (habove (by omega)) (hinc pos k hk hlt)
    · exact habove hlt
  by_cases hi : i < pos
  · rw [if_pos hi]
    by_cases hj' : j < pos
    · rw [if_pos hj']
      exact hinc i j hij (by omega)
    · rw [if_neg hj']
      by_cases heq : j = pos
      · rw [if_pos heq]
        exact hbelow i hi
      · rw [if_neg heq]
        exact hinc i (j - 1) (by omega) (by omega)
  · rw [if_neg hi, if_neg (show ¬ j < pos by omega), if_neg (show ¬ j = pos by omega)]
    by_cases heq : i = pos
    · rw [if_pos heq]
      exact hafter (j - 1) (by omega) (by omega)
    · rw [if_neg heq]
      exact hinc (i - 1) (j - 1) (by omega) (by omega)

theorem Removed.increasing {index : Nat} (h : Removed old index cells) (hinc : Increasing old) :
    Increasing ⟨old.count - 1, cells⟩ := by
  intro i j hij hj
  change j < old.count - 1 at hj
  change cells i < cells j
  rw [h i (by omega), h j hj]
  by_cases hj' : j < index
  · rw [if_pos hj', if_pos (by omega)]
    exact hinc i j hij (by omega)
  · rw [if_neg hj']
    by_cases hi : i < index
    · rw [if_pos hi]
      exact hinc i (j + 1) (by omega) (by omega)
    · rw [if_neg hi]
      exact hinc (i + 1) (j + 1) (by omega) (by omega)

theorem Inserted.mem {pos : Nat} (h : Inserted old target pos cells) (hpos : pos ≤ old.count) :
    (∃ i, i < old.count + 1 ∧ cells i = uid) ↔ uid = target ∨ ∃ i, i < old.count ∧ old.uids i = uid := by
  constructor
  · intro hh
    obtain ⟨i, hi, rfl⟩ := hh
    rw [h i (by omega)]
    rcases Nat.lt_trichotomy i pos with hlt | rfl | hgt
    · rw [if_pos hlt]
      exact .inr ⟨i, by omega, rfl⟩
    · rw [if_neg (Nat.lt_irrefl _), if_pos rfl]
      exact .inl rfl
    · rw [if_neg (by omega), if_neg (by omega)]
      exact .inr ⟨i - 1, by omega, rfl⟩
  · intro hh
    rcases hh with rfl | ⟨i, hi, rfl⟩
    · refine ⟨pos, by omega, ?_⟩
      rw [h pos hpos, if_neg (Nat.lt_irrefl _), if_pos rfl]
    · by_cases hlt : i < pos
      · refine ⟨i, by omega, ?_⟩
        rw [h i (by omega), if_pos hlt]
      · refine ⟨i + 1, by omega, ?_⟩
        rw [h (i + 1) (by omega), if_neg (by omega), if_neg (by omega), Nat.add_sub_cancel]

theorem Removed.mem {index : Nat} (h : Removed old index cells) (hinc : Increasing old)
    (hindex : index < old.count) :
    (∃ i, i < old.count - 1 ∧ cells i = uid) ↔ uid ≠ old.uids index ∧ ∃ i, i < old.count ∧
    old.uids i = uid := by
  have hne : ∀ i, i < old.count → i ≠ index → old.uids i ≠ old.uids index := by
    intro i hi hnei heq
    rcases Nat.lt_or_gt_of_ne hnei with hlt | hlt
    · exact absurd (heq ▸ hinc i index hlt hindex) (UInt32.lt_irrefl _)
    · exact absurd (heq ▸ hinc index i hlt hi) (UInt32.lt_irrefl _)
  constructor
  · intro hh
    obtain ⟨i, hi, rfl⟩ := hh
    rw [h i hi]
    by_cases hlt : i < index
    · rw [if_pos hlt]
      exact ⟨hne i (by omega) (by omega), i, by omega, rfl⟩
    · rw [if_neg hlt]
      exact ⟨hne (i + 1) (by omega) (by omega), i + 1, by omega, rfl⟩
  · intro hh
    obtain ⟨hneq, i, hi, rfl⟩ := hh
    have hni : i ≠ index := fun heq => hneq (heq ▸ rfl)
    rcases Nat.lt_or_gt_of_ne hni with hlt | hgt
    · refine ⟨i, by omega, ?_⟩
      rw [h i (by omega), if_pos hlt]
    · refine ⟨i - 1, by omega, ?_⟩
      rw [h (i - 1) (by omega), if_neg (by omega), Nat.sub_add_cancel (by omega)]

/-- The entry at which the scan stops is the uid if any entry is. -/
theorem insertPos_found (target : UInt32) (hinc : Increasing old) : (insertPos old target 0 < old.count ∧
    old.uids (insertPos old target 0) = target) ↔ ∃ i, i < old.count ∧ old.uids i = target := by
  obtain ⟨-, hbelow, habove⟩ := insertPos_spec old target 0 (Nat.zero_le _) (fun i hi => absurd hi (by omega))
  constructor
  · intro h
    exact ⟨_, h.1, h.2⟩
  · intro h
    obtain ⟨i, hi, rfl⟩ := h
    have hle : insertPos old (old.uids i) 0 ≤ i := by
      by_contra hlt
      exact UInt32.lt_irrefl _ (hbelow i (by omega))
    rcases Nat.lt_or_eq_of_le hle with hlt | heq
    · exact absurd (hinc _ i hlt hi) (UInt32.not_lt.mpr (habove (by omega)))
    · exact ⟨by omega, by rw [heq]⟩

theorem hmUidAdd_refines (target : UInt32) (fresh : Option Cells) (h : UidTable table) :
    UidTable (hmUidAdd table target fresh).1 ∧
    (content (hmUidAdd table target fresh).1, (hmUidAdd table target fresh).2) =
      (UidCall.add target).apply (content table) fresh.isSome := by
  have hfound := insertPos_found target h.increasing
  rw [← mem_content] at hfound
  obtain ⟨hpos, hbelow, habove⟩ :=
    insertPos_spec (behind table) target 0 (Nat.zero_le _) (fun i hi => absurd hi (by omega))
  simp only [hmUidAdd, UidCall.apply, hfound, card_content h]
  by_cases hmem : target ∈ content table
  · rw [if_pos hmem, if_pos hmem]
    exact ⟨h, rfl⟩
  rw [if_neg hmem, if_neg hmem]
  by_cases hgrant : (behind table).count + 1 < 2 ^ 31
  swap
  · rw [kmalloc, if_neg hgrant, if_neg fun hh => hgrant hh.2]
    exact ⟨h, rfl⟩
  rw [kmalloc, if_pos hgrant]
  cases fresh with
  | none =>
    rw [if_neg fun hh => Bool.false_ne_true hh.1]
    exact ⟨h, rfl⟩
  | some cells =>
    rw [if_pos ⟨rfl, hgrant⟩]
    dsimp only
    rw [memcpy_guarded Iff.rfl, memcpy_guarded (by omega)]
    have hin := inserted_cells target cells hpos
    have hstrict : insertPos (behind table) target 0 < (behind table).count →
        target < (behind table).uids (insertPos (behind table) target 0) := by
      intro hlt
      exact UInt32.lt_of_le_of_ne (habove hlt) fun heq => hmem (hfound.mp ⟨hlt, heq.symm⟩)
    refine ⟨⟨hin.increasing h.increasing hpos hbelow hstrict, hgrant, fun arr harr => ?_⟩, ?_⟩
    · obtain rfl := Option.some.inj harr
      exact Nat.succ_pos _
    · congr 1
      ext uid
      rw [Finset.mem_insert, mem_content, mem_content]
      exact hin.mem hpos

theorem hmUidDel_refines (target : UInt32) (fresh : Option Cells) (h : UidTable table) :
    UidTable (hmUidDel table target fresh).1 ∧
    (content (hmUidDel table target fresh).1, (hmUidDel table target fresh).2) =
      (UidCall.del target).apply (content table) fresh.isSome := by
  cases table with
  | none => exact ⟨h, rfl⟩
  | some old =>
    have hcount : 0 < old.count := h.filled old rfl
    have hsome : (bisect old target 0 old.count).isSome = true ↔ target ∈ content (some old) :=
      (bisect_isSome h.increasing).trans mem_content.symm
    simp only [hmUidDel, UidCall.apply, card_content h]
    cases hb : bisect old target 0 old.count with
    | none =>
      have hmem : target ∉ content (some old) := by
        rw [← hsome, hb]
        exact Bool.false_ne_true
      rw [if_pos hmem]
      exact ⟨h, rfl⟩
    | some index =>
      obtain ⟨hindex, rfl⟩ := bisect_some hb
      have hmem : old.uids index ∈ content (some old) := mem_content.mpr ⟨index, hindex, rfl⟩
      rw [if_neg fun hh => hh hmem]
      dsimp only
      by_cases hmany : 1 < old.count
      · have hsize : old.count - 1 < 2 ^ 31 := by
          have hcounted : old.count < 2 ^ 31 := h.counted
          omega
        rw [if_pos hmany, kmalloc, if_pos hsize]
        cases fresh with
        | none =>
          have hfew : ¬ ((behind (some old)).count = 1 ∨ (none : Option Cells).isSome = true) := by
            rintro (hh | hh)
            · exact absurd hh (Nat.ne_of_gt hmany)
            · cases hh
          rw [if_neg hfew]
          exact ⟨h, rfl⟩
        | some cells =>
          rw [if_pos (.inr rfl)]
          dsimp only
          rw [memcpy_guarded Iff.rfl, memcpy_guarded (by omega)]
          have hout := removed_cells cells hindex
          refine ⟨⟨hout.increasing h.increasing, hsize, fun arr harr => ?_⟩, ?_⟩
          · obtain rfl := Option.some.inj harr
            exact Nat.sub_pos_of_lt hmany
          · congr 1
            ext uid
            rw [Finset.mem_erase, mem_content, mem_content]
            exact hout.mem h.increasing hindex
      · have hone : (behind (some old)).count = 1 := Nat.le_antisymm (Nat.not_lt.mp hmany) hcount
        rw [if_neg hmany, if_pos (.inl hone)]
        refine ⟨.null, ?_⟩
        congr 1
        ext uid
        rw [Finset.mem_erase, mem_content, mem_content]
        constructor
        · intro hh
          obtain ⟨i, hi, -⟩ := hh
          exact absurd hi (Nat.not_lt_zero _)
        · intro hh
          obtain ⟨hne, i, hi, rfl⟩ := hh
          have hzero : i = index := by
            have hlast : i < 1 := hone ▸ hi
            have hlone : old.count = 1 := hone
            omega
          exact absurd (by rw [hzero]; rfl) hne

theorem UidCall.run_refines (call : UidCall) (fresh : Option Cells) (h : UidTable table) :
    UidTable (call.run table fresh).1 ∧
    (content (call.run table fresh).1, (call.run table fresh).2) = call.apply
    (content table) fresh.isSome := by
  cases call with
  | add target => exact hmUidAdd_refines target fresh h
  | del target => exact hmUidDel_refines target fresh h

theorem runUidCalls_refines (calls : List (UidCall × Option Cells)) (h : UidTable table) :
    UidTable (runUidCalls table calls).1 ∧
    (content (runUidCalls table calls).1, (runUidCalls table calls).2) = applyUidCalls
    (content table) calls := by
  induction calls generalizing table with
  | nil => exact ⟨h, rfl⟩
  | cons c later ih =>
    obtain ⟨call, fresh⟩ := c
    obtain ⟨htable, hcall⟩ := call.run_refines fresh h
    obtain ⟨hend, hrest⟩ := ih htable
    refine ⟨hend, ?_⟩
    rw [applyUidCalls, ← hcall]
    dsimp only
    rw [← hrest]
    rfl

theorem UidCall.run_failed (call : UidCall) (hfailed : (call.run table fresh).2 ≠ 0) :
    (call.run table fresh).1 = table := by
  cases call with
  | add target =>
    simp only [UidCall.run, hmUidAdd] at hfailed ⊢
    split
    · rfl
    · next hnew =>
      rw [if_neg hnew] at hfailed
      cases hk : kmalloc fresh ((behind table).count + 1) with
      | none => rfl
      | some cells =>
        rw [hk] at hfailed
        exact absurd rfl hfailed
  | del target =>
    cases table with
    | none => rfl
    | some old =>
      simp only [UidCall.run, hmUidDel] at hfailed ⊢
      cases hb : bisect old target 0 old.count with
      | none => rfl
      | some index =>
        rw [hb] at hfailed
        dsimp only at hfailed ⊢
        split
        · next hmany =>
          rw [if_pos hmany] at hfailed
          cases hk : kmalloc fresh (old.count - 1) with
          | none => rfl
          | some cells =>
            rw [hk] at hfailed
            exact absurd rfl hfailed
        · next hlast =>
          rw [if_neg hlast] at hfailed
          exact absurd rfl hfailed

theorem hmUidAdd_exists (h : UidTable table) : (hmUidAdd table target fresh).2 = EEXIST ↔
    target ∈ content table := by
  have hstatus := congrArg Prod.snd (hmUidAdd_refines target fresh h).2
  dsimp only [UidCall.apply] at hstatus
  rw [hstatus]
  by_cases hmem : target ∈ content table
  · rw [if_pos hmem]
    exact ⟨fun _ => hmem, fun _ => rfl⟩
  · rw [if_neg hmem]
    refine ⟨fun hh => ?_, fun hh => absurd hh hmem⟩
    split at hh
    · exact absurd hh (show (0 : Int32) ≠ EEXIST by decide)
    · exact absurd hh (show ENOMEM ≠ EEXIST by decide)

theorem hmUidDel_absent (h : UidTable table) : (hmUidDel table target fresh).2 = ENOENT ↔
    target ∉ content table := by
  have hstatus := congrArg Prod.snd (hmUidDel_refines target fresh h).2
  dsimp only [UidCall.apply] at hstatus
  rw [hstatus]
  by_cases hmem : target ∈ content table
  · rw [if_neg fun hh => hh hmem]
    refine ⟨fun hh => ?_, fun hh => absurd hmem hh⟩
    split at hh
    · exact absurd hh (show (0 : Int32) ≠ ENOENT by decide)
    · exact absurd hh (show ENOMEM ≠ ENOENT by decide)
  · rw [if_pos hmem]
    exact ⟨fun _ => hmem, fun _ => rfl⟩

theorem UidTable.length_entries (h : UidTable table) :
    ((List.range (behind table).count).map (behind table).uids).length < 2 ^ 31 := by
  rw [List.length_map, List.length_range]
  exact h.counted

/-- The table as a listing reads it. -/
def UidTable.entries (h : UidTable table) : UidArray :=
  ⟨(List.range (behind table).count).map (behind table).uids, h.length_entries⟩

theorem listUids_increasing (rules : List Rule) (h : UidTable table) :
    ∃ listed, listUids (exchange rules h.entries) = .ok listed ∧ listed.Pairwise (· < ·) ∧
    listed.toFinset = content table := by
  have hcounted := h.entries.counted
  refine ⟨h.entries.uids, @paginate_all _ _ _ h.entries.uids [] 0
    (fun c hc => @turns_uids rules h.entries c hc) (by omega)
    (Nat.zero_le _), ?_, ?_⟩
  · refine List.pairwise_map.mpr (List.pairwise_lt_range.imp_of_mem fun {i j} hi hj hlt => ?_)
    exact h.increasing i j hlt (List.mem_range.mp hj)
  · ext uid
    simp [UidTable.entries, mem_content]

/-- Whatever is added and deleted, and whichever allocation fails, the table is a sorted array
of the uids which a finite set would hold after the same calls, and answers as the set does. -/
theorem uid_table_is_sorted_set (calls : List (UidCall × Option Cells)) :
    let table := (runUidCalls none calls).1
    let uids := (applyUidCalls ∅ calls).1
    Increasing (behind table) ∧ content table = uids ∧
      (runUidCalls none calls).2 = (applyUidCalls ∅ calls).2 ∧
      (∀ target fresh, (hmUidAdd table target fresh).2 = EEXIST ↔ target ∈ uids) ∧
      (∀ target fresh, (hmUidDel table target fresh).2 = ENOENT ↔ target ∉ uids) ∧
      (∀ call : UidCall, ∀ fresh, (call.run table fresh).2 ≠ 0 → (call.run table fresh).1 = table) ∧
      (∀ uid, isUidBlocked table uid = true ↔ uid ∈ uids) ∧
      ∀ arr, Increasing arr → ∀ uid, isUidBlocked (some arr) uid = true ↔
        ∃ i, i < arr.count ∧ arr.uids i = uid := by
  intro table uids
  obtain ⟨htable, hrun⟩ := runUidCalls_refines calls .null
  have hcontent : content table = uids := congrArg Prod.fst hrun
  refine ⟨htable.increasing, hcontent, congrArg Prod.snd hrun, fun target fresh => ?_, fun target fresh => ?_,
    fun call fresh => call.run_failed, fun uid => ?_, fun arr hinc uid => bisect_isSome hinc⟩
  · rw [← hcontent]
    exact hmUidAdd_exists htable
  · rw [← hcontent]
    exact hmUidDel_absent htable
  · rw [← hcontent]
    exact isUidBlocked_iff htable

end HybridMount.Vfs
