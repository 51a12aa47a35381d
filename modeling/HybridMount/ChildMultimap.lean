import HybridMount.ChildLookup

/-! The child set of a directory is a finite map from names and uids to rules: every sequence of
injections and deletions leaves the arrays in order of the hashes, with each key once. -/

namespace HybridMount.Vfs.ChildArray

open LittleEndian

variable {ρ : Type} {N : Naming ρ} {arr : Slots ρ} {rs t : List ρ} {rule r : ρ} {i pos : Nat}
  {name : Bytes} {hash uid : UInt32} {exact : Bool} {fallback : Option ρ}

theorem shiftUp_slot (pos i : Nat) (arr : Slots ρ) (j : Nat) :
    (shiftUp pos i arr).hashes j =
        (if pos < j ∧ j ≤ i then arr.hashes (j - 1) else arr.hashes j) ∧
      (shiftUp pos i arr).rules j =
        (if pos < j ∧ j ≤ i then arr.rules (j - 1) else arr.rules j) := by
  induction i generalizing arr with
  | zero =>
    have hno : ¬ (pos < j ∧ j ≤ 0) := by omega
    rw [if_neg hno, if_neg hno]
    exact ⟨rfl, rfl⟩
  | succ i ih =>
    rw [shiftUp]
    by_cases hp : pos < i + 1
    · rw [if_pos hp, (ih _).1, (ih _).2]
      by_cases hj : j = i + 1
      · subst hj
        simp [hp]
      · have hiff : (pos < j ∧ j ≤ i + 1) ↔ (pos < j ∧ j ≤ i) := by omega
        by_cases hin : pos < j ∧ j ≤ i
        · have hj1 : j - 1 ≠ i + 1 := by omega
          simp only [if_pos hin, if_pos (hiff.mpr hin), Function.update_of_ne hj1, and_self]
        · simp only [if_neg hin, if_neg (mt hiff.mp hin), Function.update_of_ne hj, and_self]
    · have hno : ¬ (pos < j ∧ j ≤ i + 1) := by omega
      rw [if_neg hp, if_neg hno, if_neg hno]
      exact ⟨rfl, rfl⟩

/-- Slots below the place keep theirs, the place has the new rule, the others are one up. -/
theorem Lists.insert {next : Slots ρ} (h : Lists N arr rs) (hpos : pos ≤ rs.length)
    (hcount : next.count = arr.count + 1)
    (hlow : ∀ k < pos, next.hashes k = arr.hashes k ∧ next.rules k = arr.rules k)
    (hat : next.hashes pos = N.hashOf rule ∧ next.rules pos = some rule)
    (hhigh : ∀ k, pos ≤ k → k < arr.count →
      next.hashes (k + 1) = arr.hashes k ∧ next.rules (k + 1) = arr.rules k) :
    Lists N next (rs.take pos ++ rule :: rs.drop pos) := by
  have hlen : (rs.take pos).length = pos := by simp [hpos]
  constructor
  · have hc := h.count
    simp only [List.length_append, List.length_cons, List.length_drop, hlen]
    omega
  · intro k x hx
    rcases Nat.lt_trichotomy k pos with hk | hk | hk
    · rw [List.getElem?_append_left (by omega), List.getElem?_take_of_lt hk] at hx
      rw [(hlow k hk).1, (hlow k hk).2]
      exact h.slot k x hx
    · subst hk
      rw [List.getElem?_append_right (by omega), hlen] at hx
      obtain rfl : rule = x := by simpa using hx
      exact hat
    · rw [List.getElem?_append_right (by omega), hlen] at hx
      obtain ⟨k, rfl⟩ : ∃ m, k = m + 1 := ⟨k - 1, by omega⟩
      have hkx : rs[k]? = some x := by
        rw [show k + 1 - pos = (k - pos) + 1 by omega, List.getElem?_cons_succ,
          List.getElem?_drop, Nat.add_sub_cancel' (by omega)] at hx
        exact hx
      have hkc : k < arr.count := by
        rw [h.count]
        exact (List.getElem?_eq_some_iff.mp hkx).1
      rw [(hhigh k (by omega) hkc).1, (hhigh k (by omega) hkc).2]
      exact h.slot k x hkx

theorem Lists.grow (h : Lists N arr rs) (memory : Memory ρ) (hpos : pos ≤ rs.length) :
    Lists N (grow memory arr pos (N.hashOf rule) rule) (rs.take pos ++ rule :: rs.drop pos) := by
  have hc := h.count
  apply h.insert hpos
  · rfl
  · intro k hk
    have hne : k ≠ pos := by omega
    have hno : ¬ (pos + 1 ≤ k ∧ k < pos + 1 + (arr.count - pos)) := by omega
    have hin : 0 ≤ k ∧ k < pos := by omega
    simp only [ChildArray.grow, Slots.put, memcpy, Function.update_of_ne hne, if_neg hno,
      if_pos hin, Nat.sub_zero, Nat.zero_add, and_self]
  · simp [ChildArray.grow, Slots.put]
  · intro k hpk hkc
    have hne : k + 1 ≠ pos := by omega
    have hin : pos + 1 ≤ k + 1 ∧ k + 1 < pos + 1 + (arr.count - pos) := by omega
    have hk : pos + (k + 1 - (pos + 1)) = k := by omega
    simp only [ChildArray.grow, Slots.put, memcpy, Function.update_of_ne hne, if_pos hin, hk,
      and_self]

theorem Lists.shiftIn (h : Lists N arr rs) (hpos : pos ≤ rs.length) :
    Lists N { (if pos < arr.count then shiftUp pos arr.count arr else arr).put pos
      (N.hashOf rule) rule with count := arr.count + 1 } (rs.take pos ++ rule :: rs.drop pos) := by
  have hc := h.count
  apply h.insert hpos
  · rfl
  · intro k hk
    have hne : k ≠ pos := by omega
    have hno : ¬ (pos < k ∧ k ≤ arr.count) := by omega
    simp only [Slots.put, Function.update_of_ne hne]
    split
    · rw [(shiftUp_slot ..).1, (shiftUp_slot ..).2, if_neg hno, if_neg hno]
      exact ⟨rfl, rfl⟩
    · exact ⟨rfl, rfl⟩
  · simp [Slots.put]
  · intro k hpk hkc
    have hne : k + 1 ≠ pos := by omega
    have hin : pos < k + 1 ∧ k + 1 ≤ arr.count := by omega
    rw [if_pos (by omega)]
    simp only [Slots.put, Function.update_of_ne hne]
    rw [(shiftUp_slot ..).1, (shiftUp_slot ..).2, if_pos hin, if_pos hin]
    exact ⟨rfl, rfl⟩

theorem Lists.replace (h : Lists N arr rs) (hget : rs[pos]? = some r)
    (hkey : N.key rule = N.key r) :
    Lists N { arr with rules := Function.update arr.rules pos (some rule) } (rs.set pos rule) := by
  have hlt := (List.getElem?_eq_some_iff.mp hget).1
  constructor
  · simpa using h.count
  · intro k x hx
    by_cases hk : k = pos
    · subst hk
      obtain rfl : rule = x := by simpa [List.getElem?_set_self hlt] using hx
      have hname : N.hashOf rule = N.hashOf r := congrArg N.hash (congrArg Prod.fst hkey)
      simp [hname, (h.slot k r hget).1]
    · rw [List.getElem?_set_ne (Ne.symm hk)] at hx
      simpa [Function.update_of_ne hk] using h.slot k x hx

theorem shiftDown_slot (last i : Nat) (arr : Slots ρ) (j : Nat) :
    (shiftDown last i arr).hashes j =
        (if i ≤ j ∧ j < last then arr.hashes (j + 1) else arr.hashes j) ∧
      (shiftDown last i arr).rules j =
        (if i ≤ j ∧ j < last then arr.rules (j + 1) else arr.rules j) := by
  induction hn : last - i generalizing i arr with
  | zero =>
    have hno : ¬ (i ≤ j ∧ j < last) := by omega
    rw [shiftDown, if_neg (by omega), if_neg hno, if_neg hno]
    exact ⟨rfl, rfl⟩
  | succ n ih =>
    rw [shiftDown, if_pos (by omega), (ih _ _ (by omega)).1, (ih _ _ (by omega)).2]
    by_cases hj : j = i
    · subst hj
      have hlt : j < last := by omega
      simp [hlt]
    · have hiff : (i ≤ j ∧ j < last) ↔ (i + 1 ≤ j ∧ j < last) := by omega
      by_cases hin : i + 1 ≤ j ∧ j < last
      · have hj1 : j + 1 ≠ i := by omega
        simp only [if_pos hin, if_pos (hiff.mpr hin), Function.update_of_ne hj1, and_self]
      · simp only [if_neg hin, if_neg (mt hiff.mp hin), Function.update_of_ne hj, and_self]

theorem Lists.shiftOut (h : Lists N arr rs) (pos : Nat) (htarget : pos < arr.count) :
    Lists N ⟨arr.count - 1, arr.capacity,
      Function.update (if pos < arr.count - 1 then shiftDown (arr.count - 1) pos arr
        else arr).hashes (arr.count - 1) 0,
      Function.update (if pos < arr.count - 1 then shiftDown (arr.count - 1) pos arr
        else arr).rules (arr.count - 1) none⟩ (rs.eraseIdx pos) := by
  have hc := h.count
  have hlen : (rs.eraseIdx pos).length = arr.count - 1 := by
    rw [List.length_eraseIdx_of_lt (by omega), hc]
  refine ⟨hlen.symm, ?_⟩
  intro k x hx
  have hk : k < arr.count - 1 := by
    have hlt := (List.getElem?_eq_some_iff.mp hx).1
    omega
  simp only [Function.update_of_ne (Nat.ne_of_lt hk)]
  rw [List.getElem?_eraseIdx] at hx
  by_cases hkp : k < pos
  · rw [if_pos hkp] at hx
    have hno : ¬ (pos ≤ k ∧ k < arr.count - 1) := by omega
    split
    · rw [(shiftDown_slot ..).1, (shiftDown_slot ..).2, if_neg hno, if_neg hno]
      exact h.slot k x hx
    · exact h.slot k x hx
  · rw [if_neg hkp] at hx
    have hin : pos ≤ k ∧ k < arr.count - 1 := by omega
    rw [if_pos (by omega), (shiftDown_slot ..).1, (shiftDown_slot ..).2, if_pos hin, if_pos hin]
    exact h.slot (k + 1) x hx

theorem bloomBit_ne_zero (hash : UInt32) : bloomBit hash ≠ 0 := by
  intro h
  have hn := congrArg UInt64.toNat h
  have hk : (hash &&& 63).toUInt64.toNat % 64 < 64 := Nat.mod_lt _ (by decide)
  have hpow : 2 ^ ((hash &&& 63).toUInt64.toNat % 64) < 2 ^ 64 :=
    Nat.pow_lt_pow_right (by decide) hk
  rw [bloomBit, UInt64.toNat_shiftLeft] at hn
  simp only [UInt64.toNat_one, Nat.one_shiftLeft, UInt64.toNat_zero] at hn
  rw [Nat.mod_eq_of_lt hpow] at hn
  have hpos := Nat.two_pow_pos ((hash &&& 63).toUInt64.toNat % 64)
  omega

theorem or_and_ne_zero {mask bit : UInt64} (more : UInt64) (h : mask &&& bit ≠ 0) :
    (mask ||| more) &&& bit ≠ 0 := by
  intro hzero
  apply h
  apply UInt64.toBitVec_inj.mp
  apply BitVec.eq_of_getLsbD_eq
  intro i hi
  have hbit := congrArg (fun m => m.toBitVec.getLsbD i) hzero
  simp at hbit ⊢
  tauto

theorem or_and_self_ne_zero (mask : UInt64) (hash : UInt32) :
    (mask ||| bloomBit hash) &&& bloomBit hash ≠ 0 := by
  rw [UInt64.or_comm]
  apply or_and_ne_zero
  rw [UInt64.and_self]
  exact bloomBit_ne_zero hash

/-- The filter lets every stored name through. -/
def Covers (N : Naming ρ) (mask : UInt64) (rs : List ρ) : Prop :=
  ∀ x ∈ rs, mask &&& bloomBit (N.hashOf x) ≠ 0

theorem Covers.or {mask : UInt64} (h : Covers N mask rs) (more : UInt64) :
    Covers N (mask ||| more) rs :=
  fun x hx => or_and_ne_zero more (h x hx)

theorem foldl_bloom (f : Nat → UInt32) (l : List Nat) (mask : UInt64)
    (h : mask &&& bloomBit hash ≠ 0 ∨ ∃ i ∈ l, f i = hash) :
    l.foldl (fun mask i => mask ||| bloomBit (f i)) mask &&& bloomBit hash ≠ 0 := by
  induction l generalizing mask with
  | nil => simpa using h
  | cons i l ih =>
    apply ih
    rcases h with h | ⟨j, hj, hjb⟩
    · exact Or.inl (or_and_ne_zero _ h)
    · cases hj with
      | head => exact Or.inl (hjb ▸ or_and_self_ne_zero mask (f i))
      | tail _ hj => exact Or.inr ⟨j, hj, hjb⟩

theorem Lists.bloomOf (h : Lists N arr rs) : Covers N (bloomOf arr) rs := by
  intro x hx
  obtain ⟨i, hi⟩ := List.mem_iff_getElem?.mp hx
  have hlt : i < arr.count := by
    rw [h.count]
    exact (List.getElem?_eq_some_iff.mp hi).1
  apply foldl_bloom
  exact Or.inr ⟨i, List.mem_range.mpr hlt, (h.slot i x hi).1⟩

variable {d : ChildSet ρ} {memory : Option (Memory ρ)} {m : Bytes × UInt32 → Option ρ}

def Children.Holds (N : Naming ρ) : Children ρ → List ρ → Prop
  | .null, rs => rs = []
  | .single rule, rs => rs = [rule]
  | .slots arr, rs => Lists N arr rs

/-- The children of a directory are the rules of a list in order of their hashes, each key once,
and the filter covers them. -/
structure Stores (N : Naming ρ) (d : ChildSet ρ) (rs : List ρ) : Prop where
  holds : d.children.Holds N rs
  sorted : Sorted N rs
  once : (rs.map N.key).Nodup
  bloom : Covers N d.bloomMask rs

theorem Fits.sorted (h : Fits N rs (N.hashOf rule) pos) (hs : Sorted N rs) :
    Sorted N (rs.take pos ++ rule :: rs.drop pos) := by
  have hall : Sorted N (rs.take pos ++ rs.drop pos) := by rwa [List.take_append_drop]
  obtain ⟨hlow, hhigh, hacross⟩ := List.pairwise_append.mp hall
  apply List.pairwise_append.mpr
  refine ⟨hlow, List.pairwise_cons.mpr ⟨h.after, hhigh⟩, ?_⟩
  intro a ha b hb
  cases hb with
  | head => exact h.before a ha
  | tail _ hb => exact hacross a ha b hb

theorem inserted_perm (rs : List ρ) (pos : Nat) (rule : ρ) :
    (rs.take pos ++ rule :: rs.drop pos).Perm (rule :: rs) := by
  have h : (rs.take pos ++ rule :: rs.drop pos).Perm (rule :: (rs.take pos ++ rs.drop pos)) :=
    List.perm_middle
  rwa [List.take_append_drop] at h

/-- The list after an injection: the rule, and the others but for one of its key. -/
def Injected (N : Naming ρ) (rule : ρ) (rs next : List ρ) : Prop :=
  ∀ x, x ∈ next ↔ x = rule ∨ x ∈ rs ∧ N.key x ≠ N.key rule

/-- The capacity of the arrays; a single child has none. -/
def ChildSet.capacity (d : ChildSet ρ) : Nat :=
  match d.children with
  | .slots arr => arr.capacity
  | _ => 0

/-- No larger array can be had: there is no memory, or its capacity is no `int`. -/
def Short (memory : Option (Memory ρ)) (capacity : Nat) : Prop := memory = none ∨ 2 ^ 31 ≤ newCap capacity

/-- The rule takes the place of its key, or no larger array can be had and nothing changes. -/
def Injects (N : Naming ρ) (memory : Option (Memory ρ)) (capacity : Nat) (rule : ρ) (d : ChildSet ρ) (rs : List ρ)
    (out : Int × ChildSet ρ) : Prop :=
  (out.1 = 0 ∧ ∃ next, Stores N out.2 next ∧ Injected N rule rs next) ∨
    (Short memory capacity ∧ out = (-12, d))

theorem injected_new (pos : Nat) (hnew : ∀ x ∈ rs, N.key x ≠ N.key rule) :
    Injected N rule rs (rs.take pos ++ rule :: rs.drop pos) := by
  intro x
  rw [(inserted_perm rs pos rule).mem_iff, List.mem_cons]
  constructor
  · rintro (rfl | hx)
    · exact Or.inl rfl
    · exact Or.inr ⟨hx, hnew x hx⟩
  · rintro (rfl | ⟨hx, -⟩)
    · exact Or.inl rfl
    · exact Or.inr hx

/-- A rule whose key is not there yet goes in where it fits. -/
theorem insertAt_stores {old : Slots ρ} (h : Lists N old rs) (hs : Sorted N rs)
    (honce : (rs.map N.key).Nodup) (hbloom : Covers N d.bloomMask rs)
    (hfits : Fits N rs (N.hashOf rule) pos) (hnew : ∀ x ∈ rs, N.key x ≠ N.key rule) :
    Injects N memory old.capacity rule d rs (insertAt memory d old pos (N.hashOf rule) rule) := by
  have hperm := inserted_perm rs pos rule
  have hnodup : ((rs.take pos ++ rule :: rs.drop pos).map N.key).Nodup := by
    rw [(hperm.map N.key).nodup_iff, List.map_cons, List.nodup_cons]
    refine ⟨fun hmem => ?_, honce⟩
    obtain ⟨x, hx, hkey⟩ := List.mem_map.mp hmem
    exact hnew x hx hkey
  have hcovers : Covers N (d.bloomMask ||| bloomBit (N.hashOf rule))
      (rs.take pos ++ rule :: rs.drop pos) := by
    intro x hx
    cases hperm.mem_iff.mp hx with
    | head => exact or_and_self_ne_zero _ _
    | tail _ hx => exact hbloom.or _ x hx
  have hinjected := injected_new pos hnew
  simp only [insertAt]
  split
  · exact Or.inl ⟨rfl, _, ⟨h.shiftIn hfits.le, hfits.sorted hs, hnodup, hcovers⟩, hinjected⟩
  · cases memory with
    | none => exact Or.inr ⟨Or.inl rfl, rfl⟩
    | some memory =>
      dsimp only
      split
      · exact Or.inl ⟨rfl, _, ⟨h.grow memory hfits.le, hfits.sorted hs, hnodup, hcovers⟩, hinjected⟩
      · rename_i hlarge
        exact Or.inr ⟨Or.inr (Nat.le_of_not_lt hlarge), rfl⟩

theorem map_set_same {β : Type} (f : ρ → β) (hget : rs[pos]? = some r) (hf : f rule = f r) :
    (rs.set pos rule).map f = rs.map f := by
  have hlt := (List.getElem?_eq_some_iff.mp hget).1
  apply List.ext_getElem?
  intro k
  rw [List.getElem?_map, List.getElem?_map]
  by_cases hk : k = pos
  · subst hk
    rw [List.getElem?_set_self hlt, hget]
    exact congrArg some hf
  · rw [List.getElem?_set_ne (Ne.symm hk)]

theorem key_unique (honce : (rs.map N.key).Nodup) {a b : Nat} {x : ρ} (ha : rs[a]? = some r)
    (hb : rs[b]? = some x) (hkey : N.key x = N.key r) : a = b := by
  have hlt : a < (rs.map N.key).length := by
    rw [List.length_map]
    exact (List.getElem?_eq_some_iff.mp ha).1
  apply (List.getElem?_inj hlt honce).mp
  rw [List.getElem?_map, List.getElem?_map, ha, hb]
  exact congrArg some hkey.symm

theorem injected_set (honce : (rs.map N.key).Nodup) (hget : rs[pos]? = some r)
    (hkey : N.key rule = N.key r) : Injected N rule rs (rs.set pos rule) := by
  have hlt := (List.getElem?_eq_some_iff.mp hget).1
  intro x
  rw [List.mem_iff_getElem?]
  constructor
  · rintro ⟨k, hk⟩
    by_cases hkp : k = pos
    · subst hkp
      rw [List.getElem?_set_self hlt] at hk
      exact Or.inl (Option.some.inj hk).symm
    · rw [List.getElem?_set_ne (Ne.symm hkp)] at hk
      refine Or.inr ⟨List.mem_iff_getElem?.mpr ⟨k, hk⟩, fun hx => hkp ?_⟩
      exact (key_unique honce hget hk (hx.trans hkey)).symm
  · rintro (rfl | ⟨hx, hne⟩)
    · exact ⟨pos, List.getElem?_set_self hlt⟩
    · obtain ⟨k, hk⟩ := List.mem_iff_getElem?.mp hx
      refine ⟨k, ?_⟩
      rw [List.getElem?_set_ne]
      · exact hk
      · rintro rfl
        obtain rfl : r = x := by simpa [hget] using hk
        exact hne hkey.symm

theorem Stores.replace (hd : d.children = .slots arr) (h : Stores N d rs)
    (hget : rs[pos]? = some r) (hkey : N.key rule = N.key r) :
    Stores N { d with children := .slots { arr with
      rules := Function.update arr.rules pos (some rule) } } (rs.set pos rule) := by
  have hlists : Lists N arr rs := by
    have hholds := h.holds
    rwa [hd] at hholds
  have hhash : N.hashOf rule = N.hashOf r := congrArg N.hash (congrArg Prod.fst hkey)
  refine ⟨hlists.replace hget hkey, ?_, ?_, ?_⟩
  · have hsorted : (rs.map N.hashOf).Pairwise (· ≤ ·) := List.pairwise_map.mpr h.sorted
    rw [← map_set_same N.hashOf hget hhash] at hsorted
    exact List.pairwise_map.mp hsorted
  · rw [map_set_same N.key hget hkey]
    exact h.once
  · intro x hx
    obtain hx | rfl := List.mem_or_eq_of_mem_set hx
    · exact h.bloom x hx
    · rw [hhash]
      exact h.bloom r (List.mem_of_getElem? hget)

theorem Stores.single {mask : UInt64} (hmask : mask &&& bloomBit (N.hashOf rule) ≠ 0) :
    Stores N ⟨.single rule, mask⟩ [rule] := by
  refine ⟨rfl, List.pairwise_singleton _ _, by simp, ?_⟩
  intro x hx
  rwa [List.mem_singleton.mp hx]

theorem injectChild_single {old : ρ} (hd : d.children = .single old) (h : Stores N d rs)
    (memory : Option (Memory ρ)) (rule : ρ) :
    Injects N memory d.capacity rule d rs (injectChild N memory rule d) := by
  have hholds := h.holds
  rw [hd] at hholds
  obtain rfl : rs = [old] := hholds
  unfold injectChild
  by_cases hsame : N.uid old = N.uid rule ∧ N.name old = N.name rule
  · simp only [hd, hsame, and_self, if_true]
    refine Or.inl ⟨rfl, [rule], Stores.single (or_and_self_ne_zero _ _), ?_⟩
    intro x
    simp only [List.mem_singleton]
    constructor
    · exact Or.inl
    · rintro (rfl | ⟨rfl, hne⟩)
      · rfl
      · exact absurd (Prod.ext hsame.2 hsame.1) hne
  · simp only [hd, hsame, if_false]
    have hnew : ∀ x ∈ [old], N.key x ≠ N.key rule := by
      intro x hx hkey
      rw [List.mem_singleton.mp hx] at hkey
      obtain ⟨hn, hu⟩ := Prod.mk.inj hkey
      exact hsame ⟨hu, hn⟩
    have hlists : Lists N ⟨1, 0, fun _ => N.hashOf old, fun _ => some old⟩ [old] := by
      refine ⟨rfl, ?_⟩
      intro i x hx
      obtain rfl : x = old := List.mem_singleton.mp (List.mem_of_getElem? hx)
      exact ⟨rfl, rfl⟩
    have hfits : Fits N [old] (N.hashOf rule) (if N.hashOf old < N.hashOf rule then 1 else 0) := by
      split
      · next hlt =>
        refine ⟨by simp, ?_, by simp⟩
        simpa using UInt32.le_of_lt hlt
      · next hlt =>
        refine ⟨by simp, by simp, ?_⟩
        simpa using UInt32.not_lt.mp hlt
    have hcapacity : d.capacity = 0 := by rw [ChildSet.capacity, hd]
    rw [hcapacity]
    exact insertAt_stores hlists h.sorted h.once h.bloom hfits hnew

theorem injectChild_slots (hd : d.children = .slots arr) (h : Stores N d rs)
    (memory : Option (Memory ρ)) (rule : ρ) :
    Injects N memory d.capacity rule d rs (injectChild N memory rule d) := by
  have hlists : Lists N arr rs := by
    have hholds := h.holds
    rwa [hd] at hholds
  have hhash : N.hash (N.name rule) = N.hashOf rule := rfl
  have hfst := childForUid_fst (N.uid rule) true hlists h.sorted h.once hhash
  simp only [if_true, Option.or_none] at hfst
  unfold injectChild
  cases hheld : held N rs (N.name rule) (N.uid rule) with
  | some old =>
    obtain ⟨j, hj, hget⟩ := childForUid_index true hlists h.sorted hhash hheld
    have hfound : childForUid N arr (N.name rule) (N.hashOf rule) (N.uid rule) true =
        (some old, some j) := Prod.ext (hfst.trans hheld) hj
    have hkey : N.key rule = N.key old := ((held_eq_some h.once).mp hheld).2.symm
    simp only [hd, hfound, Option.getD_some]
    exact Or.inl ⟨rfl, rs.set j rule, h.replace hd hget hkey, injected_set h.once hget hkey⟩
  | none =>
    obtain ⟨index, hfound⟩ : ∃ index, childForUid N arr (N.name rule) (N.hashOf rule)
        (N.uid rule) true = (none, index) := ⟨_, Prod.ext (hfst.trans hheld) rfl⟩
    have hcapacity : d.capacity = arr.capacity := by rw [ChildSet.capacity, hd]
    simp only [hd, hfound]
    rw [hcapacity]
    exact insertAt_stores hlists h.sorted h.once h.bloom
      (bsearchChild_fits hlists h.sorted hhash) (held_none.mp hheld)

theorem injectChild_stores (h : Stores N d rs) (memory : Option (Memory ρ)) (rule : ρ) :
    Injects N memory d.capacity rule d rs (injectChild N memory rule d) := by
  cases hd : d.children with
  | null =>
    have hholds := h.holds
    rw [hd] at hholds
    obtain rfl : rs = [] := hholds
    unfold injectChild
    simp only [hd]
    refine Or.inl ⟨rfl, [rule], Stores.single (or_and_self_ne_zero _ _), ?_⟩
    simp [Injected]
  | single old => exact injectChild_single hd h memory rule
  | slots arr => exact injectChild_slots hd h memory rule

theorem Stores.sublist {next : List ρ} {c : Children ρ} {mask : UInt64} (h : Stores N d rs)
    (hsub : next.Sublist rs) (hholds : c.Holds N next) (hbloom : Covers N mask next) :
    Stores N ⟨c, mask⟩ next :=
  ⟨hholds, h.sorted.sublist hsub, h.once.sublist (hsub.map _), hbloom⟩

theorem eraseIdx_pair {other : ρ} (hlen : rs.length = 2) (hget : rs[pos]? = some rule)
    (hother : rs[1 - pos]? = some other) : rs.eraseIdx pos = [other] := by
  obtain ⟨a, b, rfl⟩ := List.length_eq_two.mp hlen
  match pos, hget, hother with
  | 0, _, hother => simpa using hother
  | 1, _, hother => simpa using hother
  | n + 2, hget, _ => simp at hget

/-- The slot goes, and a child left alone goes back under the tagged pointer. -/
theorem removeAt_stores (hd : d.children = .slots arr) (h : Stores N d rs)
    (hget : rs[pos]? = some rule) : Stores N (removeAt d arr pos) (rs.eraseIdx pos) := by
  have hlists : Lists N arr rs := by
    have hholds := h.holds
    rwa [hd] at hholds
  have hlt := (List.getElem?_eq_some_iff.mp hget).1
  have hc := hlists.count
  have hsub := List.eraseIdx_sublist rs pos
  unfold removeAt
  by_cases hfew : arr.count ≤ 2
  · rw [if_pos hfew]
    by_cases htwo : arr.count = 2
    · have hpos : 1 - pos < arr.count := by omega
      obtain ⟨other, hother⟩ := hlists.get hpos
      obtain ⟨hhash, hrule⟩ := hlists.slot _ _ hother
      rw [eraseIdx_pair (by omega) hget hother, if_pos htwo, hrule, hhash]
      simp only
      apply Stores.single
      rw [UInt64.and_self]
      exact bloomBit_ne_zero _
    · rw [if_neg htwo]
      have hnil : rs.eraseIdx pos = [] := by
        apply List.eq_nil_of_length_eq_zero
        rw [List.length_eraseIdx_of_lt hlt]
        omega
      rw [hnil] at hsub ⊢
      exact h.sublist hsub rfl (by simp [Covers])
  · rw [if_neg hfew]
    have hcut := hlists.shiftOut pos (by omega)
    exact h.sublist hsub hcut hcut.bloomOf

/-- The rules of a list are the values of the map, each at its key. -/
def Mirrors (N : Naming ρ) (m : Bytes × UInt32 → Option ρ) (rs : List ρ) : Prop :=
  ∀ k x, m k = some x ↔ x ∈ rs ∧ N.key x = k

theorem Mirrors.held (h : Mirrors N m rs) (honce : (rs.map N.key).Nodup) (name : Bytes)
    (uid : UInt32) : held N rs name uid = m (name, uid) := by
  apply Option.ext
  intro x
  rw [held_eq_some honce, h]

theorem Mirrors.inject {next : List ρ} (h : Mirrors N m rs) (hnext : Injected N rule rs next) :
    Mirrors N (Function.update m (N.key rule) (some rule)) next := by
  intro k x
  rw [hnext x]
  by_cases hk : k = N.key rule
  · subst hk
    rw [Function.update_self, Option.some.injEq]
    constructor
    · rintro rfl
      exact ⟨Or.inl rfl, rfl⟩
    · rintro ⟨rfl | ⟨-, hne⟩, hkey⟩
      · rfl
      · exact absurd hkey hne
  · rw [Function.update_of_ne hk, h]
    constructor
    · rintro ⟨hx, rfl⟩
      exact ⟨Or.inr ⟨hx, hk⟩, rfl⟩
    · rintro ⟨rfl | ⟨hx, -⟩, hkey⟩
      · exact absurd hkey.symm hk
      · exact ⟨hx, hkey⟩

/-- The child set stores what the map holds. -/
def Agrees (N : Naming ρ) (s : ChildSet ρ × (Bytes × UInt32 → Option ρ)) : Prop :=
  ∃ rs, Stores N s.1 rs ∧ Mirrors N s.2 rs

/-- The child set of a directory is the map `m`, kept in order of the hashes. -/
structure Multimap (N : Naming ρ) (d : ChildSet ρ) (m : Bytes × UInt32 → Option ρ) : Prop where
  stores : ∃ rs, Stores N d rs ∧ Mirrors N m rs
  filter : ∀ k rule, m k = some rule → d.bloomMask &&& bloomBit (N.hash k.1) ≠ 0
  forUid : ∀ arr, d.children = .slots arr → ∀ name uid exact,
    (childForUid N arr name (N.hash name) uid exact).1 =
      (m (name, uid)).or (if exact then none else m (name, 0))
  ruleInfo : ∀ name uid, getRuleInfo N d name uid = (m (name, uid)).or (m (name, 0))
  search : ∀ arr, d.children = .slots arr → ∀ hash,
    LowerBound arr.hashes arr.count hash (bsearchLoop arr.hashes hash 0 arr.count).toNat
  index : ∀ arr, d.children = .slots arr → ∀ name,
    (bsearchChild N arr name (N.hash name)).2 = none →
      LowerBound arr.hashes arr.count (N.hash name) (bsearchChild N arr name (N.hash name)).1
  inject : ∀ memory rule, (injectChild N memory rule d).1 = 0 ∨
    (Short memory d.capacity ∧ injectChild N memory rule d = (-12, d))

theorem Stores.ruleInfo (h : Stores N d rs) (name : Bytes) (uid : UInt32) :
    getRuleInfo N d name uid = (held N rs name uid).or (held N rs name 0) := by
  have hholds := h.holds
  unfold getRuleInfo
  cases hd : d.children with
  | null =>
    rw [hd] at hholds
    obtain rfl : rs = [] := hholds
    rfl
  | single rule =>
    rw [hd] at hholds
    obtain rfl : rs = [rule] := hholds
    simp only [held_cons, held_nil, Naming.key]
    by_cases hname : N.name rule = name
    · by_cases huid : N.uid rule = uid
      · simp [hname, huid]
      · by_cases hzero : N.uid rule = 0
        · rw [hzero] at huid
          simp [hname, hzero, huid]
        · simp [hname, hzero, huid]
    · simp [hname]
  | slots arr =>
    rw [hd] at hholds
    have hfst := childForUid_fst uid false hholds h.sorted h.once
      (rfl : N.hash name = N.hash name)
    simp only [hfst, Bool.false_eq_true, if_false]
    cases huid : held N rs name uid with
    | some rule =>
      obtain ⟨-, hkey⟩ := (held_eq_some h.once).mp huid
      simp [(Prod.mk.inj hkey).2]
    | none =>
      cases hzero : held N rs name 0 with
      | some rule =>
        obtain ⟨-, hkey⟩ := (held_eq_some h.once).mp hzero
        simp [(Prod.mk.inj hkey).2]
      | none => rfl

theorem Agrees.multimap {s : ChildSet ρ × (Bytes × UInt32 → Option ρ)} (h : Agrees N s) :
    Multimap N s.1 s.2 := by
  obtain ⟨rs, hstores, hmirrors⟩ := h
  have hheld := hmirrors.held hstores.once
  have hlists {arr : Slots ρ} (hd : s.1.children = .slots arr) : Lists N arr rs := by
    have hholds := hstores.holds
    rwa [hd] at hholds
  constructor
  · exact ⟨rs, hstores, hmirrors⟩
  · intro k rule hk
    obtain ⟨hmem, rfl⟩ := (hmirrors k rule).mp hk
    exact hstores.bloom rule hmem
  · intro arr hd name uid exact
    rw [childForUid_fst uid exact (hlists hd) hstores.sorted hstores.once rfl, hheld, hheld]
  · intro name uid
    rw [hstores.ruleInfo, hheld, hheld]
  · intro arr hd hash
    exact bsearchLoop_lower hash ((hlists hd).monotone hstores.sorted)
  · intro arr hd name hnone
    exact (bsearchChild_none (hlists hd) hstores.sorted rfl hnone).1
  · intro memory rule
    rcases injectChild_stores hstores memory rule with ⟨hok, -⟩ | hfail
    · exact Or.inl hok
    · exact Or.inr hfail

variable [DecidableEq ρ]

theorem slotOf_some (h : Lists N arr rs) (hslot : slotOf arr rule = some pos) :
    pos < arr.count ∧ rs[pos]? = some rule := by
  have hlt := List.mem_range.mp (List.mem_of_find?_eq_some hslot)
  have hrule : arr.rules pos = some rule := by simpa using List.find?_some hslot
  obtain ⟨r, hr⟩ := h.get hlt
  rw [(h.slot pos r hr).2] at hrule
  exact ⟨hlt, hr.trans hrule⟩

theorem slotOf_none (h : Lists N arr rs) (hslot : slotOf arr rule = none) : rule ∉ rs := by
  intro hmem
  obtain ⟨k, hk⟩ := List.mem_iff_getElem?.mp hmem
  have hlt : k < arr.count := by
    rw [h.count]
    exact (List.getElem?_eq_some_iff.mp hk).1
  have hno := List.find?_eq_none.mp hslot k (List.mem_range.mpr hlt)
  simp [(h.slot k rule hk).2] at hno

theorem mem_eraseIdx_slot {x : ρ} (honce : (rs.map N.key).Nodup) (hget : rs[pos]? = some rule) :
    x ∈ rs.eraseIdx pos ↔ x ∈ rs ∧ x ≠ rule := by
  obtain ⟨hlt, rfl⟩ := List.getElem?_eq_some_iff.mp hget
  have hnodup := List.Nodup.of_map _ honce
  rw [← hnodup.erase_getElem pos hlt, hnodup.mem_erase_iff, and_comm]

/-- A deletion takes the very rule out, and nothing else. -/
theorem deleteChild_stores (h : Stores N d rs) (rule : ρ) :
    ∃ next, Stores N (deleteChild rule d) next ∧ ∀ x, x ∈ next ↔ x ∈ rs ∧ x ≠ rule := by
  have hholds := h.holds
  have hsame (habsent : rule ∉ rs) : ∀ x, x ∈ rs ↔ x ∈ rs ∧ x ≠ rule := by
    intro x
    constructor
    · intro hx
      exact ⟨hx, fun heq => habsent (heq ▸ hx)⟩
    · exact And.left
  unfold deleteChild
  cases hd : d.children with
  | null =>
    rw [hd] at hholds
    obtain rfl : rs = [] := hholds
    exact ⟨[], h, by simp⟩
  | single old =>
    rw [hd] at hholds
    obtain rfl : rs = [old] := hholds
    by_cases heq : old = rule
    · simp only [if_pos heq]
      exact ⟨[], h.sublist (List.nil_sublist _) rfl (by simp [Covers]), by simp [heq]⟩
    · simp only [if_neg heq]
      exact ⟨[old], h, hsame (by simpa using Ne.symm heq)⟩
  | slots arr =>
    rw [hd] at hholds
    cases hslot : slotOf arr rule with
    | some pos =>
      simp only [hslot]
      obtain ⟨-, hget⟩ := slotOf_some hholds hslot
      exact ⟨_, removeAt_stores hd h hget, fun x => mem_eraseIdx_slot h.once hget⟩
    | none =>
      simp only [hslot]
      exact ⟨rs, h, hsame (slotOf_none hholds hslot)⟩

/-- A call on the directory: an injection with the memory there is, or a deletion. -/
inductive Call (ρ : Type) where
  | inject (memory : Option (Memory ρ)) (rule : ρ)
  | delete (rule : ρ)

/-- The child set beside the map from names and uids that the same calls drive. -/
def call (N : Naming ρ) :
    ChildSet ρ × (Bytes × UInt32 → Option ρ) → Call ρ →
      ChildSet ρ × (Bytes × UInt32 → Option ρ)
  | (d, m), .inject memory rule =>
    let (status, d) := injectChild N memory rule d
    (d, if status = 0 then Function.update m (N.key rule) (some rule) else m)
  | (d, m), .delete rule =>
    (deleteChild rule d,
      if m (N.key rule) = some rule then Function.update m (N.key rule) none else m)

def run (N : Naming ρ) (calls : List (Call ρ)) : ChildSet ρ × (Bytes × UInt32 → Option ρ) :=
  calls.foldl (call N) (empty, fun _ => none)

theorem Mirrors.delete {next : List ρ} (h : Mirrors N m rs)
    (hnext : ∀ x, x ∈ next ↔ x ∈ rs ∧ x ≠ rule) :
    Mirrors N (if m (N.key rule) = some rule then Function.update m (N.key rule) none else m)
      next := by
  intro k x
  rw [hnext x]
  split
  · next hrule =>
    by_cases hk : k = N.key rule
    · subst hk
      rw [Function.update_self]
      constructor
      · simp
      · rintro ⟨⟨hx, hne⟩, hkey⟩
        have hmx := (h (N.key rule) x).mpr ⟨hx, hkey⟩
        rw [hrule] at hmx
        exact absurd (Option.some.inj hmx).symm hne
    · rw [Function.update_of_ne hk, h]
      constructor
      · rintro ⟨hx, rfl⟩
        exact ⟨⟨hx, fun heq => hk (congrArg N.key heq)⟩, rfl⟩
      · rintro ⟨⟨hx, -⟩, hkey⟩
        exact ⟨hx, hkey⟩
  · next hrule =>
    rw [h]
    constructor
    · rintro ⟨hx, hkey⟩
      refine ⟨⟨hx, ?_⟩, hkey⟩
      rintro rfl
      exact hrule ((h _ _).mpr ⟨hx, rfl⟩)
    · rintro ⟨⟨hx, -⟩, hkey⟩
      exact ⟨hx, hkey⟩

theorem call_agrees {s : ChildSet ρ × (Bytes × UInt32 → Option ρ)} (h : Agrees N s)
    (c : Call ρ) : Agrees N (call N s c) := by
  obtain ⟨d, m⟩ := s
  obtain ⟨rs, hstores, hmirrors⟩ := h
  cases c with
  | inject memory rule =>
    rcases injectChild_stores hstores memory rule with ⟨hok, next, hnext, hinjected⟩ | ⟨-, hfail⟩
    · refine ⟨next, hnext, ?_⟩
      simp only [call, hok, if_true]
      exact hmirrors.inject hinjected
    · refine ⟨rs, ?_, ?_⟩
      · simpa [call, hfail] using hstores
      · simpa [call, hfail] using hmirrors
  | delete rule =>
    obtain ⟨next, hnext, hmem⟩ := deleteChild_stores hstores rule
    exact ⟨next, hnext, hmirrors.delete hmem⟩

theorem run_agrees (N : Naming ρ) (calls : List (Call ρ)) : Agrees N (run N calls) := by
  have hfold (s : ChildSet ρ × (Bytes × UInt32 → Option ρ)) (h : Agrees N s) :
      Agrees N (calls.foldl (call N) s) := by
    induction calls generalizing s with
    | nil => exact h
    | cons c calls ih => exact ih _ (call_agrees h c)
  apply hfold
  refine ⟨[], ⟨rfl, List.Pairwise.nil, List.nodup_nil, by simp [Covers]⟩, ?_⟩
  intro k x
  simp

/-- Every run of injections and deletions leaves the multimap that a finite map driven by the same
calls describes; the search finds the lower bound in sorted slots of every number. -/
theorem child_set_multimap (N : Naming ρ) (calls : List (Call ρ)) :
    Multimap N (run N calls).1 (run N calls).2 ∧
      ∀ (hashes : Nat → UInt32) (count : Nat) (hash : UInt32),
        (∀ i j, i ≤ j → j < count → hashes i ≤ hashes j) →
        LowerBound hashes count hash (bsearchLoop hashes hash 0 count).toNat :=
  ⟨(run_agrees N calls).multimap, fun _ _ hash hsort => bsearchLoop_lower hash hsort⟩

/-- Names that all have one hash. -/
def colliding : Naming (Bytes × UInt32) := ⟨Prod.fst, Prod.snd, fun _ => 5⟩

def roomy : Option (Memory (Bytes × UInt32)) := some ⟨fun _ => 9, fun _ => none⟩

/-- Two names of one hash, one of them with a rule of its own for uid 7, one injection for which
there is no memory, and a deletion. -/
def collidingCalls : List (Call (Bytes × UInt32)) :=
  [.inject none ([97], 0), .inject roomy ([98], 0), .inject roomy ([98], 7), .inject none ([97], 7),
    .inject none ([99], 0), .delete ([97], 0)]

theorem child_set_multimap_colliding :
    (Multimap colliding (run colliding collidingCalls).1 (run colliding collidingCalls).2 ∧
      LowerBound (fun _ => 5) 3 5 (bsearchLoop (fun _ => 5) 5 0 3).toNat) ∧
    LowerBound (fun _ => 5) 0 5 (bsearchLoop (fun _ => 5) 5 0 0).toNat :=
  have h := child_set_multimap colliding collidingCalls
  ⟨⟨h.1, h.2 (fun _ => 5) 3 5 (by simp)⟩, h.2 (fun _ => 5) 0 5 (by simp)⟩

example : (run colliding collidingCalls).2 ([97], 7) = some ([97], 7) := by decide +kernel
example : getRuleInfo colliding (run colliding collidingCalls).1 [98] 7 = some ([98], 7) := by
  decide +kernel

end HybridMount.Vfs.ChildArray
