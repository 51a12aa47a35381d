import Mathlib.Data.Fintype.Card
import Mathlib.Tactic
import HybridMount.Art

/-! Every node type stores a finite map from key bytes to children, and adding and
removing a child are updates of that map. -/

namespace HybridMount.Vfs.Art

open LittleEndian

section

variable {type : ArtType} {num c d : UInt8} {index : Nat → UInt8} {children : Nat → Art} {i n : Nat} {child : Art}
  {ks : List UInt8} {v : UInt8 → Option Art}

/-- The slots which a node accounts for. -/
def Occupied (type : ArtType) (num : UInt8) (children : Nat → Art) (i : Nat) : Prop :=
  match type with
  | .node4 | .node16 => i < num.toNat
  | .node48 | .node256 => i < type.capacity ∧ (children i).isNull = false

/-- A node stores the map `v`, whose keys are `ks`. -/
structure Stores (type : ArtType) (num : UInt8) (index : Nat → UInt8) (children : Nat → Art) (ks : List UInt8)
    (v : UInt8 → Option Art) : Prop where
  nodup : ks.Nodup
  mem : ∀ c, c ∈ ks ↔ ∃ a, v c = some a
  count : ks.length % 256 = num.toNat
  fits : ks.length ≤ type.capacity
  view : ∀ c, (findChild type num index children c).map children = v c
  live : ∀ c a, v c = some a → a.isNull = false
  slot : ∀ c i, findChild type num index children c = some i → i < type.capacity
  apart : ∀ c d i, findChild type num index children c = some i →
    findChild type num index children d = some i → c = d
  used : ∀ i, Occupied type num children i → ∃ c, findChild type num index children c = some i

theorem length_le_of_nodup_bytes (h : ks.Nodup) : ks.length ≤ 256 := by
  have hmap : (ks.map UInt8.toNat).Nodup := h.map fun a b hab => UInt8.toNat.inj hab
  have hsub : ks.map UInt8.toNat ⊆ List.range 256 := by
    intro n hn
    obtain ⟨c, -, rfl⟩ := List.mem_map.mp hn
    exact List.mem_range.mpr c.toNat_lt
  have hle := (hmap.subperm hsub).length_le
  simpa using hle

/-- In a small node the first slot with a key is the only one. -/
def Distinct (n : Nat) (keys : Nat → UInt8) : Prop := ∀ i < n, ∀ j < n, keys i = keys j → i = j

theorem find_range_eq_some (h : Distinct n index) :
    ((List.range n).find? fun i => index i = c) = some i ↔ i < n ∧ index i = c := by
  constructor
  · intro hf
    have hmem := List.mem_of_find?_eq_some hf
    have hkey := List.find?_some hf
    simp only [List.mem_range] at hmem
    simp only [decide_eq_true_eq] at hkey
    exact ⟨hmem, hkey⟩
  · intro ⟨hi, hkey⟩
    cases hf : (List.range n).find? fun i => index i = c with
    | none =>
      have hno := List.find?_eq_none.mp hf i (List.mem_range.mpr hi)
      simp [hkey] at hno
    | some j =>
      have hmem := List.mem_of_find?_eq_some hf
      have hj := List.find?_some hf
      simp only [List.mem_range] at hmem
      simp only [decide_eq_true_eq] at hj
      rw [h i hi j hmem (hkey.trans hj.symm)]

theorem findChild_small (hs : type = .node4 ∨ type = .node16) (h : Distinct num.toNat index) :
    findChild type num index children c = some i ↔ i < num.toNat ∧ index i = c := by
  rcases hs with hs | hs <;> subst hs <;> exact find_range_eq_some h

theorem findChild_node48 :
    findChild .node48 num index children c = some i ↔ (index c.toNat).toNat = i + 1 := by
  have hz : index c.toNat = 0 ↔ (index c.toNat).toNat = 0 := by
    constructor
    · intro h
      simp [h]
    · intro h
      exact UInt8.toNat.inj h
  by_cases h : index c.toNat = 0
  · have hn := hz.mp h
    simp only [findChild, h, if_true]
    simp
  · have hn : (index c.toNat).toNat ≠ 0 := fun hh => h (hz.mpr hh)
    simp only [findChild, h, if_false, Option.some.injEq]
    omega

theorem findChild_node256 :
    findChild .node256 num index children c = some i ↔ i = c.toNat ∧ (children i).isNull = false := by
  by_cases h : (children c.toNat).isNull = true
  · simp only [findChild, h, if_true]
    constructor
    · simp
    · intro ⟨hi, hn⟩
      simp [hi, h] at hn
  · simp only [findChild, h]
    constructor
    · intro hi
      simp only [Bool.false_eq_true, if_false, Option.some.injEq] at hi
      subst hi
      exact ⟨rfl, by simpa using h⟩
    · intro ⟨hi, _⟩
      simp [hi]

theorem distinct_of_used (hs : type = .node4 ∨ type = .node16)
    (h : ∀ i, Occupied type num children i → ∃ c, findChild type num index children c = some i) :
    Distinct num.toNat index := by
  have hfirst : ∀ i < num.toNat, ((List.range num.toNat).find? fun j => index j = index i) = some i := by
    intro i hi
    have hocc : Occupied type num children i := by
      rcases hs with hs | hs <;> subst hs <;> exact hi
    obtain ⟨c, hc⟩ := h i hocc
    have hfind : ((List.range num.toNat).find? fun j => index j = c) = some i := by
      rcases hs with hs | hs <;> subst hs <;> exact hc
    have hkey := List.find?_some hfind
    simp only [decide_eq_true_eq] at hkey
    rw [hkey]
    exact hfind
  intro i hi j hj hij
  have hi' := hfirst i hi
  rw [hij, hfirst j hj] at hi'
  exact (Option.some.inj hi').symm

theorem Stores.not_mem_iff (h : Stores type num index children ks v) :
    c ∉ ks ↔ findChild type num index children c = none := by
  rw [h.mem, ← h.view]
  cases findChild type num index children c <;> simp

theorem Stores.live_slot (h : Stores type num index children ks v)
    (hf : findChild type num index children c = some i) : (children i).isNull = false := by
  apply h.live c
  rw [← h.view, hf]
  rfl

theorem Stores.distinct (h : Stores type num index children ks v) (hs : type = .node4 ∨ type = .node16) :
    Distinct num.toNat index := distinct_of_used hs h.used

theorem Stores.length_small (h : Stores type num index children ks v) (hs : type = .node4 ∨ type = .node16) :
    ks.length = num.toNat := by
  have hfits := h.fits
  have hcount := h.count
  rcases hs with hs | hs <;> subst hs <;> simp only [ArtType.capacity] at hfits <;> omega

section

variable {type' : ArtType} {num' : UInt8} {index' : Nat → UInt8} {children' : Nat → Art}

theorem toNat_add_one (num : UInt8) : (num + 1).toNat = (num.toNat + 1) % 256 := by
  simp [UInt8.toNat_add]

theorem toNat_sub_one (num : UInt8) : (num - 1).toNat = (num.toNat + 255) % 256 := by
  have h := num.toNat_lt
  simp only [UInt8.toNat_sub, UInt8.reduceToNat]
  omega

/-- What is left to check after one more child is stored. -/
theorem Stores.cons (h : Stores type num index children ks v) (hc : c ∉ ks) (hchild : child.isNull = false)
    (hfits : ks.length + 1 ≤ type'.capacity)
    (hview : ∀ d, (findChild type' (num + 1) index' children' d).map children' =
      Function.update v c (some child) d)
    (hslot : ∀ d i, findChild type' (num + 1) index' children' d = some i → i < type'.capacity)
    (hapart : ∀ d e i, findChild type' (num + 1) index' children' d = some i →
      findChild type' (num + 1) index' children' e = some i → d = e)
    (hused : ∀ i, Occupied type' (num + 1) children' i →
      ∃ d, findChild type' (num + 1) index' children' d = some i) :
    Stores type' (num + 1) index' children' (c :: ks) (Function.update v c (some child)) := by
  have hcount := h.count
  constructor
  · exact List.nodup_cons.mpr ⟨hc, h.nodup⟩
  · intro d
    by_cases hd : d = c
    · simp [hd]
    · simp [hd, h.mem]
  · rw [toNat_add_one, ← hcount, List.length_cons]
    omega
  · simpa using hfits
  · exact hview
  · intro d a hd
    by_cases hdc : d = c
    · rw [hdc, Function.update_self] at hd
      rw [← Option.some.inj hd]
      exact hchild
    · rw [Function.update_of_ne hdc] at hd
      exact h.live d a hd
  · exact hslot
  · exact hapart
  · exact hused

/-- One more slot is used and the others keep their keys and children. -/
theorem Stores.extend (h : Stores type num index children ks v) (pos : Nat) (hc : c ∉ ks)
    (hchild : child.isNull = false) (hfits : ks.length + 1 ≤ type'.capacity) (hpos : pos < type'.capacity)
    (hgrown : type.capacity ≤ type'.capacity)
    (hfind : ∀ d i, findChild type' (num + 1) index' children' d = some i ↔
      if d = c then i = pos else findChild type num index children d = some i)
    (hnew : children' pos = child)
    (hkeep : ∀ d i, findChild type num index children d = some i → i ≠ pos ∧ children' i = children i)
    (hused : ∀ i, Occupied type' (num + 1) children' i → i = pos ∨ Occupied type num children i) :
    Stores type' (num + 1) index' children' (c :: ks) (Function.update v c (some child)) := by
  have hself : findChild type' (num + 1) index' children' c = some pos := (hfind c pos).mpr (by simp)
  have hother : ∀ d, d ≠ c → findChild type' (num + 1) index' children' d =
      findChild type num index children d := by
    intro d hd
    apply Option.ext
    intro i
    rw [hfind d i, if_neg hd]
  apply h.cons hc hchild hfits
  · intro d
    by_cases hd : d = c
    · simp [hd, hself, hnew]
    · rw [Function.update_of_ne hd, ← h.view, hother d hd]
      cases hf : findChild type num index children d with
      | none => rfl
      | some i => simp [(hkeep d i hf).2]
  · intro d i hf
    by_cases hd : d = c
    · rw [hd, hself] at hf
      have hi := Option.some.inj hf
      omega
    · rw [hother d hd] at hf
      exact lt_of_lt_of_le (h.slot d i hf) hgrown
  · intro d e i hd he
    by_cases hdc : d = c <;> by_cases hec : e = c
    · rw [hdc, hec]
    · rw [hdc, hself] at hd
      rw [hother e hec] at he
      exact absurd (Option.some.inj hd).symm (hkeep e i he).1
    · rw [hec, hself] at he
      rw [hother d hdc] at hd
      exact absurd (Option.some.inj he).symm (hkeep d i hd).1
    · rw [hother d hdc] at hd
      rw [hother e hec] at he
      exact h.apart d e i hd he
  · intro i hi
    by_cases hip : i = pos
    · exact ⟨c, by rw [hself, hip]⟩
    · have hocc : Occupied type num children i := (hused i hi).resolve_left hip
      obtain ⟨d, hd⟩ := h.used i hocc
      have hdc : d ≠ c := by
        intro hh
        rw [hh, h.not_mem_iff.mp hc] at hd
        cases hd
      exact ⟨d, by rw [hother d hdc, hd]⟩

/-- A key is appended to the keys of a small node, which may have grown. -/
theorem stores_append (hs : type = .node4 ∨ type = .node16) (hs' : type' = .node4 ∨ type' = .node16)
    (hgrown : type.capacity ≤ type'.capacity) (h : Stores type num index children ks v) (hc : c ∉ ks)
    (hchild : child.isNull = false) (hfits : num.toNat + 1 ≤ type'.capacity)
    (hindex : ∀ i < num.toNat, index' i = index i) (hkey : index' num.toNat = c)
    (hchildren : ∀ i < num.toNat, children' i = children i) (hnew : children' num.toNat = child) :
    Stores type' (num + 1) index' children' (c :: ks) (Function.update v c (some child)) := by
  have hlen := h.length_small hs
  have hold := h.distinct hs
  have hsmall : num.toNat + 1 < 256 := by
    rcases hs' with hs' | hs' <;> subst hs' <;> simp only [ArtType.capacity] at hfits <;> omega
  have hnum : (num + 1).toNat = num.toNat + 1 := by
    rw [toNat_add_one]
    omega
  have hfresh : ∀ i < num.toNat, index i ≠ c := by
    intro i hi hkey
    have hfind : findChild type num index children c = some i := (findChild_small hs hold).mpr ⟨hi, hkey⟩
    rw [h.not_mem_iff.mp hc] at hfind
    cases hfind
  have hdistinct : Distinct (num + 1).toNat index' := by
    rw [hnum]
    intro i hi j hj hij
    by_cases hin : i = num.toNat <;> by_cases hjn : j = num.toNat
    · omega
    · rw [hin, hkey, hindex j (by omega)] at hij
      exact absurd hij.symm (hfresh j (by omega))
    · rw [hjn, hkey, hindex i (by omega)] at hij
      exact absurd hij (hfresh i (by omega))
    · rw [hindex i (by omega), hindex j (by omega)] at hij
      exact hold i (by omega) j (by omega) hij
  apply h.extend num.toNat hc hchild (by omega) (by omega) hgrown
  · intro d i
    rw [findChild_small hs' hdistinct, findChild_small hs hold, hnum]
    by_cases hin : i = num.toNat
    · subst hin
      rw [hkey]
      by_cases hd : d = c
      · simp [hd]
      · simp [hd, Ne.symm hd]
    · by_cases hd : d = c
      · rw [if_pos hd]
        constructor
        · intro ⟨hi, hkeyi⟩
          rw [hindex i (by omega), hd] at hkeyi
          exact absurd hkeyi (hfresh i (by omega))
        · intro hi
          exact absurd hi hin
      · rw [if_neg hd]
        constructor
        · intro ⟨hi, hkeyi⟩
          exact ⟨by omega, by rw [← hindex i (by omega), hkeyi]⟩
        · intro ⟨hi, hkeyi⟩
          exact ⟨by omega, by rw [hindex i hi, hkeyi]⟩
  · exact hnew
  · intro d i hf
    have hi := ((findChild_small hs hold).mp hf).1
    exact ⟨by omega, hchildren i hi⟩
  · intro i hi
    have hlt : i < num.toNat + 1 := by
      rw [← hnum]
      rcases hs' with hs' | hs' <;> subst hs' <;> exact hi
    by_cases hin : i = num.toNat
    · exact Or.inl hin
    · right
      rcases hs with hs | hs <;> subst hs <;> simp only [Occupied] <;> omega

theorem toNat_ofNat_succ {n : Nat} (h : n < 255) : (UInt8.ofNat (n + 1)).toNat = n + 1 := by
  rw [UInt8.toNat_ofNat']
  omega

theorem toNat_ne (h : d ≠ c) : d.toNat ≠ c.toNat := fun hh => h (UInt8.toNat.inj hh)

/-- The table built from the first `n` keys. -/
theorem table_of_keys (hn : n ≤ 255) (h : Distinct n index) :
    (((List.range n).foldl (fun table i => Function.update table (index i).toNat (UInt8.ofNat (i + 1)))
      fun _ => (0 : UInt8)) d.toNat).toNat = i + 1 ↔ i < n ∧ index i = d := by
  induction n with
  | zero => simp
  | succ n ih =>
    have hih := ih (by omega) fun i hi j hj => h i (by omega) j (by omega)
    rw [List.range_succ, List.foldl_append]
    simp only [List.foldl_cons, List.foldl_nil]
    by_cases hd : d = index n
    · rw [hd, Function.update_self, toNat_ofNat_succ (by omega)]
      constructor
      · intro hi
        have hin : i = n := by omega
        exact ⟨by omega, by rw [hin]⟩
      · intro ⟨hi, hkey⟩
        rw [h i hi n (by omega) hkey]
    · rw [Function.update_of_ne (toNat_ne hd), hih]
      constructor
      · intro ⟨hi, hkey⟩
        exact ⟨by omega, hkey⟩
      · intro ⟨hi, hkey⟩
        have hin : i ≠ n := fun hh => hd (by rw [← hkey, hh])
        exact ⟨by omega, hkey⟩

theorem stores_node48 (h : Stores .node16 num index children ks v) (hc : c ∉ ks)
    (hchild : child.isNull = false)
    (hfull : num.toNat = 16) :
    Stores .node48 (num + 1) (Function.update (indexOfKeys index) c.toNat 17)
      (Function.update (fun i => if i < 16 then children i else null) 16 child) (c :: ks)
      (Function.update v c (some child)) := by
  have hlen := h.length_small (Or.inr rfl)
  have hold := h.distinct (Or.inr rfl)
  have hslot : ∀ d i, findChild .node16 num index children d = some i ↔ i < 16 ∧ index i = d := by
    intro d i
    rw [findChild_small (Or.inr rfl) hold, hfull]
  rw [hfull] at hold
  apply h.extend 16 hc hchild (by simp only [ArtType.capacity]; omega) (by simp [ArtType.capacity])
    (by simp [ArtType.capacity])
  · intro d i
    rw [findChild_node48, hslot]
    by_cases hd : d = c
    · rw [hd, Function.update_self]
      simp only [UInt8.reduceToNat, if_true]
      omega
    · rw [Function.update_of_ne (toNat_ne hd), if_neg hd]
      exact table_of_keys (by omega) hold
  · simp
  · intro d i hf
    have hi := ((hslot d i).mp hf).1
    have hne : i ≠ 16 := by omega
    refine ⟨hne, ?_⟩
    rw [Function.update_of_ne hne, if_pos hi]
  · intro i ⟨_, hlive⟩
    by_cases hlast : i = 16
    · exact Or.inl hlast
    · right
      rw [Function.update_of_ne hlast] at hlive
      by_cases hlt : i < 16
      · show i < num.toNat
        omega
      · simp [hlt, isNull] at hlive

/-- A node of 48 slots with fewer children has a free slot. -/
theorem freeSlot_spec (h : Stores .node48 num index children ks v) (hroom : num.toNat < 48) :
    freeSlot children < 48 ∧ (children (freeSlot children)).isNull = true := by
  have hfits := h.fits
  have hcount := h.count
  simp only [ArtType.capacity] at hfits
  cases hf : (List.range 48).find? fun i => (children i).isNull with
  | some i =>
    have hmem := List.mem_of_find?_eq_some hf
    have hnull := List.find?_some hf
    simp only [List.mem_range] at hmem
    simp only [freeSlot, hf, Option.getD_some]
    exact ⟨hmem, hnull⟩
  | none =>
    -- Otherwise every slot has a key of its own, which are more keys than there are.
    have hall := List.find?_eq_none.mp hf
    have hsub : List.range 48 ⊆ ks.filterMap fun c => findChild .node48 num index children c := by
      intro i hi
      have hlive : (children i).isNull = false := by simpa using hall i hi
      obtain ⟨c, hc⟩ := h.used i ⟨List.mem_range.mp hi, hlive⟩
      have hmem : c ∈ ks := by
        apply Decidable.byContradiction
        intro hno
        rw [h.not_mem_iff.mp hno] at hc
        cases hc
      exact List.mem_filterMap.mpr ⟨c, hmem, hc⟩
    have hle := (List.nodup_range.subperm hsub).length_le
    have hle' := List.length_filterMap_le (fun c => findChild .node48 num index children c) ks
    simp only [List.length_range] at hle
    omega

theorem stores_free (h : Stores .node48 num index children ks v) (hc : c ∉ ks) (hchild : child.isNull = false)
    (hroom : num.toNat < 48) :
    Stores .node48 (num + 1) (Function.update index c.toNat (UInt8.ofNat (freeSlot children + 1)))
      (Function.update children (freeSlot children) child) (c :: ks) (Function.update v c (some child)) := by
  obtain ⟨hpos, hfree⟩ := freeSlot_spec h hroom
  generalize freeSlot children = pos at hpos hfree
  have hfits := h.fits
  have hcount := h.count
  simp only [ArtType.capacity] at hfits
  apply h.extend pos hc hchild (by simp only [ArtType.capacity]; omega)
    (show pos < ArtType.node48.capacity from hpos) le_rfl
  · intro d i
    by_cases hd : d = c
    · rw [findChild_node48, hd, Function.update_self, toNat_ofNat_succ (by omega)]
      simp only [if_true]
      omega
    · rw [findChild_node48, Function.update_of_ne (toNat_ne hd), if_neg hd, findChild_node48]
  · simp
  · intro d i hd
    have hne : i ≠ pos := by
      intro hip
      have hlive := h.live_slot hd
      rw [hip, hfree] at hlive
      cases hlive
    exact ⟨hne, Function.update_of_ne hne _ _⟩
  · intro i ⟨hlt, hlive⟩
    by_cases hip : i = pos
    · exact Or.inl hip
    · right
      rw [Function.update_of_ne hip] at hlive
      exact ⟨hlt, hlive⟩

/-- A node of 256 slots stores whatever its slots hold. -/
theorem stores_direct (hks : ks.Nodup) (hcount : ks.length % 256 = num.toNat)
    (hmem : ∀ c, c ∈ ks ↔ ∃ a, v c = some a) (hview : ∀ c : UInt8,
      v c = if (children c.toNat).isNull then none else some (children c.toNat)) :
    Stores .node256 num index children ks v := by
  constructor
  · exact hks
  · exact hmem
  · exact hcount
  · exact length_le_of_nodup_bytes hks
  · intro c
    rw [hview]
    by_cases hn : (children c.toNat).isNull = true
    · simp [findChild, hn]
    · simp [findChild, hn]
  · intro c a hc
    rw [hview] at hc
    by_cases hn : (children c.toNat).isNull = true
    · simp [hn] at hc
    · simp only [hn, Bool.false_eq_true, if_false, Option.some.injEq] at hc
      rw [← hc]
      simpa using hn
  · intro c i hc
    have hi := (findChild_node256.mp hc).1
    have hlt := c.toNat_lt
    simp only [ArtType.capacity]
    omega
  · intro c d i hc hd
    have hci := (findChild_node256.mp hc).1
    have hdi := (findChild_node256.mp hd).1
    exact UInt8.toNat.inj (hci.symm.trans hdi)
  · intro i ⟨hlt, hlive⟩
    simp only [ArtType.capacity] at hlt
    have hi : (UInt8.ofNat i).toNat = i := by
      rw [UInt8.toNat_ofNat']
      omega
    exact ⟨UInt8.ofNat i, findChild_node256.mpr ⟨hi.symm, hlive⟩⟩

theorem Stores.view256 (h : Stores .node256 num index children ks v) (c : UInt8) :
    v c = if (children c.toNat).isNull then none else some (children c.toNat) := by
  rw [← h.view]
  by_cases hn : (children c.toNat).isNull = true
  · simp [findChild, hn]
  · simp [findChild, hn]

theorem Stores.view48 (h : Stores .node48 num index children ks v) (c : UInt8) :
    v c = if index c.toNat = 0 then none else some (children ((index c.toNat).toNat - 1)) := by
  rw [← h.view]
  by_cases hn : index c.toNat = 0
  · simp [findChild, hn]
  · simp [findChild, hn]

/-- Writing one slot of a node of 256 slots. -/
theorem stores_put (hks : (c :: ks).Nodup) (hcount : ks.length % 256 = num.toNat)
    (hmem : ∀ d, d ∈ ks ↔ ∃ a, v d = some a) (hview : ∀ d : UInt8,
      v d = if (children d.toNat).isNull then none else some (children d.toNat))
        (hchild : child.isNull = false) :
    Stores .node256 (num + 1) index (Function.update children c.toNat child) (c :: ks)
      (Function.update v c (some child)) := by
  apply stores_direct hks
  · rw [toNat_add_one, ← hcount, List.length_cons]
    omega
  · intro d
    by_cases hd : d = c
    · simp [hd]
    · simp [hd, hmem]
  · intro d
    by_cases hd : d = c
    · simp [hd, hchild]
    · rw [Function.update_of_ne hd, Function.update_of_ne (toNat_ne hd), hview]

theorem stores_node256 (h : Stores .node48 num index children ks v) (hc : c ∉ ks)
    (hchild : child.isNull = false) :
    Stores .node256 (num + 1) (fun _ => 0)
      (Function.update (fun i => if i < 256 ∧ index i ≠ 0 then children ((index i).toNat - 1) else null)
        c.toNat child) (c :: ks) (Function.update v c (some child)) := by
  apply stores_put (List.nodup_cons.mpr ⟨hc, h.nodup⟩) h.count h.mem _ hchild
  intro d
  have hlt := d.toNat_lt
  rw [h.view48]
  by_cases hn : index d.toNat = 0
  · simp [hn, isNull]
  · have hfind : findChild .node48 num index children d = some ((index d.toNat).toNat - 1) := by
      simp [findChild, hn]
    have hlive := h.live_slot hfind
    simp [hn, hlt, hlive]

/-- Adding a child fails only for want of memory and then leaves the node as it is. -/
theorem addChild_spec (h : Stores type num index children ks v) (hc : c ∉ ks) (hchild : child.isNull = false)
    (alloc : Bool) (plen : UInt16) :
    (∃ type' index' children', addChild alloc type num plen index children c child =
        (0, node type' (num + 1) plen index' children') ∧
      Stores type' (num + 1) index' children' (c :: ks) (Function.update v c (some child))) ∨
    alloc = false ∧ addChild alloc type num plen index children c child =
      (ENOMEM, node type num plen index children) := by
  have hfits := h.fits
  have hcount := h.count
  cases type with
  | node4 =>
    have hlen := h.length_small (Or.inl rfl)
    simp only [ArtType.capacity] at hfits
    by_cases hroom : num < 4
    · left
      have hlt : num.toNat < 4 := UInt8.lt_iff_toNat_lt.mp hroom
      refine ⟨.node4, _, _, by simp only [addChild, hroom, if_true]; rfl, ?_⟩
      apply stores_append (Or.inl rfl) (Or.inl rfl) le_rfl h hc hchild
        (by simp only [ArtType.capacity]; omega)
      · intro i hi
        rw [Function.update_of_ne (by omega)]
      · simp
      · intro i hi
        rw [Function.update_of_ne (by omega)]
      · simp
    · have hfour : num.toNat = 4 := by
        have hge : ¬ num.toNat < 4 := fun hh => hroom (UInt8.lt_iff_toNat_lt.mpr hh)
        omega
      cases alloc with
      | false => right; simp [addChild, hroom]
      | true =>
        left
        refine ⟨.node16, _, _, by simp only [addChild, hroom, if_true, if_false]; rfl, ?_⟩
        apply stores_append (Or.inl rfl) (Or.inr rfl) (by decide) h hc hchild
          (by simp only [ArtType.capacity]; omega)
        · intro i hi
          rw [Function.update_of_ne (by omega), if_pos (by omega)]
        · simp [hfour]
        · intro i hi
          rw [Function.update_of_ne (by omega), if_pos (by omega)]
        · simp [hfour]
  | node16 =>
    have hlen := h.length_small (Or.inr rfl)
    simp only [ArtType.capacity] at hfits
    by_cases hroom : num < 16
    · left
      have hlt : num.toNat < 16 := UInt8.lt_iff_toNat_lt.mp hroom
      refine ⟨.node16, _, _, by simp only [addChild, hroom, if_true]; rfl, ?_⟩
      apply stores_append (Or.inr rfl) (Or.inr rfl) le_rfl h hc hchild
        (by simp only [ArtType.capacity]; omega)
      · intro i hi
        rw [Function.update_of_ne (by omega)]
      · simp
      · intro i hi
        rw [Function.update_of_ne (by omega)]
      · simp
    · have hfull : num.toNat = 16 := by
        have hge : ¬ num.toNat < 16 := fun hh => hroom (UInt8.lt_iff_toNat_lt.mpr hh)
        omega
      cases alloc with
      | false => right; simp [addChild, hroom]
      | true =>
        left
        exact ⟨.node48, _, _, by simp only [addChild, hroom, if_true, if_false],
          stores_node48 h hc hchild hfull⟩
  | node48 =>
    by_cases hroom : num < 48
    · left
      exact ⟨.node48, _, _, by simp only [addChild, hroom, if_true],
        stores_free h hc hchild (UInt8.lt_iff_toNat_lt.mp hroom)⟩
    · cases alloc with
      | false => right; simp [addChild, hroom]
      | true =>
        left
        exact ⟨.node256, _, _, by simp only [addChild, hroom, if_true, if_false], stores_node256 h hc hchild⟩
  | node256 =>
    left
    exact ⟨.node256, _, _, rfl,
      stores_put (List.nodup_cons.mpr ⟨hc, h.nodup⟩) h.count h.mem h.view256 hchild⟩

/-- A child is replaced in its slot. -/
theorem Stores.replace (h : Stores type num index children ks v)
    (hf : findChild type num index children c = some i)
    (hchild : child.isNull = false) :
    Stores type num index (Function.update children i child) ks (Function.update v c (some child)) := by
  have hlive := h.live_slot hf
  have hsame : ∀ j, (Function.update children i child j).isNull = (children j).isNull := by
    intro j
    by_cases hj : j = i
    · simp [hj, hchild, hlive]
    · simp [hj]
  have hfind : ∀ d, findChild type num index (Function.update children i child) d =
      findChild type num index children d := by
    intro d
    cases type with
    | node4 => rfl
    | node16 => rfl
    | node48 => rfl
    | node256 => simp only [findChild, hsame]
  have hc : c ∈ ks := by
    rw [h.mem, ← h.view, hf]
    exact ⟨_, rfl⟩
  constructor
  · exact h.nodup
  · intro d
    by_cases hd : d = c
    · simp [hd, hc]
    · rw [Function.update_of_ne hd, h.mem]
  · exact h.count
  · exact h.fits
  · intro d
    rw [hfind]
    by_cases hd : d = c
    · simp [hd, hf]
    · rw [Function.update_of_ne hd, ← h.view]
      cases hd' : findChild type num index children d with
      | none => rfl
      | some j =>
        have hji : j ≠ i := fun hh => hd (h.apart d c i (by rw [hd', hh]) hf)
        simp [hji]
  · intro d a hd
    by_cases hdc : d = c
    · rw [hdc, Function.update_self] at hd
      rw [← Option.some.inj hd]
      exact hchild
    · rw [Function.update_of_ne hdc] at hd
      exact h.live d a hd
  · intro d j hd
    rw [hfind] at hd
    exact h.slot d j hd
  · intro d e j hd he
    rw [hfind] at hd he
    exact h.apart d e j hd he
  · intro j hj
    have hocc : Occupied type num children j := by
      cases type with
      | node4 => exact hj
      | node16 => exact hj
      | node48 => exact ⟨hj.1, by rw [← hsame]; exact hj.2⟩
      | node256 => exact ⟨hj.1, by rw [← hsame]; exact hj.2⟩
    obtain ⟨d, hd⟩ := h.used j hocc
    exact ⟨d, by rw [hfind, hd]⟩

/-- What is left to check after a child is dropped. -/
theorem Stores.erase {index' : Nat → UInt8} {children' : Nat → Art} (h : Stores type num index children ks v)
    (hc : c ∈ ks)
    (hview : ∀ d, (findChild type (num - 1) index' children' d).map children' = Function.update v c none d)
    (hslot : ∀ d j, findChild type (num - 1) index' children' d = some j → j < type.capacity)
    (hapart : ∀ d e j, findChild type (num - 1) index' children' d = some j →
      findChild type (num - 1) index' children' e = some j → d = e)
    (hused : ∀ j, Occupied type (num - 1) children' j →
      ∃ d, findChild type (num - 1) index' children' d = some j) :
    Stores type (num - 1) index' children' (ks.erase c) (Function.update v c none) := by
  have hcount := h.count
  have hfits := h.fits
  have hlen := List.length_erase_of_mem hc
  have hpos := List.length_pos_of_mem hc
  constructor
  · exact h.nodup.erase c
  · intro d
    rw [h.nodup.mem_erase_iff, h.mem]
    by_cases hd : d = c
    · simp [hd]
    · simp [hd]
  · rw [toNat_sub_one, hlen]
    omega
  · omega
  · exact hview
  · intro d a hd
    by_cases hdc : d = c
    · rw [hdc, Function.update_self] at hd
      cases hd
    · rw [Function.update_of_ne hdc] at hd
      exact h.live d a hd
  · exact hslot
  · exact hapart
  · exact hused

/-- The last key of a small node moves into the slot which becomes free. -/
theorem stores_swap (hs : type = .node4 ∨ type = .node16) (h : Stores type num index children ks v)
    (hf : findChild type num index children c = some i) :
    Stores type (num - 1) (Function.update index i (index (num - 1).toNat))
      (Function.update (Function.update children i null) i (Function.update children i null (num - 1).toNat))
      (ks.erase c) (Function.update v c none) := by
  have hlen := h.length_small hs
  have hold := h.distinct hs
  obtain ⟨hi, hkey⟩ := (findChild_small hs hold).mp hf
  have hc : c ∈ ks := by
    rw [h.mem, ← h.view, hf]
    exact ⟨_, rfl⟩
  have hlast : (num - 1).toNat = num.toNat - 1 := by
    have hlt := num.toNat_lt
    rw [toNat_sub_one]
    omega
  have hcap : num.toNat ≤ type.capacity := by
    rw [← hlen]
    exact h.fits
  rw [hlast]
  generalize hm : num.toNat - 1 = last
  have hmoved : ∀ j < last, Function.update index i (index last) j = index (if j = i then last else j) := by
    intro j hj
    by_cases hji : j = i
    · simp [hji]
    · simp [hji]
  have hdistinct : Distinct (num - 1).toNat (Function.update index i (index last)) := by
    rw [hlast, hm]
    intro a ha b hb hab
    rw [hmoved a ha, hmoved b hb] at hab
    have heq := hold _ (by split <;> omega) _ (by split <;> omega) hab
    by_cases hai : a = i <;> by_cases hbi : b = i <;> simp only [hai, hbi, if_true, if_false] at heq <;> omega
  have hfind : ∀ d j, findChild type (num - 1) (Function.update index i (index last))
      (Function.update (Function.update children i null) i (Function.update children i null last)) d = some j ↔
        j < last ∧ index (if j = i then last else j) = d := by
    intro d j
    rw [findChild_small hs hdistinct, hlast, hm]
    constructor
    · intro ⟨hj, hd⟩
      exact ⟨hj, by rw [← hmoved j hj, hd]⟩
    · intro ⟨hj, hd⟩
      exact ⟨hj, by rw [hmoved j hj, hd]⟩
  have hchild : ∀ j < last, Function.update (Function.update children i null) i
      (Function.update children i null last) j = children (if j = i then last else j) := by
    intro j hj
    by_cases hji : j = i
    · have hli : last ≠ i := by omega
      simp [hji, hli]
    · simp [hji]
  apply h.erase hc
  · intro d
    by_cases hd : d = c
    · rw [hd, Function.update_self]
      cases hf' : findChild type (num - 1) (Function.update index i (index last))
          (Function.update (Function.update children i null) i (Function.update children i null last)) c with
      | none => rfl
      | some j =>
        obtain ⟨hj, hkeyj⟩ := (hfind c j).mp hf'
        have heq := hold _ (by split <;> omega) _ hi (hkeyj.trans hkey.symm)
        by_cases hji : j = i
        · rw [if_pos hji] at heq
          omega
        · rw [if_neg hji] at heq
          omega
    · rw [Function.update_of_ne hd, ← h.view]
      cases hfd : findChild type num index children d with
      | none =>
        cases hf' : findChild type (num - 1) (Function.update index i (index last))
            (Function.update (Function.update children i null) i (Function.update children i null last)) d with
        | none => rfl
        | some j =>
          obtain ⟨hj, hkeyj⟩ := (hfind d j).mp hf'
          have hsome : findChild type num index children d = some (if j = i then last else j) :=
            (findChild_small hs hold).mpr ⟨by split <;> omega, hkeyj⟩
          rw [hfd] at hsome
          cases hsome
      | some j =>
        obtain ⟨hj, hkeyj⟩ := (findChild_small hs hold).mp hfd
        have hji : j ≠ i := by
          intro hh
          exact hd (by rw [← hkeyj, hh, hkey])
        by_cases hjl : j = last
        · have hil : i < last := by omega
          rw [(hfind d i).mpr ⟨hil, by rw [if_pos rfl, ← hjl, hkeyj]⟩]
          simp only [Option.map_some]
          rw [hchild i hil, if_pos rfl, hjl]
        · have hlt : j < last := by omega
          rw [(hfind d j).mpr ⟨hlt, by rw [if_neg hji, hkeyj]⟩]
          simp only [Option.map_some]
          rw [hchild j hlt, if_neg hji]
  · intro d j hd
    have hj := ((hfind d j).mp hd).1
    omega
  · intro d e j hd he
    rw [← ((hfind d j).mp hd).2, ← ((hfind e j).mp he).2]
  · intro j hj
    have hlt : j < last := by
      rw [← hm, ← hlast]
      rcases hs with hs | hs <;> subst hs <;> exact hj
    exact ⟨_, (hfind _ j).mpr ⟨hlt, rfl⟩⟩

theorem stores_unindex (h : Stores .node48 num index children ks v)
    (hf : findChild .node48 num index children c = some i) :
    Stores .node48 (num - 1) (Function.update index c.toNat 0) (Function.update children i null) (ks.erase c)
      (Function.update v c none) := by
  have hc : c ∈ ks := by
    rw [h.mem, ← h.view, hf]
    exact ⟨_, rfl⟩
  have hself : findChild .node48 (num - 1) (Function.update index c.toNat 0)
      (Function.update children i null) c =
      none := by
    simp [findChild]
  have hother : ∀ d, d ≠ c → findChild .node48 (num - 1) (Function.update index c.toNat 0)
      (Function.update children i null) d = findChild .node48 num index children d := by
    intro d hd
    simp only [findChild, Function.update_of_ne (toNat_ne hd)]
  apply h.erase hc
  · intro d
    by_cases hd : d = c
    · simp [hd, hself]
    · rw [Function.update_of_ne hd, hother d hd, ← h.view]
      cases hd' : findChild .node48 num index children d with
      | none => rfl
      | some j =>
        have hji : j ≠ i := fun hh => hd (h.apart d c i (by rw [hd', hh]) hf)
        simp [hji]
  · intro d j hd
    by_cases hdc : d = c
    · rw [hdc, hself] at hd
      cases hd
    · rw [hother d hdc] at hd
      exact h.slot d j hd
  · intro d e j hd he
    by_cases hdc : d = c
    · rw [hdc, hself] at hd
      cases hd
    · by_cases hec : e = c
      · rw [hec, hself] at he
        cases he
      · rw [hother d hdc] at hd
        rw [hother e hec] at he
        exact h.apart d e j hd he
  · intro j ⟨hlt, hlive⟩
    by_cases hji : j = i
    · simp [hji, isNull] at hlive
    · rw [Function.update_of_ne hji] at hlive
      obtain ⟨d, hd⟩ := h.used j ⟨hlt, hlive⟩
      have hdc : d ≠ c := by
        intro hh
        rw [hh, hf] at hd
        exact hji (Option.some.inj hd).symm
      exact ⟨d, by rw [hother d hdc, hd]⟩

theorem stores_clear (h : Stores .node256 num index children ks v)
    (hf : findChild .node256 num index children c = some i) :
    Stores .node256 (num - 1) index (Function.update children i null) (ks.erase c)
      (Function.update v c none) := by
  have hi := (findChild_node256.mp hf).1
  have hcount := h.count
  have hc : c ∈ ks := by
    rw [h.mem, ← h.view, hf]
    exact ⟨_, rfl⟩
  have hlen := List.length_erase_of_mem hc
  have hpos := List.length_pos_of_mem hc
  apply stores_direct (h.nodup.erase c)
  · rw [toNat_sub_one, hlen]
    omega
  · intro d
    rw [h.nodup.mem_erase_iff, h.mem]
    by_cases hd : d = c
    · simp [hd]
    · simp [hd]
  · intro d
    rw [hi]
    by_cases hd : d = c
    · simp [hd, isNull]
    · rw [Function.update_of_ne hd, Function.update_of_ne (toNat_ne hd), h.view256]

theorem removeChild_spec (h : Stores type num index children ks v)
    (hf : findChild type num index children c = some i) (plen : UInt16) :
    ∃ index' children', Stores type (num - 1) index' children' (ks.erase c) (Function.update v c none) ∧
      removeChild type num plen index (Function.update children i null) i c =
        if num - 1 = 1 then lengthen (plen + 1) (children' (firstSlot type children'))
        else node type (num - 1) plen index' children' := by
  cases type with
  | node4 => exact ⟨_, _, stores_swap (Or.inl rfl) h hf, rfl⟩
  | node16 => exact ⟨_, _, stores_swap (Or.inr rfl) h hf, rfl⟩
  | node48 => exact ⟨_, _, stores_unindex h hf, rfl⟩
  | node256 => exact ⟨_, _, stores_clear h hf, rfl⟩

theorem firstLive_spec {cap : Nat} (hi : i < cap) (hlive : (children i).isNull = false) :
    ((List.range cap).find? fun j => !(children j).isNull).getD 0 < cap ∧
      (children (((List.range cap).find? fun j => !(children j).isNull).getD 0)).isNull = false := by
  cases hf : (List.range cap).find? fun j => !(children j).isNull with
  | none =>
    have hno := List.find?_eq_none.mp hf i (List.mem_range.mpr hi)
    simp [hlive] at hno
  | some j =>
    have hmem := List.mem_of_find?_eq_some hf
    have hj := List.find?_some hf
    exact ⟨List.mem_range.mp hmem, by simpa using hj⟩

/-- The first child is one of the children. -/
theorem firstSlot_spec (h : Stores type num index children ks v) (hne : ks ≠ []) :
    ∃ c, findChild type num index children c = some (firstSlot type children) := by
  obtain ⟨d, hd⟩ := List.exists_mem_of_ne_nil ks hne
  have hpos := List.length_pos_of_mem hd
  obtain ⟨j, hj⟩ : ∃ j, findChild type num index children d = some j := by
    cases hf : findChild type num index children d with
    | none => exact absurd hd (h.not_mem_iff.mpr hf)
    | some j => exact ⟨j, rfl⟩
  have hlt := h.slot d j hj
  have hlive := h.live_slot hj
  cases type with
  | node4 =>
    have hlen := h.length_small (Or.inl rfl)
    exact h.used 0 (show 0 < num.toNat by omega)
  | node16 =>
    have hlen := h.length_small (Or.inr rfl)
    exact h.used 0 (show 0 < num.toNat by omega)
  | node48 => exact h.used _ (firstLive_spec hlt hlive)
  | node256 => exact h.used _ (firstLive_spec hlt hlive)

end

end

end HybridMount.Vfs.Art
