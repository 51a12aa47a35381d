import HybridMount.ChildArray

/-! Lookups in a child array that lists rules in order of their hashes: the search finds the first
rule of a name, and the walk from there the rule of a uid. -/

namespace HybridMount.Vfs.ChildArray

open LittleEndian

variable {ρ : Type} {N : Naming ρ} {arr : Slots ρ} {rs t : List ρ} {rule r : ρ} {i pos : Nat}
  {name : Bytes} {hash uid : UInt32} {exact : Bool} {fallback : Option ρ}

/-- The slots in use hold the rules of a list, beside the hashes of their names. -/
structure Lists (N : Naming ρ) (arr : Slots ρ) (rs : List ρ) : Prop where
  count : arr.count = rs.length
  slot : ∀ i rule, rs[i]? = some rule → arr.hashes i = N.hashOf rule ∧ arr.rules i = some rule

def Sorted (N : Naming ρ) (rs : List ρ) : Prop := rs.Pairwise fun a b => N.hashOf a ≤ N.hashOf b

/-- The rule of a list for a name and a uid. -/
def held (N : Naming ρ) (rs : List ρ) (name : Bytes) (uid : UInt32) : Option ρ :=
  rs.find? fun rule => N.key rule = (name, uid)

theorem Lists.at_nil (h : Lists N arr rs) (hd : rs.drop i = []) : ¬ i < arr.count := by
  rw [List.drop_eq_nil_iff] at hd
  have hc := h.count
  omega

theorem get_of_drop (hd : rs.drop i = r :: t) : rs[i]? = some r := by
  have h0 : (rs.drop i)[0]? = some r := by rw [hd]; rfl
  simpa using h0

theorem drop_succ (hd : rs.drop i = r :: t) : rs.drop (i + 1) = t := by
  rw [← List.drop_drop, hd]
  rfl

theorem Lists.at_cons (h : Lists N arr rs) (hd : rs.drop i = r :: t) :
    i < arr.count ∧ arr.hashes i = N.hashOf r ∧ arr.rules i = some r := by
  have hget := get_of_drop hd
  have hi : i < rs.length := (List.getElem?_eq_some_iff.mp hget).1
  have hc := h.count
  exact ⟨by omega, h.slot i r hget⟩

theorem no_name_beyond (hs : Sorted N (r :: t)) (hge : hash ≤ N.hashOf r)
    (hne : N.hashOf r ≠ hash) (hname : N.hash name = hash) :
    ∀ x ∈ r :: t, N.name x ≠ name := by
  intro x hx hxn
  have hxh : N.hashOf x = hash := by rw [Naming.hashOf, hxn, hname]
  have hle : N.hashOf r ≤ N.hashOf x := by
    cases hx with
    | head => exact UInt32.le_refl _
    | tail _ hx => exact List.rel_of_pairwise_cons hs hx
  rw [hxh] at hle
  exact hne (UInt32.le_antisymm hle hge)

theorem bsearchScan_none (h : Lists N arr rs) (hd : rs.drop i = t) (hs : Sorted N t)
    (hge : ∀ x ∈ t, hash ≤ N.hashOf x) (hname : N.hash name = hash)
    (hscan : bsearchScan N arr name hash i = none) : ∀ x ∈ t, N.name x ≠ name := by
  induction t generalizing i with
  | nil => simp
  | cons r t ih =>
    obtain ⟨hlt, hhash, hrule⟩ := h.at_cons hd
    rw [bsearchScan, hhash, hrule] at hscan
    by_cases hrun : N.hashOf r = hash
    · by_cases hrn : N.name r = name
      · simp [hlt, hrun, hrn] at hscan
      · simp only [hlt, hrun, hrn, and_self, if_true, if_false] at hscan
        intro x hx
        cases hx with
        | head => exact hrn
        | tail _ hx =>
          exact ih (drop_succ hd) hs.of_cons (fun y hy => hge y (List.mem_cons_of_mem _ hy)) hscan x hx
    · exact no_name_beyond hs (hge r List.mem_cons_self) hrun hname

/-- What the walk finds is in its slot, and everything it passed has the hash. -/
theorem bsearchScan_some {j : Nat} (h : Lists N arr rs) (hd : rs.drop i = t)
    (hscan : bsearchScan N arr name hash i = some (j, r)) :
    i ≤ j ∧ rs[j]? = some r ∧ N.hashOf r = hash ∧ N.name r = name ∧
      ∀ k x, i ≤ k → k < j → rs[k]? = some x → N.hashOf x = hash ∧ N.name x ≠ name := by
  induction t generalizing i with
  | nil =>
    rw [bsearchScan] at hscan
    simp [h.at_nil hd] at hscan
  | cons q t ih =>
    obtain ⟨hlt, hhash, hrule⟩ := h.at_cons hd
    rw [bsearchScan, hhash, hrule] at hscan
    by_cases hrun : N.hashOf q = hash
    · by_cases hqn : N.name q = name
      · simp only [hlt, hrun, hqn, and_self, if_true, Option.some.injEq, Prod.mk.injEq] at hscan
        obtain ⟨rfl, rfl⟩ := hscan
        refine ⟨le_refl _, get_of_drop hd, hrun, hqn, ?_⟩
        intro k x hik hki
        omega
      · simp only [hlt, hrun, hqn, and_self, if_true, if_false] at hscan
        obtain ⟨hij, hj, hrh, hrn, hpass⟩ := ih (drop_succ hd) hscan
        refine ⟨by omega, hj, hrh, hrn, ?_⟩
        intro k x hik hkj hx
        by_cases hk : k = i
        · subst hk
          obtain rfl : q = x := by simpa [get_of_drop hd] using hx
          exact ⟨hrun, hqn⟩
        · exact hpass k x (by omega) hkj hx
    · simp [hrun] at hscan

theorem held_nil : held N [] name uid = none := rfl

theorem held_cons :
    held N (r :: t) name uid = if N.key r = (name, uid) then some r else held N t name uid := by
  simp only [held, List.find?_cons]
  split <;> simp_all

theorem held_none : held N t name uid = none ↔ ∀ x ∈ t, N.key x ≠ (name, uid) := by
  simp [held]

theorem held_absent (h : ∀ x ∈ t, N.name x ≠ name) (uid : UInt32) : held N t name uid = none := by
  rw [held_none]
  intro x hx hkey
  exact h x hx (congrArg Prod.fst hkey)

/-- A key that stands once is held by the rule that has it. -/
theorem held_eq_some (honce : (rs.map N.key).Nodup) :
    held N rs name uid = some rule ↔ rule ∈ rs ∧ N.key rule = (name, uid) := by
  constructor
  · intro h
    exact ⟨List.mem_of_find?_eq_some h, by simpa using List.find?_some h⟩
  · rintro ⟨hmem, hkey⟩
    induction rs with
    | nil => simp at hmem
    | cons r t ih =>
      rw [List.map_cons, List.nodup_cons] at honce
      rw [held_cons]
      cases hmem with
      | head => rw [if_pos hkey]
      | tail _ hmem =>
        have hne : N.key r ≠ (name, uid) := by
          rw [← hkey]
          intro heq
          exact honce.1 (heq ▸ List.mem_map_of_mem hmem)
        rw [if_neg hne]
        exact ih honce.2 hmem

/-- The walk ends on the rule of the uid, else on the last of uid 0 unless that is not asked. -/
theorem childScan_fst (h : Lists N arr rs) (hd : rs.drop i = t) (hs : Sorted N t)
    (hge : ∀ x ∈ t, hash ≤ N.hashOf x) (hname : N.hash name = hash)
    (honce : (t.map N.key).Nodup) :
    (childScan N arr name hash uid exact i fallback).1 =
      (held N t name uid).or (if exact then fallback else (held N t name 0).or fallback) := by
  induction t generalizing i fallback with
  | nil =>
    rw [childScan]
    cases exact <;> simp [h.at_nil hd, held_nil]
  | cons r t ih =>
    obtain ⟨hlt, hhash, hrule⟩ := h.at_cons hd
    rw [List.map_cons, List.nodup_cons] at honce
    rw [childScan, hhash, hrule]
    by_cases hrun : N.hashOf r = hash
    · have hrest (next : Option ρ) := @ih _ next (drop_succ hd) hs.of_cons
        (fun y hy => hge y (List.mem_cons_of_mem _ hy)) honce.2
      by_cases hrn : N.name r = name
      · by_cases hru : N.uid r = uid
        · simp [hlt, hrun, hrn, hru, held_cons, Naming.key]
        · by_cases hzero : exact = false ∧ N.uid r = 0
          · obtain ⟨rfl, hr0⟩ := hzero
            have hother : held N t name 0 = none := by
              rw [held_none]
              intro x hx hkey
              have hrkey : N.key r = (name, 0) := by simp [Naming.key, hrn, hr0]
              exact honce.1 (hrkey ▸ hkey ▸ List.mem_map_of_mem hx)
            simp [hlt, hrun, hrn, hr0 ▸ hru, hr0, hrest, held_cons, Naming.key, hother]
          · simp only [hlt, hrun, hrn, hru, hzero, and_self, if_true, if_false, ne_eq,
              not_true_eq_false, hrest, held_cons, Naming.key, Prod.mk.injEq, true_and]
            cases exact
            · have hr0 : N.uid r ≠ 0 := by simpa using hzero
              simp [hr0]
            · simp
      · simp [hlt, hrun, hrn, hrest, held_cons, Naming.key]
    · have habsent := no_name_beyond hs (hge r List.mem_cons_self) hrun hname
      simp [hrun, held_absent habsent]

theorem childScan_index (h : Lists N arr rs) (hd : rs.drop i = t) (hs : Sorted N t)
    (hge : ∀ x ∈ t, hash ≤ N.hashOf x) (hname : N.hash name = hash)
    (hheld : held N t name uid = some rule) :
    ∃ j, (childScan N arr name hash uid exact i fallback).2 = some j ∧ rs[j]? = some rule := by
  induction t generalizing i fallback with
  | nil => simp [held_nil] at hheld
  | cons r t ih =>
    obtain ⟨hlt, hhash, hrule⟩ := h.at_cons hd
    rw [childScan, hhash, hrule]
    by_cases hrun : N.hashOf r = hash
    · by_cases hkey : N.key r = (name, uid)
      · rw [held_cons, if_pos hkey, Option.some.injEq] at hheld
        subst hheld
        obtain ⟨hrn, hru⟩ := Prod.mk.inj hkey
        exact ⟨i, by simp [hlt, hrun, hrn, hru], get_of_drop hd⟩
      · rw [held_cons, if_neg hkey] at hheld
        have hrest (next : Option ρ) := @ih _ next (drop_succ hd) hs.of_cons
          (fun y hy => hge y (List.mem_cons_of_mem _ hy)) hheld
        simp only [hlt, hrun, and_self, if_true]
        split
        · exact hrest _
        · next hrn =>
          rw [if_neg (by simpa [Naming.key, not_not.mp hrn] using hkey)]
          split
          · exact hrest _
          · exact hrest _
    · have habsent := no_name_beyond hs (hge r List.mem_cons_self) hrun hname
      rw [held_absent habsent] at hheld
      exact absurd hheld (by simp)

theorem Lists.get (h : Lists N arr rs) (hi : i < arr.count) : ∃ rule, rs[i]? = some rule := by
  rw [h.count] at hi
  exact ⟨rs[i], List.getElem?_eq_getElem hi⟩

theorem Lists.monotone (h : Lists N arr rs) (hs : Sorted N rs) (i j : Nat) (hij : i ≤ j)
    (hj : j < arr.count) : arr.hashes i ≤ arr.hashes j := by
  obtain ⟨a, ha⟩ := h.get (i := i) (by omega)
  obtain ⟨b, hb⟩ := h.get hj
  rw [(h.slot i a ha).1, (h.slot j b hb).1]
  rcases Nat.eq_or_lt_of_le hij with rfl | hlt
  · obtain rfl : a = b := by simpa [ha] using hb
    exact UInt32.le_refl _
  · obtain ⟨hi', rfl⟩ := List.getElem?_eq_some_iff.mp ha
    obtain ⟨hj', rfl⟩ := List.getElem?_eq_some_iff.mp hb
    exact List.pairwise_iff_getElem.mp hs i j hi' hj' hlt

/-- A place in the list where a rule with the hash keeps the order. -/
structure Fits (N : Naming ρ) (rs : List ρ) (hash : UInt32) (pos : Nat) : Prop where
  le : pos ≤ rs.length
  before : ∀ x ∈ rs.take pos, N.hashOf x ≤ hash
  after : ∀ x ∈ rs.drop pos, hash ≤ N.hashOf x

theorem mem_take_iff {x : ρ} : x ∈ rs.take pos ↔ ∃ k, k < pos ∧ rs[k]? = some x := by
  rw [List.mem_iff_getElem?]
  constructor
  · rintro ⟨k, hk⟩
    rw [List.getElem?_take] at hk
    by_cases hkp : k < pos
    · exact ⟨k, hkp, by simpa [hkp] using hk⟩
    · simp [hkp] at hk
  · rintro ⟨k, hkp, hk⟩
    exact ⟨k, by simpa [List.getElem?_take, hkp] using hk⟩

theorem mem_drop_iff {x : ρ} : x ∈ rs.drop pos ↔ ∃ k, pos ≤ k ∧ rs[k]? = some x := by
  rw [List.mem_iff_getElem?]
  constructor
  · rintro ⟨k, hk⟩
    exact ⟨pos + k, by omega, by simpa using hk⟩
  · rintro ⟨k, hkp, hk⟩
    exact ⟨k - pos, by simpa [Nat.add_sub_cancel' hkp] using hk⟩

theorem Lists.fits (h : Lists N arr rs) (hlow : LowerBound arr.hashes arr.count hash pos) :
    Fits N rs hash pos ∧ ∀ x ∈ rs.take pos, N.hashOf x < hash := by
  have hbelow : ∀ x ∈ rs.take pos, N.hashOf x < hash := by
    intro x hx
    obtain ⟨k, hk, hget⟩ := mem_take_iff.mp hx
    rw [← (h.slot k x hget).1]
    exact hlow.below k hk
  refine ⟨⟨h.count ▸ hlow.le, fun x hx => UInt32.le_of_lt (hbelow x hx), ?_⟩, hbelow⟩
  intro x hx
  obtain ⟨k, hk, hget⟩ := mem_drop_iff.mp hx
  have hlt := (List.getElem?_eq_some_iff.mp hget).1
  rw [← (h.slot k x hget).1]
  exact hlow.above k hk (by rw [h.count]; exact hlt)

theorem name_split (hbelow : ∀ x ∈ rs.take pos, N.name x ≠ name)
    (habove : ∀ x ∈ rs.drop pos, N.name x ≠ name) : ∀ x ∈ rs, N.name x ≠ name := by
  intro x hx
  rw [← List.take_append_drop pos rs, List.mem_append] at hx
  exact hx.elim (hbelow x) (habove x)

/-- Nothing is found: the name is not there, and the index is the lower bound. -/
theorem bsearchChild_none (h : Lists N arr rs) (hs : Sorted N rs) (hname : N.hash name = hash)
    (hnone : (bsearchChild N arr name hash).2 = none) :
    LowerBound arr.hashes arr.count hash (bsearchChild N arr name hash).1 ∧
      ∀ x ∈ rs, N.name x ≠ name := by
  have hlow := bsearchLoop_lower hash (h.monotone hs)
  obtain ⟨hfits, hbelow⟩ := h.fits hlow
  unfold bsearchChild at hnone ⊢
  cases hscan : bsearchScan N arr name hash (bsearchLoop arr.hashes hash 0 arr.count).toNat with
  | some found => simp [hscan] at hnone
  | none =>
    simp only [hscan]
    have habove := bsearchScan_none h rfl (List.Pairwise.drop hs) hfits.after hname hscan
    refine ⟨hlow, name_split (fun x hx hxn => ?_) habove⟩
    have hlt := hbelow x hx
    rw [Naming.hashOf, hxn, hname] at hlt
    exact UInt32.lt_irrefl _ hlt

/-- Something is found: it has the name, and nothing before its slot has. -/
theorem bsearchChild_some (h : Lists N arr rs) (hs : Sorted N rs) (hname : N.hash name = hash)
    (hsome : (bsearchChild N arr name hash).2 = some r) :
    rs[(bsearchChild N arr name hash).1]? = some r ∧ N.name r = name ∧
      Fits N rs hash (bsearchChild N arr name hash).1 ∧
      ∀ x ∈ rs.take (bsearchChild N arr name hash).1, N.name x ≠ name := by
  have hlow := bsearchLoop_lower hash (h.monotone hs)
  obtain ⟨hfits, hbelow⟩ := h.fits hlow
  unfold bsearchChild at hsome ⊢
  cases hscan : bsearchScan N arr name hash (bsearchLoop arr.hashes hash 0 arr.count).toNat with
  | none => simp [hscan] at hsome
  | some found =>
    obtain ⟨j, q⟩ := found
    simp only [hscan, Option.some.injEq] at hsome ⊢
    subst hsome
    obtain ⟨hij, hget, -, hrn, hpass⟩ := bsearchScan_some h rfl hscan
    have hbefore : ∀ x ∈ rs.take j, N.hashOf x ≤ hash ∧ N.name x ≠ name := by
      intro x hx
      obtain ⟨k, hk, hkx⟩ := mem_take_iff.mp hx
      by_cases hkl : k < (bsearchLoop arr.hashes hash 0 arr.count).toNat
      · have hlt := hbelow x (mem_take_iff.mpr ⟨k, hkl, hkx⟩)
        refine ⟨UInt32.le_of_lt hlt, fun hxn => ?_⟩
        rw [Naming.hashOf, hxn, hname] at hlt
        exact UInt32.lt_irrefl _ hlt
      · obtain ⟨hxh, hxn⟩ := hpass k x (by omega) hk hkx
        exact ⟨hxh ▸ UInt32.le_refl _, hxn⟩
    refine ⟨hget, hrn, ⟨?_, fun x hx => (hbefore x hx).1, ?_⟩, fun x hx => (hbefore x hx).2⟩
    · exact Nat.le_of_lt (List.getElem?_eq_some_iff.mp hget).1
    · intro x hx
      obtain ⟨k, hk, hkx⟩ := mem_drop_iff.mp hx
      exact hfits.after x (mem_drop_iff.mpr ⟨k, by omega, hkx⟩)

theorem bsearchChild_fits (h : Lists N arr rs) (hs : Sorted N rs) (hname : N.hash name = hash) :
    Fits N rs hash (bsearchChild N arr name hash).1 := by
  cases hfound : (bsearchChild N arr name hash).2 with
  | none => exact (h.fits (bsearchChild_none h hs hname hfound).1).1
  | some r => exact (bsearchChild_some h hs hname hfound).2.2.1

theorem held_drop (h : ∀ x ∈ rs.take pos, N.name x ≠ name) (uid : UInt32) :
    held N (rs.drop pos) name uid = held N rs name uid := by
  have hsplit : held N rs name uid = held N (rs.take pos ++ rs.drop pos) name uid := by
    rw [List.take_append_drop]
  have hnone : held N (rs.take pos) name uid = none := held_absent h uid
  rw [hsplit, held, held, List.find?_append]
  rw [held] at hnone
  simp [hnone]

/-- The rule of the uid, else the global one unless the match must be exact. -/
theorem childForUid_fst (uid : UInt32) (exact : Bool) (h : Lists N arr rs) (hs : Sorted N rs)
    (honce : (rs.map N.key).Nodup)
    (hname : N.hash name = hash) :
    (childForUid N arr name hash uid exact).1 =
      (held N rs name uid).or (if exact then none else held N rs name 0) := by
  unfold childForUid
  cases hfound : bsearchChild N arr name hash with
  | mk pos found =>
    cases found with
    | none =>
      have habsent := (bsearchChild_none h hs hname (by rw [hfound])).2
      simp [held_absent habsent]
    | some r =>
      obtain ⟨-, -, hfits, hbefore⟩ := bsearchChild_some (r := r) h hs hname (by rw [hfound])
      rw [hfound] at hfits hbefore
      have hnodup : ((rs.drop pos).map N.key).Nodup :=
        List.Nodup.sublist ((List.drop_sublist pos rs).map _) honce
      rw [childScan_fst h rfl (List.Pairwise.drop hs) hfits.after hname hnodup]
      simp [held_drop hbefore]

theorem childForUid_index (exact : Bool) (h : Lists N arr rs) (hs : Sorted N rs) (hname : N.hash name = hash)
    (hheld : held N rs name uid = some rule) :
    ∃ j, (childForUid N arr name hash uid exact).2 = some j ∧ rs[j]? = some rule := by
  unfold childForUid
  cases hfound : bsearchChild N arr name hash with
  | mk pos found =>
    cases found with
    | none =>
      have habsent := (bsearchChild_none h hs hname (by rw [hfound])).2
      rw [held_absent habsent] at hheld
      exact absurd hheld (by simp)
    | some r =>
      obtain ⟨-, -, hfits, hbefore⟩ := bsearchChild_some (r := r) h hs hname (by rw [hfound])
      rw [hfound] at hfits hbefore
      rw [← held_drop hbefore] at hheld
      exact childScan_index h rfl (List.Pairwise.drop hs) hfits.after hname hheld

end HybridMount.Vfs.ChildArray
