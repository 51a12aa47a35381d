import HybridMount.ArtTree

/-! Searching the radix tree, and the finite map which the tree represents over every
sequence of insertions and removals. -/

namespace HybridMount.Vfs.Art

open LittleEndian

section

variable {type : ArtType} {num : UInt8} {plen : UInt16} {index : Nat → UInt8} {children : Nat → Art}
  {ks : List UInt8}
  {v : UInt8 → Option Art} {pre pfx path : Bytes} {c beyond : UInt8} {t : Art} {rule r : Rule}
    {next : List Rule}
  {depth : Nat}

theorem byteAt_of_lt (h : depth < path.length) : byteAt path beyond depth = path.getD depth 0 := by
  simp [byteAt, List.getD, List.getElem?_append_left h]

theorem byteAt_length (path : Bytes) (beyond : UInt8) : byteAt path beyond path.length = beyond := by
  simp [byteAt]

/-- Whatever follows a path in memory, what is found has that path. -/
theorem searchPath_sound (h : Wf pre t) (hs : searchPath path beyond t depth = some (r, next)) :
    ∀ x ∈ r :: next, Holds x t ∧ x.vPath = path := by
  induction h generalizing depth with
  | leaf hpath hnodup hnamed hpre =>
    rename_i first chain
    simp only [searchPath] at hs
    by_cases hsame : first.vPath = path
    · rw [if_pos hsame] at hs
      simp only [Option.some.injEq, Prod.mk.injEq] at hs
      obtain ⟨rfl, rfl⟩ := hs
      intro x hx
      exact ⟨hx, (hpath x hx).trans hsame⟩
    · rw [if_neg hsame] at hs
      cases hs
  | node pfx ks v hstores htwo hlen hchild ih =>
    rename_i type num plen index children
    simp only [searchPath] at hs
    by_cases hdeep : path.length < depth + plen.toNat
    · rw [if_pos hdeep] at hs
      cases hs
    · rw [if_neg hdeep] at hs
      cases hf : findChild type num index children (byteAt path beyond (depth + plen.toNat)) with
      | none => simp [hf] at hs
      | some i =>
        simp only [hf] at hs
        have hv : v (byteAt path beyond (depth + plen.toNat)) = some (children i) := by
          rw [← hstores.view, hf]
          rfl
        intro x hx
        obtain ⟨hx, hpath⟩ := ih _ _ hv hs x hx
        exact ⟨hstores.holds_iff.mpr ⟨_, _, hv, hx⟩, hpath⟩

/-- A stored path is found when it is terminated or no longer path goes on from it. -/
theorem searchPath_complete (h : Wf pre t) (hr : Holds r t)
    (hclear : beyond = 0 ∨ ∀ x, Holds x t → r.vPath <+: x.vPath → x.vPath = r.vPath) :
    ∃ first next, searchPath r.vPath beyond t pre.length = some (first, next) ∧ r ∈ first :: next := by
  induction h with
  | leaf hpath hnodup hnamed hpre =>
    rename_i first next
    have hsame : first.vPath = r.vPath := (hpath r hr).symm
    exact ⟨first, next, by simp [searchPath, hsame], hr⟩
  | node pfx ks v hstores htwo hlen hchild ih =>
    rename_i pre type num plen index children
    obtain ⟨c, a, hc, hra⟩ := hstores.holds_iff.mp hr
    obtain ⟨hkey, hnamed⟩ := Wf.child_key hchild hc hra
    have hlt := length_lt_of_snoc hkey
    simp only [List.length_append, length_key] at hlt
    have hbyte := getD_of_snoc hkey
    rw [List.length_append, hlen] at hbyte
    have hread : byteAt r.vPath beyond (pre.length + plen.toNat) = c := by
      by_cases hend : pre.length + plen.toNat < r.vPath.length
      · rw [byteAt_of_lt hend, ← hbyte, key_getD_of_lt hend]
      · have hlast : pre.length + plen.toNat = r.vPath.length := by omega
        rw [hlast, key_getD_length] at hbyte
        rw [hlast, byteAt_length]
        rcases hclear with hzero | hclear
        · rw [hzero, hbyte]
        · -- The node has another child, below which the paths are longer.
          exfalso
          obtain ⟨d, x, hdc, hx, hkeyx, hnx⟩ := exists_parting hstores htwo hchild c
          have hfull : pre ++ pfx = r.vPath := by
            have hpre := prefix_of_snoc hkey
            have hpath : r.vPath <+: r.key := List.prefix_append _ _
            exact (List.prefix_of_prefix_length_le hpre hpath
              (by rw [List.length_append]; omega)).eq_of_length (by rw [List.length_append]; omega)
          rw [hfull] at hkeyx
          have hlonger : r.vPath.length < x.vPath.length := by
            have hle := length_lt_of_snoc hkeyx
            simp only [length_key] at hle
            apply Nat.lt_of_le_of_ne (by omega)
            intro hh
            have hd := getD_of_snoc hkeyx
            rw [hh, key_getD_length] at hd
            exact hdc (by rw [← hd, hbyte])
          have hext : r.vPath <+: x.vPath := by
            have hxp : x.vPath <+: x.key := List.prefix_append _ _
            exact List.prefix_of_prefix_length_le (prefix_of_snoc hkeyx) hxp (by omega)
          have heq := hclear x hx hext
          rw [heq] at hlonger
          omega
    have hf : ∃ i, findChild type num index children c = some i ∧ children i = a := by
      rw [← hstores.view] at hc
      exact Option.map_eq_some_iff.mp hc
    obtain ⟨i, hf, rfl⟩ := hf
    have hclear' : beyond = 0 ∨ ∀ x, Holds x (children i) → r.vPath <+: x.vPath → x.vPath = r.vPath := by
      rcases hclear with hzero | hclear
      · exact Or.inl hzero
      · right
        intro x hx
        exact hclear x (hstores.holds_iff.mpr ⟨c, _, hc, hx⟩)
    have hih := ih c _ hc hra hclear'
    have hno : ¬ r.vPath.length < pre.length + plen.toNat := by omega
    have hdepth : (pre ++ pfx ++ [c]).length = pre.length + plen.toNat + 1 := by
      simp [hlen, Nat.add_assoc]
    rw [hdepth] at hih
    simpa only [searchPath, hno, if_false, hread, hf] using hih

/-- What is found without a terminator is what is found with one. -/
theorem searchPath_terminated (h : Wf pre t) (hs : searchPath path beyond t pre.length = some (r, next)) :
    searchPath path 0 t pre.length = some (r, next) := by
  induction h with
  | leaf hpath hnodup hnamed hpre => exact hs
  | node pfx ks v hstores htwo hlen hchild ih =>
    rename_i pre type num plen index children
    simp only [searchPath] at hs ⊢
    by_cases hdeep : path.length < pre.length + plen.toNat
    · rw [if_pos hdeep] at hs
      cases hs
    · rw [if_neg hdeep] at hs ⊢
      cases hf : findChild type num index children (byteAt path beyond (pre.length + plen.toNat)) with
      | none => simp [hf] at hs
      | some i =>
        simp only [hf] at hs
        have hv : v (byteAt path beyond (pre.length + plen.toNat)) = some (children i) := by
          rw [← hstores.view, hf]
          rfl
        -- At the end of the path the byte leads to a terminated key, so it is zero.
        have hbyte : byteAt path beyond (pre.length + plen.toNat) =
            byteAt path 0 (pre.length + plen.toNat) := by
          by_cases hend : pre.length + plen.toNat < path.length
          · rw [byteAt_of_lt hend, byteAt_of_lt hend]
          · have hlast : pre.length + plen.toNat = path.length := by omega
            obtain ⟨hr, hpath⟩ := searchPath_sound (hchild _ _ hv) hs r List.mem_cons_self
            obtain ⟨hkey, -⟩ := Wf.child_key hchild hv hr
            have hgetD := getD_of_snoc hkey
            rw [List.length_append, hlen, hlast, ← hpath, key_getD_length, hpath, byteAt_length] at hgetD
            rw [hlast, byteAt_length, byteAt_length, ← hgetD]
        have hdepth : (pre ++ pfx ++ [byteAt path beyond (pre.length + plen.toNat)]).length =
            pre.length + plen.toNat + 1 := by
          simp [hlen, Nat.add_assoc]
        have hih := ih _ _ hv
        rw [hdepth] at hih
        rw [← hbyte]
        simpa only [hf] using hih hs

/-- Without a terminator a path is missed as soon as a longer one is stored. -/
theorem searchPath_missed (h : Wf pre t) (hbeyond : beyond ≠ 0) {x : Rule} (hx : Holds x t)
    (hext : path <+: x.vPath) (hne : x.vPath ≠ path) : searchPath path beyond t pre.length = none := by
  induction h with
  | leaf hpath hnodup hnamed hpre =>
    rename_i first next
    have hdiff : first.vPath ≠ path := by
      rw [← hpath x hx]
      exact hne
    simp [searchPath, hdiff]
  | node pfx ks v hstores htwo hlen hchild ih =>
    rename_i pre type num plen index children
    simp only [searchPath]
    by_cases hdeep : path.length < pre.length + plen.toNat
    · rw [if_pos hdeep]
    · rw [if_neg hdeep]
      cases hf : findChild type num index children (byteAt path beyond (pre.length + plen.toNat)) with
      | none => rfl
      | some i =>
        have hv : v (byteAt path beyond (pre.length + plen.toNat)) = some (children i) := by
          rw [← hstores.view, hf]
          rfl
        have hdepth : (pre ++ pfx ++ [byteAt path beyond (pre.length + plen.toNat)]).length =
            pre.length + plen.toNat + 1 := by
          simp [hlen, Nat.add_assoc]
        simp only
        by_cases hend : pre.length + plen.toNat < path.length
        · obtain ⟨c, a, hc, hxa⟩ := hstores.holds_iff.mp hx
          have hbyte := getD_of_snoc (Wf.child_key hchild hc hxa).1
          rw [List.length_append, hlen] at hbyte
          have hsame : byteAt path beyond (pre.length + plen.toNat) = c := by
            have hle := hext.length_le
            rw [byteAt_of_lt hend, ← hbyte, key_getD_of_lt (by omega)]
            obtain ⟨rest, hrest⟩ := hext
            rw [← hrest]
            simp [List.getD, List.getElem?_append_left hend]
          have hxi : Holds x (children i) := by
            rw [hsame, hc] at hv
            rw [← Option.some.inj hv]
            exact hxa
          have hih := ih _ _ hv hxi
          rwa [hdepth] at hih
        · have hlast : pre.length + plen.toNat = path.length := by omega
          rw [hlast, byteAt_length] at hv
          rw [hlast]
          cases hs : searchPath path beyond (children i) (path.length + 1) with
          | none => rfl
          | some found =>
            obtain ⟨r, next⟩ := found
            exfalso
            obtain ⟨hr, hrp⟩ := searchPath_sound (hchild _ _ hv) hs r List.mem_cons_self
            have hbyte := getD_of_snoc (Wf.child_key hchild hv hr).1
            rw [List.length_append, hlen, hlast, ← hrp, key_getD_length] at hbyte
            exact hbeyond hbyte.symm

end

/-- The tree is empty or well formed. -/
def Sound (t : Art) : Prop := t = null ∨ Wf [] t

section

variable {t : Art} {path : Bytes} {beyond : UInt8} {uid : UInt32} {r rule : Rule}

theorem searchExact_sound (h : Sound t) (hs : searchExact path beyond uid t = some r) :
    Holds r t ∧ r.vPath = path ∧ r.targetUid = uid := by
  rcases h with rfl | h
  · simp [searchExact, searchPath] at hs
  · unfold searchExact at hs
    cases hp : searchPath path beyond t 0 with
    | none => simp [hp] at hs
    | some found =>
      obtain ⟨first, next⟩ := found
      simp only [hp] at hs
      obtain ⟨hr, hpath⟩ := searchPath_sound h hp r (List.mem_of_find?_eq_some hs)
      have huid := List.find?_some hs
      exact ⟨hr, hpath, by simpa using huid⟩

theorem searchExact_found (h : Sound t) (hr : Holds r t)
    (hclear : beyond = 0 ∨ ∀ x, Holds x t → r.vPath <+: x.vPath → x.vPath = r.vPath) :
    ∃ x, searchExact r.vPath beyond r.targetUid t = some x := by
  rcases h with rfl | h
  · cases hr
  · obtain ⟨first, next, hs, hmem⟩ := searchPath_complete h hr hclear
    have hs' : searchPath r.vPath beyond t 0 = some (first, next) := hs
    simp only [searchExact, hs']
    cases hf : (first :: next).find? fun x => x.targetUid = r.targetUid with
    | none =>
      have hno := List.find?_eq_none.mp hf r hmem
      simp at hno
    | some x => exact ⟨x, rfl⟩

theorem searchExact_missed (h : Sound t) (hbeyond : beyond ≠ 0) {x : Rule} (hx : Holds x t)
    (hext : path <+: x.vPath) (hne : x.vPath ≠ path) : searchExact path beyond uid t = none := by
  rcases h with rfl | h
  · cases hx
  · have hs : searchPath path beyond t 0 = none := searchPath_missed h hbeyond hx hext hne
    simp [searchExact, hs]

/-- A lookup without a terminator finds what the path leads to unless a longer path is stored. -/
theorem searchExact_counted (h : Sound t) : searchExact path beyond uid t = some r ↔
    searchExact path 0 uid t = some r ∧
    (beyond = 0 ∨ ∀ x, Holds x t → path <+: x.vPath → x.vPath = path) := by
  have hterminated : ∀ x, searchExact path beyond uid t = some x → searchExact path 0 uid t = some x := by
    intro x hs
    rcases h with rfl | h
    · simp [searchExact, searchPath] at hs
    · unfold searchExact at hs ⊢
      cases hp : searchPath path beyond t 0 with
      | none => simp [hp] at hs
      | some found =>
        obtain ⟨first, next⟩ := found
        have hp' : searchPath path 0 t 0 = some (first, next) := searchPath_terminated h hp
        simp only [hp] at hs
        simp only [hp', hs]
  constructor
  · intro hs
    refine ⟨hterminated r hs, ?_⟩
    by_cases hzero : beyond = 0
    · exact Or.inl hzero
    · right
      intro x hx hext
      apply Decidable.byContradiction
      intro hne
      rw [searchExact_missed h hzero hx hext hne] at hs
      cases hs
  · rintro ⟨hs, hclear⟩
    obtain ⟨hr, rfl, rfl⟩ := searchExact_sound h hs
    obtain ⟨x, hx⟩ := searchExact_found h hr hclear
    rw [hx, ← hterminated x hx, hs]

/-- One more rule at a stored path needs no new node. -/
theorem insert_stored (h : Wf pre t) (hr : Holds r t) (hpath : r.vPath = rule.vPath) (alloc : Bool) :
    (insert alloc rule t pre.length).1 = 0 := by
  have hsame : rule.key = r.key := by rw [Rule.key, Rule.key, hpath]
  induction h with
  | leaf hchain hnodup hnamed hpre =>
    rename_i first next
    have hfirst : first.vPath = rule.vPath := (hchain r hr).symm.trans hpath
    rw [insert, if_pos hfirst]
  | node pfx ks v hstores htwo hlen hchild ih =>
    rename_i pre type num plen index children
    obtain ⟨b, hmin, hb⟩ := (Wf.node pfx ks v hstores htwo hlen hchild).minimum
    obtain ⟨d, a', hd, hba⟩ := hstores.holds_iff.mp hb
    obtain ⟨c, a, hc, hra⟩ := hstores.holds_iff.mp hr
    have hbkey := prefix_of_snoc (Wf.child_key hchild hd hba).1
    have hrkey := (Wf.child_key hchild hc hra).1
    have hlong := length_lt_of_snoc hrkey
    rw [List.length_append, hlen, length_key, hpath] at hlong
    -- Both keys start with the whole prefix of the node.
    have hagree : ∀ n, n < pre.length + plen.toNat → b.key.getD n 0 = rule.key.getD n 0 := by
      intro n hn
      have hshort : n < (pre ++ pfx).length := by rw [List.length_append, hlen]; exact hn
      obtain ⟨y, hy⟩ := hbkey
      obtain ⟨z, hz⟩ := prefix_of_snoc hrkey
      rw [hsame, ← hy, ← hz, List.getD_eq_getElem?_getD, List.getD_eq_getElem?_getD,
        List.getElem?_append_left hshort, List.getElem?_append_left hshort]
    obtain ⟨hple, -, hdiff⟩ :=
      matchLen_spec b.key rule.key pre.length (min plen.toNat (rule.vPath.length - pre.length))
    generalize hp : matchLen b.key rule.key pre.length (min plen.toNat (rule.vPath.length - pre.length)) = p at *
    have hwhole : ¬ p < plen.toNat := by
      intro hshort
      exact hdiff (by omega) (hagree _ (by omega))
    have hbyte := getD_of_snoc hrkey
    rw [List.length_append, hlen, ← hsame] at hbyte
    have hslot := hstores.view c
    rw [hc] at hslot
    obtain ⟨i, hf, rfl⟩ := Option.map_eq_some_iff.mp hslot
    have hih := ih c _ hc hra
    have hdepth : (pre ++ pfx ++ [c]).length = pre.length + plen.toNat + 1 := by
      simp [hlen, Nat.add_assoc]
    rw [hdepth] at hih
    rw [insert_node hmin hp, if_neg hwhole, hbyte, hf]
    exact hih

theorem insert_sound (h : Sound t) (hrule : Named rule) (hfresh : ¬ Holds rule t) (alloc : Bool) :
    ((insert alloc rule t 0).1 = 0 ∧ Sound (insert alloc rule t 0).2 ∧
      ∀ x, Holds x (insert alloc rule t 0).2 ↔ x = rule ∨ Holds x t) ∨
    (alloc = false ∧ insert alloc rule t 0 = (ENOMEM, t)) := by
  rcases h with rfl | h
  · left
    refine ⟨rfl, Or.inr ?_, ?_⟩
    · exact Wf.leaf (by simp) (by simp) hrule List.nil_prefix
    · intro x
      simp [insert, Holds]
  · rcases insert_spec h List.nil_prefix hrule hfresh alloc with ⟨hzero, hwf, hholds⟩ | hfail
    · exact Or.inl ⟨hzero, Or.inr hwf, hholds⟩
    · exact Or.inr hfail

theorem removeLeaf_sound (h : Sound t) (target : Rule) :
    Sound (removeLeaf target t 0) ∧ ∀ x, Holds x (removeLeaf target t 0) ↔ Holds x t ∧ x ≠ target := by
  rcases h with rfl | h
  · refine ⟨Or.inl rfl, ?_⟩
    intro x
    simp [removeLeaf, Holds]
  · exact removeLeaf_spec h target

end

abbrev RuleMap := Bytes → UInt32 → Option Rule

def RuleMap.put (m : RuleMap) (rule : Rule) : RuleMap :=
  fun path uid => if path = rule.vPath ∧ uid = rule.targetUid then some rule else m path uid

def RuleMap.drop (m : RuleMap) (rule : Rule) : RuleMap :=
  fun path uid => if m path uid = some rule then none else m path uid

/-- Sequences of operations with the tree and the map which they lead to. An object is
linked once after its allocation, with no successor; `used` lists those which were. -/
inductive Runs : List Rule → Art → RuleMap → Prop
  | start : Runs [] null fun _ _ => none
  | inserted {used : List Rule} {t : Art} {m : RuleMap} (rule : Rule) (alloc : Bool) (hrun : Runs used t m)
      (hnew : rule ∉ used) (hnamed : Named rule) (habsent : m rule.vPath rule.targetUid = none) :
      Runs (rule :: used) (insert alloc rule t 0).2 (if (insert alloc rule t 0).1 = 0 then m.put rule else m)
  | removed {used : List Rule} {t : Art} {m : RuleMap} (rule : Rule) (hrun : Runs used t m) :
      Runs used (removeLeaf rule t 0) (m.drop rule)

/-- A subtree with the number of key bytes which lead to it. -/
inductive Below : Art → Nat → Art → Nat → Prop
  | here (t : Art) (depth : Nat) : Below t depth t depth
  | child {type : ArtType} {num : UInt8} {plen : UInt16} {index : Nat → UInt8} {children : Nat → Art}
      {depth below : Nat} {c : UInt8} {i : Nat} {t : Art}
      (hfind : findChild type num index children c = some i)
      (hbelow : Below (children i) (depth + plen.toNat + 1) t below) :
      Below (node type num plen index children) depth t below

def allBytes : List UInt8 := (List.range 256).map UInt8.ofNat

/-- The key bytes for which a node has a child. -/
def storedKeys (type : ArtType) (num : UInt8) (index : Nat → UInt8) (children : Nat → Art) : List UInt8 :=
  allBytes.filter fun c => (findChild type num index children c).isSome

structure WellFormed (depth : Nat) (type : ArtType) (num : UInt8) (plen : UInt16) (index : Nat → UInt8)
    (children : Nat → Art) : Prop where
  distinct : type = .node4 ∨ type = .node16 → Distinct num.toNat index
  apart : ∀ c d i, findChild type num index children c = some i →
    findChild type num index children d = some i → c = d
  paired : ∀ c i, findChild type num index children c = some i → i < type.capacity ∧
    (children i).isNull = false ∧
    ∀ r, Holds r (children i) → r.key.getD (depth + plen.toNat) 0 = c
  used : ∀ i, Occupied type num children i → ∃ c, findChild type num index children c = some i
  count : num.toNat = (storedKeys type num index children).length % 256
  prefixLen : ∃ common : Bytes, common.length = depth + plen.toNat ∧
    (∀ r, Holds r (node type num plen index children) → common <+: r.key) ∧
    ∀ longer : Bytes, (∀ r, Holds r (node type num plen index children) → longer <+: r.key) →
      longer.length ≤ common.length
  two : 2 ≤ (storedKeys type num index children).length

section

variable {used : List Rule} {t : Art} {m : RuleMap} {depth : Nat} {pre : Bytes}

theorem mem_allBytes (c : UInt8) : c ∈ allBytes := by
  refine List.mem_map.mpr ⟨c.toNat, List.mem_range.mpr c.toNat_lt, ?_⟩
  simp

theorem nodup_allBytes : allBytes.Nodup := by
  apply List.Nodup.map_on _ List.nodup_range
  intro a ha b hb hab
  have hn := congrArg UInt8.toNat hab
  rw [UInt8.toNat_ofNat', UInt8.toNat_ofNat'] at hn
  simp only [List.mem_range] at ha hb
  omega

theorem Stores.length_storedKeys {type : ArtType} {num : UInt8} {index : Nat → UInt8} {children : Nat → Art}
    {ks : List UInt8} {v : UInt8 → Option Art} (h : Stores type num index children ks v) :
    (storedKeys type num index children).length = ks.length := by
  unfold storedKeys
  apply List.Perm.length_eq
  rw [List.perm_ext_iff_of_nodup (nodup_allBytes.filter _) h.nodup]
  intro c
  simp only [List.mem_filter, mem_allBytes, true_and]
  rw [Option.isSome_iff_ne_none]
  constructor
  · intro hc
    apply Decidable.byContradiction
    intro hno
    exact hc (h.not_mem_iff.mp hno)
  · intro hc hno
    exact h.not_mem_iff.mpr hno hc

theorem wellFormed_of_wf {type : ArtType} {num : UInt8} {plen : UInt16} {index : Nat → UInt8}
    {children : Nat → Art}
    (h : Wf pre (node type num plen index children)) :
    WellFormed pre.length type num plen index children := by
  cases h with
  | node pfx ks v hstores htwo hlen hchild =>
    have hv : ∀ c i, findChild type num index children c = some i → v c = some (children i) := by
      intro c i hf
      rw [← hstores.view, hf]
      rfl
    constructor
    · exact fun hs => hstores.distinct hs
    · exact hstores.apart
    · intro c i hf
      refine ⟨hstores.slot c i hf, hstores.live_slot hf, ?_⟩
      intro r hr
      have hget := getD_of_snoc (Wf.child_key hchild (hv c i hf) hr).1
      rwa [List.length_append, hlen] at hget
    · exact hstores.used
    · rw [hstores.length_storedKeys, hstores.count]
    · refine ⟨pre ++ pfx, by rw [List.length_append, hlen], ?_, ?_⟩
      · intro r hr
        obtain ⟨c, a, hc, ha⟩ := hstores.holds_iff.mp hr
        exact prefix_of_snoc (Wf.child_key hchild hc ha).1
      · intro longer hall
        apply Nat.le_of_not_lt
        intro hlt
        -- Two of the rules differ in the byte after the node's prefix.
        obtain ⟨c, r, -, hr, hkey, -⟩ := exists_parting hstores htwo hchild 0
        obtain ⟨d, s, hdc, hs, hkeys, -⟩ := exists_parting hstores htwo hchild c
        have hpr := List.prefix_of_prefix_length_le hkey (hall r hr)
          (by simp only [List.length_append, List.length_singleton] at hlt ⊢; omega)
        have hps := List.prefix_of_prefix_length_le hkeys (hall s hs)
          (by simp only [List.length_append, List.length_singleton] at hlt ⊢; omega)
        have hc := getD_of_snoc hpr
        have hd := getD_of_snoc hps
        exact hdc (hd.symm.trans hc)
    · rw [hstores.length_storedKeys]
      exact htwo

theorem wf_of_below {s : Art} {below : Nat} (hb : Below t depth s below) (h : Wf pre t)
    (hd : depth = pre.length) :
    ∃ pre', Wf pre' s ∧ below = pre'.length := by
  induction hb generalizing pre with
  | here t depth => exact ⟨pre, h, hd⟩
  | child hfind hbelow ih =>
    cases h with
    | node pfx ks v hstores htwo hlen hchild =>
      rename_i type num plen index children depth below c i t
      have hv : v c = some (children i) := by
        rw [← hstores.view, hfind]
        rfl
      apply ih (hchild c _ hv)
      simp only [List.length_append, List.length_singleton]
      omega

/-- The tree holds exactly the rules of the map. -/
structure Represents (used : List Rule) (t : Art) (m : RuleMap) : Prop where
  sound : Sound t
  holds : ∀ r, Holds r t ↔ m r.vPath r.targetUid = some r
  keyed : ∀ path uid r, m path uid = some r → r.vPath = path ∧ r.targetUid = uid
  used : ∀ r, Holds r t → r ∈ used

theorem Runs.represents (h : Runs used t m) : Represents used t m := by
  induction h with
  | start => exact ⟨Or.inl rfl, by simp [Holds], by simp, by simp [Holds]⟩
  | inserted rule alloc hrun hnew hnamed habsent ih =>
    have hfresh : ¬ Holds rule _ := fun hh => hnew (ih.used rule hh)
    rcases insert_sound ih.sound hnamed hfresh alloc with ⟨hzero, hsound, hholds⟩ | ⟨-, hfail⟩
    · rw [if_pos hzero]
      constructor
      · exact hsound
      · intro r
        rw [hholds, ih.holds, RuleMap.put]
        by_cases hkey : r.vPath = rule.vPath ∧ r.targetUid = rule.targetUid
        · rw [if_pos hkey, hkey.1, hkey.2, habsent]
          simp [eq_comm]
        · rw [if_neg hkey]
          constructor
          · intro hr
            rcases hr with rfl | hr
            · exact absurd ⟨rfl, rfl⟩ hkey
            · exact hr
          · exact Or.inr
      · intro path uid r hr
        unfold RuleMap.put at hr
        by_cases hkey : path = rule.vPath ∧ uid = rule.targetUid
        · rw [if_pos hkey] at hr
          rw [← Option.some.inj hr]
          exact ⟨hkey.1.symm, hkey.2.symm⟩
        · rw [if_neg hkey] at hr
          exact ih.keyed path uid r hr
      · intro r hr
        rcases (hholds r).mp hr with rfl | hr
        · exact List.mem_cons_self
        · exact List.mem_cons_of_mem _ (ih.used r hr)
    · rw [hfail, if_neg (show ¬ ENOMEM = 0 by decide)]
      exact ⟨ih.sound, ih.holds, ih.keyed, fun r hr => List.mem_cons_of_mem _ (ih.used r hr)⟩
  | removed rule hrun ih =>
    rename_i used t m
    obtain ⟨hsound, hholds⟩ := removeLeaf_sound ih.sound rule
    constructor
    · exact hsound
    · intro r
      rw [hholds, ih.holds, RuleMap.drop]
      by_cases hkey : m r.vPath r.targetUid = some rule
      · rw [if_pos hkey, hkey]
        simp [eq_comm]
      · rw [if_neg hkey]
        constructor
        · exact And.left
        · intro hr
          exact ⟨hr, fun hh => hkey (by rw [← hh]; exact hr)⟩
    · intro path uid r hr
      unfold RuleMap.drop at hr
      by_cases hkey : m path uid = some rule
      · rw [if_pos hkey] at hr
        cases hr
      · rw [if_neg hkey] at hr
        exact ih.keyed path uid r hr
    · intro r hr
      exact ih.used r ((hholds r).mp hr).1

theorem Represents.search (h : Represents used t m) (path : Bytes) (uid : UInt32) :
    searchExact path 0 uid t = m path uid := by
  cases hm : m path uid with
  | some r =>
    obtain ⟨rfl, rfl⟩ := h.keyed path uid r hm
    obtain ⟨x, hx⟩ := searchExact_found h.sound ((h.holds r).mpr hm) (Or.inl rfl)
    obtain ⟨hx', hpath, huid⟩ := searchExact_sound h.sound hx
    have hmx := (h.holds x).mp hx'
    rw [hpath, huid, hm] at hmx
    rw [hx, hmx]
  | none =>
    cases hs : searchExact path 0 uid t with
    | none => rfl
    | some x =>
      obtain ⟨hx, hpath, huid⟩ := searchExact_sound h.sound hs
      have hmx := (h.holds x).mp hx
      rw [hpath, huid, hm] at hmx
      cases hmx

/-- Over every sequence of insertions and removals, whatever allocations fail, the tree
answers like the map and every node below its root is well formed. -/
theorem art_refines_map (h : Runs used t m) :
    (∀ path uid, searchExact path 0 uid t = m path uid) ∧
    (∀ rule alloc, rule ∉ used → Named rule → m rule.vPath rule.targetUid = none →
      (insert alloc rule t 0).1 ≠ 0 → (insert alloc rule t 0).2 = t) ∧
    ∀ depth type num plen index children, Below t 0 (node type num plen index children) depth →
      WellFormed depth type num plen index children := by
  have hrep := h.represents
  refine ⟨hrep.search, ?_, ?_⟩
  · intro rule alloc hnew hnamed _ hfailed
    have hfresh : ¬ Holds rule t := fun hh => hnew (hrep.used rule hh)
    rcases insert_sound hrep.sound hnamed hfresh alloc with ⟨hzero, -⟩ | ⟨-, hfail⟩
    · exact absurd hzero hfailed
    · rw [hfail]
  · intro depth type num plen index children hbelow
    rcases hrep.sound with hnull | hwf
    · rw [hnull] at hbelow
      cases hbelow
    · obtain ⟨pre, hpre, rfl⟩ := wf_of_below hbelow hwf rfl
      exact wellFormed_of_wf hpre

/-- `/a`, then `/b` for the same uid and `/a` for another, and the first one taken out again. -/
theorem art_refines_map_three : ∃ used t m, Runs used t m ∧ searchExact [47, 97] 0 0 t = none ∧
    searchExact [47, 97] 0 10 t = some ⟨2, [47, 97], [], 0, 10⟩ := by
  have hone : Runs _ _ _ := Runs.inserted ⟨0, [47, 97], [], 0, 0⟩ true Runs.start (by simp)
    ⟨by decide, by decide⟩ rfl
  have htwo : Runs _ _ _ := Runs.inserted ⟨1, [47, 98], [], 0, 0⟩ true hone (by decide) ⟨by decide, by decide⟩
    (by decide)
  have hthree : Runs _ _ _ :=
    Runs.inserted ⟨2, [47, 97], [], 0, 10⟩ true htwo (by decide) ⟨by decide, by decide⟩
    (by decide)
  have hfour := Runs.removed ⟨0, [47, 97], [], 0, 0⟩ hthree
  obtain ⟨hsearch, -, -⟩ := art_refines_map hfour
  exact ⟨_, _, _, hfour, (hsearch _ _).trans (by decide), (hsearch _ _).trans (by decide)⟩

end

end HybridMount.Vfs.Art
