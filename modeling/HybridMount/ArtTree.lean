import HybridMount.ArtNode

/-! The shape of the radix tree and what its operations do to the set of rules which it holds. -/

namespace HybridMount.Vfs.Art

open LittleEndian

/-- A rule whose path has no zero byte and a length of 16 bits. -/
def Named (rule : Rule) : Prop := 0 ∉ rule.vPath ∧ rule.vPath.length < 2 ^ 16

/-- Every rule below has a key which starts with the bytes consumed so far. -/
inductive Wf : Bytes → Art → Prop
  | leaf {pre : Bytes} {rule : Rule} {next : List Rule} (hpath : ∀ r ∈ rule :: next, r.vPath = rule.vPath)
      (hnodup : (rule :: next).Nodup) (hnamed : Named rule) (hpre : pre <+: rule.key) :
        Wf pre (leaf rule next)
  | node {pre : Bytes} {type : ArtType} {num : UInt8} {plen : UInt16} {index : Nat → UInt8}
      {children : Nat → Art}
      (pfx : Bytes) (ks : List UInt8) (v : UInt8 → Option Art) (hstores : Stores type num index children ks v)
      (htwo : 2 ≤ ks.length) (hlen : pfx.length = plen.toNat)
      (hchild : ∀ c a, v c = some a → Wf (pre ++ pfx ++ [c]) a) : Wf pre (node type num plen index children)

def Holds (rule : Rule) : Art → Prop
  | null => False
  | leaf first nextUid => rule ∈ first :: nextUid
  | node type num _ index children =>
    ∃ c i, findChild type num index children c = some i ∧ Holds rule (children i)

section

variable {pre pfx : Bytes} {a b : Bytes} {c d : UInt8} {depth limit : Nat}

theorem getD_of_snoc (h : pre ++ [c] <+: a) : a.getD pre.length 0 = c := by
  obtain ⟨rest, rfl⟩ := h
  simp

theorem prefix_snoc (h : pre <+: a) (hlt : pre.length < a.length) : pre ++ [a.getD pre.length 0] <+: a := by
  obtain ⟨rest, rfl⟩ := h
  cases rest with
  | nil => simp at hlt
  | cons c rest =>
    refine ⟨rest, ?_⟩
    simp

theorem prefix_of_snoc (h : pre ++ [c] <+: a) : pre <+: a := (List.prefix_append pre [c]).trans h

theorem length_lt_of_snoc (h : pre ++ [c] <+: a) : pre.length < a.length := by
  have hle := h.length_le
  simp only [List.length_append, List.length_singleton] at hle
  omega

@[simp] theorem length_key (rule : Rule) : rule.key.length = rule.vPath.length + 1 := by
  simp [Rule.key]

theorem key_getD_of_lt {rule : Rule} (h : depth < rule.vPath.length) :
    rule.key.getD depth 0 = rule.vPath.getD depth 0 := by
  simp [Rule.key, List.getD, List.getElem?_append_left h]

theorem key_getD_length (rule : Rule) : rule.key.getD rule.vPath.length 0 = 0 := by
  simp [Rule.key]

theorem key_getD_ne_zero {rule : Rule} (hn : Named rule) (h : depth < rule.vPath.length) :
    rule.key.getD depth 0 ≠ 0 := by
  rw [key_getD_of_lt h]
  intro hz
  apply hn.1
  have hget : rule.vPath.getD depth 0 = rule.vPath[depth] := by simp [h]
  rw [← hz, hget]
  exact List.getElem_mem h

theorem same_vPath_of_keys {r s : Rule} (hs : Named s) (h : r.key <+: s.key) : r.vPath = s.vPath := by
  have hzero : s.key.getD r.vPath.length 0 = 0 := getD_of_snoc h
  have hle := h.length_le
  simp only [length_key] at hle
  have hlen : r.vPath.length = s.vPath.length := by
    apply Nat.le_antisymm (by omega)
    apply Nat.le_of_not_lt
    intro hlt
    exact key_getD_ne_zero hs hlt hzero
  have hkey : r.key = s.key := h.eq_of_length (by simp [hlen])
  simpa [Rule.key] using hkey

theorem same_vPath_below {r s : Rule} (hs : Named s) (hr : pre <+: r.key) (hpre : pre <+: s.key)
    (hlong : r.vPath.length < pre.length) : r.vPath = s.vPath := by
  have hle := hr.length_le
  simp only [length_key] at hle
  have heq : pre = r.key := hr.eq_of_length (by simp only [length_key]; omega)
  rw [heq] at hpre
  exact same_vPath_of_keys hs hpre

theorem matchLen_succ (a b : Bytes) (depth limit : Nat) :
    matchLen a b depth (limit + 1) = if matchLen a b depth limit = limit then
      (if a.getD (depth + limit) 0 = b.getD (depth + limit) 0 then limit + 1 else limit)
      else matchLen a b depth limit := by
  unfold matchLen
  rw [List.range_succ, List.takeWhile_append]
  simp only [List.length_range]
  split
  · by_cases he : a.getD (depth + limit) 0 = b.getD (depth + limit) 0
    · simp only [List.takeWhile, he, decide_true, if_true]
      simp
    · simp only [List.takeWhile, he, decide_false, if_false]
      simp
  · rfl

/-- Where the comparison stops and why. -/
theorem matchLen_spec (a b : Bytes) (depth limit : Nat) : matchLen a b depth limit ≤ limit ∧
    (∀ p < matchLen a b depth limit, a.getD (depth + p) 0 = b.getD (depth + p) 0) ∧
    (matchLen a b depth limit < limit →
      a.getD (depth + matchLen a b depth limit) 0 ≠ b.getD (depth + matchLen a b depth limit) 0) := by
  induction limit with
  | zero => simp [matchLen]
  | succ limit ih =>
    obtain ⟨hle, heq, hne⟩ := ih
    rw [matchLen_succ]
    by_cases hfull : matchLen a b depth limit = limit
    · rw [if_pos hfull]
      rw [hfull] at heq
      by_cases he : a.getD (depth + limit) 0 = b.getD (depth + limit) 0
      · rw [if_pos he]
        refine ⟨le_rfl, ?_, fun hlt => absurd hlt (lt_irrefl _)⟩
        intro p hp
        by_cases hpl : p = limit
        · rw [hpl, he]
        · exact heq p (by omega)
      · rw [if_neg he]
        exact ⟨by omega, heq, fun _ => he⟩
    · rw [if_neg hfull]
      exact ⟨by omega, heq, fun _ => hne (by omega)⟩

theorem prefix_of_match (ha : pre ++ pfx <+: a) (hb : pre <+: b) (hlen : pre.length + pfx.length ≤ b.length)
    (h : ∀ p < pfx.length, a.getD (pre.length + p) 0 = b.getD (pre.length + p) 0) : pre ++ pfx <+: b := by
  induction pfx using List.reverseRecOn with
  | nil => simpa using hb
  | append_singleton pfx c ih =>
    simp only [List.length_append, List.length_singleton] at hlen h
    have hacc : pre ++ pfx ++ [c] <+: a := by simpa using ha
    have hih := ih (prefix_of_snoc hacc) (by omega) fun p hp => h p (by omega)
    have hc : a.getD (pre ++ pfx).length 0 = c := getD_of_snoc hacc
    have hstep := prefix_snoc hih (by simp only [List.length_append]; omega)
    rw [List.length_append, ← h pfx.length (by omega), ← List.length_append, hc] at hstep
    simpa using hstep

end

section

variable {type : ArtType} {num : UInt8} {plen : UInt16} {index : Nat → UInt8} {children : Nat → Art}
  {ks : List UInt8}
  {v : UInt8 → Option Art} {pre pfx : Bytes} {c d : UInt8} {t : Art} {rule target r : Rule} {i : Nat}

theorem Stores.holds_iff (h : Stores type num index children ks v) :
    Holds r (node type num plen index children) ↔ ∃ c a, v c = some a ∧ Holds r a := by
  constructor
  · intro ⟨c, i, hf, hr⟩
    exact ⟨c, children i, by rw [← h.view, hf]; rfl, hr⟩
  · intro ⟨c, a, hc, hr⟩
    rw [← h.view] at hc
    obtain ⟨i, hf, rfl⟩ := Option.map_eq_some_iff.mp hc
    exact ⟨c, i, hf, hr⟩

theorem Wf.live (h : Wf pre t) : t.isNull = false := by
  cases h <;> rfl

theorem Wf.of_holds (h : Wf pre t) (hr : Holds r t) : pre <+: r.key ∧ Named r := by
  induction h with
  | leaf hpath hnodup hnamed hpre =>
    have heq := hpath r hr
    simp only [Rule.key, Named, heq]
    exact ⟨hpre, hnamed⟩
  | node pfx ks v hstores htwo hlen hchild ih =>
    obtain ⟨c, a, hc, hra⟩ := hstores.holds_iff.mp hr
    obtain ⟨hpre, hnamed⟩ := ih c a hc hra
    rw [List.append_assoc] at hpre
    exact ⟨(List.prefix_append _ _).trans hpre, hnamed⟩

theorem Wf.child_key (hchild : ∀ c a, v c = some a → Wf (pre ++ pfx ++ [c]) a) {a : Art} (hc : v c = some a)
    (hr : Holds r a) : pre ++ pfx ++ [c] <+: r.key ∧ Named r := (hchild c a hc).of_holds hr

theorem Wf.minimum (h : Wf pre t) : ∃ r, t.minimum = some r ∧ Holds r t := by
  induction h with
  | leaf hpath hnodup hnamed hpre => exact ⟨_, rfl, List.mem_cons_self⟩
  | @node pre type num plen index children pfx ks v hstores htwo hlen hchild ih =>
    have hne : ks ≠ [] := by
      intro hnil
      simp [hnil] at htwo
    obtain ⟨c, hc⟩ := firstSlot_spec hstores hne
    have hv : v c = some (children (firstSlot type children)) := by
      rw [← hstores.view, hc]
      rfl
    obtain ⟨r, hmin, hr⟩ := ih c _ hv
    exact ⟨r, hmin, hstores.holds_iff.mpr ⟨c, _, hv, hr⟩⟩

/-- Below a node there are two rules whose keys part right after its prefix. -/
theorem exists_parting (hstores : Stores type num index children ks v) (htwo : 2 ≤ ks.length)
    (hchild : ∀ c a, v c = some a → Wf (pre ++ pfx ++ [c]) a) (c : UInt8) :
    ∃ d r, d ≠ c ∧ Holds r (node type num plen index children) ∧ pre ++ pfx ++ [d] <+: r.key ∧ Named r := by
  obtain ⟨d, hd, hdc⟩ : ∃ d ∈ ks, d ≠ c := by
    apply Decidable.byContradiction
    intro hno
    have hall : ∀ d ∈ ks, d = c := by
      intro d hd
      apply Decidable.byContradiction
      intro hdc
      exact hno ⟨d, hd, hdc⟩
    have hsub : ks ⊆ [c] := by
      intro d hd
      simp [hall d hd]
    have hle := (hstores.nodup.subperm hsub).length_le
    simp only [List.length_singleton] at hle
    omega
  obtain ⟨a, ha⟩ := (hstores.mem d).mp hd
  obtain ⟨r, -, hr⟩ := (hchild d a ha).minimum
  obtain ⟨hpre, hnamed⟩ := (hchild d a ha).of_holds hr
  exact ⟨d, r, hdc, hstores.holds_iff.mpr ⟨d, a, ha, hr⟩, hpre, hnamed⟩

theorem prefixLen_lt {p : Bytes} (hr : Named r) (h : p ++ [c] <+: r.key) : p.length < 2 ^ 16 := by
  have hle := length_lt_of_snoc h
  have hlt := hr.2
  simp only [length_key] at hle
  omega

theorem toNat_ofNat_of_lt {n : Nat} (h : n < 2 ^ 16) : (UInt16.ofNat n).toNat = n := by
  rw [UInt16.toNat_ofNat']
  exact Nat.mod_eq_of_lt h

/-- A node over an old tree and a new rule which part after a common prefix. -/
theorem branch_wf (hold : Wf (pre ++ pfx ++ [c]) t) (hrule : Named rule)
    (hpre : pre ++ pfx ++ [d] <+: rule.key)
    (hcd : c ≠ d) :
    Wf pre (branch pfx.length c t d rule) ∧ ∀ r, Holds r (branch pfx.length c t d rule) ↔
    r = rule ∨ Holds r t := by
  have hfind : ∀ e i, findChild .node4 2 (fun i => if i = 0 then c else if i = 1 then d else 0)
      (fun i => if i = 0 then t else if i = 1 then leaf rule [] else null) e = some i ↔
        e = c ∧ i = 0 ∨ e = d ∧ i = 1 := by
    intro e i
    have hdistinct : Distinct (2 : UInt8).toNat (fun i => if i = 0 then c else if i = 1 then d else 0) := by
      intro i hi j hj hij
      simp only [UInt8.reduceToNat] at hi hj
      have hi' : i = 0 ∨ i = 1 := by omega
      have hj' : j = 0 ∨ j = 1 := by omega
      rcases hi' with rfl | rfl <;> rcases hj' with rfl | rfl <;> simp_all
    rw [findChild_small (Or.inl rfl) hdistinct]
    simp only [UInt8.reduceToNat]
    constructor
    · intro h
      obtain ⟨hi, hkey⟩ := h
      have hi' : i = 0 ∨ i = 1 := by omega
      rcases hi' with rfl | rfl
      · left; simpa using hkey.symm
      · right; simpa using hkey.symm
    · intro h
      rcases h with ⟨rfl, rfl⟩ | ⟨rfl, rfl⟩ <;> simp
  have hc : findChild .node4 2 (fun i => if i = 0 then c else if i = 1 then d else 0)
      (fun i => if i = 0 then t else if i = 1 then leaf rule [] else null) c = some 0 :=
        (hfind c 0).mpr (by simp)
  have hd : findChild .node4 2 (fun i => if i = 0 then c else if i = 1 then d else 0)
      (fun i => if i = 0 then t else if i = 1 then leaf rule [] else null) d = some 1 :=
        (hfind d 1).mpr (by simp)
  have hleaf : Wf (pre ++ pfx ++ [d]) (leaf rule []) := by
    apply Wf.leaf
    · simp
    · simp
    · exact hrule
    · exact hpre
  have hstores : Stores .node4 2 (fun i => if i = 0 then c else if i = 1 then d else 0)
      (fun i => if i = 0 then t else if i = 1 then leaf rule [] else null) [c, d]
      (fun e => if e = c then some t else if e = d then some (leaf rule []) else none) := by
    constructor
    · simpa using hcd
    · intro e
      by_cases hec : e = c
      · simp [hec]
      · by_cases hed : e = d
        · simp [hed, Ne.symm hcd]
        · simp [hec, hed]
    · rfl
    · simp [ArtType.capacity]
    · intro e
      by_cases hec : e = c
      · simp [hec, hc]
      · by_cases hed : e = d
        · simp [hed, hd, Ne.symm hcd]
        · cases hf : findChild .node4 2 (fun i => if i = 0 then c else if i = 1 then d else 0)
            (fun i => if i = 0 then t else if i = 1 then leaf rule [] else null) e with
          | none => simp [hec, hed]
          | some i =>
            have hi := (hfind e i).mp hf
            simp [hec, hed] at hi
    · intro e a he
      by_cases hec : e = c
      · simp only [hec, if_true, Option.some.injEq] at he
        rw [← he]
        exact hold.live
      · by_cases hed : e = d
        · simp only [hed, Ne.symm hcd, if_false, if_true, Option.some.injEq] at he
          rw [← he]
          rfl
        · simp [hec, hed] at he
    · intro e i hf
      have hi := (hfind e i).mp hf
      simp only [ArtType.capacity]
      omega
    · intro e f i he hf
      have hei := (hfind e i).mp he
      have hfi := (hfind f i).mp hf
      rcases hei with ⟨rfl, hi⟩ | ⟨rfl, hi⟩ <;> rcases hfi with ⟨rfl, hi'⟩ | ⟨rfl, hi'⟩ <;>
        first | rfl | omega
    · intro i hi
      have hi' : i = 0 ∨ i = 1 := by
        simp only [Occupied, UInt8.reduceToNat] at hi
        omega
      rcases hi' with rfl | rfl
      · exact ⟨c, hc⟩
      · exact ⟨d, hd⟩
  constructor
  · apply Wf.node pfx [c, d] _ hstores (by simp)
    · rw [toNat_ofNat_of_lt]
      have hlt := prefixLen_lt hrule hpre
      simp only [List.length_append] at hlt
      omega
    · intro e a he
      by_cases hec : e = c
      · simp only [hec, if_true, Option.some.injEq] at he
        rw [hec, ← he]
        exact hold
      · by_cases hed : e = d
        · simp only [hed, Ne.symm hcd, if_false, if_true, Option.some.injEq] at he
          rw [hed, ← he]
          exact hleaf
        · simp [hec, hed] at he
  · intro r
    rw [branch, hstores.holds_iff]
    constructor
    · intro h
      obtain ⟨e, a, he, hr⟩ := h
      by_cases hec : e = c
      · simp only [hec, if_true, Option.some.injEq] at he
        rw [he]
        exact Or.inr hr
      · by_cases hed : e = d
        · simp only [hed, Ne.symm hcd, if_false, if_true, Option.some.injEq] at he
          rw [← he] at hr
          left
          simpa [Holds] using hr
        · simp [hec, hed] at he
    · intro hr
      rcases hr with rfl | hr
      · exact ⟨d, leaf r [], by simp [Ne.symm hcd], by simp [Holds]⟩
      · exact ⟨c, t, by simp, hr⟩

/-- Two keys below a common prefix part before the shorter path ends. -/
theorem keys_part (hr : Named r) (hs : Named rule) (hne : r.vPath ≠ rule.vPath) (hpr : pre <+: r.key)
    (hps : pre <+: rule.key) :
    let p := matchLen r.key rule.key pre.length (min r.vPath.length rule.vPath.length - pre.length)
    pre.length + p ≤ r.vPath.length ∧ pre.length + p ≤ rule.vPath.length ∧
      (∀ q < p, r.key.getD (pre.length + q) 0 = rule.key.getD (pre.length + q) 0) ∧
      r.key.getD (pre.length + p) 0 ≠ rule.key.getD (pre.length + p) 0 := by
  have hrlen : pre.length ≤ r.vPath.length := by
    apply Nat.le_of_not_lt
    intro hlt
    exact hne (same_vPath_below hs hpr hps hlt)
  have hslen : pre.length ≤ rule.vPath.length := by
    apply Nat.le_of_not_lt
    intro hlt
    exact hne (same_vPath_below hr hps hpr hlt).symm
  obtain ⟨hle, heq, hdiff⟩ :=
    matchLen_spec r.key rule.key pre.length (min r.vPath.length rule.vPath.length - pre.length)
  generalize matchLen r.key rule.key pre.length (min r.vPath.length rule.vPath.length - pre.length) = p at *
  refine ⟨by omega, by omega, heq, ?_⟩
  by_cases hp : p < min r.vPath.length rule.vPath.length - pre.length
  · exact hdiff hp
  · -- The shorter path ends here, so one of the bytes is its terminator.
    intro hsame
    rcases Nat.lt_trichotomy r.vPath.length rule.vPath.length with hlt | hlen | hlt
    · have hpos : pre.length + p = r.vPath.length := by omega
      rw [hpos, key_getD_length] at hsame
      exact key_getD_ne_zero hs hlt hsame.symm
    · obtain ⟨rest, hrest⟩ := hpr
      have hsplit : pre ++ rest <+: rule.key := by
        apply prefix_of_match (a := r.key) (by rw [hrest]) hps
        · rw [← List.length_append, hrest]
          simp [hlen]
        · intro q hq
          have hlenrest : pre.length + rest.length = r.vPath.length + 1 := by
            rw [← List.length_append, hrest, length_key]
          by_cases hqp : q < p
          · exact heq q hqp
          · have hqe : q = p := by omega
            rw [hqe]
            exact hsame
      rw [hrest] at hsplit
      exact hne (same_vPath_of_keys hs hsplit)
    · have hpos : pre.length + p = rule.vPath.length := by omega
      rw [hpos, key_getD_length] at hsame
      exact key_getD_ne_zero hr hlt hsame

theorem prefix_take {a b : Bytes} {p : Nat} (ha : pre <+: a) (hb : pre <+: b)
    (hlen : pre.length + p ≤ a.length)
    (hlen' : pre.length + p ≤ b.length) (h : ∀ q < p, a.getD (pre.length + q) 0 = b.getD (pre.length + q) 0) :
    ∃ pfx : Bytes, pfx.length = p ∧ pre ++ pfx <+: a ∧ pre ++ pfx <+: b := by
  obtain ⟨rest, rfl⟩ := ha
  rw [List.length_append] at hlen
  have htake : (rest.take p).length = p := by
    rw [List.length_take]
    omega
  have hpre : pre ++ rest.take p <+: pre ++ rest :=
    (List.prefix_append_right_inj pre).mpr (List.take_prefix p rest)
  refine ⟨rest.take p, htake, hpre, ?_⟩
  apply prefix_of_match hpre hb
  · omega
  · intro q hq
    exact h q (by omega)

/-- The outcome of an insertion: the rule is added to a well-formed tree, or there is
no memory and nothing changes. -/
def Inserted (pre : Bytes) (alloc : Bool) (rule : Rule) (t : Art) (result : Int32 × Art) : Prop :=
  (result.1 = 0 ∧ Wf pre result.2 ∧ ∀ r, Holds r result.2 ↔ r = rule ∨ Holds r t) ∨
    (alloc = false ∧ result = (ENOMEM, t))

theorem insert_leaf {next : List Rule} (h : Wf pre (leaf r next)) (hpre : pre <+: rule.key)
    (hrule : Named rule)
    (hfresh : ¬ Holds rule (leaf r next)) (alloc : Bool) :
    Inserted pre alloc rule (leaf r next) (insert alloc rule (leaf r next) pre.length) := by
  have hold := h
  cases h with
  | leaf hpath hnodup hnamed hpr =>
    by_cases hsame : r.vPath = rule.vPath
    · left
      simp only [insert, hsame, if_true]
      refine ⟨trivial, ?_, ?_⟩
      · apply Wf.leaf
        · intro x hx
          rcases List.mem_cons.mp hx with rfl | hx
          · rfl
          · rcases List.mem_cons.mp hx with rfl | hx
            · exact hsame.symm
            · exact hpath x (List.mem_cons_of_mem _ hx)
        · simp only [Holds, List.mem_cons, not_or] at hfresh
          simp only [List.nodup_cons, List.mem_cons, not_or] at hnodup ⊢
          exact ⟨⟨Ne.symm hfresh.1, hnodup.1⟩, hfresh.2, hnodup.2⟩
        · exact hnamed
        · exact hpr
      · intro x
        simp only [Holds, List.mem_cons]
        tauto
    · cases alloc with
      | false => right; simp [insert, hsame]
      | true =>
        left
        obtain ⟨hpr', hps', heq, hdiff⟩ := keys_part hnamed hrule hsame hpr hpre
        obtain ⟨pfx, hlen, hra, hsa⟩ := prefix_take hpr hpre (by simp only [length_key]; omega)
          (by simp only [length_key]; omega) heq
        have hrc := prefix_snoc hra (by simp only [List.length_append, length_key]; omega)
        have hsc := prefix_snoc hsa (by simp only [List.length_append, length_key]; omega)
        rw [List.length_append, hlen] at hrc hsc
        have hbranch := branch_wf (Wf.leaf hpath hnodup hnamed hrc) hrule hsc hdiff
        rw [hlen] at hbranch
        simp only [insert, hsame, if_false, if_true]
        exact ⟨trivial, hbranch⟩

/-- A node whose prefix is cut at a byte keeps what follows it. -/
theorem Wf.cut {p : Nat} (h : Wf pre (Art.node type num plen index children)) (hp : p < plen.toNat)
    (hr : Holds r (Art.node type num plen index children)) :
    ∃ pfx : Bytes, pfx.length = p ∧ pre ++ pfx ++ [r.key.getD (pre.length + p) 0] <+: r.key ∧
      Wf (pre ++ pfx ++ [r.key.getD (pre.length + p) 0])
        (Art.node type num (plen - UInt16.ofNat (p + 1)) index children) := by
  cases h with
  | node pfx ks v hstores htwo hlen hchild =>
    obtain ⟨e, a, he, hra⟩ := hstores.holds_iff.mp hr
    obtain ⟨hkey, hnamed⟩ := Wf.child_key hchild he hra
    have hfull := prefix_of_snoc hkey
    obtain ⟨front, c, rest, hpfx, hfront⟩ : ∃ front c rest, pfx = front ++ c :: rest ∧ front.length = p := by
      have hlt : p < pfx.length := by omega
      refine ⟨pfx.take p, pfx[p], pfx.drop (p + 1), ?_, ?_⟩
      · rw [List.getElem_cons_drop hlt, List.take_append_drop]
      · rw [List.length_take]
        omega
    have hcut : pre ++ front ++ [c] <+: r.key := by
      apply List.IsPrefix.trans _ hfull
      exact ⟨rest, by simp [hpfx]⟩
    have hc : r.key.getD (pre.length + p) 0 = c := by
      have hget := getD_of_snoc hcut
      rwa [List.length_append, hfront] at hget
    rw [hc]
    refine ⟨front, hfront, hcut, ?_⟩
    apply Wf.node rest ks v hstores htwo
    · have hplen : pfx.length = front.length + (rest.length + 1) := by simp [hpfx]
      have hlt := plen.toNat_lt
      have hone : (UInt16.ofNat (p + 1)).toNat = p + 1 := toNat_ofNat_of_lt (by omega)
      rw [UInt16.toNat_sub, hone]
      omega
    · intro e a he
      have hwf := hchild e a he
      rw [hpfx] at hwf
      simpa using hwf

theorem insert_node {alloc : Bool} {depth p : Nat}
    (hmin : (node type num plen index children).minimum = some r)
    (hp : matchLen r.key rule.key depth (min plen.toNat (rule.vPath.length - depth)) = p) :
    insert alloc rule (node type num plen index children) depth =
      if p < plen.toNat then
        if alloc then (0, branch p (r.key.getD (depth + p) 0)
          (node type num (plen - UInt16.ofNat (p + 1)) index children) (rule.key.getD (depth + p) 0) rule)
        else (ENOMEM, node type num plen index children)
      else match findChild type num index children (rule.key.getD (depth + plen.toNat) 0) with
        | some i => ((insert alloc rule (children i) (depth + plen.toNat + 1)).1, node type num plen index
            (Function.update children i (insert alloc rule (children i) (depth + plen.toNat + 1)).2))
        | none =>
          addChild alloc type num plen index children (rule.key.getD (depth + plen.toNat) 0)
            (leaf rule []) := by
  cases hfind : findChild type num index children (rule.key.getD (depth + plen.toNat) 0) with
  | none => simp only [insert, hmin, Option.map_some, Option.getD_some, hp, hfind]
  | some i => simp only [insert, hmin, Option.map_some, Option.getD_some, hp, hfind]

/-- What a node holds after the child of one key is set. -/
theorem Stores.holds_update {type' : ArtType} {num' : UInt8} {index' : Nat → UInt8} {children' : Nat → Art}
    {ks' : List UInt8} {a : Art} (h : Stores type' num' index' children' ks' (Function.update v c (some a))) :
    Holds r (node type' num' plen index' children') ↔ Holds r a ∨ ∃ d b, d ≠ c ∧ v d = some b ∧
    Holds r b := by
  rw [h.holds_iff]
  constructor
  · intro ⟨d, b, hd, hr⟩
    by_cases hdc : d = c
    · rw [hdc, Function.update_self] at hd
      rw [← Option.some.inj hd] at hr
      exact Or.inl hr
    · rw [Function.update_of_ne hdc] at hd
      exact Or.inr ⟨d, b, hdc, hd, hr⟩
  · intro hr
    rcases hr with hr | ⟨d, b, hdc, hd, hr⟩
    · exact ⟨c, a, Function.update_self .., hr⟩
    · exact ⟨d, b, by rw [Function.update_of_ne hdc, hd], hr⟩

theorem Wf.set {a : Art} (hchild : ∀ c a, v c = some a → Wf (pre ++ pfx ++ [c]) a)
    (ha : Wf (pre ++ pfx ++ [c]) a) :
    ∀ d b, Function.update v c (some a) d = some b → Wf (pre ++ pfx ++ [d]) b := by
  intro d b hd
  by_cases hdc : d = c
  · rw [hdc, Function.update_self] at hd
    rw [← Option.some.inj hd, hdc]
    exact ha
  · rw [Function.update_of_ne hdc] at hd
    exact hchild d b hd

/-- Inserting below a node whose prefix the key follows. -/
theorem insert_below {alloc : Bool} (hstores : Stores type num index children ks v) (htwo : 2 ≤ ks.length)
    (hlen : pfx.length = plen.toNat) (hchild : ∀ c a, v c = some a → Wf (pre ++ pfx ++ [c]) a)
    (hsnoc : pre ++ pfx ++ [c] <+: rule.key) (hrule : Named rule) {result : Int32 × Art}
    (hresult : match findChild type num index children c with
      | some i => ∃ below, Inserted (pre ++ pfx ++ [c]) alloc rule (children i) below ∧
          result = (below.1, node type num plen index (Function.update children i below.2))
      | none => result = addChild alloc type num plen index children c (leaf rule [])) :
    Inserted pre alloc rule (node type num plen index children) result := by
  cases hf : findChild type num index children c with
  | none =>
    rw [hf] at hresult
    simp only at hresult
    have hc : c ∉ ks := hstores.not_mem_iff.mpr hf
    rcases addChild_spec hstores hc (show (leaf rule []).isNull = false from rfl) alloc plen with
      ⟨type', index', children', hadd, hstores'⟩ | ⟨halloc, hadd⟩
    · left
      rw [hresult, hadd]
      refine ⟨rfl, ?_, ?_⟩
      · have hleaf : Wf (pre ++ pfx ++ [c]) (leaf rule []) := Wf.leaf (by simp) (by simp) hrule hsnoc
        exact Wf.node pfx (c :: ks) _ hstores' (by simp only [List.length_cons]; omega) hlen
          (Wf.set hchild hleaf)
      · intro x
        rw [hstores'.holds_update, hstores.holds_iff]
        simp only [Holds, List.mem_singleton]
        constructor
        · intro hx
          rcases hx with hx | ⟨d, b, -, hd, hx⟩
          · exact Or.inl hx
          · exact Or.inr ⟨d, b, hd, hx⟩
        · intro hx
          rcases hx with hx | ⟨d, b, hd, hx⟩
          · exact Or.inl hx
          · have hdc : d ≠ c := by
              intro hh
              exact hc ((hstores.mem c).mpr ⟨b, by rw [← hh, hd]⟩)
            exact Or.inr ⟨d, b, hdc, hd, hx⟩
    · right
      exact ⟨halloc, by rw [hresult, hadd]⟩
  | some i =>
    rw [hf] at hresult
    obtain ⟨below, hbelow, rfl⟩ := hresult
    have hv : v c = some (children i) := by
      rw [← hstores.view, hf]
      rfl
    rcases hbelow with ⟨hzero, hwf, hholds⟩ | ⟨halloc, rfl⟩
    · left
      have hstores' := hstores.replace hf hwf.live
      refine ⟨hzero, Wf.node pfx ks _ hstores' htwo hlen (Wf.set hchild hwf), ?_⟩
      intro x
      rw [hstores'.holds_update, hstores.holds_iff, hholds]
      constructor
      · intro hx
        rcases hx with (hx | hx) | ⟨d, b, -, hd, hx⟩
        · exact Or.inl hx
        · exact Or.inr ⟨c, _, hv, hx⟩
        · exact Or.inr ⟨d, b, hd, hx⟩
      · intro hx
        rcases hx with hx | ⟨d, b, hd, hx⟩
        · exact Or.inl (Or.inl hx)
        · by_cases hdc : d = c
          · rw [hdc, hv] at hd
            rw [← Option.some.inj hd] at hx
            exact Or.inl (Or.inr hx)
          · exact Or.inr ⟨d, b, hdc, hd, hx⟩
    · right
      exact ⟨halloc, congrArg _ (by rw [Function.update_eq_self])⟩

theorem insert_spec (h : Wf pre t) (hpre : pre <+: rule.key) (hrule : Named rule) (hfresh : ¬ Holds rule t)
    (alloc : Bool) : Inserted pre alloc rule t (insert alloc rule t pre.length) := by
  induction t generalizing pre with
  | null => cases h
  | leaf r next => exact insert_leaf h hpre hrule hfresh alloc
  | node type num plen index children ih =>
    have hwf := h
    obtain ⟨b, hmin, hb⟩ := h.minimum
    cases h with
    | node pfx ks v hstores htwo hlen hchild =>
      obtain ⟨e, a, he, hba⟩ := hstores.holds_iff.mp hb
      obtain ⟨hkey, hbn⟩ := Wf.child_key hchild he hba
      have hbpre : pre <+: b.key := ((List.prefix_append pre pfx).trans (List.prefix_append _ _)).trans hkey
      have hblen := hkey.length_le
      simp only [List.length_append, List.length_singleton, length_key] at hblen
      have hroom : pre.length ≤ rule.vPath.length := by
        apply Nat.le_of_not_lt
        intro hlt
        have heq := same_vPath_below hbn hpre hbpre hlt
        rw [heq] at hlt
        omega
      obtain ⟨hple, heq, hdiff⟩ :=
        matchLen_spec b.key rule.key pre.length (min plen.toNat (rule.vPath.length - pre.length))
      generalize hp : matchLen b.key rule.key pre.length (min plen.toNat (rule.vPath.length - pre.length)) = p
        at *
      rw [insert_node hmin hp]
      by_cases hshort : p < plen.toNat
      · rw [if_pos hshort]
        cases alloc with
        | false => exact Or.inr ⟨rfl, rfl⟩
        | true =>
          left
          have hne : b.key.getD (pre.length + p) 0 ≠ rule.key.getD (pre.length + p) 0 := by
            by_cases hlt : p < min plen.toNat (rule.vPath.length - pre.length)
            · exact hdiff hlt
            · have hend : pre.length + p = rule.vPath.length := by omega
              have hz := key_getD_length rule
              rw [← hend] at hz
              rw [hz]
              exact key_getD_ne_zero hbn (by omega)
          obtain ⟨front, hfront, hcut, hcutwf⟩ := hwf.cut hshort hb
          have hrulepre : pre ++ front <+: rule.key := by
            apply prefix_of_match (prefix_of_snoc hcut) hpre
            · simp only [length_key]
              omega
            · intro q hq
              exact heq q (by omega)
          have hrulesnoc := prefix_snoc hrulepre (by simp only [List.length_append, length_key]; omega)
          rw [List.length_append, hfront] at hrulesnoc
          have hbranch := branch_wf hcutwf hrule hrulesnoc hne
          rw [hfront] at hbranch
          exact ⟨rfl, hbranch⟩
      · rw [if_neg hshort]
        have hrulepre : pre ++ pfx <+: rule.key := by
          apply prefix_of_match (prefix_of_snoc hkey) hpre
          · simp only [length_key]
            omega
          · intro q hq
            exact heq q (by omega)
        have hsnoc := prefix_snoc hrulepre (by simp only [List.length_append, length_key]; omega)
        rw [List.length_append, hlen] at hsnoc
        generalize rule.key.getD (pre.length + plen.toNat) 0 = c at hsnoc ⊢
        have hdepth : pre.length + plen.toNat + 1 = (pre ++ pfx ++ [c]).length := by
          simp [hlen, Nat.add_assoc]
        apply insert_below hstores htwo hlen hchild hsnoc hrule
        cases hf : findChild type num index children c with
        | none => rfl
        | some i =>
          have hv : v c = some (children i) := by
            rw [← hstores.view, hf]
            rfl
          have hnot : ¬ Holds rule (children i) := fun hh => hfresh (hstores.holds_iff.mpr ⟨c, _, hv, hh⟩)
          have hih := ih i (hchild c _ hv) hsnoc hnot
          rw [← hdepth] at hih
          exact ⟨_, hih, rfl⟩

theorem lengthen_holds (extra : UInt16) : Holds r (lengthen extra t) ↔ Holds r t := by
  cases t <;> rfl

/-- A child takes over the prefix of its parent and the key byte between them. -/
theorem lengthen_wf (h : Wf (pre ++ pfx ++ [c]) t) (hlen : pfx.length = plen.toNat) :
    Wf pre (lengthen (plen + 1) t) := by
  obtain ⟨r, -, hr⟩ := h.minimum
  obtain ⟨hrpre, hrn⟩ := h.of_holds hr
  cases h with
  | leaf hpath hnodup hnamed hpre =>
    rw [List.append_assoc] at hpre
    exact Wf.leaf hpath hnodup hnamed ((List.prefix_append _ _).trans hpre)
  | node below ks v hstores htwo hlen' hchild =>
    rename_i num plen' index children
    obtain ⟨d, a, hd, hra⟩ := hstores.holds_iff.mp hr
    obtain ⟨hkey, -⟩ := Wf.child_key hchild hd hra
    have hlt := prefixLen_lt hrn hkey
    simp only [List.length_append, List.length_singleton] at hlt
    apply Wf.node (pfx ++ c :: below) ks v hstores htwo
    · have hone : (1 : UInt16).toNat = 1 := rfl
      rw [UInt16.toNat_add, UInt16.toNat_add, hone]
      simp only [List.length_append, List.length_cons]
      omega
    · intro d a hd
      have hwf := hchild d a hd
      simpa using hwf

theorem removeLeaf_node {depth : Nat} (hdepth : depth + plen.toNat ≤ target.vPath.length)
    (hf : findChild type num index children (target.key.getD (depth + plen.toNat) 0) = some i)
    (hlive : (children i).isNull = false) :
    removeLeaf target (node type num plen index children) depth =
      if (removeLeaf target (children i) (depth + plen.toNat + 1)).isNull then
        removeChild type num plen index (Function.update children i null) i
          (target.key.getD (depth + plen.toNat) 0)
      else node type num plen index
        (Function.update children i (removeLeaf target (children i) (depth + plen.toNat + 1))) := by
  have hno : ¬ target.vPath.length < depth + plen.toNat := by omega
  simp only [removeLeaf, hno, if_false, hf, hlive, Bool.not_false, Bool.true_and]

/-- The outcome of a removal: a well-formed tree, or none at all, which holds the other rules. -/
def Removed (pre : Bytes) (target : Rule) (t t' : Art) : Prop :=
  (t' = null ∨ Wf pre t') ∧ ∀ r, Holds r t' ↔ Holds r t ∧ r ≠ target

theorem removed_absent (h : Wf pre t) (hno : ¬ Holds target t) : Removed pre target t t := by
  refine ⟨Or.inr h, ?_⟩
  intro r
  constructor
  · intro hr
    exact ⟨hr, fun hh => hno (by rw [← hh]; exact hr)⟩
  · intro ⟨hr, _⟩
    exact hr

theorem removed_first {first : Rule} {rest : List Rule} (h : Wf pre (leaf rule (first :: rest))) :
    Removed pre rule (leaf rule (first :: rest)) (leaf first rest) := by
  cases h with
  | leaf hpath hnodup hnamed hpre =>
    obtain ⟨hnot, hnext⟩ := List.nodup_cons.mp hnodup
    have hfirst := hpath first (by simp)
    constructor
    · right
      apply Wf.leaf
      · intro r hr
        rw [hpath r (List.mem_cons_of_mem _ hr), hfirst]
      · exact hnext
      · simp only [Named, hfirst]
        exact hnamed
      · simp only [Rule.key, hfirst]
        exact hpre
    · intro r
      simp only [Holds]
      constructor
      · intro hr
        exact ⟨List.mem_cons_of_mem _ hr, fun hh => hnot (by rw [← hh]; exact hr)⟩
      · intro ⟨hr, hne⟩
        exact (List.mem_cons.mp hr).resolve_left hne

theorem removed_later {next : List Rule} (h : Wf pre (leaf rule next)) (hne : rule ≠ target) :
    Removed pre target (leaf rule next) (leaf rule (next.erase target)) := by
  cases h with
  | leaf hpath hnodup hnamed hpre =>
    obtain ⟨hnot, hnext⟩ := List.nodup_cons.mp hnodup
    constructor
    · right
      apply Wf.leaf
      · intro r hr
        rcases List.mem_cons.mp hr with rfl | hr
        · rfl
        · exact hpath r (List.mem_cons_of_mem _ (List.mem_of_mem_erase hr))
      · exact List.nodup_cons.mpr ⟨fun hh => hnot (List.mem_of_mem_erase hh), hnext.erase target⟩
      · exact hnamed
      · exact hpre
    · intro r
      simp only [Holds, List.mem_cons, hnext.mem_erase_iff]
      constructor
      · intro hr
        rcases hr with rfl | ⟨hr', hr⟩
        · exact ⟨Or.inl rfl, hne⟩
        · exact ⟨Or.inr hr, hr'⟩
      · intro ⟨hr, hr'⟩
        rcases hr with rfl | hr
        · exact Or.inl rfl
        · exact Or.inr ⟨hr', hr⟩

theorem removeLeaf_leaf {next : List Rule} (h : Wf pre (leaf rule next)) (target : Rule) (depth : Nat) :
    Removed pre target (leaf rule next) (removeLeaf target (leaf rule next) depth) := by
  by_cases hsame : rule.vPath = target.vPath
  · by_cases heq : rule = target
    · subst heq
      cases next with
      | nil => simp [Removed, removeLeaf, Holds]
      | cons first rest =>
        have hred : removeLeaf rule (leaf rule (first :: rest)) depth = leaf first rest := by
          simp [removeLeaf]
        rw [hred]
        exact removed_first h
    · have hred : removeLeaf target (leaf rule next) depth = leaf rule (next.erase target) := by
        simp [removeLeaf, hsame, heq]
      rw [hred]
      exact removed_later h heq
  · have hred : removeLeaf target (leaf rule next) depth = leaf rule next := by
      simp [removeLeaf, hsame]
    rw [hred]
    refine removed_absent h fun hh => ?_
    cases h with
    | leaf hpath hnodup hnamed hpre => exact hsame (hpath target hh).symm

theorem Wf.unset (hchild : ∀ c a, v c = some a → Wf (pre ++ pfx ++ [c]) a) :
    ∀ d b, Function.update v c none d = some b → Wf (pre ++ pfx ++ [d]) b := by
  intro d b hd
  by_cases hdc : d = c
  · rw [hdc, Function.update_self] at hd
    cases hd
  · rw [Function.update_of_ne hdc] at hd
    exact hchild d b hd

section Descent

variable {a below : Art} (hstores : Stores type num index children ks v)
  (hother : ∀ d b, d ≠ c → v d = some b → ¬ Holds target b)

include hstores hother

/-- Without a child that held nothing else, a node holds the other rules. -/
theorem holds_unset (hv : v c = some a) (honly : ∀ r, Holds r a → r = target) :
    (∃ d b, Function.update v c none d = some b ∧ Holds r b) ↔ Holds r (node type num plen index children) ∧
    r ≠ target := by
  rw [hstores.holds_iff]
  constructor
  · intro ⟨d, b, hd, hr⟩
    by_cases hdc : d = c
    · rw [hdc, Function.update_self] at hd
      cases hd
    · rw [Function.update_of_ne hdc] at hd
      exact ⟨⟨d, b, hd, hr⟩, fun hh => hother d b hdc hd (by rw [← hh]; exact hr)⟩
  · intro ⟨⟨d, b, hd, hr⟩, hne⟩
    have hdc : d ≠ c := by
      intro hh
      rw [hh, hv] at hd
      rw [← Option.some.inj hd] at hr
      exact hne (honly r hr)
    exact ⟨d, b, by rw [Function.update_of_ne hdc, hd], hr⟩

omit hother in
theorem holds_single (hsingle : ks.length = 1) (hf : findChild type num index children d = some i) :
    (∃ e b, v e = some b ∧ Holds r b) ↔ Holds r (children i) := by
  have hvd : v d = some (children i) := by
    rw [← hstores.view, hf]
    rfl
  constructor
  · intro ⟨e, b, he, hr⟩
    obtain ⟨x, hx⟩ := List.length_eq_one_iff.mp hsingle
    have hmemd : d ∈ ks := (hstores.mem d).mpr ⟨_, hvd⟩
    have hmeme : e ∈ ks := (hstores.mem e).mpr ⟨_, he⟩
    rw [hx, List.mem_singleton] at hmemd hmeme
    rw [hmeme, ← hmemd, hvd] at he
    rw [Option.some.inj he]
    exact hr
  · intro hr
    exact ⟨d, _, hvd, hr⟩

variable (htwo : 2 ≤ ks.length) (hlen : pfx.length = plen.toNat)
  (hchild : ∀ c a, v c = some a → Wf (pre ++ pfx ++ [c]) a)
  (hf : findChild type num index children c = some i)

include htwo hlen hchild hf

/-- A child which held nothing else is dropped; of two children the other one takes the place of the node. -/
theorem removed_child (honly : ∀ r, Holds r (children i) → r = target) :
    Removed pre target (node type num plen index children)
    (removeChild type num plen index (Function.update children i null) i c) := by
  have hv : v c = some (children i) := by
    rw [← hstores.view, hf]
    rfl
  obtain ⟨index', children', hstores', hred⟩ := removeChild_spec hstores hf plen
  rw [hred]
  have hc : c ∈ ks := (hstores.mem c).mpr ⟨_, hv⟩
  have hcount := hstores'.count
  have hlen' := List.length_erase_of_mem hc
  have hle := length_le_of_nodup_bytes hstores.nodup
  by_cases hone : num - 1 = 1
  · rw [if_pos hone]
    have hnum : (num - 1).toNat = 1 := by rw [hone]; rfl
    have hsingle : (ks.erase c).length = 1 := by omega
    have hne : ks.erase c ≠ [] := by
      intro hnil
      simp [hnil] at hsingle
    obtain ⟨d, hd⟩ := firstSlot_spec hstores' hne
    have hvd : Function.update v c none d = some (children' (firstSlot type children')) := by
      rw [← hstores'.view, hd]
      rfl
    refine ⟨Or.inr (lengthen_wf (Wf.unset hchild d _ hvd) hlen), ?_⟩
    intro r
    rw [lengthen_holds, ← holds_single hstores' hsingle hd, holds_unset hstores hother hv honly]
  · rw [if_neg hone]
    have hmore : 2 ≤ (ks.erase c).length := by
      have hne : (ks.erase c).length ≠ 1 := by
        intro hh
        apply hone
        apply UInt8.toNat.inj
        rw [← hcount, hh]
        rfl
      omega
    refine ⟨Or.inr (Wf.node pfx _ _ hstores' hmore hlen (Wf.unset hchild)), ?_⟩
    intro r
    rw [hstores'.holds_iff, holds_unset hstores hother hv honly]

theorem removed_below (hwf : Wf (pre ++ pfx ++ [c]) below)
    (hholds : ∀ r, Holds r below ↔ Holds r (children i) ∧ r ≠ target) :
    Removed pre target (node type num plen index children)
      (node type num plen index (Function.update children i below)) := by
  have hv : v c = some (children i) := by
    rw [← hstores.view, hf]
    rfl
  have hstores' := hstores.replace hf hwf.live
  refine ⟨Or.inr (Wf.node pfx ks _ hstores' htwo hlen (Wf.set hchild hwf)), ?_⟩
  intro r
  rw [hstores'.holds_update, hstores.holds_iff, hholds]
  constructor
  · intro hr
    rcases hr with ⟨hr, hne⟩ | ⟨d, b, hdc, hd, hr⟩
    · exact ⟨⟨c, _, hv, hr⟩, hne⟩
    · exact ⟨⟨d, b, hd, hr⟩, fun hh => hother d b hdc hd (by rw [← hh]; exact hr)⟩
  · intro ⟨⟨d, b, hd, hr⟩, hne⟩
    by_cases hdc : d = c
    · rw [hdc, hv] at hd
      rw [← Option.some.inj hd] at hr
      exact Or.inl ⟨hr, hne⟩
    · exact Or.inr ⟨d, b, hdc, hd, hr⟩

end Descent

/-- Removing takes one rule out of the tree and nothing else, whether it is there or not. -/
theorem removeLeaf_spec (h : Wf pre t) (target : Rule) :
    Removed pre target t (removeLeaf target t pre.length) := by
  induction t generalizing pre with
  | null => cases h
  | leaf rule next => exact removeLeaf_leaf h target _
  | node type num plen index children ih =>
    have hwf := h
    cases h with
    | node pfx ks v hstores htwo hlen hchild =>
      have hbyte : ∀ c a, v c = some a → Holds target a →
          target.key.getD (pre.length + plen.toNat) 0 = c := by
        intro c a hc ha
        have hget := getD_of_snoc (Wf.child_key hchild hc ha).1
        rwa [List.length_append, hlen] at hget
      -- The descent misses the target only when it is not in the tree.
      by_cases hdeep : target.vPath.length < pre.length + plen.toNat
      · have hred : removeLeaf target (node type num plen index children) pre.length =
            node type num plen index children := by
          simp [removeLeaf, hdeep]
        rw [hred]
        refine removed_absent hwf fun hh => ?_
        obtain ⟨c, a, hc, ha⟩ := hstores.holds_iff.mp hh
        have hlt := length_lt_of_snoc (Wf.child_key hchild hc ha).1
        simp only [List.length_append, length_key] at hlt
        omega
      · cases hf : findChild type num index children (target.key.getD (pre.length + plen.toNat) 0) with
        | none =>
          have hred : removeLeaf target (node type num plen index children) pre.length =
              node type num plen index children := by
            simp only [removeLeaf, hdeep, if_false, hf]
          rw [hred]
          refine removed_absent hwf fun hh => ?_
          obtain ⟨c, a, hc, ha⟩ := hstores.holds_iff.mp hh
          rw [hbyte c a hc ha] at hf
          rw [← hstores.view, hf] at hc
          cases hc
        | some i =>
          have hv : v (target.key.getD (pre.length + plen.toNat) 0) = some (children i) := by
            rw [← hstores.view, hf]
            rfl
          rw [removeLeaf_node (by omega) hf (hstores.live_slot hf)]
          generalize target.key.getD (pre.length + plen.toNat) 0 = c at hbyte hf hv
          have hother : ∀ d b, d ≠ c → v d = some b → ¬ Holds target b :=
            fun d b hdc hd hb => hdc (hbyte d b hd hb).symm
          have hdepth : pre.length + plen.toNat + 1 = (pre ++ pfx ++ [c]).length := by
            simp [hlen, Nat.add_assoc]
          obtain ⟨hbelow, hholds⟩ := ih i (hchild c _ hv)
          rw [← hdepth] at hbelow hholds
          generalize removeLeaf target (children i) (pre.length + plen.toNat + 1) = below at hbelow hholds
          by_cases hnull : below.isNull = true
          · rw [if_pos hnull]
            obtain rfl : below = null := by
              cases below with
              | null => rfl
              | leaf => cases hnull
              | node => cases hnull
            refine removed_child hstores hother htwo hlen hchild hf fun r hr => ?_
            by_contra hne
            exact (hholds r).mpr ⟨hr, hne⟩
          · rw [if_neg hnull]
            have hwf' : Wf (pre ++ pfx ++ [c]) below := by
              apply hbelow.resolve_left
              intro hh
              rw [hh] at hnull
              exact hnull rfl
            exact removed_below hstores hother htwo hlen hchild hf hwf' hholds

end

end HybridMount.Vfs.Art
