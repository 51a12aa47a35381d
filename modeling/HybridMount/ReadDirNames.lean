import HybridMount.ReadDir

/-! However a reader cuts its reads, a directory delivers the stock names that no rule hides and
the names of the rules the reader sees, each once. -/

namespace HybridMount.Vfs.ReadDir

open LittleEndian ChildArray

theorem low_and_high (n : Nat) (hn : n < 2 ^ 32) : n &&& 0xFFFFFFFF00000000 = 0 := by
  have hmask : (0xFFFFFFFF00000000 : Nat) = 0xFFFFFFFF <<< 32 := rfl
  apply Nat.eq_of_testBit_eq
  intro i
  rw [hmask, Nat.testBit_and, Nat.testBit_shiftLeft, Nat.zero_testBit]
  by_cases hi : 32 ≤ i
  · rw [Nat.testBit_lt_two_pow (Nat.lt_of_lt_of_le hn (Nat.pow_le_pow_right (by decide) hi))]
    rfl
  · simp [hi]

@[simp] theorem isVirtualPos_pack (id : UInt32) : isVirtualPos (packPos id) = true := by
  have hlow := low_and_high id.toNat id.toNat_lt
  simp only [isVirtualPos, packPos, beq_iff_eq]
  apply UInt64.toNat_inj.mp
  rw [UInt64.toNat_and, UInt64.toNat_or, Nat.and_or_distrib_right]
  simp [hlow]
  decide

@[simp] theorem unpackPos_pack (id : UInt32) : unpackPos (packPos id) = id := by
  have hlow : id.toNat &&& 0xFFFFFFFF = id.toNat := by
    rw [show (0xFFFFFFFF : Nat) = 2 ^ 32 - 1 by rfl, Nat.and_two_pow_sub_one_eq_mod]
    exact Nat.mod_eq_of_lt id.toNat_lt
  have hsig : sig16.toNat <<< 48 % 18446744073709551616 &&& 4294967295 = 0 := by decide
  apply UInt32.toNat_inj.mp
  simp only [unpackPos, packPos]
  rw [UInt64.toNat_toUInt32, UInt64.toNat_and, UInt64.toNat_or, Nat.and_or_distrib_right]
  simp [hlow, hsig]

/-- The reader took the names `d`, for each of which it had room. -/
structure Takes (before after : DirContext) (d : List Bytes) : Prop where
  names : after.names = before.names ++ d
  room : after.room + d.length = before.room

theorem Takes.refl (ctx : DirContext) : Takes ctx ctx [] := ⟨by simp, rfl⟩

variable {a b c : DirContext} {d e : List Bytes} {name : Bytes} {i j : Nat}

theorem Takes.trans (h : Takes a b d) (h' : Takes b c e) : Takes a c (d ++ e) := by
  have hroom := h.room
  have hroom' := h'.room
  refine ⟨by rw [h'.names, h.names, List.append_assoc], ?_⟩
  rw [List.length_append]
  omega

theorem Takes.setPos (h : Takes a b d) (pos : UInt64) : Takes a (b.setPos pos) d := ⟨h.names, h.room⟩

theorem dirEmit_full (h : (dirEmit a name).1 = false) : a.room = 0 ∧ dirEmit a name = (false, a) := by
  unfold dirEmit at h ⊢
  cases hroom : a.room with
  | zero => simp
  | succ room => simp [hroom] at h

theorem dirEmit_takes (h : (dirEmit a name).1 = true) : Takes a (dirEmit a name).2 [name] := by
  unfold dirEmit at h ⊢
  cases hroom : a.room with
  | zero => simp [hroom] at h
  | succ room => exact ⟨rfl, hroom.symm⟩

theorem dirEmit_pos (ctx : DirContext) (name : Bytes) : (dirEmit ctx name).2.pos = ctx.pos := by
  unfold dirEmit
  split <;> rfl

/-- The stock names from entry `i` on which are not hidden. -/
def Stock.shown (S : Stock) (hide : Bytes → Bool) (i : Nat) : List Bytes :=
  (S.names.drop i).filter fun name => !hide name

section Pass

variable {σ : Type} {setPos : σ → UInt64 → σ} {actor : σ → Bytes → UInt64 → Bool × σ}

/-- An actor that keeps a reader and a position: hidden names pass by, others go to the reader. -/
structure Passes (setPos : σ → UInt64 → σ) (actor : σ → Bytes → UInt64 → Bool × σ)
    (reader : σ → DirContext) (cursor : σ → UInt64) (hide : Bytes → Bool) : Prop where
  reader_setPos : ∀ s pos, Takes (reader s) (reader (setPos s pos)) []
  cursor_setPos : ∀ s pos, cursor (setPos s pos) = pos
  hidden : ∀ s name pos, hide name = true →
    (actor s name pos).1 = true ∧ Takes (reader s) (reader (actor s name pos).2) []
  taken : ∀ s name pos, hide name = false → (actor s name pos).1 = true →
    Takes (reader s) (reader (actor s name pos).2) [name]
  refused : ∀ s name pos, hide name = false → (actor s name pos).1 = false →
    (reader (actor s name pos).2).room = 0 ∧ cursor (actor s name pos).2 = cursor s ∧
      Takes (reader s) (reader (actor s name pos).2) []

variable {reader : σ → DirContext} {cursor : σ → UInt64} {hide : Bytes → Bool} {S : Stock}

/-- The pass stops where the reader is full: what was to be shown is taken or still to come. -/
theorem iterateFrom_pass (h : Passes setPos actor reader cursor hide) (names : List Bytes)
    (hd : S.names.drop i = names) (hi : i ≤ S.names.length) (s : σ) :
    ∃ j d, j ≤ S.names.length ∧ cursor (iterateFrom setPos actor S.pos names i s) = S.pos j ∧
      Takes (reader s) (reader (iterateFrom setPos actor S.pos names i s)) d ∧
      S.shown hide i = d ++ S.shown hide j ∧
      (S.shown hide j ≠ [] → (reader (iterateFrom setPos actor S.pos names i s)).room = 0) := by
  induction names generalizing i s with
  | nil =>
    refine ⟨i, [], hi, h.cursor_setPos s _, h.reader_setPos s _, rfl, ?_⟩
    simp [Stock.shown, hd]
  | cons name names ih =>
    have hdrop := drop_succ hd
    have hlt : i < S.names.length := (List.getElem?_eq_some_iff.mp (get_of_drop hd)).1
    have hshown : S.shown hide i =
        if hide name then S.shown hide (i + 1) else name :: S.shown hide (i + 1) := by
      simp only [Stock.shown, hd, hdrop, List.filter_cons]
      cases hide name <;> simp
    have hset := h.reader_setPos s (S.pos i)
    rw [iterateFrom]
    cases hact : actor (setPos s (S.pos i)) name (S.pos i) with
    | mk ret next =>
      cases hhide : hide name with
      | true =>
        obtain ⟨hret, htakes⟩ := h.hidden (setPos s (S.pos i)) name (S.pos i) hhide
        rw [hact] at hret htakes
        obtain rfl : ret = true := hret
        obtain ⟨j, d, hj, hcur, hnext, hsplit, hfull⟩ := ih hdrop hlt next
        refine ⟨j, d, hj, hcur, (hset.trans htakes).trans hnext, ?_, hfull⟩
        rw [hshown, hhide]
        exact hsplit
      | false =>
        cases ret with
        | true =>
          have htakes := h.taken (setPos s (S.pos i)) name (S.pos i) hhide (by rw [hact])
          rw [hact] at htakes
          obtain ⟨j, d, hj, hcur, hnext, hsplit, hfull⟩ := ih hdrop hlt next
          refine ⟨j, name :: d, hj, hcur, (hset.trans htakes).trans hnext, ?_, hfull⟩
          rw [hshown, hhide]
          exact congrArg (name :: ·) hsplit
        | false =>
          obtain ⟨hroom, hcur, htakes⟩ :=
            h.refused (setPos s (S.pos i)) name (S.pos i) hhide (by rw [hact])
          rw [hact] at hroom hcur htakes
          exact ⟨i, [], hi, hcur.trans (h.cursor_setPos s _), hset.trans htakes, rfl, fun _ => hroom⟩

end Pass

variable {ρ : Type} {N : Naming ρ} {isWhiteout : ρ → Bool} {rs t : List ρ}
  {node : Option (ChildSet ρ)} {set : ChildSet ρ} {uid : UInt32} {S : Stock} {rule : ρ}

/-- The rule that a name in the directory stands for to a uid. -/
def seen (N : Naming ρ) (node : Option (ChildSet ρ)) (uid : UInt32) (name : Bytes) : Option ρ :=
  node.bind fun set => getRuleInfo N set name uid

/-- The children of a directory node, if it has one, in a number that the counter holds. -/
structure Children (N : Naming ρ) (node : Option (ChildSet ρ)) (rs : List ρ) : Prop where
  none : node = none → rs = []
  some : ∀ set, node = some set → Stores N set rs
  count : rs.length < 2 ^ 31

def hides (N : Naming ρ) (node : Option (ChildSet ρ)) (uid : UInt32) (name : Bytes) : Bool :=
  (seen N node uid name).isSome

theorem seen_mem (h : Stores N set rs) (hseen : seen N (some set) uid name = some rule) :
    rule ∈ rs ∧ N.name rule = name ∧ (N.uid rule = uid ∨ N.uid rule = 0) := by
  change getRuleInfo N set name uid = some rule at hseen
  rw [h.ruleInfo] at hseen
  cases hheld : held N rs name uid with
  | some found =>
    obtain ⟨hmem, hkey⟩ := (held_eq_some h.once).mp hheld
    obtain rfl : found = rule := by simpa [hheld] using hseen
    exact ⟨hmem, (Prod.mk.inj hkey).1, Or.inl (Prod.mk.inj hkey).2⟩
  | none =>
    have hzero : held N rs name 0 = some rule := by simpa [hheld] using hseen
    obtain ⟨hmem, hkey⟩ := (held_eq_some h.once).mp hzero
    exact ⟨hmem, (Prod.mk.inj hkey).1, Or.inr (Prod.mk.inj hkey).2⟩

/-- The filter never stops a name that stands for a rule, so a name is passed over if it does. -/
theorem actorProxy_eq (h : Children N node rs) (proxy : ProxyCtx) (pos : UInt64) :
    actorProxy N node false uid proxy name pos =
      if hides N node uid name then (true, { proxy with pos })
      else ((dirEmit { proxy.orig with pos := proxy.pos } name).1,
        { pos := proxy.pos, orig := (dirEmit { proxy.orig with pos := proxy.pos } name).2,
          emitted := true }) := by
  have hpos := dirEmit_pos { proxy.orig with pos := proxy.pos } name
  unfold actorProxy
  cases node with
  | none =>
    have hhides : hides N (none : Option (ChildSet ρ)) uid name = false := rfl
    simp only [hhides, Bool.false_eq_true, if_false]
    rw [hpos]
  | some set =>
    have hbloom : (set.bloomMask &&& bloomBit (N.hash name) != 0 &&
        (getRuleInfo N set name uid).isSome) = hides N (some set) uid name := by
      cases hseen : getRuleInfo N set name uid with
      | none => simp [hides, seen, hseen]
      | some rule =>
        obtain ⟨hmem, hname, -⟩ := seen_mem (h.some set rfl) hseen
        have hcovers := (h.some set rfl).bloom rule hmem
        rw [Naming.hashOf, hname] at hcovers
        simp [hides, seen, hseen, hcovers]
    simp only [Bool.not_false, Bool.true_and, hbloom]
    rw [hpos]

theorem actorProxy_passes (uid : UInt32) (h : Children N node rs) :
    Passes ProxyCtx.setPos (actorProxy N node false uid) ProxyCtx.orig ProxyCtx.pos
      (hides N node uid) := by
  constructor
  · intro proxy pos
    exact Takes.refl _
  · intro proxy pos
    rfl
  · intro proxy name pos hhide
    rw [actorProxy_eq h, if_pos hhide]
    exact ⟨rfl, Takes.refl _⟩
  · intro proxy name pos hhide hret
    rw [actorProxy_eq h, hhide, if_neg (by simp)] at hret ⊢
    have htakes := dirEmit_takes hret
    exact ⟨htakes.names, htakes.room⟩
  · intro proxy name pos hhide hret
    rw [actorProxy_eq h, hhide, if_neg (by simp)] at hret ⊢
    obtain ⟨hroom, heq⟩ := dirEmit_full hret
    simp only [heq]
    exact ⟨hroom, trivial, by simp, rfl⟩

theorem native_passes : Passes DirContext.setPos (fun ctx name _ => dirEmit ctx name) id
    DirContext.pos fun _ => false := by
  constructor
  · intro ctx pos
    exact ⟨by simp [DirContext.setPos], rfl⟩
  · intro ctx pos
    rfl
  · intro ctx name pos hhide
    simp at hhide
  · intro ctx name pos hhide hret
    exact dirEmit_takes hret
  · intro ctx name pos hhide hret
    obtain ⟨hroom, heq⟩ := dirEmit_full hret
    simp only [heq]
    exact ⟨hroom, trivial, Takes.refl _⟩

/-- The reader was asked as soon as there was a name to show. -/
theorem iterateFrom_emitted (uid : UInt32) (h : Children N node rs) (names : List Bytes) (pos : Nat → UInt64)
    (i : Nat) (proxy : ProxyCtx) :
    (iterateFrom ProxyCtx.setPos (actorProxy N node false uid) pos names i proxy).emitted =
      (proxy.emitted || !(names.filter fun name => !hides N node uid name).isEmpty) := by
  induction names generalizing i proxy with
  | nil => simp [iterateFrom, ProxyCtx.setPos]
  | cons name names ih =>
    rw [iterateFrom, actorProxy_eq h]
    cases hhide : hides N node uid name with
    | true => simp [ih, hhide, ProxyCtx.setPos]
    | false =>
      simp only [Bool.false_eq_true, if_false]
      cases hret : (dirEmit { (proxy.setPos (pos i)).orig with pos := (proxy.setPos (pos i)).pos }
          name).1 with
      | true => simp [ih, hhide]
      | false => simp [hhide]

theorem childSlots_nil (h : Stores N set rs) (hd : rs.drop i = []) :
    ¬ i < (childSlots set.children).1 := by
  have hholds := h.holds
  rw [List.drop_eq_nil_iff] at hd
  cases hc : set.children with
  | null => simp [childSlots]
  | single old =>
    rw [hc] at hholds
    obtain rfl : rs = [old] := hholds
    simp only [childSlots]
    simp at hd
    omega
  | slots arr =>
    rw [hc] at hholds
    have hcount := hholds.count
    simp only [childSlots]
    omega

theorem childSlots_cons (h : Stores N set rs) (hd : rs.drop i = rule :: t) :
    i < (childSlots set.children).1 ∧ (childSlots set.children).2 i = some rule := by
  have hholds := h.holds
  cases hc : set.children with
  | null =>
    rw [hc] at hholds
    obtain rfl : rs = [] := hholds
    simp at hd
  | single old =>
    rw [hc] at hholds
    obtain rfl : rs = [old] := hholds
    cases i with
    | zero =>
      obtain ⟨rfl, -⟩ := List.cons.inj hd
      simp [childSlots]
    | succ i => simp at hd
  | slots arr =>
    rw [hc] at hholds
    have hat := hholds.at_cons hd
    exact ⟨hat.1, hat.2.2⟩

variable [DecidableEq ρ]

/-- A rule is listed if its name stands for it. -/
theorem isResolved_iff (uid : UInt32) (h : Stores N set rs) (hd : rs.drop i = rule :: t) :
    ((N.uid rule = 0 ∨ N.uid rule = uid) ∧ isResolved N set.children i rule uid = true) ↔
      seen N (some set) uid (N.name rule) = some rule := by
  change _ ↔ getRuleInfo N set (N.name rule) uid = some rule
  have hholds := h.holds
  unfold getRuleInfo
  cases hc : set.children with
  | null =>
    rw [hc] at hholds
    obtain rfl : rs = [] := hholds
    simp at hd
  | single old =>
    rw [hc] at hholds
    obtain rfl : rs = [old] := hholds
    have hmem : rule ∈ [old] := List.mem_of_getElem? (get_of_drop hd)
    obtain rfl := List.mem_singleton.mp hmem
    simp [isResolved]
  | slots arr =>
    rw [hc] at hholds
    have hhash := (hholds.at_cons hd).2.1
    simp only [isResolved, hhash, decide_eq_true_eq, Option.filter_eq_some_iff]
    exact and_comm

/-- The children from slot `id` on that the reader is given. -/
def childNames (N : Naming ρ) (isWhiteout : ρ → Bool) (node : Option (ChildSet ρ)) (uid : UInt32)
    (rs : List ρ) (id : Nat) : List Bytes :=
  ((rs.drop id).filter fun rule =>
    seen N node uid (N.name rule) = some rule && !isWhiteout rule).map N.name

theorem childNames_cons (N : Naming ρ) (isWhiteout : ρ → Bool) (node : Option (ChildSet ρ))
    (uid : UInt32) (hd : rs.drop i = rule :: t) :
    childNames N isWhiteout node uid rs i =
      if seen N node uid (N.name rule) = some rule ∧ isWhiteout rule = false then
        N.name rule :: childNames N isWhiteout node uid rs (i + 1)
      else childNames N isWhiteout node uid rs (i + 1) := by
  simp only [childNames, hd, drop_succ hd, List.filter_cons]
  by_cases hseen : seen N node uid (N.name rule) = some rule
  · cases hw : isWhiteout rule <;> simp [hseen]
  · simp [hseen]

/-- The position is a packed one, of slot `id`. -/
structure Packed (pos : UInt64) (id : Nat) : Prop where
  isVirtual : isVirtualPos pos = true
  unpack : (unpackPos pos).toNat = id

theorem packed_pack (h : i < 2 ^ 32) : Packed (packPos (UInt32.ofNat i)) i :=
  ⟨isVirtualPos_pack _, by rw [unpackPos_pack, UInt32.toNat_ofNat_of_lt' h]⟩

/-- The emission stops where the reader is full: the children are taken or still to come. -/
theorem emitFrom_children (h : Stores N set rs) (hcount : rs.length < 2 ^ 31) (t : List ρ)
    (hd : rs.drop i = t) (ctx : DirContext) (hpos : Packed ctx.pos i) :
    ∃ j d, Packed (emitFrom N isWhiteout set.children uid i ctx).pos j ∧
      Takes ctx (emitFrom N isWhiteout set.children uid i ctx) d ∧
      childNames N isWhiteout (some set) uid rs i =
        d ++ childNames N isWhiteout (some set) uid rs j ∧
      (childNames N isWhiteout (some set) uid rs j ≠ [] →
        (emitFrom N isWhiteout set.children uid i ctx).room = 0) := by
  induction t generalizing i ctx with
  | nil =>
    rw [emitFrom, dif_neg (childSlots_nil h hd)]
    refine ⟨i, [], hpos, Takes.refl _, rfl, ?_⟩
    simp [childNames, hd]
  | cons rule t ih =>
    obtain ⟨hlt, hrule⟩ := childSlots_cons h hd
    have hlen : i < rs.length := (List.getElem?_eq_some_iff.mp (get_of_drop hd)).1
    have hat : Packed (packPos (UInt32.ofNat i)) i := packed_pack (by omega)
    have hnext : Packed (packPos (UInt32.ofNat (i + 1))) (i + 1) := packed_pack (by omega)
    have hset : Takes ctx (ctx.setPos (packPos (UInt32.ofNat i))) [] := (Takes.refl ctx).setPos _
    have hcons := childNames_cons N isWhiteout (some set) uid hd
    have hiff := isResolved_iff uid h hd
    rw [emitFrom, dif_pos hlt, hrule]
    simp only
    split
    next hemit =>
      rw [if_pos ⟨hiff.mp ⟨hemit.1, hemit.2.1⟩, hemit.2.2⟩] at hcons
      cases hret : dirEmit (ctx.setPos (packPos (UInt32.ofNat i))) (N.name rule) with
      | mk ret after =>
        cases ret with
        | true =>
          have htakes := dirEmit_takes (congrArg Prod.fst hret)
          rw [hret] at htakes
          obtain ⟨j, d, hj, hmore, hsplit, hfull⟩ := ih (drop_succ hd)
            (after.setPos (packPos (UInt32.ofNat (i + 1)))) hnext
          refine ⟨j, N.name rule :: d, hj, (hset.trans (htakes.setPos _)).trans hmore, ?_, hfull⟩
          rw [hcons, hsplit]
          rfl
        | false =>
          obtain ⟨hroom, heq⟩ := dirEmit_full (congrArg Prod.fst hret)
          obtain rfl : after = ctx.setPos (packPos (UInt32.ofNat i)) :=
            congrArg Prod.snd (hret.symm.trans heq)
          exact ⟨i, [], hat, hset, rfl, fun _ => hroom⟩
    next hskip =>
      rw [if_neg fun hall => hskip ⟨(hiff.mpr hall.1).1, (hiff.mpr hall.1).2, hall.2⟩] at hcons
      obtain ⟨j, d, hj, hmore, hsplit, hfull⟩ := ih (drop_succ hd)
        ((ctx.setPos (packPos (UInt32.ofNat i))).setPos (packPos (UInt32.ofNat (i + 1)))) hnext
      refine ⟨j, d, hj, ((hset.setPos _).trans hmore), ?_, hfull⟩
      rw [hcons]
      exact hsplit

/-- The reader took the front of what remained, and something if it had room and there was any. -/
def Delivers (remaining : UInt64 → List Bytes) (before after : DirContext) : Prop :=
  ∃ d, Takes before after d ∧ remaining before.pos = d ++ remaining after.pos ∧
    (d = [] → before.room ≠ 0 → remaining before.pos = [])

theorem delivers_of_full {remaining : UInt64 → List Bytes} (htakes : Takes a b d)
    (hsplit : remaining a.pos = d ++ remaining b.pos)
    (hfull : remaining b.pos ≠ [] → b.room = 0) : Delivers remaining a b := by
  refine ⟨d, htakes, hsplit, ?_⟩
  intro hd hroom
  subst hd
  have hsame := htakes.room
  rw [hsplit, List.nil_append]
  by_contra hne
  have hzero := hfull hne
  simp at hsame
  omega

/-- What a reader of a directory with stock names has still to come at a position. -/
def remainingOf (N : Naming ρ) (isWhiteout : ρ → Bool) (S : Stock) (node : Option (ChildSet ρ))
    (uid : UInt32) (rs : List ρ) (pos : UInt64) : List Bytes :=
  if isVirtualPos pos then childNames N isWhiteout node uid rs (unpackPos pos).toNat
  else S.shown (hides N node uid) (min (S.resume pos) S.names.length) ++
    childNames N isWhiteout node uid rs 0

theorem emitVirtualChildren_children (h : Children N node rs) (ctx : DirContext)
    (hv : isVirtualPos ctx.pos = true) :
    isVirtualPos (emitVirtualChildren N isWhiteout node false uid ctx).pos = true ∧
      ∃ d, Takes ctx (emitVirtualChildren N isWhiteout node false uid ctx) d ∧
        childNames N isWhiteout node uid rs (unpackPos ctx.pos).toNat = d ++
          childNames N isWhiteout node uid rs
            (unpackPos (emitVirtualChildren N isWhiteout node false uid ctx).pos).toNat ∧
        (childNames N isWhiteout node uid rs
            (unpackPos (emitVirtualChildren N isWhiteout node false uid ctx).pos).toNat ≠ [] →
          (emitVirtualChildren N isWhiteout node false uid ctx).room = 0) := by
  unfold emitVirtualChildren
  cases node with
  | none =>
    obtain rfl : rs = [] := h.none rfl
    exact ⟨hv, [], Takes.refl _, rfl, by simp [childNames]⟩
  | some set =>
    obtain ⟨j, d, hpacked, htakes, hsplit, hfull⟩ := emitFrom_children (N := N)
      (i := (unpackPos ctx.pos).toNat) (h.some set rfl) h.count _ rfl ctx ⟨hv, rfl⟩
    simp only [Bool.false_eq_true, if_false, hv, if_true]
    refine ⟨hpacked.isVirtual, d, htakes, ?_, ?_⟩
    · rw [hpacked.unpack]
      exact hsplit
    · rw [hpacked.unpack]
      exact hfull

theorem emitVirtualChildren_delivers (isWhiteout : ρ → Bool) (uid : UInt32)
    (h : Children N node rs) (ctx : DirContext)
    (remaining : UInt64 → List Bytes) (hv : isVirtualPos ctx.pos = true)
    (hrem : ∀ pos, isVirtualPos pos = true →
      remaining pos = childNames N isWhiteout node uid rs (unpackPos pos).toNat) :
    Delivers remaining ctx (emitVirtualChildren N isWhiteout node false uid ctx) := by
  obtain ⟨hv', d, htakes, hsplit, hfull⟩ := emitVirtualChildren_children h ctx hv
  apply delivers_of_full htakes
  · rw [hrem _ hv, hrem _ hv']
    exact hsplit
  · rw [hrem _ hv']
    exact hfull

/-- Going on to the children once all that comes before them is taken. -/
theorem children_delivers {remaining : UInt64 → List Bytes} (h : Children N node rs)
    (htakes : Takes a b e) (hdone : remaining a.pos = e ++ childNames N isWhiteout node uid rs 0)
    (hrem : ∀ pos, isVirtualPos pos = true →
      remaining pos = childNames N isWhiteout node uid rs (unpackPos pos).toNat) :
    Delivers remaining a
      (emitVirtualChildren N isWhiteout node false uid (b.setPos (packPos 0))) := by
  obtain ⟨d, hmore, hsplit, hprogress⟩ := emitVirtualChildren_delivers isWhiteout uid h
    (b.setPos (packPos 0)) remaining (isVirtualPos_pack 0) hrem
  have hstart : remaining (b.setPos (packPos 0)).pos =
      childNames N isWhiteout node uid rs 0 := by
    change remaining (packPos 0) = _
    rw [hrem _ (isVirtualPos_pack 0), unpackPos_pack]
    rfl
  rw [hstart] at hsplit hprogress
  refine ⟨e ++ d, (htakes.setPos _).trans hmore, ?_, ?_⟩
  · rw [hdone, hsplit, List.append_assoc]
  · intro hd hne
    obtain ⟨rfl, hd⟩ := List.append_eq_nil_iff.mp hd
    rw [hdone, List.nil_append]
    have hroom := htakes.room
    apply hprogress hd
    simp only [DirContext.setPos]
    simp at hroom
    omega

theorem proxied_delivers (h : Children N node rs) (ctx : DirContext)
    (hv : isVirtualPos ctx.pos = false) :
    Delivers (remainingOf N isWhiteout S node uid rs) ctx
      (proxied N isWhiteout S node false uid ctx) := by
  have hstart : remainingOf N isWhiteout S node uid rs ctx.pos =
      S.shown (hides N node uid) (min (S.resume ctx.pos) S.names.length) ++
        childNames N isWhiteout node uid rs 0 := by
    rw [remainingOf, hv]
    rfl
  obtain ⟨j, d, hj, hcur, htakes, hsplit, hfull⟩ := iterateFrom_pass (actorProxy_passes uid h)
    (S.names.drop (min (S.resume ctx.pos) S.names.length)) rfl (Nat.min_le_right _ _)
    ⟨ctx.pos, ctx, false⟩
  have hemit := iterateFrom_emitted uid h
    (S.names.drop (min (S.resume ctx.pos) S.names.length)) S.pos
    (min (S.resume ctx.pos) S.names.length) ⟨ctx.pos, ctx, false⟩
  unfold proxied Stock.iterate
  simp only
  split
  next hemitted =>
    have hstop : remainingOf N isWhiteout S node uid rs (S.pos j) =
        S.shown (hides N node uid) j ++ childNames N isWhiteout node uid rs 0 := by
      rw [remainingOf, S.unpacked j hj, S.resume_pos j hj, Nat.min_eq_left hj]
      rfl
    refine ⟨d, htakes.setPos _, ?_, ?_⟩
    · rw [hstart, hsplit]
      simp only [DirContext.setPos]
      rw [hcur, hstop, List.append_assoc]
    · intro hd hroom
      subst hd
      rw [hemitted] at hemit
      have hsome : S.shown (hides N node uid) j ≠ [] := by
        intro hnone
        rw [hnone] at hsplit
        simp only [Stock.shown] at hsplit
        simp [hsplit] at hemit
      have hzero := hfull hsome
      have hsame := htakes.room
      simp at hsame
      omega
  next hpassed =>
    rw [Bool.not_eq_true] at hpassed
    rw [hpassed] at hemit
    have hnone : S.shown (hides N node uid) (min (S.resume ctx.pos) S.names.length) = [] := by
      simpa [Stock.shown] using hemit
    rw [hnone] at hsplit
    obtain ⟨rfl, -⟩ := List.append_eq_nil_iff.mp hsplit.symm
    apply children_delivers h (htakes.setPos _)
    · rw [hstart, hnone, List.nil_append]
    · intro pos hpos
      rw [remainingOf, hpos]
      rfl

omit [DecidableEq ρ] in
theorem rs_nil_of_bloom (h : Stores N set rs) (hmask : set.bloomMask = 0) : rs = [] := by
  cases rs with
  | nil => rfl
  | cons rule rs =>
    have hcovers := h.bloom rule List.mem_cons_self
    simp [hmask] at hcovers

omit [DecidableEq ρ] in
theorem hides_nil (h : Stores N set []) : hides N (some set) uid = fun _ => false := by
  funext name
  cases hseen : seen N (some set) uid name with
  | none => simp [hides, hseen]
  | some rule => exact absurd (seen_mem h hseen).1 (by simp)

theorem native_delivers (h : Stores N set []) (ctx : DirContext)
    (hv : isVirtualPos ctx.pos = false) :
    Delivers (remainingOf N isWhiteout S (some set) uid []) ctx (nativeIterate S ctx) := by
  obtain ⟨j, d, hj, hcur, htakes, hsplit, hfull⟩ := iterateFrom_pass native_passes
    (S.names.drop (min (S.resume ctx.pos) S.names.length)) rfl (Nat.min_le_right _ _) ctx
  have hstop : remainingOf N isWhiteout S (some set) uid [] (S.pos j) =
      S.shown (fun _ => false) j := by
    rw [remainingOf, S.unpacked j hj, S.resume_pos j hj, Nat.min_eq_left hj, hides_nil h]
    simp [childNames]
  apply delivers_of_full htakes
  · change remainingOf N isWhiteout S (some set) uid [] ctx.pos =
      d ++ remainingOf N isWhiteout S (some set) uid [] (nativeIterate S ctx).pos
    rw [show (nativeIterate S ctx).pos = S.pos j from hcur, hstop, ← hsplit, remainingOf, hv,
      hides_nil h]
    simp [childNames]
  · change remainingOf N isWhiteout S (some set) uid [] (nativeIterate S ctx).pos ≠ [] → _
    rw [show (nativeIterate S ctx).pos = S.pos j from hcur, hstop]
    exact hfull

theorem hijackedIterateDir_delivers (h : Children N (some set) rs) (ctx : DirContext) :
    Delivers (remainingOf N isWhiteout S (some set) uid rs) ctx
      (hijackedIterateDir N isWhiteout S set false uid ctx).2 := by
  unfold hijackedIterateDir
  cases hv : isVirtualPos ctx.pos with
  | true =>
    apply emitVirtualChildren_delivers isWhiteout uid h ctx _ hv
    intro pos hpos
    rw [remainingOf, hpos]
    rfl
  | false =>
    simp only [Bool.false_eq_true, if_false, false_or]
    split
    next hmask =>
      obtain rfl := rs_nil_of_bloom (h.some set rfl) hmask
      exact native_delivers (h.some set rfl) ctx hv
    next => exact proxied_delivers h ctx hv

def dotsFrom (pos : UInt64) : List Bytes :=
  if pos = 0 then [[46], [46, 46]] else if pos = 1 then [[46, 46]] else []

theorem dirEmit_cases (ctx : DirContext) (name : Bytes) :
    (ctx.room = 0 ∧ dirEmit ctx name = (false, ctx)) ∨
      ∃ after, dirEmit ctx name = (true, after) ∧ Takes ctx after [name] := by
  cases hret : dirEmit ctx name with
  | mk ret after =>
    cases ret with
    | true =>
      have htakes := dirEmit_takes (congrArg Prod.fst hret)
      rw [hret] at htakes
      exact Or.inr ⟨after, rfl, htakes⟩
    | false =>
      obtain ⟨hroom, heq⟩ := dirEmit_full (congrArg Prod.fst hret)
      exact Or.inl ⟨hroom, hret.symm.trans heq⟩

theorem isVirtualPos_one : isVirtualPos 1 = false := by decide

/-- Both dots are taken, or the reader was full before one of them. -/
theorem dirEmitDots_takes (ctx : DirContext) (hv : isVirtualPos ctx.pos = false) :
    ((dirEmitDots ctx).1 = true ∧ Takes ctx (dirEmitDots ctx).2 (dotsFrom ctx.pos)) ∨
      ((dirEmitDots ctx).1 = false ∧ (dirEmitDots ctx).2.room = 0 ∧
        isVirtualPos (dirEmitDots ctx).2.pos = false ∧
        ∃ d, Takes ctx (dirEmitDots ctx).2 d ∧
          dotsFrom ctx.pos = d ++ dotsFrom (dirEmitDots ctx).2.pos) := by
  unfold dirEmitDots
  by_cases hzero : ctx.pos = 0
  · simp only [hzero, if_true]
    obtain ⟨hroom, hret⟩ | ⟨dot, hret, htakes⟩ := dirEmit_cases ctx [46]
    · simp only [hret]
      exact Or.inr ⟨trivial, hroom, hv, [], Takes.refl _, by rw [hzero]; rfl⟩
    · simp only [hret, DirContext.setPos, if_true]
      obtain ⟨hroom, hret'⟩ | ⟨dots, hret', htakes'⟩ := dirEmit_cases (dot.setPos 1) [46, 46]
      · simp only [DirContext.setPos] at hret' hroom
        simp only [hret']
        exact Or.inr ⟨trivial, hroom, isVirtualPos_one, [[46]], htakes.setPos 1, rfl⟩
      · simp only [DirContext.setPos] at hret'
        simp only [hret']
        exact Or.inl ⟨trivial, ((htakes.setPos 1).trans htakes').setPos 2⟩
  · simp only [if_neg hzero]
    by_cases hone : ctx.pos = 1
    · simp only [hone, if_true]
      obtain ⟨hroom, hret⟩ | ⟨dots, hret, htakes⟩ := dirEmit_cases ctx [46, 46]
      · simp only [hret]
        exact Or.inr ⟨trivial, hroom, hv, [], Takes.refl _, by rw [hone]; rfl⟩
      · simp only [hret]
        exact Or.inl ⟨trivial, htakes.setPos 2⟩
    · simp only [if_neg hone]
      refine Or.inl ⟨trivial, ?_⟩
      rw [dotsFrom, if_neg hzero, if_neg hone]
      exact Takes.refl _

/-- What a reader of the directory has still to come at a position. -/
def remaining (N : Naming ρ) (isWhiteout : ρ → Bool) (dir : Directory ρ) (uid : UInt32)
    (rs : List ρ) (pos : UInt64) : List Bytes :=
  match dir.stock with
  | some S => remainingOf N isWhiteout S dir.node uid rs pos
  | none =>
    if isVirtualPos pos then childNames N isWhiteout dir.node uid rs (unpackPos pos).toNat
    else dotsFrom pos ++ childNames N isWhiteout dir.node uid rs 0

theorem remaining_virtual (dir : Directory ρ) (pos : UInt64) (hpos : isVirtualPos pos = true) :
    remaining N isWhiteout dir uid rs pos =
      childNames N isWhiteout dir.node uid rs (unpackPos pos).toNat := by
  unfold remaining
  cases dir.stock with
  | some S => simp only [remainingOf, hpos, if_true]
  | none => simp only [hpos, if_true]

/-- A virtual directory gives its dots and then its children. -/
theorem dots_delivers {dir : OpenDir ρ} (h : Children N dir.node rs) (hreal : dir.real = none)
    (ctx : DirContext) (hv : isVirtualPos ctx.pos = false) (hvirtual : dir.virtualDir = true) :
    Delivers (remaining N isWhiteout (.ofRule dir) uid rs) ctx
      (dirIterateDir N isWhiteout dir false uid ctx).2 := by
  have hrem (pos : UInt64) (hpos : isVirtualPos pos = false) :
      remaining N isWhiteout (.ofRule dir) uid rs pos =
        dotsFrom pos ++ childNames N isWhiteout dir.node uid rs 0 := by
    simp only [remaining, Directory.stock, hreal, hpos, Bool.false_eq_true, if_false]
    rfl
  have hgo {after : DirContext} (htakes : Takes ctx after (dotsFrom ctx.pos)) :
      Delivers (remaining N isWhiteout (.ofRule dir) uid rs) ctx
        (emitVirtualChildren N isWhiteout dir.node false uid (after.setPos (packPos 0))) := by
    apply children_delivers h htakes (hrem _ hv)
    intro pos hpos
    rw [remaining_virtual _ pos hpos]
    rfl
  simp only [dirIterateDir, Bool.false_eq_true, if_false, hv, hreal, hvirtual, if_true]
  by_cases hlow : ctx.pos.toInt64 < 2
  · rw [if_pos hlow]
    obtain ⟨hret, htakes⟩ | ⟨hret, hroom, hafter, d, htakes, hsplit⟩ := dirEmitDots_takes ctx hv
    · cases hdots : dirEmitDots ctx with
      | mk ret after =>
        rw [hdots] at hret htakes
        obtain rfl : ret = true := hret
        exact hgo htakes
    · cases hdots : dirEmitDots ctx with
      | mk ret after =>
        rw [hdots] at hret hroom hafter htakes hsplit
        obtain rfl : ret = false := hret
        apply delivers_of_full htakes
        · rw [hrem _ hv, hrem _ hafter, hsplit, List.append_assoc]
        · exact fun _ => hroom
  · rw [if_neg hlow]
    have hnone : dotsFrom ctx.pos = [] := by
      rw [dotsFrom, if_neg, if_neg]
      · intro hpos
        rw [hpos] at hlow
        exact hlow (by decide)
      · intro hpos
        rw [hpos] at hlow
        exact hlow (by decide)
    apply hgo
    rw [hnone]
    exact Takes.refl _

theorem iterate_delivers (dir : Directory ρ) (h : Children N dir.node rs)
    (hopen : dir.stock = none → dir.virtualDir = true) (ctx : DirContext) :
    Delivers (remaining N isWhiteout dir uid rs) ctx
      (dir.iterate N isWhiteout false uid ctx).2 := by
  cases dir with
  | hooked S set => exact hijackedIterateDir_delivers h ctx
  | ofRule dir =>
    cases hv : isVirtualPos ctx.pos with
    | true =>
      simp only [Directory.iterate, dirIterateDir, Bool.false_eq_true, if_false, hv, if_true]
      exact emitVirtualChildren_delivers isWhiteout uid h ctx _ hv (remaining_virtual _)
    | false =>
      cases hreal : dir.real with
      | some S =>
        have heq : remaining N isWhiteout (.ofRule dir) uid rs =
            remainingOf N isWhiteout S dir.node uid rs := by
          funext pos
          simp only [remaining, Directory.stock, hreal]
          rfl
        simp only [Directory.iterate, dirIterateDir, Bool.false_eq_true, if_false, hv, hreal]
        rw [heq]
        exact proxied_delivers h ctx hv
      | none => exact dots_delivers h hreal ctx hv (hopen hreal)

theorem getdents_exact (isWhiteout : ρ → Bool) (uid : UInt32) (dir : Directory ρ) (h : Children N dir.node rs)
    (hopen : dir.stock = none → dir.virtualDir = true) :
    CursorReads.Exact (getdents N isWhiteout dir false uid)
      (remaining N isWhiteout dir uid rs) := by
  constructor
  · intro room pos
    obtain ⟨d, htakes, hsplit, -⟩ := iterate_delivers dir h hopen ⟨pos, room, []⟩
    simp only [getdents]
    rw [htakes.names, List.nil_append]
    exact hsplit.symm
  · intro room pos hnone
    obtain ⟨d, htakes, -, hprogress⟩ := iterate_delivers dir h hopen ⟨pos, room + 1, []⟩
    simp only [getdents] at hnone
    rw [htakes.names, List.nil_append] at hnone
    exact hprogress hnone (by simp)

end HybridMount.Vfs.ReadDir
