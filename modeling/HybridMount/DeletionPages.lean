import HybridMount.DeletionFrame

/-! When a page of deletions does what its records ask for. -/

namespace HybridMount.Vfs.Kernel

open LittleEndian

section

variable {held : Nat → Prop} {k : Kernel} {rule : Rule} {env : Nat → Answers} {target : Target}

/-- What one record has to do: every explicit rule which it names is found and goes, nothing else is taken
for it, and no directory node is used that has been freed. -/
structure Deletes (held : Nat → Prop) (env : Nat → Answers) (target : Target) (k : Kernel) : Prop where
  gone : ∀ rule, Sought target k rule → Explicit rule → lookup target k = some rule ∧
    rule ∉ (delRule env target.vPath target.beyond target.uid k).2.rules
  named : ∀ rule, lookup target k = some rule → Sought target k rule
  intact : ∀ rule, lookup target k = some rule → ∀ d ∈ delReads env rule k, ¬ GivenBack held k d

/-- Every explicit rule with the record's path and uid is where the lookup gets to and can be taken away, and
the nodes around the rule that the lookup gets to are still there. -/
structure Deletable (held : Nat → Prop) (env : Nat → Answers) (target : Target) (k : Kernel) : Prop where
  found : ∀ rule, Sought target k rule → Explicit rule → Reaches target k rule ∧ CanLeave env k rule
  standing : ∀ rule, Reaches target k rule → Standing held env rule k

theorem deletes_iff (h : Synced k) (hh : Housed k) : Deletes held env target k ↔
    Deletable held env target k := by
  constructor
  · intro hdel
    refine ⟨fun rule hsought hexplicit => ?_, fun rule hreach =>
      (standing_iff hh h held env rule).mp (hdel.intact rule ((lookup_iff h).mpr hreach))⟩
    obtain ⟨hl, hgone⟩ := hdel.gone rule hsought hexplicit
    refine ⟨(lookup_iff h).mp hl, ?_⟩
    rcases delRule_cases h env target with ⟨hnone, -⟩ | ⟨found, hfound, hcase⟩
    · rw [hnone] at hl
      cases hl
    · have heq : found = rule := Option.some.inj (hfound.symm.trans hl)
      subst heq
      rcases hcase with ⟨-, -, hsame⟩ | ⟨-, -, -, hkept⟩ | ⟨hleave, -⟩
      · rw [hsame] at hgone
        exact absurd hsought.1 hgone
      · exact absurd hkept hgone
      · exact hleave
  · intro hdel
    refine ⟨fun rule hsought hexplicit => ?_, fun rule => sought_of_lookup h, fun rule hl =>
      (standing_iff hh h held env rule).mpr (hdel.standing rule ((lookup_iff h).mp hl))⟩
    obtain ⟨hreach, hleave⟩ := hdel.found rule hsought hexplicit
    have hl := (lookup_iff h).mpr hreach
    refine ⟨hl, ?_⟩
    rcases delRule_cases h env target with ⟨hnone, -⟩ | ⟨found, hfound, hcase⟩
    · rw [hnone] at hl
      cases hl
    · have heq : found = rule := Option.some.inj (hfound.symm.trans hl)
      subst heq
      rcases hcase with ⟨hchildren, hflags, -⟩ | ⟨hnot, -⟩ | ⟨-, -, hgone, -⟩
      · exact absurd hflags (hleave hchildren).1
      · exact absurd hleave hnot
      · exact hgone

/-- When the named rules can go, the record succeeds, and it retires a rule exactly
when its lookup gets to a removable one. -/
theorem delRule_deletable (h : Synced k) (hdel : Deletable held env target k) :
    (delRule env target.vPath target.beyond target.uid k).1 = 0 ∧
      ((delRule env target.vPath target.beyond target.uid k).2.victims = [] ↔
        k.victims = [] ∧ ∀ rule, lookup target k = some rule → ¬ Removable k rule) := by
  rcases delRule_cases h env target with ⟨hnone, hsame⟩ | ⟨found, hfound, hcase⟩
  · rw [hsame]
    simp [hnone]
  · have hsought := sought_of_lookup h hfound
    have hreach : Explicit found → CanLeave env k found :=
      fun hexplicit => (hdel.found found hsought hexplicit).2
    simp only [hfound, Option.some.injEq, forall_eq']
    rcases hcase with ⟨hchildren, hflags, hsame⟩ | ⟨hnot, hflags, -⟩ | ⟨hleave, hzero, -, more, hmore⟩
    · rw [hsame]
      refine ⟨rfl, ⟨fun hnil => ⟨hnil, ?_⟩, fun hh => hh.1⟩⟩
      rintro (hfree | hexplicit)
      · rw [hchildren] at hfree
        cases hfree
      · exact (hreach hexplicit hchildren).1 hflags
    · exact absurd (hreach fun hh => hflags hh.1) hnot
    · refine ⟨hzero, ?_⟩
      rw [hmore]
      have hremovable : Removable k found := by
        cases hc : k.hasChildren found with
        | false => exact Or.inl hc
        | true => exact Or.inr fun hh => (hleave hc).1 hh.1
      simp [hremovable]

end

/-- The named explicit rules go and no others are taken for them; the answer is `ENOENT`
exactly when no record names a rule that can be removed, and else a success. -/
structure DeletesNamed (held : Nat → Prop) (env : Nat → Answers) (past : UInt8) (payload : Protocol.Payload)
    (items : List (UInt32 × Bytes)) (k : Kernel) : Prop where
  each : ∀ x ∈ delMoments env past payload items k, Deletes held env x.1 x.2
  missing : Protocol.readStatus (delPage env past payload k).1.bytes = .ok ENOENT.toInt ↔
    ¬ ∃ x ∈ delMoments env past payload items k, ∃ rule, Sought x.1 x.2 rule ∧ Removable x.2 rule
  done : (∃ x ∈ delMoments env past payload items k, ∃ rule, Sought x.1 x.2 rule ∧ Removable x.2 rule) →
    Protocol.readStatus (delPage env past payload k).1.bytes = .ok 0 ∧
      Protocol.readArg1 (delPage env past payload k).1.bytes = .ok payload.dataSize

section

variable {held : Nat → Prop} {asked : List Rule} {k : Kernel} {env : Nat → Answers} {past : UInt8}
  {payload : Protocol.Payload}
  {items : List (UInt32 × Bytes)}

/-- A page whose records can all do their part has no failure, and retires a rule
exactly when one of them gets to a removable one. -/
theorem runAll_deletable {buffer : Bytes} (records : List Record) (h : Synced k)
    (hall : ∀ x ∈ moments (delRecord env buffer past) records k,
      Deletable held env (targetAt buffer past x.1) x.2) :
    (∀ x ∈ (runAll (delRecord env buffer past) records k).1, x.2 = 0) ∧
      ((runAll (delRecord env buffer past) records k).2.victims = [] ↔
        k.victims = [] ∧ ∀ x ∈ moments (delRecord env buffer past) records k,
          ∀ rule, lookup (targetAt buffer past x.1) x.2 = some rule → ¬ Removable x.2 rule) := by
  induction records generalizing k with
  | nil => simp [runAll, moments]
  | cons record rest ih =>
    simp only [moments, List.forall_mem_cons] at hall ⊢
    obtain ⟨hzero, hvictims⟩ := delRule_deletable h hall.1
    have hnext : Synced (delRecord env buffer past record k).2 := delRule_synced h
    obtain ⟨hrest, hfinal⟩ := ih hnext hall.2
    refine ⟨?_, ?_⟩
    · intro x hx
      rcases List.mem_cons.mp hx with rfl | hx
      · exact hzero
      · exact hrest x hx
    · show (runAll (delRecord env buffer past) rest (delRecord env buffer past record k).2).2.victims = [] ↔ _
      have hfirst : (delRecord env buffer past record k).2.victims = [] ↔
          k.victims = [] ∧ ∀ rule, lookup (targetAt buffer past record) k = some rule →
            ¬ Removable k rule := hvictims
      rw [hfinal, hfirst, and_assoc]

theorem moments_housed {buffer : Bytes} (records : List Record) (h : Housed k) :
    ∀ x ∈ moments (delRecord env buffer past) records k, Housed x.2 := by
  induction records generalizing k with
  | nil => simp [moments]
  | cons record rest ih =>
    simp only [moments, List.forall_mem_cons]
    exact ⟨h, ih h.delRule⟩

theorem delMoments_sound (h : Synced k) (hh : Housed k) :
    ∀ x ∈ delMoments env past payload items k, Synced x.2 ∧ Housed x.2 := by
  intro x hx
  obtain ⟨y, hy, rfl⟩ := List.mem_map.mp hx
  exact ⟨moments_synced _ h y hy, moments_housed _ hh y hy⟩

/-- Without failures the whole page is consumed, and the answer tells whether anything was retired. -/
theorem delPage_reply (h : Synced k) (hquiet : k.victims = [])
    (htiled : Tiled delFormat delItem (fun offset item => Vfs.delRecord item.1 offset item.2) payload items)
    (hall : ∀ x ∈ delMoments env past payload items k, Deletable held env x.1 x.2) :
    Protocol.readArg1 (delPage env past payload k).1.bytes = .ok payload.dataSize ∧
    ((∀ x ∈ delMoments env past payload items k, ∀ rule, lookup x.1 x.2 = some rule → ¬ Removable x.2 rule) →
      Protocol.readStatus (delPage env past payload k).1.bytes = .ok ENOENT.toInt) ∧
    ((∃ x ∈ delMoments env past payload items k, ∃ rule, lookup x.1 x.2 = some rule ∧ Removable x.2 rule) →
      Protocol.readStatus (delPage env past payload k).1.bytes = .ok 0) := by
  let records := recordsFrom delItem
    (fun offset (item : UInt32 × Bytes) => Vfs.delRecord item.1 offset item.2)
    payload.arg1 items
  let silent : Kernel → Int32 := fun k => if k.victims.isEmpty then ENOENT else 0
  have hserved := runBatch_items htiled (delRecord env payload.buffer past) silent k
  have hdeletable : ∀ x ∈ moments (delRecord env payload.buffer past) records k,
      Deletable held env (targetAt payload.buffer past x.1) x.2 :=
    fun x hx => hall (targetAt payload.buffer past x.1, x.2) (List.mem_map.mpr ⟨x, hx, rfl⟩)
  obtain ⟨hzero, hvictims⟩ := runAll_deletable records h hdeletable
  have hnone : firstFailure (runBatch delFormat (delRecord env payload.buffer past) silent payload
      k).2.executed = none := by
    rw [firstFailure, List.find?_eq_none]
    intro x hx
    rw [hserved.executed] at hx
    simp [hzero x hx]
  have hreply := hserved.reply
  rw [hnone] at hreply
  have hstate := hserved.state
  obtain ⟨hstatus, harg⟩ := hreply
  have hfinal : Protocol.readStatus (delPage env past payload k).1.bytes =
      .ok (silent (runAll (delRecord env payload.buffer past) records k).2).toInt := by
    rw [← hstate]
    exact hstatus
  refine ⟨harg, ?_, ?_⟩
  · intro hno
    have hempty : (runAll (delRecord env payload.buffer past) records k).2.victims = [] :=
      hvictims.mpr ⟨hquiet, fun x hx =>
        hno (targetAt payload.buffer past x.1, x.2) (List.mem_map.mpr ⟨x, hx, rfl⟩)⟩
    rw [hfinal]
    simp [silent, hempty]
  · rintro ⟨x, hx, rule, hlookup, hremovable⟩
    obtain ⟨y, hy, rfl⟩ := List.mem_map.mp hx
    have hfull : (runAll (delRecord env payload.buffer past) records k).2.victims ≠ [] :=
      fun hempty => (hvictims.mp hempty).2 y hy rule hlookup hremovable
    rw [hfinal]
    cases hv : (runAll (delRecord env payload.buffer past) records k).2.victims with
    | nil => exact absurd hv hfull
    | cons first rest =>
      simp only [silent, hv]
      rfl

/-- A page deletes what it names exactly when every named explicit rule can be got at
and taken away, and a removable rule which is named at all is got at by some record. -/
theorem deletes_named_iff (held : Nat → Prop) (h : Served asked k) (hquiet : k.victims = [])
    (htiled : Tiled delFormat delItem (fun offset item => Vfs.delRecord item.1 offset item.2) payload items) :
    DeletesNamed held env past payload items k ↔
      (∀ x ∈ delMoments env past payload items k, Deletable held env x.1 x.2) ∧
      ((∃ x ∈ delMoments env past payload items k, ∃ rule, Sought x.1 x.2 rule ∧ Removable x.2 rule) →
        ∃ x ∈ delMoments env past payload items k, ∃ rule, Reaches x.1 x.2 rule ∧ Removable x.2 rule) := by
  have hsound := @delMoments_sound k env past payload items h.synced h.housed
  have hsync := fun x hx => (hsound x hx).1
  have hdiffer : (Except.ok ENOENT.toInt : Except Error Int) ≠ .ok 0 := by decide
  constructor
  · intro hdel
    have hall : ∀ x ∈ delMoments env past payload items k, Deletable held env x.1 x.2 :=
      fun x hx => (deletes_iff (hsync x hx) (hsound x hx).2).mp (hdel.each x hx)
    refine ⟨hall, ?_⟩
    intro hnamed
    obtain ⟨hzero, -⟩ := hdel.done hnamed
    obtain ⟨-, hmissing, -⟩ := delPage_reply h.synced hquiet htiled hall
    by_contra hno
    have henoent := hmissing (by
      intro x hx rule hlookup hremovable
      exact hno ⟨x, hx, rule, (lookup_iff (hsync x hx)).mp hlookup, hremovable⟩)
    rw [hzero] at henoent
    exact hdiffer henoent.symm
  · rintro ⟨hall, hgets⟩
    obtain ⟨harg, hmissing, hfound⟩ := delPage_reply h.synced hquiet htiled hall
    have hlookups : (∃ x ∈ delMoments env past payload items k, ∃ rule, Reaches x.1 x.2 rule ∧
        Removable x.2 rule) →
        ∃ x ∈ delMoments env past payload items k, ∃ rule, lookup x.1 x.2 = some rule ∧
          Removable x.2 rule := by
      rintro ⟨x, hx, rule, hreach, hremovable⟩
      exact ⟨x, hx, rule, (lookup_iff (hsync x hx)).mpr hreach, hremovable⟩
    refine ⟨fun x hx => (deletes_iff (hsync x hx) (hsound x hx).2).mpr (hall x hx), ?_, ?_⟩
    · constructor
      · intro henoent hnamed
        rw [hfound (hlookups (hgets hnamed))] at henoent
        exact hdiffer henoent.symm
      · intro hno
        apply hmissing
        intro x hx rule hlookup hremovable
        exact hno ⟨x, hx, rule, sought_of_lookup (hsync x hx) hlookup, hremovable⟩
    · intro hnamed
      exact ⟨hfound (hlookups (hgets hnamed)), harg⟩

theorem tiled_request (hlen : (items.flatMap delItem).length ≤ BUFFER_LEN) :
    Tiled delFormat delItem (fun offset item => Vfs.delRecord item.1 offset item.2)
      (Protocol.request .delRule 0 (items.flatMap delItem)) items := by
  refine ⟨?_, ⟨[], List.replicate (BUFFER_LEN - (items.flatMap delItem).length) 0, rfl, rfl,
    (Nat.zero_add _).symm⟩,
    lt_of_le_of_lt hlen (by decide)⟩
  intro item hitem
  have hle := length_le_of_mem hlen hitem
  have hshort : item.2.length < 256 ^ 2 := by
    simp only [delItem, Protocol.length_writeDelRecord, Protocol.delRecordLen, BUFFER_LEN] at hle
    omega
  obtain ⟨hheader, hoffset, hlength, haccepted⟩ := encodes_del item.1 hshort
  exact ⟨hheader, hoffset, hlength, haccepted⟩

/-- The moments of a page with one record. -/
theorem delMoments_one (item : UInt32 × Bytes) : ∃ beyond,
    delMoments env past (Protocol.request .delRule 0 ([item].flatMap delItem)) [item] k =
      [(⟨item.2, beyond, item.1⟩, k)] := by
  have hdata : [item].flatMap delItem = delItem item := by simp
  rw [hdata]
  have hat := @pathAt_record item.1 item.2 [] (List.replicate (BUFFER_LEN - (delItem item).length) 0)
  obtain ⟨huid, -, hslice⟩ := hat
  have hpath : vPathAt Protocol.DEL_HEADER_LEN (Protocol.request .delRule 0 (delItem item)).buffer
      (Vfs.delRecord item.1 0 item.2) = item.2 := by
    unfold slice at hslice
    split at hslice
    · simp only [Option.some.injEq, Nat.add_sub_cancel_left] at hslice
      exact hslice
    · cases hslice
  refine ⟨beyondAt (Protocol.request .delRule 0 (delItem item)).buffer past (Vfs.delRecord item.1 0 item.2), ?_⟩
  have huid' : UInt32.ofNat (Vfs.delRecord item.1 0 item.2).uid = item.1 := UInt32.ofNat_toNat
  show [(targetAt (Protocol.request .delRule 0 (delItem item)).buffer past (Vfs.delRecord item.1 0 item.2),
    k)] = _
  simp only [targetAt, hpath, huid']

/-- Two whiteouts, `/a` and `/ab`. -/
def hidingAB : Kernel := added (fun _ => generous) (hide [97, 98] 0) hidingA

theorem hidingAB_served : Served ([] ++ requested (fun _ => generous) (hide [97] 0) boot ++
    requested (fun _ => generous) (hide [97, 98] 0) hidingA) hidingAB :=
  hidingA_served.next (by decide) (known_directory 0 hidingA) (by decide +kernel)

/-- The whiteout of `/ab` goes when its page asks for it, and that of `/a` is not taken for it. -/
theorem deletes_named_whiteout : ∃ asked items, Served asked hidingAB ∧ hidingAB.victims = [] ∧
    items = [(0, [SLASH, 97, 98])] ∧
    DeletesNamed (fun _ => False) (fun _ => generous) 0 (Protocol.request .delRule 0 (items.flatMap delItem))
      items hidingAB := by
  have hpath : stripSlashes ([SLASH, 97, 98] : Bytes) = [SLASH, 97, 98] :=
    stripSlashes_top (by decide) (by decide)
  have hrules : hidingAB.rules = [hidden 0 [97] 0, hidden 1 [97, 98] 0] := by decide +kernel
  have hquiet : hidingAB.victims = [] := by decide +kernel
  have hthis : hidingAB.thisDir 1 = none := by decide +kernel
  have hparent : hidingAB.parentDir 1 = some 0 := by decide +kernel
  have hnative : (hidingAB.dirs 0).tag = none := by decide +kernel
  have hsearch : Art.searchExact [SLASH, 97, 98] 0 0 hidingAB.root = some (hidden 1 [97, 98] 0) := by
    decide +kernel
  have hchildren : hidingAB.hasChildren (hidden 1 [97, 98] 0) = false := by
    unfold hasChildren
    rw [show hidingAB.thisDir (hidden 1 [97, 98] 0).id = none from hthis]
  have halone : ∀ r, Falls hidingAB (hidden 1 [97, 98] 0) r → r = hidden 1 [97, 98] 0 := by
    intro r hr
    refine List.mem_singleton.mp (falls_closed List.mem_cons_self ?_ hr)
    intro r hr dir hdir
    rw [List.mem_singleton.mp hr] at hdir
    obtain rfl := Option.some.inj (hparent.symm.trans hdir)
    exact .inl fun owner howner _ => by simp [hnative] at howner
  have hstanding : Standing (fun _ => False) (fun _ => generous) (hidden 1 [97, 98] 0) hidingAB := by
    refine ⟨fun d hd => ?_, fun hc => by simp [hchildren] at hc, fun _ r hr d hd hgone => ?_⟩
    · exact absurd (hthis.symm.trans hd) (by simp)
    · rw [halone r hr] at hd
      obtain rfl := Option.some.inj (hparent.symm.trans hd)
      exact absurd (hnative.symm.trans hgone.1) (by simp)
  have hexplicit : Explicit (hidden 1 [97, 98] 0) := by
    rintro ⟨hflags, -⟩
    exact absurd hflags (by decide : (4 : UInt16) ≠ IS_DIR ||| VIRTUAL_DIR)
  obtain ⟨beyond, hmoments⟩ := @delMoments_one hidingAB (fun _ => generous) 0 (0, [SLASH, 97, 98])
  have hreach : Reaches ⟨[SLASH, 97, 98], beyond, 0⟩ hidingAB (hidden 1 [97, 98] 0) := by
    unfold Reaches Target.path
    rw [hpath, hrules]
    exact ⟨hsearch, .inr (by decide)⟩
  have hone : ∀ {rule}, Sought ⟨[SLASH, 97, 98], beyond, 0⟩ hidingAB rule → rule = hidden 1 [97, 98] 0 := by
    rintro rule ⟨hmem, hsame, -⟩
    rw [Target.path, hpath] at hsame
    rw [hrules] at hmem
    rcases List.mem_cons.mp hmem with rfl | hmem
    · exact absurd hsame (by decide)
    · exact List.mem_singleton.mp hmem
  refine ⟨_, _, hidingAB_served, hquiet, rfl, (deletes_named_iff (fun _ => False) hidingAB_served hquiet
    (@tiled_request [(0, [SLASH, 97, 98])] (by decide))).mpr ⟨?_, ?_⟩⟩
  · intro x hx
    rw [hmoments] at hx
    rw [List.mem_singleton.mp hx]
    refine ⟨fun rule hsought _ => ?_, fun rule hgets => ?_⟩
    · rw [hone hsought]
      exact ⟨hreach, fun hc => by simp [hchildren] at hc⟩
    · rw [Option.some.inj (hgets.1.symm.trans hreach.1)]
      exact hstanding
  · intro _
    rw [hmoments]
    exact ⟨_, List.mem_singleton_self _, _, hreach, Or.inr hexplicit⟩

/-- After `/a` and `/ab` the path `/a/` is not found, as its slash is taken for a longer path. -/
theorem deletes_named_refuted : ¬ ∀ held asked env past k payload items, Served asked k → k.victims = [] →
    Tiled delFormat delItem (fun offset item => Vfs.delRecord item.1 offset item.2) payload items →
      DeletesNamed held env past payload items k := by
  intro hall
  have hpath : stripSlashes ([SLASH, 97, SLASH] : Bytes) = [SLASH, 97] := by
    rw [stripSlashes, dif_pos (by decide)]
    exact stripSlashes_top (by decide) (by decide)
  have hshort : hidden 0 [97] 0 ∈ hidingAB.rules := by decide +kernel
  have hlong : hidden 1 [97, 98] 0 ∈ hidingAB.rules := by decide +kernel
  obtain ⟨beyond, hmoments⟩ := @delMoments_one hidingAB (fun _ => generous) 0 (0, [SLASH, 97, SLASH])
  have hdel := hall (fun _ => False) _ (fun _ => generous) 0 hidingAB _ _ hidingAB_served (by decide +kernel)
    (@tiled_request [(0, [SLASH, 97, SLASH])] (by decide))
  have heach := hdel.each (⟨[SLASH, 97, SLASH], beyond, 0⟩, hidingAB)
    (by rw [hmoments]; exact List.mem_singleton_self _)
  have hsought : Sought ⟨[SLASH, 97, SLASH], beyond, 0⟩ hidingAB (hidden 0 [97] 0) :=
    ⟨hshort, hpath.symm, rfl⟩
  have hexplicit : Explicit (hidden 0 [97] 0) := by
    rintro ⟨hflags, -⟩
    exact absurd hflags (by decide : (4 : UInt16) ≠ IS_DIR ||| VIRTUAL_DIR)
  have hreach := (lookup_iff hidingAB_served.synced).mp (heach.gone _ hsought hexplicit).1
  have hafter : Target.after ⟨[SLASH, 97, SLASH], beyond, 0⟩ = SLASH := by
    rw [Target.after, Target.path, hpath]
    rfl
  rcases hreach.2 with hzero | hclear
  · rw [hafter] at hzero
    exact absurd hzero (by decide)
  · have heq := hclear _ hlong (by rw [Target.path, hpath]; exact ⟨[98], rfl⟩)
    rw [Target.path, hpath] at heq
    exact absurd heq (by decide : ([SLASH, 97, 98] : Bytes) ≠ [SLASH, 97])

end

end HybridMount.Vfs.Kernel
