import HybridMount.KernelTable

/-! The list and the radix tree of the kernel module stay in step: whatever a request
does and whatever fails on the way, they hold the same rules. -/

namespace HybridMount.Vfs.Kernel

open LittleEndian

/-- A path without a zero byte, and a rule which fits a page. -/
def Admissible (rule : Rule) : Prop :=
  0 ∉ rule.vPath ∧ RULE_HEADER_LEN + rule.vPath.length + rule.rPath.length ≤ BUFFER_LEN

/-- The list and the tree hold the same rules, all of them allocated before. -/
structure Synced (k : Kernel) : Prop where
  sound : Art.Sound k.root
  holds : ∀ r, Art.Holds r k.root ↔ r ∈ k.rules
  nodup : k.rules.Nodup
  admissible : ∀ r ∈ k.rules, Admissible r
  allocated : ∀ r ∈ k.rules, r.id < k.nextId

/-- Two states with the same list and tree. -/
structure SameTable (k k' : Kernel) : Prop where
  rules : k'.rules = k.rules
  root : k'.root = k.root
  nextId : k.nextId ≤ k'.nextId

section

variable {k k' : Kernel} {rule r : Rule} {alloc : Bool} {dir childLen : Nat} {env : Nat → Answers}

theorem SameTable.refl (k : Kernel) : SameTable k k := ⟨rfl, rfl, le_rfl⟩

theorem same_tick (k : Kernel) : SameTable k k.tick := ⟨rfl, rfl, le_rfl⟩

theorem SameTable.trans {m : Kernel} (h : SameTable k k') (h' : SameTable k' m) : SameTable k m :=
  ⟨h'.rules.trans h.rules, h'.root.trans h.root, h.nextId.trans h'.nextId⟩

theorem Synced.of_same (h : Synced k) (hs : SameTable k k') : Synced k' := by
  obtain ⟨hrules, hroot, hid⟩ := hs
  constructor
  · rw [hroot]
    exact h.sound
  · rw [hroot, hrules]
    exact h.holds
  · rw [hrules]
    exact h.nodup
  · rw [hrules]
    exact h.admissible
  · rw [hrules]
    intro r hr
    exact lt_of_lt_of_le (h.allocated r hr) hid

theorem Admissible.named (h : Admissible rule) : Art.Named rule := by
  obtain ⟨hzero, hlen⟩ := h
  simp only [RULE_HEADER_LEN, BUFFER_LEN] at hlen
  exact ⟨hzero, by omega⟩

theorem Admissible.ancestor (h : Admissible rule) (n : Nat) (id : Nat) (flags : UInt16) (uid : UInt32) :
    Admissible ⟨id, rule.vPath.take n, [], flags, uid⟩ := by
  obtain ⟨hzero, hlen⟩ := h
  refine ⟨fun hmem => hzero (List.mem_of_mem_take hmem), ?_⟩
  simp only [List.length_take, List.length_nil]
  omega

/-- What entering a child can do: it replaces the one of its name and uid, it is added,
or the array cannot grow. -/
theorem injectChild_cases (alloc : Bool) (dir : Nat) (rule : Rule) (childLen : Nat) (k : Kernel) :
    (∃ children capacity, injectChild alloc dir rule childLen k =
        (0, (k.place rule childLen (some dir)).setDir dir ⟨children, capacity, (k.dirs dir).tag⟩) ∧
      ((∃ old ∈ (k.dirs dir).children, old.targetUid = rule.targetUid ∧
          (k.place rule childLen (some dir)).nameOf old = rule.childName childLen ∧
          children = (k.dirs dir).children.replace old rule) ∨
        ((∀ c ∈ (k.dirs dir).children, ¬ (c.targetUid = rule.targetUid ∧
          (k.place rule childLen (some dir)).nameOf c = rule.childName childLen)) ∧
          children = (k.dirs dir).children ++ [rule]))) ∨
    (¬ (alloc = true ∧ ChildArray.newCap (k.dirs dir).capacity < 2 ^ 31) ∧ (k.dirs dir).children ≠ [] ∧
      injectChild alloc dir rule childLen k =
      (ENOMEM, (k.place rule childLen (some dir)).place rule childLen none)) := by
  unfold injectChild
  simp only
  cases hf : (k.dirs dir).children.find? fun c => c.targetUid = rule.targetUid ∧
      (k.place rule childLen (some dir)).nameOf c = rule.childName childLen with
  | some old =>
    left
    have hmem := List.mem_of_find?_eq_some hf
    have hsame := List.find?_some hf
    simp only [decide_eq_true_eq] at hsame
    exact ⟨_, _, rfl, Or.inl ⟨old, hmem, hsame.1, hsame.2, rfl⟩⟩
  | none =>
    have hno : ∀ c ∈ (k.dirs dir).children, ¬ (c.targetUid = rule.targetUid ∧
        (k.place rule childLen (some dir)).nameOf c = rule.childName childLen) := by
      intro c hc
      have hnot := List.find?_eq_none.mp hf c hc
      simpa using hnot
    simp only
    by_cases hnil : (k.dirs dir).children = []
    · rw [if_pos hnil]
      left
      exact ⟨_, _, rfl, Or.inr ⟨hno, by rw [hnil]; rfl⟩⟩
    · rw [if_neg hnil]
      by_cases hroom : (k.dirs dir).children.length < (k.dirs dir).capacity
      · rw [if_pos hroom]
        left
        exact ⟨_, _, rfl, Or.inr ⟨hno, rfl⟩⟩
      · rw [if_neg hroom]
        by_cases hgrows : alloc = true ∧ ChildArray.newCap (k.dirs dir).capacity < 2 ^ 31
        · rw [if_pos hgrows]
          exact Or.inl ⟨_, _, rfl, Or.inr ⟨hno, rfl⟩⟩
        · rw [if_neg hgrows]
          exact Or.inr ⟨hgrows, hnil, rfl⟩

theorem same_injectChild (alloc : Bool) (dir : Nat) (rule : Rule) (childLen : Nat) (k : Kernel) :
    SameTable k (injectChild alloc dir rule childLen k).2 := by
  rcases injectChild_cases alloc dir rule childLen k with ⟨children, capacity, h, -⟩ | ⟨-, -, h⟩
  · rw [h]
    exact ⟨rfl, rfl, le_rfl⟩
  · rw [h]
    exact ⟨rfl, rfl, le_rfl⟩

theorem same_deleteChild : SameTable k (deleteChild rule k).2 := by
  unfold deleteChild
  cases k.parentDir rule.id with
  | none => exact SameTable.refl k
  | some dir =>
    simp only
    split
    · exact ⟨rfl, rfl, le_rfl⟩
    · exact SameTable.refl k

theorem Synced.unlink (h : Synced k) (rule : Rule) : Synced (k.unlink rule) := by
  obtain ⟨hsound, hholds⟩ := Art.removeLeaf_sound h.sound rule
  constructor
  · exact hsound
  · intro r
    show Art.Holds r (Art.removeLeaf rule k.root 0) ↔ r ∈ k.rules.erase rule
    rw [hholds, h.nodup.mem_erase_iff, h.holds]
    exact and_comm
  · exact h.nodup.erase rule
  · intro r hr
    exact h.admissible r (List.mem_of_mem_erase hr)
  · intro r hr
    exact h.allocated r (List.mem_of_mem_erase hr)

theorem Synced.treeInsert (h : Synced k) (hrule : Admissible rule) (hid : rule.id < k.nextId)
    (hnew : rule ∉ k.rules)
    (alloc : Bool) : Synced (treeInsert alloc rule k).2 := by
  have hfresh : ¬ Art.Holds rule k.root := fun hh => hnew ((h.holds rule).mp hh)
  rcases Art.insert_sound h.sound hrule.named hfresh alloc with ⟨hzero, hsound, hholds⟩ | ⟨-, hfail⟩
  · have hrules : (Kernel.treeInsert alloc rule k).2.rules = k.rules ++ [rule] := if_pos hzero
    constructor
    · exact hsound
    · intro r
      rw [hrules]
      show Art.Holds r (Art.insert alloc rule k.root 0).2 ↔ _
      rw [hholds, h.holds, List.mem_append, List.mem_singleton]
      exact or_comm
    · rw [hrules]
      exact List.nodup_append.mpr ⟨h.nodup, by simp, by
        intro a ha b hb hab
        rw [List.mem_singleton.mp hb] at hab
        exact hnew (by rw [← hab]; exact ha)⟩
    · rw [hrules]
      intro r hr
      rcases List.mem_append.mp hr with hr | hr
      · exact h.admissible r hr
      · rw [List.mem_singleton.mp hr]
        exact hrule
    · rw [hrules]
      intro r hr
      rcases List.mem_append.mp hr with hr | hr
      · exact h.allocated r hr
      · rw [List.mem_singleton.mp hr]
        exact hid
  · apply h.of_same
    refine ⟨?_, ?_, le_rfl⟩
    · simp only [Kernel.treeInsert, hfail]
      rfl
    · simp only [Kernel.treeInsert, hfail]

/-- What takes rules away leaves the others and the counters alone. -/
structure Shrunk (k k' : Kernel) : Prop where
  synced : Synced k'
  subset : k'.rules ⊆ k.rules
  nextId : k'.nextId = k.nextId

theorem nextId_deleteChild : (deleteChild rule k).2.nextId = k.nextId := by
  unfold deleteChild
  cases k.parentDir rule.id with
  | none => rfl
  | some dir =>
    simp only
    split <;> rfl

theorem Shrunk.trans {m : Kernel} (h : Shrunk k k') (h' : Shrunk k' m) : Shrunk k m :=
  ⟨h'.synced, fun _ hr => h.subset (h'.subset hr), h'.nextId.trans h.nextId⟩

theorem Shrunk.of_same (h : Synced k) (hs : SameTable k k') (hid : k'.nextId = k.nextId) : Shrunk k k' :=
  ⟨h.of_same hs, by rw [hs.rules]; exact fun _ hr => hr, hid⟩

theorem shrunk_unlink (h : Synced k) (rule : Rule) : Shrunk k (k.unlink rule) :=
  ⟨h.unlink rule, fun _ hr => List.mem_of_mem_erase hr, rfl⟩

theorem shrunk_deleteChild (h : Synced k) (rule : Rule) : Shrunk k (deleteChild rule k).2 :=
  Shrunk.of_same h same_deleteChild nextId_deleteChild

theorem shrunk_prune (h : Synced k) (fuel : Nat) (start : Option Nat) :
    Shrunk k (pruneEmptyVirtualDirs fuel start k) := by
  induction fuel generalizing k start with
  | zero => exact Shrunk.of_same h (SameTable.refl k) rfl
  | succ fuel ih =>
    cases start with
    | none => exact Shrunk.of_same h (SameTable.refl k) rfl
    | some dir =>
      unfold pruneEmptyVirtualDirs
      split
      · exact Shrunk.of_same h (SameTable.refl k) rfl
      · split
        · rename_i owner _
          split
          · have hunlink := shrunk_unlink h owner
            have hdelete := shrunk_deleteChild hunlink.synced owner
            exact (hunlink.trans hdelete).trans (ih hdelete.synced _)
          · exact Shrunk.of_same h (SameTable.refl k) rfl
        · exact Shrunk.of_same h (SameTable.refl k) rfl

theorem shrunk_detachRule (h : Synced k) (rule : Rule) (prune : Bool) :
    Shrunk k (detachRule rule prune k) := by
  have hunlink := shrunk_unlink h rule
  unfold detachRule
  simp only
  split
  · exact hunlink
  · have hdelete := hunlink.trans (shrunk_deleteChild hunlink.synced rule)
    split
    · exact hdelete.trans (shrunk_prune hdelete.synced _ _)
    · exact hdelete

theorem shrunk_retract (h : Synced k) (rule : Rule) : Shrunk k (retract rule k) := by
  unfold retract
  split
  · exact shrunk_detachRule h rule false
  · simp only
    split
    · have hdelete := shrunk_deleteChild h rule
      exact ⟨hdelete.synced.of_same ⟨rfl, rfl, le_rfl⟩, hdelete.subset, hdelete.nextId⟩
    · exact Shrunk.of_same h ⟨rfl, rfl, le_rfl⟩ rfl

theorem shrunk_rollback (h : Synced k) (target : Rule) (generated : List Rule) :
    Shrunk k (rollbackGeneratedTopology target generated k) := by
  have hfold : ∀ (rules : List Rule) (m : Kernel), Shrunk k m →
      Shrunk k (rules.foldl (fun k rule => retract rule k) m) := by
    intro rules
    induction rules with
    | nil => exact fun m hm => hm
    | cons rule rest ih => exact fun m hm => ih _ (hm.trans (shrunk_retract hm.synced rule))
  exact hfold _ _ (shrunk_retract h target)

theorem same_attachReal (env : Nat → Answers) (found : Inode) (rule : Rule) (childLen : Nat) (k : Kernel) :
    SameTable k (attachReal env found rule childLen k).2 := by
  have hinject : ∀ (m : Kernel) alloc dir, SameTable k m →
      SameTable k (injectChild alloc dir rule childLen m.tick.tick).2 :=
    fun m alloc dir hm => (hm.trans ((same_tick m).trans (same_tick m.tick))).trans (same_injectChild ..)
  have hdir : SameTable k { k.tick with nextDir := k.nextDir + 1 } := ⟨rfl, rfl, le_rfl⟩
  unfold attachReal
  split
  · exact SameTable.refl k
  · split
    · exact same_tick k
    · exact hinject k _ _ (SameTable.refl k)
  · split
    · split
      · exact same_tick k
      · exact hinject k _ _ (SameTable.refl k)
    · split
      · exact same_tick k
      · simp only
        split
        · exact hdir.trans (same_tick _)
        · have hinjected := hinject _ (env (k.tick.clock + 1)).alloc k.nextDir hdir
          split
          · exact hinjected
          · exact ⟨hinjected.rules, hinjected.root, hinjected.nextId⟩

theorem generate_spec (path : Bytes) (uid : UInt32) (child : Rule) (childLen : Nat) (k : Kernel) :
    (generate path uid child childLen k).1 = ⟨k.nextId, path, [], IS_DIR ||| VIRTUAL_DIR, uid⟩ ∧
      SameTable k (generate path uid child childLen k).2 ∧
      k.nextId < (generate path uid child childLen k).2.nextId := by
  have hsame := same_injectChild true k.nextDir child childLen
    { k with nextId := k.nextId + 1, nextDir := k.nextDir + 1 }
  have hid : k.nextId + 1 ≤ (generate path uid child childLen k).2.nextId := hsame.nextId
  exact ⟨rfl, ⟨hsame.rules, hsame.root, by omega⟩, by omega⟩

/-- A directory rule which the loop over the ancestors made. -/
structure Generated (vPath : Bytes) (uid : UInt32) (low high : Nat) (rule : Rule) : Prop where
  path : ∃ len, rule.vPath = vPath.take len
  rPath : rule.rPath = []
  flags : rule.flags = IS_DIR ||| VIRTUAL_DIR
  uid : rule.targetUid = uid
  low : low ≤ rule.id
  high : rule.id < high

theorem Generated.wider {vPath : Bytes} {uid : UInt32} {low low' high high' : Nat}
    (h : Generated vPath uid low high rule) (hl : low' ≤ low) (hh : high ≤ high') :
    Generated vPath uid low' high' rule :=
  ⟨h.path, h.rPath, h.flags, h.uid, hl.trans h.low, lt_of_lt_of_le h.high hh⟩

theorem attach_spec {vPath : Bytes} {uid : UInt32} {cs : List Cut} {current : Rule}
    {generated generated' : List Rule}
    {err : Int32} {base : Nat} (h : attach env vPath uid cs current generated k = some (err, generated', k'))
    (hgen : ∀ r ∈ generated, Generated vPath uid base k.nextId r) (hnodup : generated.Nodup)
    (hbase : base ≤ k.nextId) :
    SameTable k k' ∧ (∀ r ∈ generated', Generated vPath uid base k'.nextId r) ∧ generated'.Nodup := by
  -- An answer ends the loop; what was generated so far stays as it is.
  have hstop : ∀ (e : Int32) (m : Kernel), SameTable k m →
      (some (e, generated, m) : Option (Int32 × List Rule × Kernel)) = some (err, generated', k') →
        SameTable k k' ∧ (∀ r ∈ generated', Generated vPath uid base k'.nextId r) ∧ generated'.Nodup := by
    intro e m hm heq
    simp only [Option.some.injEq, Prod.mk.injEq] at heq
    obtain ⟨-, rfl, rfl⟩ := heq
    exact ⟨hm, fun r hr => (hgen r hr).wider le_rfl hm.nextId, hnodup⟩
  have htick := same_tick k
  induction cs generalizing current generated k with
  | nil => exact hstop _ _ (SameTable.refl k) h
  | cons cut rest ih =>
    unfold attach at h
    split at h
    · rename_i ex _
      split at h
      · exact hstop _ _ (SameTable.refl k) h
      · split at h
        · exact hstop _ _ (SameTable.refl k) h
        · split at h
          · exact hstop _ _ htick h
          · exact hstop _ _ ((htick.trans (same_tick _)).trans (same_injectChild ..)) h
    · split at h
      · exact hstop _ _ (htick.trans (same_attachReal ..)) h
      · split at h
        · cases h
        · rename_i i _
          have htwo := htick.trans (same_tick k.tick)
          have hthree := htwo.trans (same_tick k.tick.tick)
          split at h
          · exact hstop _ _ htwo h
          · split at h
            · exact hstop _ _ hthree h
            · simp only at h
              obtain ⟨hrule, hsame, hid⟩ := generate_spec (vPath.take (parentLen i)) uid current cut.childLen
                k.tick.tick.tick
              have hsame' := hthree.trans hsame
              generalize generate (vPath.take (parentLen i)) uid current cut.childLen
                k.tick.tick.tick = made at *
              have hid' : k.nextId < made.2.nextId := hid
              have hmade : Generated vPath uid base made.2.nextId made.1 := by
                rw [hrule]
                exact ⟨⟨_, rfl⟩, rfl, rfl, rfl, hbase, hid'⟩
              have hgen' : ∀ r ∈ made.1 :: generated, Generated vPath uid base made.2.nextId r := by
                intro r hr
                rcases List.mem_cons.mp hr with rfl | hr
                · exact hmade
                · exact (hgen r hr).wider le_rfl hsame'.nextId
              have hnodup' : (made.1 :: generated).Nodup := by
                apply List.nodup_cons.mpr
                refine ⟨?_, hnodup⟩
                intro hmem
                have hlt := (hgen _ hmem).high
                rw [hrule] at hlt
                exact lt_irrefl k.nextId hlt
              have hbase' : base ≤ made.2.nextId := by omega
              obtain ⟨hs, hg, hn⟩ := ih h hgen' hnodup' hbase' (by
                intro e m hm heq
                simp only [Option.some.injEq, Prod.mk.injEq] at heq
                obtain ⟨-, rfl, rfl⟩ := heq
                exact ⟨hm, fun r hr => (hgen' r hr).wider le_rfl hm.nextId, hnodup'⟩) (same_tick _)
              exact ⟨hsame'.trans hs, hg, hn⟩

/-- Entering the generated rules, as far as the allocations go. -/
theorem insertAll_spec {generated : List Rule} (h : Synced k) (hnodup : generated.Nodup)
    (hgen : ∀ r ∈ generated, Admissible r ∧ r.id < k.nextId ∧ r ∉ k.rules) :
    Synced (insertAll env generated k).2 ∧ (insertAll env generated k).2.nextId = k.nextId ∧
      ∀ r ∈ (insertAll env generated k).2.rules, r ∈ k.rules ∨ r ∈ generated := by
  induction generated generalizing k with
  | nil => exact ⟨h, rfl, fun r hr => Or.inl hr⟩
  | cons rule rest ih =>
    obtain ⟨hrule, hid, hnew⟩ := hgen rule List.mem_cons_self
    obtain ⟨hnot, hrest⟩ := List.nodup_cons.mp hnodup
    have htick : Synced k.tick := h.of_same (same_tick k)
    have hsync := htick.treeInsert hrule hid hnew (env k.clock).alloc
    have hrules : ∀ r ∈ (treeInsert (env k.clock).alloc rule k.tick).2.rules, r ∈ k.rules ∨ r = rule := by
      intro r hr
      have hr' : r ∈ if (treeInsert (env k.clock).alloc rule k.tick).1 = 0 then k.rules ++ [rule]
        else k.rules := hr
      split at hr'
      · simpa using hr'
      · exact Or.inl hr'
    unfold insertAll
    simp only
    split
    · refine ⟨hsync, rfl, ?_⟩
      intro r hr
      rcases hrules r hr with hr | rfl
      · exact Or.inl hr
      · exact Or.inr List.mem_cons_self
    · obtain ⟨hs, hn, hr⟩ := ih hsync hrest (by
        intro r hr
        obtain ⟨hadm, hlt, hno⟩ := hgen r (List.mem_cons_of_mem _ hr)
        refine ⟨hadm, hlt, ?_⟩
        intro hmem
        rcases hrules r hmem with hmem | rfl
        · exact hno hmem
        · exact hnot hr)
      refine ⟨hs, hn, ?_⟩
      intro r hmem
      rcases hr r hmem with hmem | hmem
      · rcases hrules r hmem with hmem | rfl
        · exact Or.inl hmem
        · exact Or.inr List.mem_cons_self
      · exact Or.inr (List.mem_cons_of_mem _ hmem)

theorem generateVirtualTopology_synced {target : Rule} {generated : List Rule} {err : Int32} (h : Synced k)
    (htarget : Admissible target) (hg : generateVirtualTopology env target k = some (err, generated, k')) :
    Synced k' ∧ k.nextId ≤ k'.nextId ∧ ∀ r ∈ k'.rules, r ∈ k.rules ∨ k.nextId ≤ r.id := by
  unfold generateVirtualTopology at hg
  cases ha : attach env target.vPath target.targetUid (cuts target.vPath target.vPath.length) target [] k with
  | none => simp [ha] at hg
  | some outcome =>
    obtain ⟨err', made, m⟩ := outcome
    simp only [ha, Option.some.injEq, Prod.mk.injEq] at hg
    obtain ⟨rfl, rfl, rfl⟩ := hg
    obtain ⟨hsame, hgen, hnodup⟩ := attach_spec ha (by simp) List.nodup_nil le_rfl
    have hsync := h.of_same hsame
    have hnew : ∀ r ∈ made, Admissible r ∧ r.id < m.nextId ∧ r ∉ m.rules := by
      intro r hr
      have hr' := hgen r hr
      refine ⟨?_, hr'.high, ?_⟩
      · obtain ⟨len, hlen⟩ := hr'.path
        have hadm := htarget.ancestor len r.id r.flags r.targetUid
        obtain ⟨id, vPath, rPath, flags, uid⟩ := r
        simp only at hlen
        have hempty : rPath = [] := hr'.rPath
        rw [hlen, hempty]
        exact hadm
      · intro hmem
        rw [hsame.rules] at hmem
        have hlt := h.allocated r hmem
        have hle := hr'.low
        omega
    have hresult : ∃ result : Int32 × Kernel,
        (if err' ≠ 0 then (err', m) else insertAll env made m) = result ∧
        Synced result.2 ∧ result.2.nextId = m.nextId ∧ ∀ r ∈ result.2.rules, r ∈ k.rules ∨
          k.nextId ≤ r.id := by
      by_cases herr : err' ≠ 0
      · refine ⟨_, if_pos herr, hsync, rfl, ?_⟩
        intro r hr
        rw [hsame.rules] at hr
        exact Or.inl hr
      · obtain ⟨hs, hn, hr⟩ := @insertAll_spec m env made hsync hnodup hnew
        refine ⟨_, if_neg herr, hs, hn, ?_⟩
        intro r hmem
        rcases hr r hmem with hmem | hmem
        · rw [hsame.rules] at hmem
          exact Or.inl hmem
        · exact Or.inr (hgen r hmem).low
    obtain ⟨result, heq, hs, hn, hr⟩ := hresult
    rw [heq]
    have hid := hsame.nextId
    split
    · have hback := shrunk_rollback hs target made
      refine ⟨hback.synced, ?_, fun r hmem => hr r (hback.subset hmem)⟩
      rw [hback.nextId]
      omega
    · exact ⟨hs, by omega, hr⟩
/-- The bytes of a record which a page can hold and the kernel takes for a path. -/
def Request.Fits (request : Request) : Prop :=
  0 ∉ request.vPath ∧ RULE_HEADER_LEN + request.vPath.length + request.rPath.length ≤ BUFFER_LEN

theorem stripSlashes_spec (path : Bytes) : ∃ slashes, path = stripSlashes path ++ slashes ∧
    ∀ b ∈ slashes, b = SLASH := by
  induction path using stripSlashes.induct with
  | case1 path h ih =>
    obtain ⟨slashes, heq, hall⟩ := ih
    rw [stripSlashes, dif_pos h]
    refine ⟨slashes ++ [SLASH], ?_, ?_⟩
    · have hlast := List.dropLast_append_getLast? SLASH h.2
      rw [← List.append_assoc, ← heq]
      exact hlast.symm
    · intro b hb
      rcases List.mem_append.mp hb with hb | hb
      · exact hall b hb
      · simpa using hb
  | case2 path h =>
    rw [stripSlashes, dif_neg h]
    exact ⟨[], by simp, by simp⟩

theorem length_stripSlashes_le (path : Bytes) : (stripSlashes path).length ≤ path.length := by
  obtain ⟨slashes, heq, -⟩ := stripSlashes_spec path
  have hlen := congrArg List.length heq
  rw [List.length_append] at hlen
  omega

/-- The rule of a request is new and fits, unless the request fails first. -/
theorem allocRule_spec {request : Request} (env : Nat → Answers) (hfits : request.Fits) (k : Kernel) :
    (∃ err m, allocRule env request k = (.error err, m) ∧ SameTable k m ∧ err ≠ 0) ∨
    ∃ isDir m, allocRule env request k = (.ok (request.rule k.nextId isDir), m) ∧ SameTable k m ∧
      Admissible (request.rule k.nextId isDir) ∧ k.nextId < m.nextId := by
  have hadm : ∀ isDir, Admissible (request.rule k.nextId isDir) := by
    intro isDir
    obtain ⟨hzero, hlen⟩ := hfits
    have hv := length_stripSlashes_le request.vPath
    have hr := length_stripSlashes_le request.rPath
    obtain ⟨slashes, heq, -⟩ := stripSlashes_spec request.vPath
    refine ⟨?_, ?_⟩
    · intro hmem
      apply hzero
      rw [heq]
      exact List.mem_append_left _ hmem
    · cases hb : request.bare with
      | true => simp only [Request.rule, hb, if_true, List.length_nil]; omega
      | false => simp only [Request.rule, hb, Bool.false_eq_true, if_false]; omega
  have htwo := (same_tick k).trans (same_tick k.tick)
  have hmade : SameTable k { k.tick.tick with nextId := k.nextId + 1 } := ⟨rfl, rfl, Nat.le_succ _⟩
  unfold allocRule
  split
  · exact Or.inl ⟨_, _, rfl, same_tick k, by decide⟩
  · split
    · exact Or.inl ⟨_, _, rfl, htwo, by decide⟩
    · rename_i isDir _
      simp only
      split
      · exact Or.inr ⟨isDir, _, rfl, hmade, hadm isDir, Nat.lt_succ_self _⟩
      · split
        · exact Or.inl ⟨_, _, rfl, hmade.trans (same_tick _), by decide⟩
        · exact Or.inr ⟨isDir, _, rfl, ⟨rfl, rfl, Nat.le_succ _⟩, hadm isDir, Nat.lt_succ_self _⟩

theorem same_handOver (rule existing : Rule) (k : Kernel) : SameTable k (handOver rule existing k) ∧
    (handOver rule existing k).nextId = k.nextId := by
  unfold handOver
  split
  · split
    · exact ⟨⟨rfl, rfl, le_rfl⟩, rfl⟩
    · exact ⟨SameTable.refl k, rfl⟩
  · exact ⟨SameTable.refl k, rfl⟩

theorem shrunk_shadowExisting (h : Synced k) (rule : Rule) : Shrunk k (shadowExisting rule k) := by
  unfold shadowExisting
  split
  · rename_i existing _
    obtain ⟨hsame, hid⟩ := same_handOver rule existing k
    exact (Shrunk.of_same h hsame hid).trans (shrunk_detachRule (h.of_same hsame) existing false)
  · exact Shrunk.of_same h (SameTable.refl k) rfl

theorem addRule_synced {request : Request} {err : Int32} (h : Synced k) (hfits : request.Fits)
    (ha : addRule env request k = some (err, k')) : Synced k' := by
  unfold addRule at ha
  rcases allocRule_spec env hfits k with ⟨err', m, halloc, hsame, -⟩ | ⟨isDir, m, halloc, hsame, hadm, hlt⟩
  · simp only [halloc, Option.some.injEq, Prod.mk.injEq] at ha
    rw [← ha.2]
    exact h.of_same hsame
  · simp only [halloc] at ha
    have hsync := h.of_same hsame
    have hid : (request.rule k.nextId isDir).id = k.nextId := rfl
    generalize request.rule k.nextId isDir = rule at *
    have hnew : rule ∉ m.rules := by
      intro hmem
      rw [hsame.rules] at hmem
      have hlt' := h.allocated rule hmem
      omega
    have hshadow := shrunk_shadowExisting hsync rule
    have hid' := hshadow.nextId
    cases hg : generateVirtualTopology env rule (shadowExisting rule m) with
    | none => simp [hg] at ha
    | some outcome =>
      obtain ⟨err', generated, m'⟩ := outcome
      obtain ⟨hs, hn, hr⟩ := generateVirtualTopology_synced hshadow.synced hadm hg
      simp only [hg] at ha
      split at ha
      · simp only [Option.some.injEq, Prod.mk.injEq] at ha
        rw [← ha.2]
        exact hs
      · have hnot : rule ∉ m'.rules := by
          intro hmem
          rcases hr rule hmem with hmem | hle
          · exact hnew (hshadow.subset hmem)
          · omega
        have hinsert := (hs.of_same (same_tick m')).treeInsert hadm (show rule.id < m'.nextId by omega) hnot
          (env m'.clock).alloc
        split at ha
        · simp only [Option.some.injEq, Prod.mk.injEq] at ha
          rw [← ha.2]
          exact (shrunk_rollback hinsert rule generated).synced
        · simp only [Option.some.injEq, Prod.mk.injEq] at ha
          rw [← ha.2]
          exact hinsert

theorem same_takeDir (parent rule : Rule) (k : Kernel) : SameTable k (takeDir parent rule k) := by
  unfold takeDir
  simp only
  split
  · exact ⟨rfl, rfl, le_rfl⟩
  · exact ⟨rfl, rfl, le_rfl⟩

theorem enterParent_synced {parent : Rule} (h : Synced k) (hparent : Admissible parent)
    (hid : parent.id < k.nextId)
    (hnew : parent ∉ k.rules) : Synced (enterParent env parent k).2 := by
  have hinsert := (h.of_same (same_tick k)).treeInsert hparent hid hnew (env k.clock).alloc
  unfold enterParent
  simp only
  split
  · exact hinsert
  · split
    · exact (hinsert.of_same (same_tick _)).of_same (same_injectChild ..)
    · exact hinsert

theorem copyParent_spec (h : Synced k) (hrule : rule ∈ k.rules) :
    SameTable k (copyParent rule k).2 ∧ Admissible (copyParent rule k).1 ∧
      (copyParent rule k).1.id < (copyParent rule k).2.nextId ∧
        (copyParent rule k).1 ∉ (copyParent rule k).2.rules := by
  obtain ⟨hzero, hlen⟩ := h.admissible rule hrule
  refine ⟨⟨rfl, rfl, Nat.le_succ _⟩, ⟨hzero, ?_⟩, Nat.lt_succ_self _, ?_⟩
  · show RULE_HEADER_LEN + rule.vPath.length + 0 ≤ BUFFER_LEN
    omega
  · intro hmem
    exact lt_irrefl k.nextId (h.allocated _ hmem)

theorem preserveVirtualParent_synced (h : Synced k) (hrule : rule ∈ k.rules) :
    Synced (preserveVirtualParent env rule k).2 := by
  unfold preserveVirtualParent
  split
  · exact h
  · split
    · exact h.of_same (same_tick k)
    · have htick := h.of_same (same_tick k)
      obtain ⟨hsame, hadm, hid, hnew⟩ := copyParent_spec htick hrule
      have henter := @enterParent_synced _ env _ (htick.of_same hsame) hadm hid hnew
      simp only
      split
      · have hunlink := henter.unlink (copyParent rule k.tick).1
        exact hunlink.of_same ⟨rfl, rfl, le_rfl⟩
      · exact (henter.of_same (same_takeDir ..)).unlink rule

theorem delRule_synced {vPath : Bytes} {beyond : UInt8} {uid : UInt32} (h : Synced k) :
    Synced (delRule env vPath beyond uid k).2 := by
  unfold delRule
  simp only
  split
  · exact h
  · rename_i found hs
    split
    · obtain ⟨hholds, -, -⟩ := Art.searchExact_sound h.sound hs
      exact preserveVirtualParent_synced h ((h.holds found).mp hholds)
    · exact (shrunk_detachRule h found true).synced

theorem same_disown (k : Kernel) (rule : Rule) : SameTable k (disown k rule) := by
  unfold disown
  split
  · exact ⟨rfl, rfl, le_rfl⟩
  · exact SameTable.refl k

theorem same_retire (k : Kernel) : SameTable k (retire k) := by
  have hfold : ∀ (rules : List Rule) (m : Kernel), SameTable k m → SameTable k (rules.foldl disown m) := by
    intro rules
    induction rules with
    | nil => exact fun m hm => hm
    | cons rule rest ih => exact fun m hm => ih _ (hm.trans (same_disown m rule))
  obtain ⟨hrules, hroot, hid⟩ := hfold k.victims k (SameTable.refl k)
  exact ⟨hrules, hroot, hid⟩

theorem clearAll_rules (k : Kernel) : (clearAll k).rules = [] ∧ (clearAll k).root = .null := by
  have hsame := same_retire { k.rules.foldl emptyParent k with
    rules := [], victims := k.rules, root := .null }
  exact ⟨hsame.rules, hsame.root⟩

theorem clearAll_synced (k : Kernel) : Synced (clearAll k) := by
  obtain ⟨hrules, hroot⟩ := clearAll_rules k
  constructor
  · rw [hroot]
    exact Or.inl rfl
  · rw [hroot, hrules]
    simp [Art.Holds]
  · rw [hrules]
    exact List.nodup_nil
  · simp [hrules]
  · simp [hrules]

end

theorem boot_synced : Synced boot := by
  constructor
  · exact Or.inl rfl
  · simp [boot, Art.Holds]
  · exact List.nodup_nil
  · simp [boot]
  · simp [boot]

end HybridMount.Vfs.Kernel
