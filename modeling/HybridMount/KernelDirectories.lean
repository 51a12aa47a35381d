import HybridMount.KernelRequests

/-! The child sets of the directory nodes: every rule stands in the set of its own parent
only, and nothing stands in a node which is not made yet. -/

namespace HybridMount.Vfs.Kernel

open LittleEndian

/-- Where a path leads to a virtual directory, its node has been made. -/
def Known (env : Nat → Answers) (k : Kernel) : Prop :=
  ∀ t dir, (env t).kernPath = some (.virtual (some dir)) → dir < k.nextDir

structure Housed (k : Kernel) : Prop where
  fresh : ∀ dir, k.nextDir ≤ dir → (k.dirs dir).children = [] ∧ (k.dirs dir).tag = none
  given : ∀ id dir, k.thisDir id = some dir → dir < k.nextDir
  hooked : ∀ number dir, k.hooks number = some dir → dir < k.nextDir
  below : ∀ id dir, k.parentDir id = some dir → dir < k.nextDir
  placed : ∀ dir, ∀ c ∈ (k.dirs dir).children, c.id < k.nextId ∧ k.parentDir c.id = some dir
  nodup : ∀ dir, (k.dirs dir).children.Nodup

/-- Two states which differ in the list, the tree and the clock at most. -/
structure SameDirs (k k' : Kernel) : Prop where
  dirs : k'.dirs = k.dirs
  thisDir : k'.thisDir = k.thisDir
  parentDir : k'.parentDir = k.parentDir
  childLen : k'.childLen = k.childLen
  hooks : k'.hooks = k.hooks
  nextDir : k'.nextDir = k.nextDir
  nextId : k'.nextId = k.nextId

/-- A rule that no child set holds. -/
def Outside (k : Kernel) (rule : Rule) : Prop := ∀ dir, ∀ c ∈ (k.dirs dir).children, c.id ≠ rule.id

section

variable {k k' : Kernel} {rule r : Rule} {alloc : Bool} {dir childLen : Nat} {env : Nat → Answers}

theorem SameDirs.refl (k : Kernel) : SameDirs k k := ⟨rfl, rfl, rfl, rfl, rfl, rfl, rfl⟩

theorem SameDirs.trans {m : Kernel} (h : SameDirs k k') (h' : SameDirs k' m) : SameDirs k m :=
  ⟨h'.dirs.trans h.dirs, h'.thisDir.trans h.thisDir, h'.parentDir.trans h.parentDir,
    h'.childLen.trans h.childLen,
    h'.hooks.trans h.hooks, h'.nextDir.trans h.nextDir, h'.nextId.trans h.nextId⟩

theorem dirs_tick (k : Kernel) : SameDirs k k.tick := ⟨rfl, rfl, rfl, rfl, rfl, rfl, rfl⟩

theorem dirs_unlink (rule : Rule) (k : Kernel) : SameDirs k (k.unlink rule) :=
    ⟨rfl, rfl, rfl, rfl, rfl, rfl, rfl⟩

theorem dirs_treeInsert (alloc : Bool) (rule : Rule) (k : Kernel) : SameDirs k (treeInsert alloc rule k).2 :=
  ⟨rfl, rfl, rfl, rfl, rfl, rfl, rfl⟩

theorem dirs_insertAll (env : Nat → Answers) (generated : List Rule) (k : Kernel) :
    SameDirs k (insertAll env generated k).2 := by
  induction generated generalizing k with
  | nil => exact SameDirs.refl k
  | cons rule rest ih =>
    have hstep := (dirs_tick k).trans (dirs_treeInsert (env k.clock).alloc rule k.tick)
    unfold insertAll
    simp only
    split
    · exact hstep
    · exact hstep.trans (ih _)

theorem Housed.of_same (h : Housed k) (hs : SameDirs k k') : Housed k' := by
  obtain ⟨hdirs, hthis, hparent, -, hhooks, hdir, hid⟩ := hs
  constructor
  · rw [hdirs, hdir]
    exact h.fresh
  · rw [hthis, hdir]
    exact h.given
  · rw [hhooks, hdir]
    exact h.hooked
  · rw [hparent, hdir]
    exact h.below
  · rw [hdirs, hparent, hid]
    exact h.placed
  · rw [hdirs]
    exact h.nodup

theorem Housed.tick (h : Housed k) : Housed k.tick := h.of_same (dirs_tick k)

theorem outside_of_new (h : Housed k) (hid : k.nextId ≤ r.id) : Outside k r := by
  intro dir c hc heq
  have hlt := (h.placed dir c hc).1
  omega

theorem known_mono (h : Known env k) (hle : k.nextDir ≤ k'.nextDir) : Known env k' :=
  fun t dir hd => lt_of_lt_of_le (h t dir hd) hle

/-- A rule which stands nowhere can be given any place. -/
theorem Housed.place (h : Housed k) (hout : Outside k rule) (childLen : Nat) (parent : Option Nat)
    (hparent : ∀ d, parent = some d → d < k.nextDir) : Housed (k.place rule childLen parent) := by
  constructor
  · exact h.fresh
  · exact h.given
  · exact h.hooked
  · intro id d hd
    have hupdate : Function.update k.parentDir rule.id parent id = some d := hd
    by_cases hid : id = rule.id
    · rw [hid, Function.update_self] at hupdate
      exact hparent d hupdate
    · rw [Function.update_of_ne hid] at hupdate
      exact h.below id d hupdate
  · intro d c hc
    obtain ⟨hid, hp⟩ := h.placed d c hc
    refine ⟨hid, ?_⟩
    show Function.update k.parentDir rule.id parent c.id = some d
    rw [Function.update_of_ne (hout d c hc), hp]
  · exact h.nodup

/-- A child set may be exchanged for one of rules which are placed there. -/
theorem Housed.setDir (h : Housed k) (hdir : dir < k.nextDir) (node : DirNode) (hnodup : node.children.Nodup)
    (hplaced : ∀ c ∈ node.children, c.id < k.nextId ∧ k.parentDir c.id = some dir) :
    Housed (k.setDir dir node) := by
  have hother : ∀ d, d ≠ dir → (k.setDir dir node).dirs d = k.dirs d :=
    fun d hd => Function.update_of_ne hd _ _
  have hself : (k.setDir dir node).dirs dir = node := Function.update_self ..
  constructor
  · intro d hle
    have hd : d ≠ dir := by
      have hlt : k.nextDir ≤ d := hle
      omega
    rw [hother d hd]
    exact h.fresh d hle
  · exact h.given
  · exact h.hooked
  · exact h.below
  · intro d c hc
    by_cases hd : d = dir
    · subst hd
      rw [hself] at hc
      exact hplaced c hc
    · rw [hother d hd] at hc
      exact h.placed d c hc
  · intro d
    by_cases hd : d = dir
    · subst hd
      rw [hself]
      exact hnodup
    · rw [hother d hd]
      exact h.nodup d

theorem Housed.setOwner (h : Housed k) (hdir : dir < k.nextDir) (owner : Option Rule) :
    Housed (k.setOwner dir owner) :=
  h.setDir hdir _ (h.nodup dir) (h.placed dir)

theorem Housed.setThisDir (h : Housed k) (id : Nat) (dir : Option Nat)
    (hdir : ∀ d, dir = some d → d < k.nextDir) :
    Housed { k with thisDir := Function.update k.thisDir id dir } := by
  refine ⟨h.fresh, ?_, h.hooked, h.below, h.placed, h.nodup⟩
  intro id' d ht
  have hupdate : Function.update k.thisDir id dir id' = some d := ht
  by_cases hid : id' = id
  · rw [hid, Function.update_self] at hupdate
    exact hdir d hupdate
  · rw [Function.update_of_ne hid] at hupdate
    exact h.given id' d hupdate

theorem Housed.newDir (h : Housed k) : Housed { k with nextDir := k.nextDir + 1 } := by
  constructor
  · intro d hle
    exact h.fresh d (Nat.le_of_succ_le hle)
  · exact fun id d ht => Nat.lt_succ_of_lt (h.given id d ht)
  · exact fun number d ht => Nat.lt_succ_of_lt (h.hooked number d ht)
  · exact fun id d ht => Nat.lt_succ_of_lt (h.below id d ht)
  · exact h.placed
  · exact h.nodup

theorem Housed.newId (h : Housed k) : Housed { k with nextId := k.nextId + 1 } :=
  ⟨h.fresh, h.given, h.hooked, h.below,
    fun d c hc => ⟨Nat.lt_succ_of_lt (h.placed d c hc).1, (h.placed d c hc).2⟩, h.nodup⟩

theorem Housed.setHook (h : Housed k) (number dir : Nat) (hdir : dir < k.nextDir) :
    Housed { k with hooks := Function.update k.hooks number (some dir) } := by
  refine ⟨h.fresh, h.given, ?_, h.below, h.placed, h.nodup⟩
  intro number' d ht
  have hupdate : Function.update k.hooks number (some dir) number' = some d := ht
  by_cases hn : number' = number
  · rw [hn, Function.update_self] at hupdate
    rw [← Option.some.inj hupdate]
    exact hdir
  · rw [Function.update_of_ne hn] at hupdate
    exact h.hooked number' d hupdate

theorem replace_split {l : List Rule} {a : Rule} (h : a ∈ l) (b : Rule) :
    ∃ s t, l = s ++ a :: t ∧ l.replace a b = s ++ b :: t := by
  obtain ⟨s, t, rfl, hs⟩ := List.eq_append_cons_of_mem h
  refine ⟨s, t, rfl, ?_⟩
  rw [List.replace_append_right hs, List.replace_cons_self]

/-- What does not change when a rule is entered into a child set. -/
structure Entering (dir : Nat) (rule : Rule) (k k' : Kernel) : Prop where
  housed : Housed k'
  thisDir : k'.thisDir = k.thisDir
  hooks : k'.hooks = k.hooks
  nextDir : k'.nextDir = k.nextDir
  nextId : k'.nextId = k.nextId
  childLen : ∀ id, id ≠ rule.id → k'.childLen id = k.childLen id
  parentDir : ∀ id, id ≠ rule.id → k'.parentDir id = k.parentDir id
  dirs : ∀ d, d ≠ dir → k'.dirs d = k.dirs d
  children : (k'.dirs dir).children ⊆ rule :: (k.dirs dir).children
  tag : (k'.dirs dir).tag = (k.dirs dir).tag
  root : k'.root = k.root
  victims : k'.victims = k.victims
  clock : k'.clock = k.clock

theorem injectChild_entering (h : Housed k) (hdir : dir < k.nextDir) (hid : rule.id < k.nextId)
    (hout : Outside k rule)
    (alloc : Bool) (childLen : Nat) : Entering dir rule k (injectChild alloc dir rule childLen k).2 := by
  have hnot : rule ∉ (k.dirs dir).children := fun hmem => hout dir rule hmem rfl
  have hplace := h.place hout childLen (some dir) fun d hd => by
    rw [← Option.some.inj hd]
    exact hdir
  have hlen : ∀ id, id ≠ rule.id → (k.place rule childLen (some dir)).childLen id = k.childLen id :=
    fun id hne => Function.update_of_ne hne _ _
  have hparent : ∀ id, id ≠ rule.id → (k.place rule childLen (some dir)).parentDir id = k.parentDir id :=
    fun id hne => Function.update_of_ne hne _ _
  rcases injectChild_cases alloc dir rule childLen k with ⟨children, capacity, heq, hcase⟩ | ⟨-, -, heq⟩
  · rw [heq]
    have hmem : ∀ c ∈ children, c = rule ∨ c ∈ (k.dirs dir).children := by
      intro c hc
      rcases hcase with ⟨old, hold, -, -, rfl⟩ | ⟨-, rfl⟩
      · obtain ⟨s, t, hl, hr⟩ := replace_split hold rule
        rw [hr] at hc
        rw [hl]
        simp only [List.mem_append, List.mem_cons] at hc ⊢
        tauto
      · rcases List.mem_append.mp hc with hc | hc
        · exact Or.inr hc
        · exact Or.inl (List.mem_singleton.mp hc)
    have hnodup : children.Nodup := by
      have hold := h.nodup dir
      rcases hcase with ⟨old, hin, -, -, rfl⟩ | ⟨-, rfl⟩
      · obtain ⟨s, t, hl, hr⟩ := replace_split hin rule
        rw [hr]
        rw [hl] at hold hnot
        rw [List.nodup_middle, List.nodup_cons] at hold ⊢
        simp only [List.mem_append, List.mem_cons, not_or] at hnot ⊢
        exact ⟨⟨hnot.1, hnot.2.2⟩, hold.2⟩
      · rw [← List.concat_eq_append, List.nodup_concat]
        exact ⟨hnot, hold⟩
    refine ⟨hplace.setDir hdir _ hnodup ?_, rfl, rfl, rfl, rfl, hlen, hparent,
      fun d hd => Function.update_of_ne hd _ _, ?_, ?_, rfl, rfl, rfl⟩
    · intro c hc
      rcases hmem c hc with rfl | hc
      · exact ⟨hid, Function.update_self ..⟩
      · exact hplace.placed dir c hc
    · intro c hc
      have hin : c ∈ (Function.update k.dirs dir ⟨children, capacity, (k.dirs dir).tag⟩ dir).children := hc
      rw [Function.update_self] at hin
      exact List.mem_cons.mpr (hmem c hin)
    · show (Function.update k.dirs dir _ dir).tag = _
      rw [Function.update_self]
  · rw [heq]
    have hback : Outside (k.place rule childLen (some dir)) rule := hout
    refine ⟨hplace.place hback childLen none (by simp), rfl, rfl, rfl, rfl, ?_, ?_, fun d _ => rfl,
      fun c hc => List.mem_cons_of_mem _ hc, rfl, rfl, rfl, rfl⟩
    · intro id hne
      show Function.update (Function.update k.childLen _ _) _ _ id = _
      rw [Function.update_of_ne hne, Function.update_of_ne hne]
    · intro id hne
      show Function.update (Function.update k.parentDir _ _) _ _ id = _
      rw [Function.update_of_ne hne, Function.update_of_ne hne]

/-- Taking a rule out of its child set erases it wherever it stands. -/
theorem deleteChild_children (h : Housed k) (rule : Rule) (d : Nat) :
    ((deleteChild rule k).2.dirs d).children = (k.dirs d).children.erase rule := by
  have hkeep : ∀ d, k.parentDir rule.id ≠ some d → (k.dirs d).children.erase rule = (k.dirs d).children := by
    intro d hd
    exact List.erase_of_not_mem fun hmem => hd (h.placed d rule hmem).2
  unfold deleteChild
  cases hp : k.parentDir rule.id with
  | none => exact (hkeep d (by simp [hp])).symm
  | some dir =>
    simp only
    by_cases hd : d = dir
    · subst hd
      split
      · show (Function.update k.dirs d _ d).children = _
        rw [Function.update_self]
      · rename_i hnot
        exact (List.erase_of_not_mem hnot).symm
    · have hsame : (k.dirs d).children.erase rule = (k.dirs d).children :=
        hkeep d (by rw [hp]; exact fun hh => hd (Option.some.inj hh).symm)
      rw [hsame]
      split
      · show (Function.update k.dirs dir _ d).children = _
        rw [Function.update_of_ne hd]
      · rfl

/-- A deletion touches the child sets only. -/
structure Leaving (k k' : Kernel) : Prop where
  thisDir : k'.thisDir = k.thisDir
  parentDir : k'.parentDir = k.parentDir
  childLen : k'.childLen = k.childLen
  hooks : k'.hooks = k.hooks
  nextDir : k'.nextDir = k.nextDir
  nextId : k'.nextId = k.nextId
  tag : ∀ d, (k'.dirs d).tag = (k.dirs d).tag
  rules : k'.rules = k.rules
  root : k'.root = k.root

theorem deleteChild_leaving (rule : Rule) (k : Kernel) : Leaving k (deleteChild rule k).2 := by
  unfold deleteChild
  cases k.parentDir rule.id with
  | none => exact ⟨rfl, rfl, rfl, rfl, rfl, rfl, fun _ => rfl, rfl, rfl⟩
  | some dir =>
    simp only
    split
    · refine ⟨rfl, rfl, rfl, rfl, rfl, rfl, ?_, rfl, rfl⟩
      intro d
      show (Function.update k.dirs dir _ d).tag = _
      by_cases hd : d = dir
      · rw [hd, Function.update_self]
      · rw [Function.update_of_ne hd]
    · exact ⟨rfl, rfl, rfl, rfl, rfl, rfl, fun _ => rfl, rfl, rfl⟩

theorem Housed.deleteChild (h : Housed k) (rule : Rule) : Housed (deleteChild rule k).2 := by
  obtain ⟨hthis, hparent, -, hhooks, hdir, hid, htag, -, -⟩ := deleteChild_leaving rule k
  have hchildren := deleteChild_children h rule
  constructor
  · rw [hdir]
    intro d hle
    rw [hchildren, htag, (h.fresh d hle).1]
    exact ⟨rfl, (h.fresh d hle).2⟩
  · rw [hthis, hdir]
    exact h.given
  · rw [hhooks, hdir]
    exact h.hooked
  · rw [hparent, hdir]
    exact h.below
  · intro d c hc
    rw [hchildren] at hc
    rw [hparent, hid]
    exact h.placed d c (List.mem_of_mem_erase hc)
  · intro d
    rw [hchildren]
    exact (h.nodup d).erase rule

/-- The directory nodes change on the way of an addition only by what is entered. -/
structure Growing (base : Nat) (m : Kernel) (entered : List Rule) (k : Kernel) : Prop where
  housed : Housed k
  nextDir : m.nextDir ≤ k.nextDir
  nextId : base < k.nextId
  root : k.root = m.root
  hooks : k.hooks = m.hooks
  thisDir : ∀ id < base, k.thisDir id = m.thisDir id
  childLen : ∀ id < base, k.childLen id = m.childLen id
  old : ∀ d < m.nextDir, (k.dirs d).children = (m.dirs d).children
  new : ∀ d, m.nextDir ≤ d → (k.dirs d).children ⊆ entered

/-- A rule which is on its way into the table: made since `base` and still in no child set. -/
structure Pending (base : Nat) (k : Kernel) (rule : Rule) : Prop where
  made : base ≤ rule.id
  born : rule.id < k.nextId
  outside : Outside k rule

section

variable {base : Nat} {m : Kernel} {entered : List Rule} {uid : UInt32} {path : Bytes}

theorem Growing.tick (h : Growing base m entered k) : Growing base m entered k.tick :=
  ⟨h.housed.tick, h.nextDir, h.nextId, h.root, h.hooks, h.thisDir, h.childLen, h.old, h.new⟩

theorem Pending.tick (h : Pending base k rule) : Pending base k.tick rule := ⟨h.made, h.born, h.outside⟩

theorem Growing.newDir (h : Growing base m entered k) :
    Growing base m entered { k with nextDir := k.nextDir + 1 } :=
  ⟨h.housed.newDir, Nat.le_succ_of_le h.nextDir, h.nextId, h.root, h.hooks, h.thisDir, h.childLen, h.old, h.new⟩

theorem Growing.newId (h : Growing base m entered k) :
    Growing base m entered { k with nextId := k.nextId + 1 } :=
  ⟨h.housed.newId, h.nextDir, Nat.lt_succ_of_lt h.nextId, h.root, h.hooks, h.thisDir, h.childLen, h.old, h.new⟩

/-- A directory node made on the way takes the pending rule in. -/
theorem Growing.inject (h : Growing base m entered k) (hrule : Pending base k rule) (hdir : m.nextDir ≤ dir)
    (hlt : dir < k.nextDir) (alloc : Bool) (childLen : Nat) :
    Growing base m (rule :: entered) (injectChild alloc dir rule childLen k).2 := by
  obtain ⟨hmade, hborn, hout⟩ := hrule
  have henter := injectChild_entering h.housed hlt hborn hout alloc childLen
  constructor
  · exact henter.housed
  · rw [henter.nextDir]
    exact h.nextDir
  · rw [henter.nextId]
    exact h.nextId
  · exact henter.root.trans h.root
  · exact henter.hooks.trans h.hooks
  · intro id hid
    rw [henter.thisDir]
    exact h.thisDir id hid
  · intro id hid
    exact (henter.childLen id (by omega)).trans (h.childLen id hid)
  · intro d hd
    rw [henter.dirs d (by omega)]
    exact h.old d hd
  · intro d hd c hc
    by_cases hdd : d = dir
    · subst hdd
      rcases List.mem_cons.mp (henter.children hc) with rfl | hc
      · exact List.mem_cons_self
      · exact List.mem_cons_of_mem _ (h.new d hd hc)
    · rw [henter.dirs d hdd] at hc
      exact List.mem_cons_of_mem _ (h.new d hd hc)

theorem Growing.own (h : Growing base m entered k) (hlt : dir < k.nextDir) (owner : Rule)
    (hid : base ≤ owner.id) :
    Growing base m entered { k.setOwner dir (some owner) with
      thisDir := Function.update k.thisDir owner.id (some dir) } := by
  have hchildren : ∀ d, ((k.setOwner dir (some owner)).dirs d).children = (k.dirs d).children := by
    intro d
    show (Function.update k.dirs dir _ d).children = _
    by_cases hd : d = dir
    · rw [hd, Function.update_self]
    · rw [Function.update_of_ne hd]
  refine ⟨(h.housed.setOwner hlt _).setThisDir _ _ ?_, h.nextDir, h.nextId, h.root, h.hooks, ?_,
    h.childLen, ?_, ?_⟩
  · intro d hd
    rw [← Option.some.inj hd]
    exact hlt
  · intro id hlow
    rw [← h.thisDir id hlow]
    exact Function.update_of_ne (by omega) _ _
  · exact fun d hd => (hchildren d).trans (h.old d hd)
  · intro d hd
    rw [hchildren d]
    exact h.new d hd

/-- A generated rule takes the pending one in and is pending itself. -/
theorem generate_grows (h : Growing base m entered k) (hrule : Pending base k rule) (childLen : Nat) :
    Growing base m (rule :: entered) (generate path uid rule childLen k).2 ∧
      Pending base (generate path uid rule childLen k).2 (generate path uid rule childLen k).1 := by
  have hmade : base ≤ k.nextId := h.nextId.le
  have hpending : Pending base { k with nextId := k.nextId + 1, nextDir := k.nextDir + 1 } rule :=
    ⟨hrule.made, Nat.lt_succ_of_lt hrule.born, hrule.outside⟩
  have henter := injectChild_entering h.housed.newId.newDir (Nat.lt_succ_self k.nextDir) hpending.born
    hpending.outside true childLen
  have hgrown := h.newId.newDir.inject hpending h.nextDir (Nat.lt_succ_self k.nextDir) true childLen
  have hlt : k.nextDir < (injectChild true k.nextDir rule childLen
      { k with nextId := k.nextId + 1, nextDir := k.nextDir + 1 }).2.nextDir := by
    rw [henter.nextDir]
    exact Nat.lt_succ_self _
  have howned := hgrown.own hlt ⟨k.nextId, path, [], IS_DIR ||| VIRTUAL_DIR, uid⟩ hmade
  refine ⟨howned, hmade, ?_, ?_⟩
  · show k.nextId < (injectChild true k.nextDir rule childLen _).2.nextId
    rw [henter.nextId]
    exact Nat.lt_succ_self _
  · intro d c hc
    show c.id ≠ k.nextId
    have hmem : c = rule ∨ ∃ d', c ∈ (k.dirs d').children := by
      by_cases hd : d = k.nextDir
      · subst hd
        have hin : c ∈ (Function.update (injectChild true k.nextDir rule childLen _).2.dirs k.nextDir _
          k.nextDir).children := hc
        rw [Function.update_self] at hin
        rcases List.mem_cons.mp (henter.children hin) with heq | hin
        · exact Or.inl heq
        · exact Or.inr ⟨_, hin⟩
      · have hin : c ∈ (Function.update (injectChild true k.nextDir rule childLen _).2.dirs k.nextDir _
          d).children := hc
        rw [Function.update_of_ne hd, henter.dirs d hd] at hin
        exact Or.inr ⟨d, hin⟩
    rcases hmem with rfl | ⟨d', hin⟩
    · exact Nat.ne_of_lt hrule.born
    · exact Nat.ne_of_lt (h.housed.placed d' c hin).1

end

end

end HybridMount.Vfs.Kernel
