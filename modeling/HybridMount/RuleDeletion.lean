import HybridMount.KernelGrowth

/-! What a deletion finds and what it leaves. The lookup of a record reads the byte
after its path, which belongs to something else. -/

namespace HybridMount.Vfs.Kernel

open LittleEndian

/-- Not one of the directory rules which the module makes itself. -/
def Explicit (rule : Rule) : Prop := ¬ (rule.flags = IS_DIR ||| VIRTUAL_DIR ∧ rule.rPath = [])

/-- What a record of `DEL_RULE` names, with the byte that follows its path. -/
structure Target where
  vPath : Bytes
  beyond : UInt8
  uid : UInt32

def Target.path (target : Target) : Bytes := stripSlashes target.vPath

/-- The byte after the path which is looked up: a stripped slash, if there is one. -/
def Target.after (target : Target) : UInt8 := (target.vPath ++ [target.beyond]).getD target.path.length 0

def lookup (target : Target) (k : Kernel) : Option Rule :=
  Art.searchExact target.path target.after target.uid k.root

/-- A rule of the table under the path and uid of a record. -/
def Sought (target : Target) (k : Kernel) (rule : Rule) : Prop :=
  rule ∈ k.rules ∧ rule.vPath = target.path ∧ rule.targetUid = target.uid

/-- A child can be entered: in the place of one of its name and uid, or with space for it. -/
def Room (alloc : Bool) (dir : Nat) (rule : Rule) (childLen : Nat) (k : Kernel) : Prop :=
  alloc = true ∧ ChildArray.newCap (k.dirs dir).capacity < 2 ^ 31 ∨ (k.dirs dir).children = [] ∨
    (k.dirs dir).children.length < (k.dirs dir).capacity ∨
    ∃ c ∈ (k.dirs dir).children, c.targetUid = rule.targetUid ∧
      (k.place rule childLen (some dir)).nameOf c = rule.childName childLen

/-- The memory for the rule that stays behind in the place of a directory with children is there. -/
def StandIn (env : Nat → Answers) (rule : Rule) (k : Kernel) : Prop :=
  (env k.clock).alloc = true ∧ ∀ dir, k.parentDir rule.id = some dir →
    Room (env (k.clock + 2)).alloc dir (copyParent rule k).1 (k.childLen rule.id) k

/-- A rule with children leaves only when something can stay in its place. -/
def CanLeave (env : Nat → Answers) (k : Kernel) (rule : Rule) : Prop :=
  k.hasChildren rule = true → rule.flags ≠ IS_DIR ||| VIRTUAL_DIR ∧ StandIn env rule k

/-- The terminated path leads to the rule, and the byte after the path does not lead elsewhere. -/
def Reaches (target : Target) (k : Kernel) (rule : Rule) : Prop :=
  Art.searchExact target.path 0 target.uid k.root = some rule ∧
    (target.after = 0 ∨ ∀ x ∈ k.rules, target.path <+: x.vPath → x.vPath = target.path)

section

variable {k : Kernel} {rule : Rule} {env : Nat → Answers} {target : Target}

theorem lookup_iff (h : Synced k) : lookup target k = some rule ↔ Reaches target k rule := by
  unfold lookup Reaches
  rw [Art.searchExact_counted h.sound]
  simp only [h.holds]

theorem sought_of_lookup (h : Synced k) (hl : lookup target k = some rule) : Sought target k rule := by
  obtain ⟨hholds, hpath, huid⟩ := Art.searchExact_sound h.sound hl
  exact ⟨(h.holds rule).mp hholds, hpath, huid⟩

theorem injectChild_zero_iff (alloc : Bool) (dir : Nat) (rule : Rule) (childLen : Nat) (k : Kernel) :
    (injectChild alloc dir rule childLen k).1 = 0 ↔ Room alloc dir rule childLen k := by
  have hfail : ENOMEM ≠ 0 := by decide
  unfold injectChild Room
  simp only
  cases hf : (k.dirs dir).children.find? fun c => c.targetUid = rule.targetUid ∧
      (k.place rule childLen (some dir)).nameOf c = rule.childName childLen with
  | some old =>
    have hold := List.find?_some hf
    simp only [decide_eq_true_eq] at hold
    simp only [true_iff]
    exact Or.inr (Or.inr (Or.inr ⟨old, List.mem_of_find?_eq_some hf, hold⟩))
  | none =>
    have hno : ¬ ∃ c ∈ (k.dirs dir).children, c.targetUid = rule.targetUid ∧
        (k.place rule childLen (some dir)).nameOf c = rule.childName childLen := by
      rintro ⟨c, hc, hsame⟩
      have hnot := List.find?_eq_none.mp hf c hc
      simp [hsame] at hnot
    simp only [hno, or_false]
    by_cases hnil : (k.dirs dir).children = []
    · simp [hnil]
    · by_cases hroom : (k.dirs dir).children.length < (k.dirs dir).capacity
      · simp [hnil, hroom]
      · by_cases hgrows : alloc = true ∧ ChildArray.newCap (k.dirs dir).capacity < 2 ^ 31
        · rw [if_neg hnil, if_neg hroom, if_pos hgrows]
          exact ⟨fun _ => Or.inl hgrows, fun _ => rfl⟩
        · rw [if_neg hnil, if_neg hroom, if_neg hgrows]
          refine ⟨fun hzero => absurd hzero hfail, ?_⟩
          rintro (hgrow | hempty | hless)
          · exact absurd hgrow hgrows
          · exact absurd hempty hnil
          · exact absurd hless hroom

theorem treeInsert_stored (h : Synced k) {parent : Rule} (hrule : rule ∈ k.rules)
    (hpath : rule.vPath = parent.vPath)
    (alloc : Bool) : (treeInsert alloc parent k).1 = 0 := by
  have hholds := (h.holds rule).mpr hrule
  rcases h.sound with hnull | hwf
  · rw [hnull] at hholds
    cases hholds
  · exact Art.insert_stored hwf hholds hpath alloc

@[simp] theorem victims_injectChild (alloc : Bool) (dir : Nat) (rule : Rule) (childLen : Nat) (k : Kernel) :
    (injectChild alloc dir rule childLen k).2.victims = k.victims := by
  rcases injectChild_cases alloc dir rule childLen k with ⟨children, capacity, h, -⟩ | ⟨-, -, h⟩ <;>
    rw [h] <;> rfl

@[simp] theorem victims_deleteChild : (deleteChild rule k).2.victims = k.victims := by
  unfold deleteChild
  split
  · rfl
  · simp only
    split <;> rfl

theorem victims_prune (fuel : Nat) (start : Option Nat) :
    ∃ more, (pruneEmptyVirtualDirs fuel start k).victims = k.victims ++ more := by
  induction fuel generalizing k start with
  | zero => exact ⟨[], by simp [pruneEmptyVirtualDirs]⟩
  | succ fuel ih =>
    cases start with
    | none => exact ⟨[], by simp [pruneEmptyVirtualDirs]⟩
    | some dir =>
      unfold pruneEmptyVirtualDirs
      split
      · exact ⟨[], by simp⟩
      · split
        · rename_i owner _
          split
          · obtain ⟨more, hmore⟩ := @ih (deleteChild owner (k.unlink owner)).2
              (deleteChild owner (k.unlink owner)).1
            refine ⟨owner :: more, ?_⟩
            rw [hmore, victims_deleteChild]
            simp [unlink]
          · exact ⟨[], by simp⟩
        · exact ⟨[], by simp⟩

theorem victims_detachRule (rule : Rule) (prune : Bool) (k : Kernel) :
    ∃ more, (detachRule rule prune k).victims = k.victims ++ rule :: more := by
  unfold detachRule
  simp only
  split
  · exact ⟨[], rfl⟩
  · split
    · obtain ⟨more, hmore⟩ := @victims_prune (deleteChild rule (k.unlink rule)).2
        ((k.unlink rule).nextDir + 1)
        (deleteChild rule (k.unlink rule)).1
      refine ⟨more, ?_⟩
      rw [hmore, victims_deleteChild]
      simp [unlink]
    · refine ⟨[], ?_⟩
      rw [victims_deleteChild]
      rfl

theorem not_mem_detachRule (h : Synced k) (rule : Rule) (prune : Bool) :
    rule ∉ (detachRule rule prune k).rules := by
  have hgone : rule ∉ (k.unlink rule).rules := h.nodup.not_mem_erase
  have hunlink := shrunk_unlink h rule
  have hdelete := shrunk_deleteChild hunlink.synced rule
  unfold detachRule
  simp only
  split
  · exact hgone
  · split
    · have hprune := shrunk_prune hdelete.synced ((k.unlink rule).nextDir + 1)
        (deleteChild rule (k.unlink rule)).1
      exact fun hmem => hgone (hdelete.subset (hprune.subset hmem))
    · exact fun hmem => hgone (hdelete.subset hmem)

theorem enterParent_spec (h : Synced k) (hrule : rule ∈ k.rules) :
    ((enterParent env (copyParent rule k.tick).1 (copyParent rule k.tick).2).1 = 0 ↔
      ∀ dir, k.parentDir rule.id = some dir →
      Room (env (k.clock + 2)).alloc dir (copyParent rule k).1 (k.childLen rule.id) k) ∧
    (enterParent env (copyParent rule k.tick).1 (copyParent rule k.tick).2).2.rules =
      k.rules ++ [(copyParent rule k).1] ∧
    (enterParent env (copyParent rule k.tick).1 (copyParent rule k.tick).2).2.victims = k.victims := by
  have hcopy : Synced (copyParent rule k.tick).2 := h.of_same ⟨rfl, rfl, Nat.le_succ _⟩
  have hinsert : (treeInsert (env (copyParent rule k.tick).2.clock).alloc (copyParent rule k.tick).1
      (copyParent rule k.tick).2.tick).1 = 0 :=
    @treeInsert_stored _ rule (hcopy.of_same (same_tick _)) (copyParent rule k.tick).1 hrule rfl _
  have hrules : (treeInsert (env (copyParent rule k.tick).2.clock).alloc (copyParent rule k.tick).1
      (copyParent rule k.tick).2.tick).2.rules = k.rules ++ [(copyParent rule k).1] := by
    show (if (treeInsert _ (copyParent rule k.tick).1 (copyParent rule k.tick).2.tick).1 = 0 then _ else _) = _
    rw [if_pos hinsert]
    rfl
  have hparent : (treeInsert (env (copyParent rule k.tick).2.clock).alloc (copyParent rule k.tick).1
      (copyParent rule k.tick).2.tick).2.parentDir = Function.update k.parentDir k.nextId
        (k.parentDir rule.id) := rfl
  have hdir : (copyParent rule k.tick).2.parentDir (copyParent rule k.tick).1.id = k.parentDir rule.id :=
    Function.update_self ..
  have hlen : (copyParent rule k.tick).2.childLen (copyParent rule k.tick).1.id = k.childLen rule.id :=
    Function.update_self ..
  unfold enterParent
  simp only [hinsert, ne_eq, not_true_eq_false, if_false, hdir, hlen]
  cases hp : k.parentDir rule.id with
  | none => exact ⟨by simp [hinsert], hrules, rfl⟩
  | some dir =>
    refine ⟨?_, ?_, ?_⟩
    · rw [injectChild_zero_iff]
      have hroom : ∀ alloc, Room alloc dir (copyParent rule k.tick).1 (k.childLen rule.id)
          (treeInsert (env (copyParent rule k.tick).2.clock).alloc (copyParent rule k.tick).1
            (copyParent rule k.tick).2.tick).2.tick ↔
          Room alloc dir (copyParent rule k).1 (k.childLen rule.id) k := by
        intro alloc
        unfold Room nameOf place
        simp only [treeInsert, tick, copyParent, Function.update_idem]
      simp only [Option.some.injEq, forall_eq']
      exact hroom _
    · rw [(same_injectChild ..).rules]
      exact hrules
    · rw [victims_injectChild]
      rfl

theorem preserve_spec (h : Synced k) (hrule : rule ∈ k.rules) (hflags : rule.flags ≠ IS_DIR ||| VIRTUAL_DIR) :
    (StandIn env rule k ∧ (preserveVirtualParent env rule k).1 = 0 ∧
      rule ∉ (preserveVirtualParent env rule k).2.rules ∧
      (preserveVirtualParent env rule k).2.victims = k.victims ++ [rule]) ∨
    (¬ StandIn env rule k ∧ (preserveVirtualParent env rule k).1 ≠ 0 ∧
      rule ∈ (preserveVirtualParent env rule k).2.rules) := by
  obtain ⟨hok, hrules, hvictims⟩ := @enterParent_spec k rule env h hrule
  have hother : rule ≠ (copyParent rule k).1 := by
    intro heq
    have hid : rule.id = k.nextId := congrArg Rule.id heq
    have hlt := h.allocated rule hrule
    omega
  unfold preserveVirtualParent
  rw [if_neg hflags]
  by_cases halloc : (env k.clock).alloc = false
  · right
    rw [if_pos halloc]
    refine ⟨?_, (by decide : ENOMEM ≠ 0), hrule⟩
    rintro ⟨htrue, -⟩
    rw [halloc] at htrue
    cases htrue
  · rw [if_neg halloc]
    simp only
    by_cases hroom : (enterParent env (copyParent rule k.tick).1 (copyParent rule k.tick).2).1 = 0
    · left
      rw [if_neg (not_not.mpr hroom)]
      refine ⟨⟨by simpa using halloc, hok.mp hroom⟩, rfl, ?_, ?_⟩
      · have hsame := same_takeDir (copyParent rule k.tick).1 rule
          (enterParent env (copyParent rule k.tick).1 (copyParent rule k.tick).2).2
        show rule ∉ (takeDir _ rule _).rules.erase rule
        rw [hsame.rules, hrules]
        have hnodup : (k.rules ++ [(copyParent rule k).1]).Nodup := by
          apply List.nodup_append.mpr
          refine ⟨h.nodup, by simp, ?_⟩
          intro a ha b hb hab
          rw [List.mem_singleton.mp hb] at hab
          have hlt := h.allocated a ha
          have hid : a.id = k.nextId := congrArg Rule.id hab
          omega
        exact hnodup.not_mem_erase
      · have hsame : ∀ m, (takeDir (copyParent rule k.tick).1 rule m).victims = m.victims := by
          intro m
          unfold takeDir
          simp only
          split <;> rfl
        show (takeDir _ rule _).victims ++ [rule] = k.victims ++ [rule]
        rw [hsame, hvictims]
    · right
      rw [if_pos hroom]
      refine ⟨fun hstand => hroom (hok.mpr hstand.2), hroom, ?_⟩
      show rule ∈ (enterParent env (copyParent rule k.tick).1 (copyParent rule k.tick).2).2.rules.erase
        (copyParent rule k.tick).1
      rw [hrules]
      exact (List.mem_erase_of_ne hother).mpr (List.mem_append_left _ hrule)

/-- What a deletion does: it finds nothing, leaves a derived directory with children,
fails for lack of memory, or takes the rule away. -/
theorem delRule_cases (h : Synced k) (env : Nat → Answers) (target : Target) :
    (lookup target k = none ∧ delRule env target.vPath target.beyond target.uid k = (0, k)) ∨
    ∃ rule, lookup target k = some rule ∧
      ((k.hasChildren rule = true ∧ rule.flags = IS_DIR ||| VIRTUAL_DIR ∧
          delRule env target.vPath target.beyond target.uid k = (0, k)) ∨
        (¬ CanLeave env k rule ∧ rule.flags ≠ IS_DIR ||| VIRTUAL_DIR ∧
          (delRule env target.vPath target.beyond target.uid k).1 ≠ 0 ∧
          rule ∈ (delRule env target.vPath target.beyond target.uid k).2.rules) ∨
        (CanLeave env k rule ∧ (delRule env target.vPath target.beyond target.uid k).1 = 0 ∧
          rule ∉ (delRule env target.vPath target.beyond target.uid k).2.rules ∧
          ∃ more, (delRule env target.vPath target.beyond target.uid k).2.victims = k.victims ++
            rule :: more)) := by
  cases hl : lookup target k with
  | none =>
    left
    have hsearch : Art.searchExact (stripSlashes target.vPath)
        ((target.vPath ++ [target.beyond]).getD (stripSlashes target.vPath).length 0) target.uid
          k.root = none := hl
    exact ⟨rfl, by simp only [delRule, hsearch]⟩
  | some rule =>
    right
    have hsearch : Art.searchExact (stripSlashes target.vPath)
        ((target.vPath ++ [target.beyond]).getD (stripSlashes target.vPath).length 0) target.uid k.root =
          some rule := hl
    have hrule := (sought_of_lookup h hl).1
    have hdel : delRule env target.vPath target.beyond target.uid k =
        if k.hasChildren rule then preserveVirtualParent env rule k else (0, detachRule rule true k) := by
      simp only [delRule, hsearch]
    refine ⟨rule, rfl, ?_⟩
    rw [hdel]
    by_cases hchildren : k.hasChildren rule = true
    · rw [if_pos hchildren]
      by_cases hflags : rule.flags = IS_DIR ||| VIRTUAL_DIR
      · left
        refine ⟨hchildren, hflags, ?_⟩
        rw [preserveVirtualParent, if_pos hflags]
      · right
        rcases @preserve_spec k rule env h hrule hflags
          with ⟨hstand, hzero, hgone, hvictims⟩ | ⟨hstand, herr, hkept⟩
        · exact Or.inr ⟨fun _ => ⟨hflags, hstand⟩, hzero, hgone, [], hvictims⟩
        · exact Or.inl ⟨fun hleave => hstand (hleave hchildren).2, hflags, herr, hkept⟩
    · rw [if_neg hchildren]
      exact Or.inr (Or.inr ⟨fun hh => absurd hh hchildren, rfl, not_mem_detachRule h rule true,
        victims_detachRule rule true k⟩)

/-- A rule which a deletion can take off the list. -/
def Removable (k : Kernel) (rule : Rule) : Prop := k.hasChildren rule = false ∨ Explicit rule

end

section

variable {σ : Type}

/-- The records of a batch, each with the state that it meets. -/
def moments (exec : Record → σ → Int32 × σ) : List Record → σ → List (Record × σ)
  | [], _ => []
  | record :: rest, state => (record, state) :: moments exec rest (exec record state).2

end

def targetAt (buffer : Bytes) (past : UInt8) (record : Record) : Target :=
  ⟨vPathAt Protocol.DEL_HEADER_LEN buffer record, beyondAt buffer past record, .ofNat record.uid⟩

/-- The records of a page, as items of a uid and a path. -/
def delItem (item : UInt32 × Bytes) : Bytes := Protocol.writeDelRecord item.1 .hybridMount item.2

def delMoments (env : Nat → Answers) (past : UInt8) (payload : Protocol.Payload)
    (items : List (UInt32 × Bytes))
    (k : Kernel) : List (Target × Kernel) :=
  (moments (delRecord env payload.buffer past)
    (recordsFrom delItem (fun offset item => Vfs.delRecord item.1 offset item.2) payload.arg1 items) k).map
      fun x => (targetAt payload.buffer past x.1, x.2)

section

variable {k : Kernel} {env : Nat → Answers} {past : UInt8}

theorem moments_synced {buffer : Bytes} (records : List Record) (h : Synced k) :
    ∀ x ∈ moments (delRecord env buffer past) records k, Synced x.2 := by
  induction records generalizing k with
  | nil => simp [moments]
  | cons record rest ih =>
    simp only [moments, List.forall_mem_cons]
    exact ⟨h, ih (delRule_synced h)⟩

end

end HybridMount.Vfs.Kernel
