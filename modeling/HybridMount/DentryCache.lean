import HybridMount.Lookup

/-! Whatever happens to the rules, to the blocked uids and to the cached dentries, a name leads to
where a lookup without a cache would lead. -/

namespace HybridMount.Vfs.Lookup

open LittleEndian ChildArray ReadDir

/-- The entry in a directory elsewhere, when nothing stands in the way. -/
def World.entry (world : World) (parent : Option Path) (name : Bytes) : Except Int32 Found :=
  match lookupBackingChild world true parent name with
  | .error err => .error err
  | .ok none => .ok .negative
  | .ok (some backing) => if world.ours backing then .error ELOOP else .ok (.proxy (some backing) none 0)

section

variable {ρ : Type}

/-- What a name leads to without the rules. -/
def DirState.outside (s : DirState ρ) (fsuid : UInt32) (name : Bytes) : Except Int32 Found :=
  match s.place with
  | .plain => .ok (s.world.found name)
  | .hooked => .ok (s.world.found name)
  | .ofRule info =>
    if s.blocked fsuid then (if info.nativePath = none then .ok .negative
      else s.world.entry info.nativePath name)
    else if info.flags.toUInt16 &&& VIRTUAL_DIR ≠ 0 then .ok .negative
    else s.world.entry info.rPath name

/-- The rule which a name has for a reader who is not kept from the rules. -/
def DirState.ruleFor (N : Naming ρ) (s : DirState ρ) (fsuid : UInt32) (name : Bytes) : Option ρ :=
  if s.blocked fsuid then none else seen N s.node fsuid name

def Target.found (rule : Target) : Found :=
  if rule.has WHITEOUT then .negative else .proxy rule.backingPath rule.thisDir rule.flags.toUInt8

/-- What a name leads to. -/
def DirState.resolves (N : Naming ρ) (s : DirState ρ) (fsuid : UInt32) (name : Bytes) : Except Int32 Found :=
  match s.ruleFor N fsuid name with
  | some rule => .ok (s.target rule).found
  | none => s.outside fsuid name

/-- The kernel has what a lookup needs, and every rule leads somewhere. -/
structure Willing (s : DirState ρ) (env : Answers) : Prop where
  newInode : env.newInode = true
  alloc : env.alloc = true
  grabbed : env.grabbed = true
  grabbedAgain : env.grabbedAgain = true
  pinned : env.pinned = true
  lookup : env.lookup = 0
  locked : env.locked = true
  lockedAgain : env.lockedAgain = true
  lockedNative : env.lockedNative = true
  childInode : env.childInode = true
  childAlloc : env.childAlloc = true
  backed : ∀ rule, (s.target rule).has WHITEOUT = true ∨ (s.target rule).has VIRTUAL_DIR = true ∨
    (s.target rule).rPath.isSome = true
  live : ∀ rule dir, (s.target rule).thisDir = some dir → s.slots dir ≠ .retired
  own : ∀ info path, s.place = .ofRule info → info.nativePath = some path → s.world.ours path = false

/-- What holds of the dentries in the cache, however they have come there. -/
structure Sound (N : Naming ρ) (s : DirState ρ) : Prop where
  agrees : ∀ d, s.node = some d → ∃ m, Agrees N (d, m)
  virtual : ∀ info, s.place = .ofRule info → info.flags.toUInt16 &&& VIRTUAL_DIR ≠ 0 → info.rPath = none
  plain : s.place = .plain → s.node = none ∧ ∀ name dentry, s.dcache name = some dentry → dentry = .bare
  bare : ∀ name, s.dcache name = some .bare → (∀ info, s.place ≠ .ofRule info) ∧
    ∀ uid, seen N s.node uid name = none
  native : ∀ name, s.dcache name = some .native → s.place = .hooked
  backing : ∀ name info, s.dcache name = some (.owned (some info)) → info.backingChild = true →
    info.dirNode = none ∧ info.flags = 0 ∧ ∀ path, info.rPath = some path → s.world.ours path = false
  slots : ∀ dir info, s.slots dir = .inode info → info.backingChild = false

variable {N : Naming ρ} {s s' : DirState ρ} {env : Answers} {fsuid uid : UInt32} {name : Bytes}
  {rule : Target} {info : InodeInfo}
  {d : ChildSet ρ}

theorem toUInt8_of_eq {flags : UInt8} {wide : UInt16} (h : flags.toUInt16 = wide) : flags = wide.toUInt8 := by
  rw [← h, UInt8.toUInt8_toUInt16]

/-- An inode which matches its rule leads to where the rule leads. -/
theorem proxied_matches (h : cachedInodeMatches info rule = true) (hshown : rule.has WHITEOUT = false) :
    proxied (some info) = rule.found := by
  unfold cachedInodeMatches at h
  simp only [decide_eq_true_eq] at h
  obtain ⟨hflags, hdir, -, hpath⟩ := h
  simp only [proxied, Target.found, hshown, Bool.false_eq_true, if_false, toUInt8_of_eq hflags, hdir, hpath]

theorem proxied_init (hshown : rule.has WHITEOUT = false) :
    proxied (some (initPreallocInode rule)) = rule.found := by
  simp only [proxied, initPreallocInode, Target.found, hshown, Bool.false_eq_true, if_false]

/-- Slots in which no inode stands for an entry of a directory elsewhere. -/
def OwnSlots (slots : Nat → Slot) : Prop := ∀ dir info, slots dir = .inode info → info.backingChild = false

theorem OwnSlots.update {slots : Nat → Slot} (h : OwnSlots slots) (dir : Nat)
    (hown : info.backingChild = false) :
    OwnSlots (Function.update slots dir (.inode info)) := by
  intro d other hd
  by_cases hdd : d = dir
  · rw [hdd, Function.update_self, Slot.inode.injEq] at hd
    rw [← hd]
    exact hown
  · rw [Function.update_of_ne hdd] at hd
    exact h d other hd

/-- What the inode of a rule is like, wherever it comes from. -/
structure Made (rule : Target) (outcome : Option InodeInfo × (Nat → Slot)) : Prop where
  inode : ∃ info, outcome.1 = some info ∧ proxied (some info) = rule.found ∧ info.backingChild = false
  slots : OwnSlots outcome.2

theorem allocateInode_made (h : OwnSlots s.slots) (hshown : rule.has WHITEOUT = false)
    {outcome : Option InodeInfo × (Nat → Slot)}
    (hmade : allocateInode s env rule = some outcome) : Made rule outcome := by
  have hnew : (initPreallocInode rule).backingChild = false := rfl
  unfold allocateInode at hmade
  split at hmade
  · split at hmade
    · obtain rfl := Option.some.inj hmade
      exact ⟨⟨_, rfl, proxied_init hshown, hnew⟩, h⟩
    · rename_i dir hdir
      split at hmade
      · cases hmade
      · cases hslot : s.slots dir with
        | empty =>
          simp only [hslot, Option.some.injEq] at hmade
          subst hmade
          exact ⟨⟨_, rfl, proxied_init hshown, hnew⟩, h.update dir hnew⟩
        | retired =>
          simp only [hslot] at hmade
          cases hmade
        | inode info =>
          simp only [hslot] at hmade
          split at hmade
          · cases hmade
          · split at hmade
            · rename_i hmatches
              obtain rfl := Option.some.inj hmade
              exact ⟨⟨info, rfl, proxied_matches hmatches hshown, h dir info hslot⟩, h⟩
            · obtain rfl := Option.some.inj hmade
              exact ⟨⟨_, rfl, proxied_init hshown, hnew⟩, h.update dir hnew⟩
  · cases hmade

/-- With memory there is an inode for every rule which leads somewhere. -/
theorem allocateInode_some (hw : Willing s env)
    (hbacked : rule.has VIRTUAL_DIR = true ∨ rule.rPath.isSome = true)
    (hlive : ∀ dir, rule.thisDir = some dir → s.slots dir ≠ .retired) :
    (allocateInode s env rule).isSome = true := by
  unfold allocateInode
  rw [if_pos ⟨hw.newInode, hw.alloc, hbacked⟩]
  cases hdir : rule.thisDir with
  | none => rfl
  | some dir =>
    simp only [hw.pinned, Bool.true_eq_false, if_false]
    cases hslot : s.slots dir with
    | empty => rfl
    | retired => exact absurd hslot (hlive dir hdir)
    | inode info =>
      simp only [hw.grabbedAgain, Bool.true_eq_false, if_false]
      split <;> rfl

/-- A lookup which settles on a rule leads to where the rule leads. -/
theorem resolveRuleDentry_made (h : OwnSlots s.slots) {outcome : Option InodeInfo × (Nat → Slot)}
    (hmade : resolveRuleDentry N s env fsuid name = some outcome) :
    OwnSlots outcome.2 ∧
    (∃ rule, s.ruleFor N fsuid name = some rule ∧ proxied outcome.1 = (s.target rule).found) ∧
      ∀ info, outcome.1 = some info → info.backingChild = false := by
  unfold resolveRuleDentry at hmade
  cases hseen : seen N s.node fsuid name with
  | none => simp [hseen] at hmade
  | some rule =>
    simp only [hseen] at hmade
    split at hmade
    · cases hmade
    · rename_i hopen
      have hrule : s.ruleFor N fsuid name = some rule := by
        unfold DirState.ruleFor
        rw [if_neg hopen, hseen]
      split at hmade
      · rename_i hwhite
        obtain rfl := Option.some.inj hmade
        refine ⟨h, ⟨rule, hrule, ?_⟩, by simp⟩
        simp only [proxied, Target.found, hwhite, if_true]
      · rename_i hshown
        have hshown' : (s.target rule).has WHITEOUT = false := Bool.not_eq_true _ ▸ hshown
        have hdone : ∀ o, Made (s.target rule) o → OwnSlots o.2 ∧
            (∃ rule, s.ruleFor N fsuid name = some rule ∧ proxied o.1 = (s.target rule).found) ∧
              ∀ info, o.1 = some info → info.backingChild = false := by
          intro o ho
          obtain ⟨info, hinfo, hfound, hown⟩ := ho.inode
          refine ⟨ho.slots, ⟨rule, hrule, by rw [hinfo, hfound]⟩, fun other hother => ?_⟩
          rw [hinfo, Option.some.injEq] at hother
          rw [← hother]
          exact hown
        split at hmade
        · cases hmade
        · rename_i info hslot
          obtain ⟨dir, -, hdir⟩ := Option.map_eq_some_iff.mp hslot
          split at hmade
          · cases hmade
          · split at hmade
            · rename_i hmatches
              obtain rfl := Option.some.inj hmade
              exact hdone _ ⟨⟨info, rfl, proxied_matches hmatches hshown', h dir info hdir⟩, h⟩
            · exact hdone _ (allocateInode_made h hshown' hmade)
        · exact hdone _ (allocateInode_made h hshown' hmade)

theorem resolveRuleDentry_some (hw : Willing s env) {rule : ρ} (hrule : s.ruleFor N fsuid name = some rule) :
    (resolveRuleDentry N s env fsuid name).isSome = true := by
  unfold DirState.ruleFor at hrule
  split at hrule
  · cases hrule
  · rename_i hopen
    unfold resolveRuleDentry
    simp only [hrule, if_neg hopen]
    split
    · rfl
    · rename_i hshown
      have hbacked := (hw.backed rule).resolve_left hshown
      have hmade := allocateInode_some hw hbacked (hw.live rule)
      split
      · rename_i hslot
        obtain ⟨dir, hdir, hretired⟩ := Option.map_eq_some_iff.mp hslot
        exact absurd hretired (hw.live rule dir hdir)
      · simp only [hw.grabbed, Bool.true_eq_false, if_false]
        split
        · rfl
        · exact hmade
      · exact hmade

/-- The filter lets every name with a rule through. -/
theorem passesBloom_seen {rule : ρ} (h : ∃ m, Agrees N (d, m))
    (hseen : seen N (some d) uid name = some rule) :
    passesBloom N d name = true := by
  obtain ⟨m, rs, hstores, -⟩ := h
  obtain ⟨hmem, hname, -⟩ := seen_mem hstores hseen
  have hcovers := hstores.bloom rule hmem
  rw [Naming.hashOf, hname] at hcovers
  simp [passesBloom, hcovers]

theorem realLookup_fst (hlookup : env.lookup = 0) (isBlocked : Bool) :
    (realLookup N s env isBlocked fsuid name).1 = .ok (s.world.found name) := by
  unfold realLookup
  rw [if_neg (by simp [hlookup])]

theorem nativeEntry_ok (hw : Willing s env) (hplace : s.place = .ofRule info) (blocked : Bool)
    (backing : Path) :
    ∃ native, nativeEntry s env info blocked backing name = .ok native := by
  unfold nativeEntry
  split
  · exact ⟨_, rfl⟩
  · cases hnative : info.nativePath with
    | none => exact ⟨none, rfl⟩
    | some path =>
      simp only [lookupBackingChild, hw.own info path hplace hnative, hw.lockedNative, Bool.false_eq_true,
        Bool.true_eq_false,
        reduceCtorEq, if_false]
      exact ⟨_, rfl⟩

theorem adoptChild_fst (hw : Willing s env) (hplace : s.place = .ofRule info) (blocked : Bool)
    (backing : Path) :
    (adoptChild s env info blocked backing name).1 =
      if s.world.ours backing then .error ELOOP else .ok (.proxy (some backing) none 0) := by
  obtain ⟨native, hnative⟩ := @nativeEntry_ok _ s env name info hw hplace blocked backing
  unfold adoptChild
  simp only [hw.childInode, hw.childAlloc, hnative, Bool.true_eq_false, if_false]
  split <;> rfl

theorem childLookup_fst (hw : Willing s env) (hplace : s.place = .ofRule info) (blocked : Bool)
    (parent : Option Path) :
    (childLookup s env info blocked parent name).1 = s.world.entry parent name := by
  unfold childLookup World.entry
  rw [hw.lockedAgain]
  cases lookupBackingChild s.world true parent name with
  | error err => rfl
  | ok found =>
    cases found with
    | none => rfl
    | some backing => exact adoptChild_fst hw hplace blocked backing

/-- Without a rule the entry of the directory behind the rule is found, or nothing. -/
theorem backingLookup_outside (hw : Willing s env) (hplace : s.place = .ofRule info) :
    (backingLookup s env info fsuid name).1 = s.outside fsuid name := by
  unfold backingLookup DirState.outside
  simp only [hplace]
  cases hblocked : s.blocked fsuid with
  | true =>
    simp only [if_true, true_and, Bool.true_eq_false, false_and, or_false]
    split
    · rfl
    · exact childLookup_fst hw hplace true _
  | false =>
    simp only [Bool.false_eq_true, if_false, false_and, false_or, true_and]
    split
    · rfl
    · exact childLookup_fst hw hplace false _

theorem ruleFor_none (hnode : s.node = none) : s.ruleFor N fsuid name = none := by
  unfold DirState.ruleFor
  rw [hnode]
  split <;> rfl

theorem ruleFor_blocked (hblocked : s.blocked fsuid = true) : s.ruleFor N fsuid name = none := if_pos hblocked

/-- A name which the filter does not let through has no rule. -/
theorem ruleFor_bloom (h : Sound N s) (hnode : s.node = some d) (hbloom : passesBloom N d name = false) :
    s.ruleFor N fsuid name = none := by
  unfold DirState.ruleFor
  split
  · rfl
  · cases hseen : seen N s.node fsuid name with
    | none => rfl
    | some rule =>
      rw [hnode] at hseen
      rw [passesBloom_seen (h.agrees d hnode) hseen] at hbloom
      cases hbloom

theorem resolves_outside (hnone : s.ruleFor N fsuid name = none) :
    s.resolves N fsuid name = s.outside fsuid name := by
  unfold DirState.resolves
  rw [hnone]

/-- A lookup without a cache. -/
theorem lookup_resolves (h : Sound N s) (hw : Willing s env) :
    (s.lookup N env fsuid name).1 = s.resolves N fsuid name := by
  have hruled : ∀ outcome, resolveRuleDentry N s env fsuid name = some outcome →
      .ok (proxied outcome.1) = s.resolves N fsuid name := by
    intro outcome hmade
    obtain ⟨-, ⟨rule, hrule, hfound⟩, -⟩ := resolveRuleDentry_made h.slots hmade
    unfold DirState.resolves
    rw [hrule, hfound]
  have hunruled : resolveRuleDentry N s env fsuid name = none → s.ruleFor N fsuid name = none := by
    intro hnone
    cases hrule : s.ruleFor N fsuid name with
    | none => rfl
    | some rule =>
      have hsome := resolveRuleDentry_some hw hrule
      rw [hnone] at hsome
      cases hsome
  unfold DirState.lookup
  cases hplace : s.place with
  | plain =>
    rw [resolves_outside (ruleFor_none (h.plain hplace).1)]
    unfold DirState.outside
    rw [hplace]
  | hooked =>
    have hreal : ∀ isBlocked, s.ruleFor N fsuid name = none →
        (realLookup N s env isBlocked fsuid name).1 = s.resolves N fsuid name := by
      intro isBlocked hnone
      rw [realLookup_fst hw.lookup, resolves_outside hnone]
      unfold DirState.outside
      rw [hplace]
    simp only [hijackedLookup]
    cases hnode : s.node with
    | none => exact hreal false (ruleFor_none hnode)
    | some d =>
      simp only
      split
      · rename_i hbloom
        exact hreal false (ruleFor_bloom h hnode hbloom)
      · split
        · rename_i hblocked
          exact hreal true (ruleFor_blocked hblocked)
        · cases hmade : resolveRuleDentry N s env fsuid name with
          | some outcome => exact hruled outcome hmade
          | none => exact hreal false (hunruled hmade)
  | ofRule info =>
    have hbacking : s.ruleFor N fsuid name = none →
        (backingLookup s env info fsuid name).1 = s.resolves N fsuid name := by
      intro hnone
      rw [backingLookup_outside hw hplace, resolves_outside hnone]
    simp only [dirLookup]
    cases hblocked : s.blocked fsuid with
    | true =>
      simp only [if_true]
      exact hbacking (ruleFor_blocked hblocked)
    | false =>
      simp only [Bool.false_eq_true, if_false]
      cases hnode : s.node with
      | none => exact hbacking (ruleFor_none hnode)
      | some d =>
        simp only
        cases hbloom : passesBloom N d name with
        | false =>
          simp only [Bool.false_eq_true, if_false]
          exact hbacking (ruleFor_bloom h hnode hbloom)
        | true =>
          simp only [if_true]
          cases hmade : resolveRuleDentry N s env fsuid name with
          | some outcome => exact hruled outcome hmade
          | none => exact hbacking (hunruled hmade)

theorem ofBool_valid {valid : Bool} (h : Verdict.ofBool valid = .valid) : valid = true := by
  cases valid with
  | true => rfl
  | false => cases h

/-- An entry which is still there is what a lookup would find. -/
theorem revalidateBackingChild_valid {parent : InodeInfo} (hdir : info.dirNode = none)
    (hflags : info.flags = 0)
    (hown : ∀ path, info.rPath = some path → s.world.ours path = false)
    (hv : revalidateBackingChild s env parent fsuid name info = .valid) :
    ∃ path, (if s.blocked fsuid then parent.nativePath else parent.rPath) = some path ∧
      .ok (proxied (some info)) = s.world.entry (some path) name := by
  unfold revalidateBackingChild at hv
  generalize (if s.blocked fsuid then parent.nativePath else parent.rPath) = source at hv ⊢
  simp only at hv
  split at hv
  · cases hv
  · rename_i hthere
    obtain ⟨path, hpath⟩ := Option.ne_none_iff_exists'.mp fun hnone => hthere (Or.inl hnone)
    refine ⟨path, hpath, ?_⟩
    rw [hpath] at hv
    cases hfound : lookupBackingChild s.world env.locked (some path) name with
    | error err =>
      simp only [hfound] at hv
      cases hv
    | ok backing =>
      simp only [hfound] at hv
      have hsame := ofBool_valid hv
      simp only [decide_eq_true_eq] at hsame
      obtain ⟨hsome, heq⟩ := hsame
      obtain ⟨child, rfl⟩ := Option.isSome_iff_exists.mp hsome
      have hlocked : lookupBackingChild s.world true (some path) name = .ok (some child) := by
        unfold lookupBackingChild at hfound ⊢
        simp only at hfound ⊢
        split at hfound
        · cases hfound
        · rename_i hours
          rw [if_neg hours]
          split at hfound
          · cases hfound
          · exact hfound
      unfold World.entry
      simp only [hlocked, hown child heq.symm, Bool.false_eq_true, if_false, proxied, hdir, hflags, ← heq]

/-- A dentry of the module which is still valid leads to where a lookup would lead. -/
theorem revalidateOwned_valid {inode : Option InodeInfo} (h : Sound N s)
    (hd : s.dcache name = some (.owned inode))
    (hv : revalidateOwned N s env fsuid name inode = .valid) :
    .ok (proxied inode) = s.resolves N fsuid name := by
  have hentry : ∀ info parent, inode = some info → s.place = .ofRule parent → info.backingChild = true →
      s.ruleFor N fsuid name = none → revalidateBackingChild s env parent fsuid name info = .valid →
        .ok (proxied inode) = s.resolves N fsuid name := by
    intro info parent hinode hplace hchild hnone hvalid
    rw [hinode] at hd ⊢
    obtain ⟨hdir, hflags, hown⟩ := h.backing name info hd hchild
    obtain ⟨path, hpath, hfound⟩ := revalidateBackingChild_valid hdir hflags hown hvalid
    rw [resolves_outside hnone, hfound]
    unfold DirState.outside
    simp only [hplace]
    cases hblocked : s.blocked fsuid with
    | true =>
      rw [hblocked, if_pos rfl] at hpath
      simp only [hpath, reduceCtorEq, if_true, if_false]
    | false =>
      rw [hblocked, if_neg Bool.false_ne_true] at hpath
      have hreal : ¬ parent.flags.toUInt16 &&& VIRTUAL_DIR ≠ 0 := by
        intro hvirtual
        rw [h.virtual parent hplace hvirtual] at hpath
        cases hpath
      simp only [if_neg hreal, hpath, Bool.false_eq_true, if_false]
  unfold revalidateOwned at hv
  split at hv
  · rename_i hblocked
    split at hv
    · rename_i parent info hplace
      split at hv
      · rename_i hchild
        exact hentry info parent rfl hplace hchild.1 (ruleFor_blocked hblocked) hv
      · cases hv
    · cases hv
  · rename_i hopen
    have hrule : s.ruleFor N fsuid name = seen N s.node fsuid name := if_neg hopen
    cases hseen : seen N s.node fsuid name with
    | some rule =>
      simp only [hseen] at hv
      have hresolves : s.resolves N fsuid name = .ok (s.target rule).found := by
        unfold DirState.resolves
        rw [hrule, hseen]
      rw [hresolves]
      split at hv
      · rename_i hwhite
        have hnone := ofBool_valid hv
        rw [Option.isNone_iff_eq_none] at hnone
        rw [hnone]
        simp only [proxied, Target.found, hwhite, if_true]
      · rename_i hshown
        cases inode with
        | none => cases hv
        | some info => rw [proxied_matches (ofBool_valid hv) (Bool.not_eq_true _ ▸ hshown)]
    | none =>
      simp only [hseen] at hv
      split at hv
      · rename_i parent info hplace
        split at hv
        · rename_i hchild
          exact hentry info parent rfl hplace hchild (hrule.trans hseen) hv
        · cases hv
      · cases hv

theorem revalidateNative_valid (hplace : s.place = .hooked)
    (hv : revalidateNative N s env fsuid name = .valid) :
    .ok (s.world.found name) = s.resolves N fsuid name := by
  have houtside : s.outside fsuid name = .ok (s.world.found name) := by
    unfold DirState.outside
    rw [hplace]
  unfold revalidateNative at hv
  split at hv
  · rename_i hblocked
    rw [resolves_outside (ruleFor_blocked hblocked), houtside]
  · rename_i hopen
    have hrule : s.ruleFor N fsuid name = seen N s.node fsuid name := if_neg hopen
    cases hseen : seen N s.node fsuid name with
    | some rule =>
      simp only [hseen] at hv
      split at hv
      · rename_i hwhite
        have hnone := ofBool_valid hv
        rw [Option.isNone_iff_eq_none] at hnone
        unfold DirState.resolves
        rw [hrule, hseen]
        simp only [World.found, hnone, Target.found, hwhite, if_true]
      · cases hv
    | none => rw [resolves_outside (hrule.trans hseen), houtside]

theorem ofBool_failed {valid : Bool} {err : Int32} : Verdict.ofBool valid ≠ .failed err := by
  cases valid <;> exact Verdict.noConfusion

/-- The check fails only where the lookup fails as well. -/
theorem revalidateBackingChild_failed {parent : InodeInfo} {err : Int32} (hlocked : env.locked = true)
    (hv : revalidateBackingChild s env parent fsuid name info = .failed err) :
    ∃ path, (if s.blocked fsuid then parent.nativePath else parent.rPath) = some path ∧
      .error err = s.world.entry (some path) name := by
  unfold revalidateBackingChild at hv
  generalize (if s.blocked fsuid then parent.nativePath else parent.rPath) = source at hv ⊢
  simp only at hv
  split at hv
  · cases hv
  · rename_i hthere
    obtain ⟨path, hpath⟩ := Option.ne_none_iff_exists'.mp fun hnone => hthere (Or.inl hnone)
    refine ⟨path, hpath, ?_⟩
    rw [hpath, hlocked] at hv
    unfold World.entry
    cases hfound : lookupBackingChild s.world true (some path) name with
    | error other =>
      simp only [hfound, Verdict.failed.injEq] at hv
      rw [hv]
    | ok backing =>
      simp only [hfound] at hv
      exact absurd hv ofBool_failed

theorem revalidateOwned_failed {inode : Option InodeInfo} {err : Int32} (h : Sound N s)
    (hlocked : env.locked = true)
    (hv : revalidateOwned N s env fsuid name inode = .failed err) : .error err = s.resolves N fsuid name := by
  have hentry : ∀ info parent, s.place = .ofRule parent → s.ruleFor N fsuid name = none →
      revalidateBackingChild s env parent fsuid name info = .failed err →
        .error err = s.resolves N fsuid name := by
    intro info parent hplace hnone hfailed
    obtain ⟨path, hpath, hfound⟩ := revalidateBackingChild_failed hlocked hfailed
    rw [resolves_outside hnone, hfound]
    unfold DirState.outside
    simp only [hplace]
    cases hblocked : s.blocked fsuid with
    | true =>
      rw [hblocked, if_pos rfl] at hpath
      simp only [hpath, reduceCtorEq, if_true, if_false]
    | false =>
      rw [hblocked, if_neg Bool.false_ne_true] at hpath
      have hreal : ¬ parent.flags.toUInt16 &&& VIRTUAL_DIR ≠ 0 := by
        intro hvirtual
        rw [h.virtual parent hplace hvirtual] at hpath
        cases hpath
      simp only [if_neg hreal, hpath, Bool.false_eq_true, if_false]
  unfold revalidateOwned at hv
  split at hv
  · rename_i hblocked
    split at hv
    · rename_i parent info hplace
      split at hv
      · exact hentry info parent hplace (ruleFor_blocked hblocked) hv
      · cases hv
    · cases hv
  · rename_i hopen
    have hrule : s.ruleFor N fsuid name = seen N s.node fsuid name := if_neg hopen
    cases hseen : seen N s.node fsuid name with
    | some rule =>
      simp only [hseen] at hv
      split at hv
      · exact absurd hv ofBool_failed
      · cases inode with
        | none => cases hv
        | some info => exact absurd hv ofBool_failed
    | none =>
      simp only [hseen] at hv
      split at hv
      · rename_i parent info hplace
        split at hv
        · exact hentry info parent hplace (hrule.trans hseen) hv
        · cases hv
      · cases hv

theorem revalidateNative_failed {err : Int32} : revalidateNative N s env fsuid name ≠ .failed err := by
  unfold revalidateNative
  split
  · exact ofBool_failed
  · split
    · split
      · exact ofBool_failed
      · exact Verdict.noConfusion
    · exact ofBool_failed

theorem Sound.put (h : Sound N s) (name : Bytes) {dentry : Option Dentry}
    (hplain : s.place = .plain → ∀ x, dentry = some x → x = .bare)
    (hbare : dentry = some .bare → (∀ info, s.place ≠ .ofRule info) ∧ ∀ uid, seen N s.node uid name = none)
    (hnative : dentry = some .native → s.place = .hooked)
    (hbacking : ∀ info, dentry = some (.owned (some info)) → info.backingChild = true →
      info.dirNode = none ∧ info.flags = 0 ∧ ∀ path, info.rPath = some path → s.world.ours path = false) :
    Sound N (s.put name dentry) := by
  have hself : (s.put name dentry).dcache name = dentry := Function.update_self ..
  have hother : ∀ n, n ≠ name → (s.put name dentry).dcache n = s.dcache n :=
    fun n hn => Function.update_of_ne hn _ _
  refine ⟨h.agrees, h.virtual, fun hp => ⟨(h.plain hp).1, ?_⟩, ?_, ?_, ?_, h.slots⟩
  · intro n x hx
    by_cases hn : n = name
    · rw [hn, hself] at hx
      exact hplain hp x hx
    · rw [hother n hn] at hx
      exact (h.plain hp).2 n x hx
  · intro n hx
    by_cases hn : n = name
    · rw [hn, hself] at hx
      rw [hn]
      exact hbare hx
    · rw [hother n hn] at hx
      exact h.bare n hx
  · intro n hx
    by_cases hn : n = name
    · rw [hn, hself] at hx
      exact hnative hx
    · rw [hother n hn] at hx
      exact h.native n hx
  · intro n info hx
    by_cases hn : n = name
    · rw [hn, hself] at hx
      exact hbacking info hx
    · rw [hother n hn] at hx
      exact h.backing n info hx

theorem Sound.forget (h : Sound N s) (name : Bytes) : Sound N (s.put name none) :=
  h.put name (fun _ _ hx => by cases hx) (fun hx => by cases hx) (fun hx => by cases hx)
    (fun _ hx => by cases hx)

/-- A dentry which is still valid leads to where a lookup would lead. -/
theorem valid_found {dentry : Dentry} (h : Sound N s) (hd : s.dcache name = some dentry)
    (hv : s.revalidate N env fsuid name dentry = .valid) :
    .ok (dentry.found s.world name) = s.resolves N fsuid name := by
  cases dentry with
  | bare =>
    obtain ⟨hplace, hnone⟩ := h.bare name hd
    have hrule : s.ruleFor N fsuid name = none := by
      unfold DirState.ruleFor
      split
      · rfl
      · exact hnone fsuid
    rw [resolves_outside hrule]
    unfold DirState.outside
    cases hp : s.place with
    | plain => rfl
    | hooked => rfl
    | ofRule info => exact absurd hp (hplace info)
  | native => exact revalidateNative_valid (h.native name hd) hv
  | owned inode => exact revalidateOwned_valid h hd hv

/-- Whatever the cache holds, a name leads to where a lookup without a cache leads. -/
theorem walk_resolves (h : Sound N s) (hw : Willing s env) :
    (s.walk N env fsuid name).1 = s.resolves N fsuid name := by
  have hfresh : ((s.put name none).lookup N env fsuid name).1 = s.resolves N fsuid name := by
    have hw' : Willing (s.put name none) env := { hw with }
    exact lookup_resolves (h.forget name) hw'
  unfold DirState.walk
  cases hd : s.dcache name with
  | none => exact lookup_resolves h hw
  | some dentry =>
    simp only
    cases hv : s.revalidate N env fsuid name dentry with
    | invalid => exact hfresh
    | failed err =>
      cases dentry with
      | bare => cases hv
      | native => exact absurd hv revalidateNative_failed
      | owned inode => exact revalidateOwned_failed h hw.locked hv
    | valid => exact valid_found h hd hv

theorem Sound.owned (h : Sound N s) (name : Bytes) (inode : Option InodeInfo) (hplace : s.place ≠ .plain)
    (hbacking : ∀ info, inode = some info → info.backingChild = true →
      info.dirNode = none ∧ info.flags = 0 ∧ ∀ path, info.rPath = some path → s.world.ours path = false) :
    Sound N (s.put name (some (.owned inode))) := by
  refine h.put name (fun hp => absurd hp hplace) (fun hx => by cases hx) (fun hx => by cases hx)
    fun info hx hchild => ?_
  rw [Option.some.injEq, Dentry.owned.injEq] at hx
  exact hbacking info hx hchild

theorem Sound.withSlots (h : Sound N s) {slots : Nat → Slot} (hslots : OwnSlots slots) :
    Sound N { s with slots } :=
  ⟨h.agrees, h.virtual, h.plain, h.bare, h.native, h.backing, hslots⟩

theorem realLookup_sound (h : Sound N s) (hplace : s.place = .hooked) (isBlocked : Bool) :
    Sound N (realLookup N s env isBlocked fsuid name).2 := by
  unfold realLookup
  split
  · exact h
  · refine h.put name (fun hp => ?_) (fun hx => ?_) (fun _ => hplace) fun info hx => ?_
    · rw [hplace] at hp
      cases hp
    · split at hx <;> cases hx
    · split at hx <;> cases hx

theorem ruled_sound (h : Sound N s) (hplace : s.place ≠ .plain) {outcome : Option InodeInfo × (Nat → Slot)}
    (hmade : resolveRuleDentry N s env fsuid name = some outcome) :
    Sound N (({ s with slots := outcome.2 } : DirState ρ).put name (some (.owned outcome.1))) := by
  obtain ⟨hslots, -, hown⟩ := resolveRuleDentry_made h.slots hmade
  refine (h.withSlots hslots).owned name outcome.1 hplace fun info hinfo hchild => ?_
  rw [hown info hinfo] at hchild
  cases hchild

theorem childLookup_sound (h : Sound N s) (hplace : s.place ≠ .plain) (blocked : Bool)
    (parent : Option Path) :
    Sound N (childLookup s env info blocked parent name).2 := by
  unfold childLookup
  split
  · exact h
  · exact h.owned name none hplace (by simp)
  · rename_i backing _
    unfold adoptChild
    split
    · exact h
    · rename_i hours
      split
      · exact h
      · split
        · exact h
        · split
          · exact h
          · refine h.owned name _ hplace fun info hinfo _ => ?_
            obtain rfl := Option.some.inj hinfo
            refine ⟨rfl, rfl, fun path hpath => ?_⟩
            obtain rfl := Option.some.inj hpath
            exact Bool.not_eq_true _ ▸ hours

theorem backingLookup_sound (h : Sound N s) (hplace : s.place ≠ .plain) :
    Sound N (backingLookup s env info fsuid name).2 := by
  have hdone : ∀ blocked parent, Sound N
    (if (blocked = true ∧ parent = none) ∨ (blocked = false ∧ info.flags.toUInt16 &&& VIRTUAL_DIR ≠ 0) then
      ((.ok .negative, s.put name (some (.owned none))) : Except Int32 Found × DirState ρ)
    else childLookup s env info blocked parent name).2 := by
    intro blocked parent
    split
    · exact h.owned name none hplace (by simp)
    · exact childLookup_sound h hplace _ _
  exact hdone (s.blocked fsuid) (if s.blocked fsuid then info.nativePath else info.rPath)

/-- Whatever a lookup is answered, it leaves a cache which can be relied on. -/
theorem lookup_sound (h : Sound N s) : Sound N (s.lookup N env fsuid name).2 := by
  unfold DirState.lookup
  cases hplace : s.place with
  | plain =>
    refine h.put name (fun _ x hx => (Option.some.inj hx).symm) (fun _ => ⟨?_, fun uid => ?_⟩)
      (fun hx => by cases hx) fun _ hx => by cases hx
    · intro info hother
      rw [hplace] at hother
      cases hother
    · rw [(h.plain hplace).1]
      rfl
  | hooked =>
    have hnot : s.place ≠ .plain := by
      rw [hplace]
      exact Place.noConfusion
    have hreal := fun isBlocked => @realLookup_sound _ N s env fsuid name h hplace isBlocked
    simp only [hijackedLookup]
    split
    · exact hreal false
    · split
      · exact hreal false
      · split
        · exact hreal true
        · cases hmade : resolveRuleDentry N s env fsuid name with
          | some outcome => exact ruled_sound h hnot hmade
          | none => exact hreal false
  | ofRule info =>
    have hnot : s.place ≠ .plain := by
      rw [hplace]
      exact Place.noConfusion
    have hbacking := @backingLookup_sound _ N s env fsuid name info h hnot
    simp only [dirLookup]
    cases hnode : (if s.blocked fsuid then none else s.node) with
    | none => exact hbacking
    | some d =>
      simp only
      cases hmade : (if passesBloom N d name then resolveRuleDentry N s env fsuid name else none) with
      | none => exact hbacking
      | some outcome =>
        have hresolved : resolveRuleDentry N s env fsuid name = some outcome := by
          split at hmade
          · exact hmade
          · cases hmade
        exact ruled_sound h hnot hresolved

theorem walk_sound (h : Sound N s) : Sound N (s.walk N env fsuid name).2 := by
  unfold DirState.walk
  cases s.dcache name with
  | none => exact lookup_sound h
  | some dentry =>
    simp only
    cases s.revalidate N env fsuid name dentry with
    | valid => exact h
    | failed err => exact h
    | invalid => exact lookup_sound (h.forget name)

/-- The flag of a virtual directory is one of those which an inode keeps. -/
theorem virtual_flag (flags : UInt16) : flags.toUInt8.toUInt16 &&& VIRTUAL_DIR = flags &&& VIRTUAL_DIR := by
  apply UInt16.toNat_inj.mp
  simp only [VIRTUAL_DIR, UInt16.toNat_and, UInt8.toNat_toUInt16, UInt16.toNat_toUInt8]
  apply Nat.eq_of_testBit_eq
  intro i
  rw [Nat.testBit_and, Nat.testBit_and, Nat.testBit_mod_two_pow]
  by_cases hi : i < 8
  · simp [hi]
  · have hlt : UInt16.toNat 2 < 2 ^ i :=
      lt_of_lt_of_le (by decide) (Nat.pow_le_pow_right (by decide) (not_lt.mp hi))
    rw [Nat.testBit_lt_two_pow hlt, Bool.and_false, Bool.and_false]

theorem virtual_init (rule : Target) (h : (initPreallocInode rule).flags.toUInt16 &&& VIRTUAL_DIR ≠ 0) :
    (initPreallocInode rule).rPath = none := by
  have hvirtual : rule.has VIRTUAL_DIR = true := by
    have hflag : rule.flags &&& VIRTUAL_DIR ≠ 0 := virtual_flag rule.flags ▸ h
    simp [Target.has, hflag]
  show rule.backingPath = none
  unfold Target.backingPath
  rw [if_pos hvirtual]

/-- A directory of a filesystem which has no rules yet, or one which a lookup has just made, for a
rule or for an entry of the directory behind one. -/
inductive Fresh (N : Naming ρ) (s : DirState ρ) : Prop
  | plain (hplace : s.place = .plain) (hnode : s.node = none)
      (hbare : ∀ name dentry, s.dcache name = some dentry → dentry = .bare)
      (hslots : OwnSlots s.slots)
  | ofRule (info : InodeInfo) (hplace : s.place = .ofRule info)
      (hinfo : (∃ rule, info = initPreallocInode rule) ∨ info.flags = 0)
      (hnode : ∀ d, s.node = some d → ∃ m, Agrees N (d, m)) (hempty : ∀ name, s.dcache name = none)
      (hslots : OwnSlots s.slots)

theorem Fresh.sound (h : Fresh N s) : Sound N s := by
  cases h with
  | plain hplace hnode hbare hslots =>
    have hnot : ∀ info, s.place ≠ .ofRule info := by
      intro info heq
      rw [hplace] at heq
      cases heq
    refine ⟨fun d hd => ?_, fun info hp => absurd hp (hnot info), fun _ => ⟨hnode, hbare⟩,
      fun name _ => ⟨hnot, fun uid => ?_⟩, fun name hd => ?_,
      fun name info hd => ?_, hslots⟩
    · rw [hnode] at hd
      cases hd
    · rw [hnode]
      rfl
    · cases hbare name _ hd
    · cases hbare name _ hd
  | ofRule info hplace hinfo hnode hempty hslots =>
    refine ⟨hnode, fun other hp hv => ?_, fun hp => ?_, fun name hd => ?_, fun name hd => ?_,
      fun name info hd => ?_, hslots⟩
    · rw [hplace, Place.ofRule.injEq] at hp
      rw [← hp] at hv ⊢
      rcases hinfo with ⟨rule, rfl⟩ | hflags
      · exact virtual_init rule hv
      · rw [hflags] at hv
        exact absurd rfl hv
    · rw [hplace] at hp
      cases hp
    · rw [hempty] at hd
      cases hd
    · rw [hempty] at hd
      cases hd
    · rw [hempty] at hd
      cases hd

theorem realLookup_any (isBlocked : Bool) :
    (∃ err, (realLookup N s env isBlocked fsuid name).1 = .error err) ∨
      (realLookup N s env isBlocked fsuid name).1 = .ok (s.world.found name) := by
  unfold realLookup
  split
  · exact Or.inl ⟨_, rfl⟩
  · exact Or.inr rfl

theorem childLookup_any (blocked : Bool) (parent : Option Path) :
    (∃ err, (childLookup s env info blocked parent name).1 = .error err) ∨
      (childLookup s env info blocked parent name).1 = s.world.entry parent name := by
  have hadopt : ∀ backing, (∃ err, (adoptChild s env info blocked backing name).1 = .error err) ∨
      s.world.ours backing = false ∧ (adoptChild s env info blocked backing name).1 =
        .ok (.proxy (some backing) none 0) := by
    intro backing
    unfold adoptChild
    split
    · exact Or.inl ⟨_, rfl⟩
    · rename_i hours
      split
      · exact Or.inl ⟨_, rfl⟩
      · split
        · exact Or.inl ⟨_, rfl⟩
        · split
          · exact Or.inl ⟨_, rfl⟩
          · exact Or.inr ⟨Bool.not_eq_true _ ▸ hours, rfl⟩
  unfold childLookup World.entry
  cases hlocked : env.lockedAgain with
  | true =>
    cases lookupBackingChild s.world true parent name with
    | error err => exact Or.inl ⟨err, rfl⟩
    | ok found =>
      cases found with
      | none => exact Or.inr rfl
      | some backing =>
        rcases hadopt backing with herr | ⟨hours, hok⟩
        · exact Or.inl herr
        · right
          simp only [hours, Bool.false_eq_true, if_false]
          exact hok
  | false =>
    have hfails : ∃ err, lookupBackingChild s.world false parent name = .error err := by
      unfold lookupBackingChild
      cases parent with
      | none => exact ⟨_, rfl⟩
      | some path =>
        simp only [if_true]
        split <;> exact ⟨_, rfl⟩
    obtain ⟨err, herr⟩ := hfails
    rw [herr]
    exact Or.inl ⟨err, rfl⟩

/-- A lookup with or without memory. -/
theorem lookup_any (h : Sound N s) : (∃ err, (s.lookup N env fsuid name).1 = .error err) ∨
    (s.lookup N env fsuid name).1 = s.outside fsuid name ∨
    (s.lookup N env fsuid name).1 = s.resolves N fsuid name := by
  have hruled : ∀ outcome, resolveRuleDentry N s env fsuid name = some outcome →
      .ok (proxied outcome.1) = s.resolves N fsuid name := by
    intro outcome hmade
    obtain ⟨-, ⟨rule, hrule, hfound⟩, -⟩ := resolveRuleDentry_made h.slots hmade
    unfold DirState.resolves
    rw [hrule, hfound]
  unfold DirState.lookup
  cases hplace : s.place with
  | plain =>
    right
    left
    unfold DirState.outside
    rw [hplace]
  | hooked =>
    have houtside : s.outside fsuid name = .ok (s.world.found name) := by
      unfold DirState.outside
      rw [hplace]
    have hreal : ∀ isBlocked, (∃ err, (realLookup N s env isBlocked fsuid name).1 = .error err) ∨
        (realLookup N s env isBlocked fsuid name).1 = s.outside fsuid name ∨
          (realLookup N s env isBlocked fsuid name).1 = s.resolves N fsuid name := by
      intro isBlocked
      rw [houtside]
      exact (realLookup_any isBlocked).imp_right Or.inl
    simp only [hijackedLookup]
    split
    · exact hreal false
    · split
      · exact hreal false
      · split
        · exact hreal true
        · cases hmade : resolveRuleDentry N s env fsuid name with
          | some outcome => exact Or.inr (Or.inr (hruled outcome hmade))
          | none => exact hreal false
  | ofRule info =>
    have hbacking : (∃ err, (backingLookup s env info fsuid name).1 = .error err) ∨
        (backingLookup s env info fsuid name).1 = s.outside fsuid name := by
      unfold backingLookup DirState.outside
      simp only [hplace]
      cases hblocked : s.blocked fsuid with
      | true =>
        simp only [if_true, true_and, Bool.true_eq_false, false_and, or_false]
        split
        · exact Or.inr rfl
        · exact childLookup_any true _
      | false =>
        simp only [Bool.false_eq_true, if_false, false_and, false_or, true_and]
        split
        · exact Or.inr rfl
        · exact childLookup_any false _
    simp only [dirLookup]
    cases hnode : (if s.blocked fsuid then none else s.node) with
    | none => exact hbacking.imp_right Or.inl
    | some d =>
      simp only
      cases hmade : (if passesBloom N d name then resolveRuleDentry N s env fsuid name else none) with
      | none => exact hbacking.imp_right Or.inl
      | some outcome =>
        have hresolved : resolveRuleDentry N s env fsuid name = some outcome := by
          split at hmade
          · exact hmade
          · cases hmade
        exact Or.inr (Or.inr (hruled outcome hresolved))

theorem walk_any (h : Sound N s) : (∃ err, (s.walk N env fsuid name).1 = .error err) ∨
    (s.walk N env fsuid name).1 = s.outside fsuid name ∨
    (s.walk N env fsuid name).1 = s.resolves N fsuid name := by
  unfold DirState.walk
  cases hd : s.dcache name with
  | none => exact lookup_any h
  | some dentry =>
    simp only
    cases hv : s.revalidate N env fsuid name dentry with
    | invalid => exact lookup_any (h.forget name)
    | failed err => exact Or.inl ⟨err, rfl⟩
    | valid =>
      right
      right
      exact valid_found h hd hv

end

end HybridMount.Vfs.Lookup
