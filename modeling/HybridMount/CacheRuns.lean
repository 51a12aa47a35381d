import HybridMount.DentryCache

/-! What happens around a directory with injected children, in any order: a name leads to the same
place with the cache and without it, and to some place exactly when a listing gives it. -/

namespace HybridMount.Vfs.Lookup

open LittleEndian ChildArray ReadDir

section

variable {ρ : Type} {N : Naming ρ} {s s' : DirState ρ} {env : Answers} {fsuid uid : UInt32} {name : Bytes}
  {d : ChildSet ρ}
  {m : Bytes × UInt32 → Option ρ} {dir : Directory ρ}

/-- The child set after one call. -/
def change (N : Naming ρ) [DecidableEq ρ] (d : ChildSet ρ) : Call ρ → ChildSet ρ
  | .inject memory rule => (injectChild N memory rule d).2
  | .delete rule => deleteChild rule d

/-- A rule comes into the directory, and the cached dentry of its name goes. -/
def DirState.attach (N : Naming ρ) (s : DirState ρ) (memory : Option (Memory ρ)) (rule : ρ) (d : ChildSet ρ) :
    DirState ρ :=
  if (injectChild N memory rule d).1 = 0 then { s with node := some (injectChild N memory rule d).2 }.put
    (N.name rule) none else s

variable [DecidableEq ρ]

theorem change_agrees {m : Bytes × UInt32 → Option ρ} (h : Agrees N (d, m)) (c : Call ρ) :
    Agrees N (change N d c, (call N (d, m) c).2) := by
  have hcall := call_agrees h c
  have hfst : (call N (d, m) c).1 = change N d c := by
    cases c <;> rfl
  rw [← hfst]
  exact hcall

/-- Only the name of the rule can come to see another rule. -/
theorem seen_change (h : ∃ m, Agrees N (d, m)) (c : Call ρ) (hnone : ∀ uid, seen N (some d) uid name = none)
    (hname : ∀ memory rule, c = .inject memory rule → (injectChild N memory rule d).1 = 0 →
      N.name rule ≠ name) :
    ∀ uid, seen N (some (change N d c)) uid name = none := by
  obtain ⟨m, hm⟩ := h
  have hbefore : ∀ uid, m (name, uid) = none := by
    intro uid
    have hboth := (hm.multimap.ruleInfo name uid).symm.trans (hnone uid)
    exact (Option.or_eq_none_iff.mp hboth).1
  have hafter : ∀ uid, (call N (d, m) c).2 (name, uid) = none := by
    intro uid
    cases c with
    | inject memory rule =>
      simp only [call]
      split
      · rename_i hok
        have hne : (name, uid) ≠ N.key rule :=
          fun hkey => hname memory rule rfl hok (congrArg Prod.fst hkey).symm
        rw [Function.update_of_ne hne]
        exact hbefore uid
      · exact hbefore uid
    | delete rule =>
      simp only [call]
      split
      · by_cases hkey : (name, uid) = N.key rule
        · rw [hkey, Function.update_self]
        · rw [Function.update_of_ne hkey]
          exact hbefore uid
      · exact hbefore uid
  intro uid
  have hruleInfo := (change_agrees hm c).multimap.ruleInfo name uid
  rw [hafter, hafter] at hruleInfo
  exact hruleInfo

/-- What happens around a directory. -/
inductive Event (N : Naming ρ) : DirState ρ → DirState ρ → Prop
  | walk (s : DirState ρ) (env : Answers) (fsuid : UInt32) (name : Bytes) :
      Event N s (s.walk N env fsuid name).2
  /-- The first rule hooks the directory. -/
  | hook (s : DirState ρ) (memory : Option (Memory ρ)) (rule : ρ) (h : s.place = .plain) :
      Event N s (({ s with place := .hooked } : DirState ρ).attach N memory rule empty)
  | attach (s : DirState ρ) (memory : Option (Memory ρ)) (rule : ρ) (d : ChildSet ρ) (h : s.node = some d) :
      Event N s (s.attach N memory rule d)
  /-- A rule below another rule comes without a look at the cache. -/
  | attachBelow (s : DirState ρ) (memory : Option (Memory ρ)) (rule : ρ) (d : ChildSet ρ) (info : InodeInfo)
      (h : s.node = some d) (hplace : s.place = .ofRule info) :
      Event N s { s with node := some (injectChild N memory rule d).2 }
  | detach (s : DirState ρ) (rule : ρ) (d : ChildSet ρ) (h : s.node = some d) :
      Event N s { s with node := some (deleteChild rule d) }
  | clear (s : DirState ρ) (d : ChildSet ρ) (h : s.node = some d) : Event N s { s with node := some empty }
  | uids (s : DirState ρ) (blocked : UInt32 → Bool) : Event N s { s with blocked }
  | rules (s : DirState ρ) (target : ρ → Target) : Event N s { s with target }
  | files (s : DirState ρ) (stock : Bytes → Option Nat) (child : Path → Bytes → Option Nat) :
      Event N s { s with world := { s.world with stock, child } }
  | forget (s : DirState ρ) (name : Bytes) : Event N s (s.put name none)
  | evict (s : DirState ρ) (dir : Nat) : Event N s { s with slots := Function.update s.slots dir .empty }
  | retire (s : DirState ρ) (dir : Nat) : Event N s { s with slots := Function.update s.slots dir .retired }

inductive Reachable (N : Naming ρ) : DirState ρ → Prop
  | fresh {s : DirState ρ} (h : Fresh N s) : Reachable N s
  | step {s s' : DirState ρ} (h : Reachable N s) (he : Event N s s') : Reachable N s'

theorem empty_agrees : Agrees N ((empty : ChildSet ρ), fun _ => none) := run_agrees N []

theorem Sound.attach {d : ChildSet ρ} (h : Sound N s) (memory : Option (Memory ρ)) (rule : ρ)
    (hnode : s.node = some d) :
    Sound N (s.attach N memory rule d) := by
  unfold DirState.attach
  split
  · have hagrees := h.agrees d hnode
    obtain ⟨m, hm⟩ := hagrees
    have hself : (({ s with node := some (injectChild N memory rule d).2 } : DirState ρ).put (N.name rule)
        none).dcache (N.name rule) = none :=
      Function.update_self ..
    have hother : ∀ name, name ≠ N.name rule →
        (({ s with node := some (injectChild N memory rule d).2 } : DirState ρ).put (N.name rule) none).dcache
          name = s.dcache name :=
      fun name hn => Function.update_of_ne hn _ _
    refine ⟨fun e he => ?_, h.virtual, fun hp => ?_, fun name hd => ?_, fun name hd => ?_,
      fun name info hd => ?_, h.slots⟩
    · rw [← Option.some.inj he]
      exact ⟨_, change_agrees hm (.inject memory rule)⟩
    · rw [(h.plain hp).1] at hnode
      cases hnode
    · by_cases hn : name = N.name rule
      · rw [hn, hself] at hd
        cases hd
      · rw [hother name hn] at hd
        obtain ⟨hplace, hnone⟩ := h.bare name hd
        rw [hnode] at hnone
        refine ⟨hplace, seen_change ⟨m, hm⟩ (.inject memory rule) hnone fun _ other heq _ => ?_⟩
        rw [Call.inject.injEq] at heq
        rw [← heq.2]
        exact Ne.symm hn
    · by_cases hn : name = N.name rule
      · rw [hn, hself] at hd
        cases hd
      · rw [hother name hn] at hd
        exact h.native name hd
    · by_cases hn : name = N.name rule
      · rw [hn, hself] at hd
        cases hd
      · rw [hother name hn] at hd
        exact h.backing name info hd
  · exact h

/-- A directory which is hooked: nothing in it is the module's yet. -/
theorem Sound.hook (h : Sound N s) (hplace : s.place = .plain) :
    Sound N { s with place := .hooked, node := some empty } := by
  obtain ⟨-, hbare⟩ := h.plain hplace
  refine ⟨fun d hd => ?_, fun info hp => (by cases hp), fun hp => (by cases hp),
    fun name _ => ⟨fun info hp => (by cases hp), fun uid => ?_⟩,
    fun _ _ => rfl, fun name info hd => ?_, h.slots⟩
  · rw [← Option.some.inj hd]
    exact ⟨_, empty_agrees⟩
  · rfl
  · cases hbare name _ hd

/-- Every event leaves a cache which can be relied on. -/
theorem Event.sound (h : Sound N s) (he : Event N s s') : Sound N s' := by
  cases he with
  | walk env fsuid name => exact walk_sound h
  | hook memory rule hplace =>
    have hhooked := h.hook hplace
    exact hhooked.attach memory rule rfl
  | attach memory rule d hnode => exact h.attach memory rule hnode
  | attachBelow memory rule d info hnode hplace =>
    obtain ⟨m, hm⟩ := h.agrees d hnode
    refine ⟨fun e he => ?_, h.virtual, fun hp => ?_, fun name hd => ?_, h.native, h.backing, h.slots⟩
    · rw [← Option.some.inj he]
      exact ⟨_, change_agrees hm (.inject memory rule)⟩
    · have hp' : s.place = .plain := hp
      rw [hplace] at hp'
      cases hp'
    · exact absurd hplace ((h.bare name hd).1 info)
  | detach rule d hnode =>
    obtain ⟨m, hm⟩ := h.agrees d hnode
    refine ⟨fun e he => ?_, h.virtual, fun hp => ?_, fun name hd => ?_, h.native, h.backing, h.slots⟩
    · rw [← Option.some.inj he]
      exact ⟨_, change_agrees hm (.delete rule)⟩
    · rw [(h.plain hp).1] at hnode
      cases hnode
    · obtain ⟨hplace, hnone⟩ := h.bare name hd
      rw [hnode] at hnone
      exact ⟨hplace, seen_change ⟨m, hm⟩ (.delete rule) hnone fun _ _ heq => (by cases heq)⟩
  | clear d hnode =>
    refine ⟨fun e he => ?_, h.virtual, fun hp => ?_, fun name hd => ?_, h.native, h.backing, h.slots⟩
    · rw [← Option.some.inj he]
      exact ⟨_, empty_agrees⟩
    · rw [(h.plain hp).1] at hnode
      cases hnode
    · exact ⟨(h.bare name hd).1, fun _ => rfl⟩
  | uids blocked => exact ⟨h.agrees, h.virtual, h.plain, h.bare, h.native, h.backing, h.slots⟩
  | rules target => exact ⟨h.agrees, h.virtual, h.plain, h.bare, h.native, h.backing, h.slots⟩
  | files stock child => exact ⟨h.agrees, h.virtual, h.plain, h.bare, h.native, h.backing, h.slots⟩
  | forget name => exact h.forget name
  | evict dir =>
    refine h.withSlots fun d info hd => ?_
    by_cases hdd : d = dir
    · rw [hdd, Function.update_self] at hd
      cases hd
    · rw [Function.update_of_ne hdd] at hd
      exact h.slots d info hd
  | retire dir =>
    refine h.withSlots fun d info hd => ?_
    by_cases hdd : d = dir
    · rw [hdd, Function.update_self] at hd
      cases hd
    · rw [Function.update_of_ne hdd] at hd
      exact h.slots d info hd

theorem Reachable.sound (h : Reachable N s) : Sound N s := by
  induction h with
  | fresh h => exact h.sound
  | step h he ih => exact he.sound ih

/-- After any history of the rules, the blocked uids, the filesystems and earlier lookups, with or
without memory, a name leads to where a lookup without a cache leads. -/
theorem walk_coherent (h : Reachable N s) (hw : Willing s env) :
    (s.walk N env fsuid name).1 = s.resolves N fsuid name :=
  walk_resolves h.sound hw

/-- Without memory a name may lead to where it leads without the rules, but never to what some
rule said before. -/
theorem walk_never_stale (h : Reachable N s) : (∃ err, (s.walk N env fsuid name).1 = .error err) ∨
    (s.walk N env fsuid name).1 = s.outside fsuid name ∨
    (s.walk N env fsuid name).1 = s.resolves N fsuid name :=
  walk_any h.sound

/-- The directory which is listed is the one in which names are looked up. -/
structure Mirrored (dir : Directory ρ) (s : DirState ρ) : Prop where
  node : s.node = dir.node
  hooked : ∀ S d, dir = .hooked S d → s.place = .hooked ∧
    ∀ name, name ≠ [46] → name ≠ [46, 46] → ((s.world.stock name).isSome = true ↔ name ∈ S.names)
  ofRule : ∀ opened, dir = .ofRule opened → ∃ info, s.place = .ofRule info ∧
    (opened.real = none → info.flags.toUInt16 &&& VIRTUAL_DIR ≠ 0) ∧
    ∀ S, opened.real = some S → info.flags.toUInt16 &&& VIRTUAL_DIR = 0 ∧ ∃ path, info.rPath = some path ∧
      s.world.ours path = false ∧
        ∀ name, name ≠ [46] → name ≠ [46, 46] → ((s.world.child path name).isSome = true ↔ name ∈ S.names)

omit [DecidableEq ρ] in
/-- Without a rule a name leads somewhere when it is one of the stock names. -/
theorem outside_iff (hm : Mirrored dir s) (hopen : s.blocked fsuid = false) (hdot : name ≠ [46])
    (hdots : name ≠ [46, 46]) :
    s.outside fsuid name ≠ .ok .negative ↔ name ∈ dir.stockNames := by
  unfold DirState.outside
  cases hdir : dir with
  | hooked S d =>
    obtain ⟨hplace, hstock⟩ := hm.hooked S d hdir
    rw [hplace]
    show _ ↔ name ∈ S.names
    rw [← hstock name hdot hdots]
    simp only [World.found]
    cases s.world.stock name <;> simp
  | ofRule opened =>
    obtain ⟨info, hplace, hvirtual, hreal⟩ := hm.ofRule opened hdir
    simp only [hplace, hopen, Bool.false_eq_true, if_false]
    cases hopened : opened.real with
    | none =>
      have hnames : (Directory.ofRule opened).stockNames = [] := by
        simp only [Directory.stockNames, Directory.stock, hopened]
      rw [if_pos (hvirtual hopened), hnames]
      simp
    | some S =>
      obtain ⟨hflag, path, hpath, hours, hchild⟩ := hreal S hopened
      have hnames : (Directory.ofRule opened).stockNames = S.names := by
        simp only [Directory.stockNames, Directory.stock, hopened]
      rw [if_neg (by simp [hflag]), hnames, ← hchild name hdot hdots, hpath]
      simp only [World.entry, lookupBackingChild, hours, Bool.false_eq_true, Bool.true_eq_false, if_false]
      cases s.world.child path name with
      | none => simp
      | some dentry =>
        simp only [Option.map_some]
        split <;> simp

/-- A name is listed when it leads somewhere. -/
theorem mem_listed_iff {rs : List ρ} (hchildren : Children N dir.node rs) (hm : Mirrored dir s)
    (hopen : s.blocked fsuid = false)
    (hdot : name ≠ [46]) (hdots : name ≠ [46, 46]) :
    name ∈ listed N (fun rule => (s.target rule).has WHITEOUT) dir fsuid rs ↔
    s.resolves N fsuid name ≠ .ok .negative := by
  have hrule : s.ruleFor N fsuid name = seen N dir.node fsuid name := by
    unfold DirState.ruleFor
    rw [if_neg (by simp [hopen]), hm.node]
  rw [mem_listed hchildren, ← outside_iff hm hopen hdot hdots, ← hrule]
  unfold DirState.resolves
  cases hseen : s.ruleFor N fsuid name with
  | none => simp
  | some rule =>
    simp only [reduceCtorEq, and_false, Option.some.injEq, exists_eq_left', false_or, ne_eq, Except.ok.injEq]
    unfold Target.found
    cases (s.target rule).has WHITEOUT <;> simp

/-- However the reads are cut, a directory delivers the names, each once, which lead somewhere at
that time, after the dots of a directory without stock names. -/
theorem listed_iff_walk (h : Reachable N s) (hw : Willing s env) (hm : Mirrored dir s)
    (hholds : dir.Holds N m)
    (hopen : s.blocked fsuid = false) : ∃ names : List Bytes, names.Nodup ∧
      (∀ name, name ≠ [46] → name ≠ [46, 46] → (name ∈ names ↔ (s.walk N env fsuid name).1 ≠ .ok .negative)) ∧
      ∀ rooms,
        let reads := CursorReads.readAll
          (getdents N (fun rule => (s.target rule).has WHITEOUT) dir (s.blocked fsuid) fsuid) rooms 0
        reads.1 <+: dir.dots ++ names ∧ (reads.2 = true → reads.1 = dir.dots ++ names) ∧
          ((dir.dots ++ names).length < rooms.length → reads.2 = true) := by
  obtain ⟨rs, hchildren, -⟩ := hholds.children fsuid
  have hexact := getdents_exact (fun rule => (s.target rule).has WHITEOUT) fsuid dir hchildren hholds.opened
  refine ⟨listed N (fun rule => (s.target rule).has WHITEOUT) dir fsuid rs, listed_nodup hchildren, ?_, ?_⟩
  · intro name hdot hdots
    rw [walk_resolves h.sound hw]
    exact mem_listed_iff hchildren hm hopen hdot hdots
  · intro rooms
    simp only [hopen]
    rw [← remaining_start]
    obtain ⟨hpre, hall⟩ := CursorReads.readAll_prefix hexact rooms 0
    exact ⟨hpre, hall, CursorReads.readAll_ends hexact rooms 0⟩

end

def willing : Answers := ⟨true, true, true, true, true, 0, true, true, true, true, true, true, true⟩

/-- A filesystem directory with two files and no rules. -/
def twoFiles : DirState (Bytes × UInt32) where
  place := .plain
  node := none
  blocked _ := false
  target _ := ⟨0, some ⟨0, 7⟩, none, none⟩
  slots _ := .empty
  world := ⟨fun name => if name = [97] then some 1 else if name = [100] then some 2 else none,
    fun _ _ => none, fun _ => false⟩
  dcache _ := none

/-- One of the files is looked up, then a rule comes for it. -/
def replacedFile : DirState (Bytes × UInt32) :=
  ({ (twoFiles.walk colliding willing 7 [97]).2 with place := .hooked } : DirState _).attach colliding none
    ([97], 0) empty

theorem replacedFile_reachable : Reachable colliding replacedFile := by
  have hfresh : Fresh colliding twoFiles :=
    .plain rfl rfl (fun _ _ hd => by cases hd) fun _ _ hd => by cases hd
  exact .step (.step (.fresh hfresh) (.walk twoFiles willing 7 [97])) (.hook _ none ([97], 0) rfl)

theorem replacedFile_willing : Willing replacedFile willing where
  newInode := rfl
  alloc := rfl
  grabbed := rfl
  grabbedAgain := rfl
  pinned := rfl
  lookup := rfl
  locked := rfl
  lockedAgain := rfl
  lockedNative := rfl
  childInode := rfl
  childAlloc := rfl
  backed _ := Or.inr (Or.inr rfl)
  live _ _ hdir := by cases hdir
  own _ _ hplace := by cases hplace

theorem walk_coherent_replaced :
    (replacedFile.walk colliding willing 7 [97]).1 = replacedFile.resolves colliding 7 [97] :=
  walk_coherent replacedFile_reachable replacedFile_willing

example : (replacedFile.walk colliding willing 7 [97]).1 = .ok (.proxy (some ⟨0, 7⟩) none 0) := by rfl

theorem walk_never_stale_replaced :
    (∃ err, (replacedFile.walk colliding { willing with newInode := false } 7 [97]).1 = .error err) ∨
      (replacedFile.walk colliding { willing with newInode := false } 7 [97]).1 =
        replacedFile.outside 7 [97] ∨
        (replacedFile.walk colliding { willing with newInode := false } 7 [97]).1 =
          replacedFile.resolves colliding 7 [97] :=
  walk_never_stale replacedFile_reachable

theorem listed_iff_walk_replaced : ∃ names : List Bytes, names.Nodup ∧
    (∀ name, name ≠ [46] → name ≠ [46, 46] →
      (name ∈ names ↔ (replacedFile.walk colliding willing 7 name).1 ≠ .ok .negative)) ∧ ∀ rooms,
      let reads := CursorReads.readAll (getdents colliding (fun rule => (replacedFile.target rule).has WHITEOUT)
        (.hooked fourEntries (injectChild colliding none ([97], 0) empty).2) (replacedFile.blocked 7) 7) rooms 0
      reads.1 <+: [] ++ names ∧ (reads.2 = true → reads.1 = [] ++ names) ∧
        (([] ++ names).length < rooms.length → reads.2 = true) := by
  have hholds : Directory.Holds colliding (.hooked fourEntries (injectChild colliding none ([97], 0) empty).2)
      (call colliding (empty, fun _ => none) (.inject none ([97], 0))).2 := by
    refine ⟨fun set hset => ?_, fun hnode => (by cases hnode), fun set hset => ?_,
      fun hstock => (by cases hstock)⟩
    · rw [← Option.some.inj hset]
      exact change_agrees empty_agrees (.inject none ([97], 0))
    · rw [← Option.some.inj hset]
      decide +kernel
  have hmirrored : Mirrored (.hooked fourEntries (injectChild colliding none ([97], 0) empty).2)
      replacedFile := by
    refine ⟨rfl, fun S d hdir => ?_, fun opened hdir => (by cases hdir)⟩
    rw [Directory.hooked.injEq] at hdir
    refine ⟨rfl, fun name hdot hdots => ?_⟩
    rw [← hdir.1]
    show (if name = [97] then some 1 else if name = [100] then some 2 else none).isSome = true ↔
      name ∈ [[46], [46, 46], [97], [100]]
    by_cases ha : name = [97]
    · simp [ha]
    · by_cases hd : name = [100]
      · simp [hd]
      · simp [ha, hd, hdot, hdots]
  exact listed_iff_walk replacedFile_reachable replacedFile_willing hmirrored hholds rfl

end HybridMount.Vfs.Lookup
