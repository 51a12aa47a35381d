import HybridMount.KernelTable
import HybridMount.VisibleNames

/-! Lookups in a directory with injected children, and the checks of the dentries which earlier
lookups have left in the cache. -/

namespace HybridMount.Vfs.Lookup

open LittleEndian ChildArray ReadDir

def EAGAIN : Int32 := -11

def ELOOP : Int32 := -40

def EOPNOTSUPP : Int32 := -95

/-- A mount and a dentry in it. -/
structure Path where
  mnt : Nat
  dentry : Nat
  deriving DecidableEq

/-- What a rule says about the name which it stands for. -/
structure Target where
  flags : UInt16
  rPath : Option Path
  nativePath : Option Path
  thisDir : Option Nat

def Target.has (rule : Target) (flag : UInt16) : Bool := rule.flags &&& flag != 0

/-- A virtual directory has nothing behind it. -/
def Target.backingPath (rule : Target) : Option Path := if rule.has VIRTUAL_DIR then none else rule.rPath

/-- `hm_inode_info`, what the module keeps with an inode which it has made. -/
structure InodeInfo where
  rPath : Option Path
  nativePath : Option Path
  dirNode : Option Nat
  flags : UInt8
  backingChild : Bool

def initPreallocInode (rule : Target) : InodeInfo where
  rPath := rule.backingPath
  nativePath := rule.nativePath
  dirNode := rule.thisDir
  flags := rule.flags.toUInt8
  backingChild := false

def cachedInodeMatches (info : InodeInfo) (rule : Target) : Bool :=
  info.flags.toUInt16 = rule.flags ∧ info.dirNode = rule.thisDir ∧ info.nativePath = rule.nativePath ∧
    info.rPath = rule.backingPath

/-- `v_inode`, the inode which a directory node keeps for the next lookup. -/
inductive Slot where
  | empty
  | inode (info : InodeInfo)
  | retired

/-- A dentry of the filesystem itself, with or without the callbacks of the module, or one which
the module has made. -/
inductive Dentry where
  | bare
  | native
  | owned (inode : Option InodeInfo)

/-- A directory of a filesystem, before and after its operations are replaced, or the directory
of a rule. -/
inductive Place where
  | plain
  | hooked
  | ofRule (info : InodeInfo)

/-- The filesystems: the inodes in the directory itself and the dentries in other directories,
and which dentries have an inode of the module. -/
structure World where
  stock : Bytes → Option Nat
  child : Path → Bytes → Option Nat
  ours : Path → Bool

/-- What the kernel around the module answers in the course of one lookup. -/
structure Answers where
  newInode : Bool
  alloc : Bool
  grabbed : Bool
  grabbedAgain : Bool
  pinned : Bool
  lookup : Int32
  wrapped : Bool
  stillValid : Bool
  locked : Bool
  lockedAgain : Bool
  lockedNative : Bool
  childInode : Bool
  childAlloc : Bool

/-- What a name leads to: nothing, an inode of the filesystem, or one of the module. -/
inductive Found where
  | negative
  | native (inode : Nat)
  | proxy (rPath : Option Path) (dirNode : Option Nat) (flags : UInt8)
  deriving DecidableEq

structure DirState (ρ : Type) where
  place : Place
  node : Option (ChildSet ρ)
  blocked : UInt32 → Bool
  target : ρ → Target
  slots : Nat → Slot
  world : World
  dcache : Bytes → Option Dentry

def World.found (world : World) (name : Bytes) : Found :=
  match world.stock name with
  | some inode => .native inode
  | none => .negative

def proxied : Option InodeInfo → Found
  | some info => .proxy info.rPath info.dirNode info.flags
  | none => .negative

section

variable {ρ : Type}

def DirState.put (s : DirState ρ) (name : Bytes) (dentry : Option Dentry) : DirState ρ :=
  { s with dcache := Function.update s.dcache name dentry }

/-- The entry of a directory elsewhere. -/
def lookupBackingChild (world : World) (locked : Bool) (parent : Option Path) (name : Bytes) :
    Except Int32 (Option Path) :=
  match parent with
  | none => .error EOPNOTSUPP
  | some parent =>
    if world.ours parent then .error EOPNOTSUPP
    else if locked = false then .error EAGAIN
    else .ok ((world.child parent name).map fun dentry => ⟨parent.mnt, dentry⟩)

/-- A new inode for a rule, which the directory node keeps unless another one is there already. -/
def allocateInode (s : DirState ρ) (env : Answers) (rule : Target) :
    Option (Option InodeInfo × (Nat → Slot)) :=
  if env.newInode ∧ env.alloc ∧ (rule.has VIRTUAL_DIR ∨ rule.rPath.isSome) then
    match rule.thisDir with
    | none => some (some (initPreallocInode rule), s.slots)
    | some dir =>
      if env.pinned = false then none
      else
        match s.slots dir with
        | .empty =>
          some (some (initPreallocInode rule), Function.update s.slots dir (.inode (initPreallocInode rule)))
        | .retired => none
        | .inode info =>
          if env.grabbedAgain = false then none
          else if cachedInodeMatches info rule then some (some info, s.slots)
          else
            some (some (initPreallocInode rule),
              Function.update s.slots dir (.inode (initPreallocInode rule)))
  else none

variable (N : Naming ρ)

/-- The inode for a name with a rule, if the name is not hidden; without an answer the lookup
goes on as if there were no rule. -/
def resolveRuleDentry (s : DirState ρ) (env : Answers) (fsuid : UInt32) (name : Bytes) :
    Option (Option InodeInfo × (Nat → Slot)) :=
  match seen N s.node fsuid name with
  | none => none
  | some rule =>
    if s.blocked fsuid then none
    else if (s.target rule).has WHITEOUT then some (none, s.slots)
    else
      match (s.target rule).thisDir.map s.slots with
      | some .retired => none
      | some (.inode info) =>
        if env.grabbed = false then none
        else if cachedInodeMatches info (s.target rule) then some (some info, s.slots)
        else allocateInode s env (s.target rule)
      | _ => allocateInode s env (s.target rule)

/-- The lookup of the filesystem. Its dentry does not stay in the cache when a rule has the name. -/
def realLookup (s : DirState ρ) (env : Answers) (isBlocked : Bool) (fsuid : UInt32) (name : Bytes) :
    Except Int32 Found × DirState ρ :=
  if env.lookup ≠ 0 then (.error env.lookup, s)
  else
    let drop := !isBlocked && (seen N s.node fsuid name).isSome || !env.wrapped
    (.ok (s.world.found name), s.put name (if drop then none else some .native))

def passesBloom (d : ChildSet ρ) (name : Bytes) : Bool := d.bloomMask &&& bloomBit (N.hash name) != 0

def hijackedLookup (s : DirState ρ) (env : Answers) (fsuid : UInt32) (name : Bytes) :
    Except Int32 Found × DirState ρ :=
  match s.node with
  | none => realLookup N s env false fsuid name
  | some d =>
    if passesBloom N d name = false then realLookup N s env false fsuid name
    else if s.blocked fsuid then realLookup N s env true fsuid name
    else
      match resolveRuleDentry N s env fsuid name with
      | some (inode, slots) => (.ok (proxied inode), { s with slots }.put name (some (.owned inode)))
      | none => realLookup N s env false fsuid name

/-- The entry of the same name in the directory in whose place the rule stands, for readers whom
the rules are not for. -/
def nativeEntry (s : DirState ρ) (env : Answers) (info : InodeInfo) (blocked : Bool) (backing : Path)
    (name : Bytes) :
    Except Int32 (Option Path) :=
  if blocked then .ok (some backing)
  else if info.nativePath = none then .ok none
  else (lookupBackingChild s.world env.lockedNative info.nativePath name).map fun native =>
    native.filter fun path => !s.world.ours path

/-- A new inode for an entry of a directory elsewhere. -/
def adoptChild (s : DirState ρ) (env : Answers) (info : InodeInfo) (blocked : Bool) (backing : Path)
    (name : Bytes) :
    Except Int32 Found × DirState ρ :=
  if s.world.ours backing then (.error ELOOP, s)
  else if env.childInode = false then (.error ENOMEM, s)
  else if env.childAlloc = false then (.error ENOMEM, s)
  else
    match nativeEntry s env info blocked backing name with
    | .error err => (.error err, s)
    | .ok native =>
      let child : InodeInfo := ⟨some backing, native, none, 0, true⟩
      (.ok (proxied (some child)), s.put name (some (.owned (some child))))

def childLookup (s : DirState ρ) (env : Answers) (info : InodeInfo) (blocked : Bool) (parent : Option Path)
    (name : Bytes) :
    Except Int32 Found × DirState ρ :=
  match lookupBackingChild s.world env.lockedAgain parent name with
  | .error err => (.error err, s)
  | .ok none => (.ok .negative, s.put name (some (.owned none)))
  | .ok (some backing) => adoptChild s env info blocked backing name

/-- The entry of the directory behind a rule, or of the directory in whose place the rule stands
when the rules are not for the reader. -/
def backingLookup (s : DirState ρ) (env : Answers) (info : InodeInfo) (fsuid : UInt32) (name : Bytes) :
    Except Int32 Found × DirState ρ :=
  let blocked := s.blocked fsuid
  let parent := if blocked then info.nativePath else info.rPath
  if (blocked ∧ parent = none) ∨ (blocked = false ∧ info.flags.toUInt16 &&& VIRTUAL_DIR ≠ 0) then
    (.ok .negative, s.put name (some (.owned none)))
  else childLookup s env info blocked parent name

def dirLookup (s : DirState ρ) (env : Answers) (info : InodeInfo) (fsuid : UInt32) (name : Bytes) :
    Except Int32 Found × DirState ρ :=
  match if s.blocked fsuid then none else s.node with
  | some d =>
    match if passesBloom N d name then resolveRuleDentry N s env fsuid name else none with
    | some (inode, slots) => (.ok (proxied inode), { s with slots }.put name (some (.owned inode)))
    | none => backingLookup s env info fsuid name
  | none => backingLookup s env info fsuid name

def DirState.lookup (s : DirState ρ) (env : Answers) (fsuid : UInt32) (name : Bytes) :
    Except Int32 Found × DirState ρ :=
  match s.place with
  | .plain => (.ok (s.world.found name), s.put name (some .bare))
  | .hooked => hijackedLookup N s env fsuid name
  | .ofRule info => dirLookup N s env info fsuid name

inductive Verdict where
  | valid
  | invalid
  | failed (err : Int32)

def Verdict.ofBool (valid : Bool) : Verdict := if valid then .valid else .invalid

/-- The entry behind the inode is still the one that the name stands for. -/
def revalidateBackingChild (s : DirState ρ) (env : Answers) (parent : InodeInfo) (fsuid : UInt32)
    (name : Bytes)
    (info : InodeInfo) : Verdict :=
  let path := if s.blocked fsuid then parent.nativePath else parent.rPath
  if path = none ∨ path.map Path.mnt ≠ info.rPath.map Path.mnt then .invalid
  else
    match lookupBackingChild s.world env.locked path name with
    | .error err => .failed err
    | .ok backing => .ofBool (backing.isSome ∧ backing = info.rPath)

/-- The check of a dentry which the module has made. -/
def revalidateOwned (s : DirState ρ) (env : Answers) (fsuid : UInt32) (name : Bytes)
    (inode : Option InodeInfo) : Verdict :=
  if s.blocked fsuid then
    match s.place, inode with
    | .ofRule parent, some info =>
      if info.backingChild ∧ info.nativePath = info.rPath
        then revalidateBackingChild s env parent fsuid name info else .invalid
    | _, _ => .invalid
  else
    match seen N s.node fsuid name with
    | some rule =>
      if (s.target rule).has WHITEOUT then .ofBool inode.isNone
      else
        match inode with
        | some info => .ofBool (cachedInodeMatches info (s.target rule))
        | none => .invalid
    | none =>
      match s.place, inode with
      | .ofRule parent, some info =>
        if info.backingChild then revalidateBackingChild s env parent fsuid name info else .invalid
      | _, _ => .invalid

/-- The check of a dentry of the filesystem, which the filesystem has the last word on. -/
def revalidateNative (s : DirState ρ) (env : Answers) (fsuid : UInt32) (name : Bytes) : Verdict :=
  if s.blocked fsuid then .ofBool env.stillValid
  else
    match seen N s.node fsuid name with
    | some rule => if (s.target rule).has WHITEOUT then .ofBool (s.world.stock name).isNone else .invalid
    | none => .ofBool env.stillValid

def DirState.revalidate (s : DirState ρ) (env : Answers) (fsuid : UInt32) (name : Bytes) : Dentry → Verdict
  | .bare => .valid
  | .native => revalidateNative N s env fsuid name
  | .owned inode => revalidateOwned N s env fsuid name inode

def Dentry.found (world : World) (name : Bytes) : Dentry → Found
  | .bare => world.found name
  | .native => world.found name
  | .owned inode => proxied inode

/-- One step of a path: the dentry in the cache when it is still valid, else a new lookup. -/
def DirState.walk (s : DirState ρ) (env : Answers) (fsuid : UInt32) (name : Bytes) :
    Except Int32 Found × DirState ρ :=
  match s.dcache name with
  | some dentry =>
    match s.revalidate N env fsuid name dentry with
    | .valid => (.ok (dentry.found s.world name), s)
    | .failed err => (.error err, s)
    | .invalid => (s.put name none).lookup N env fsuid name
  | none => s.lookup N env fsuid name

end

end HybridMount.Vfs.Lookup
