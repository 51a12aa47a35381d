import HybridMount.ArtMap
import HybridMount.ChildArray
import HybridMount.PayloadLoop

/-! The rule table of the kernel module: the list of rules, the radix tree over their
paths and the child sets of the directories which connect them. -/

namespace HybridMount.Vfs

open LittleEndian

def IS_DIR : UInt16 := 1

def VIRTUAL_DIR : UInt16 := 2

def WHITEOUT : UInt16 := 4

def OPAQUE : UInt16 := 8

def ENOTDIR : Int32 := -20

def SLASH : UInt8 := 47

def Rule.has (rule : Rule) (flag : UInt16) : Bool := rule.flags &&& flag != 0

/-- The last bytes of a path, under which the rule stands in its parent directory. -/
def Rule.childName (rule : Rule) (childLen : Nat) : Bytes := rule.vPath.drop (rule.vPath.length - childLen)

/-- The array doubles when `children` reaches the capacity; a single child needs no array. -/
structure DirNode where
  children : List Rule
  capacity : Nat
  tag : Option (Option Rule)

/-- What a lookup of a path by the rest of the kernel finds. -/
inductive Inode where
  | virtual (dirNode : Option Nat)
  | native (number : Nat)
  deriving DecidableEq, Repr

/-- What the kernel around the module answers to one call. -/
structure Answers where
  alloc : Bool
  realIsDir : Option Bool
  kernPath : Option Inode
  capture : Int32
  hijack : Int32

structure Kernel where
  nextId : Nat
  nextDir : Nat
  clock : Nat
  rules : List Rule
  victims : List Rule
  root : Art
  thisDir : Nat → Option Nat
  parentDir : Nat → Option Nat
  childLen : Nat → Nat
  dirs : Nat → DirNode
  hooks : Nat → Option Nat

namespace Kernel

def boot : Kernel where
  nextId := 0
  nextDir := 0
  clock := 0
  rules := []
  victims := []
  root := .null
  thisDir _ := none
  parentDir _ := none
  childLen _ := 0
  dirs _ := ⟨[], 0, none⟩
  hooks _ := none

def tick (k : Kernel) : Kernel := { k with clock := k.clock + 1 }

def setDir (k : Kernel) (dir : Nat) (node : DirNode) : Kernel :=
  { k with dirs := Function.update k.dirs dir node }

def setOwner (k : Kernel) (dir : Nat) (owner : Option Rule) : Kernel :=
  k.setDir dir { k.dirs dir with tag := some owner }

def nameOf (k : Kernel) (rule : Rule) : Bytes := rule.childName (k.childLen rule.id)

def place (rule : Rule) (childLen : Nat) (dir : Option Nat) (k : Kernel) : Kernel :=
  { k with
    childLen := Function.update k.childLen rule.id childLen
    parentDir := Function.update k.parentDir rule.id dir }

/-- Enter a rule into a child set, in the place of one with its name and uid if there is one. -/
def injectChild (alloc : Bool) (dir : Nat) (rule : Rule) (childLen : Nat) (k : Kernel) : Int32 × Kernel :=
  let node := k.dirs dir
  let k := k.place rule childLen (some dir)
  match node.children.find? fun c => c.targetUid = rule.targetUid ∧ k.nameOf c = rule.childName childLen with
  | some old => (0, k.setDir dir { node with children := node.children.replace old rule })
  | none =>
    if node.children = [] then (0, k.setDir dir { node with children := [rule] })
    else if node.children.length < node.capacity then
      (0, k.setDir dir { node with children := node.children ++ [rule] })
    else if alloc = true ∧ ChildArray.newCap node.capacity < 2 ^ 31 then
      (0, k.setDir dir { node with
        children := node.children ++ [rule]
        capacity := ChildArray.newCap node.capacity })
    else (ENOMEM, k.place rule childLen none)

/-- Take a rule out of its child set; the answer is the directory when it is a virtual one. -/
def deleteChild (rule : Rule) (k : Kernel) : Option Nat × Kernel :=
  match k.parentDir rule.id with
  | none => (none, k)
  | some dir =>
    let node := k.dirs dir
    let parent := if node.tag.isSome then some dir else none
    if rule ∈ node.children then
      (parent, k.setDir dir { node with
        children := node.children.erase rule
        capacity := if node.children.length ≤ 2 then 0 else node.capacity })
    else (parent, k)

/-- `hm_tree_insert`, which also puts the rule at the end of the list. -/
def treeInsert (alloc : Bool) (rule : Rule) (k : Kernel) : Int32 × Kernel :=
  let result := Art.insert alloc rule k.root 0
  (result.1, { k with
    root := result.2
    rules := if result.1 = 0 then k.rules ++ [rule] else k.rules })

/-- Off the list and out of the tree. -/
def unlink (rule : Rule) (k : Kernel) : Kernel :=
  { k with
    rules := k.rules.erase rule
    victims := k.victims ++ [rule]
    root := Art.removeLeaf rule k.root 0 }

def pruneEmptyVirtualDirs : Nat → Option Nat → Kernel → Kernel
  | 0, _, k => k
  | _ + 1, none, k => k
  | fuel + 1, some dir, k =>
    if (k.dirs dir).children ≠ [] then k
    else
      match (k.dirs dir).tag with
      | some (some owner) =>
        if owner.has VIRTUAL_DIR then
          let result := deleteChild owner (k.unlink owner)
          pruneEmptyVirtualDirs fuel result.1 result.2
        else k
      | _ => k

/-- The chain of parents which pruning follows has at most one step for each directory node. -/
def detachRule (rule : Rule) (prune : Bool) (k : Kernel) : Kernel :=
  let k := k.unlink rule
  match k.parentDir rule.id with
  | none => k
  | some _ =>
    let result := deleteChild rule k
    if prune then pruneEmptyVirtualDirs (k.nextDir + 1) result.1 result.2 else result.2

/-- One rule of a failed addition goes back out of whatever it has been entered into. -/
def retract (rule : Rule) (k : Kernel) : Kernel :=
  if rule ∈ k.rules then detachRule rule false k
  else
    let k := if (k.parentDir rule.id).isSome then (deleteChild rule k).2 else k
    { k with victims := k.victims ++ [rule] }

/-- `generated` has the rule made last in front. -/
def rollbackGeneratedTopology (target : Rule) (generated : List Rule) (k : Kernel) : Kernel :=
  generated.reverse.foldl (fun k rule => retract rule k) (retract target k)

end Kernel

/-- One step to the parent: the slash before the last component of the first `pLen` bytes. -/
structure Cut where
  pLen : Nat
  slash : Option Nat
  deriving DecidableEq, Repr

def lastSlash (path : Bytes) : Option Nat := (List.range path.length).reverse.find? fun i =>
    path.getD i 0 = SLASH

theorem lastSlash_lt {path : Bytes} {i : Nat} (h : lastSlash path = some i) : i < path.length := by
  have hmem := List.mem_of_find?_eq_some h
  simpa using hmem

/-- The steps from a path up to the root. -/
def cuts (vPath : Bytes) (pLen : Nat) : List Cut :=
  if pLen ≤ 1 then []
  else
    match _h : lastSlash (vPath.take pLen) with
    | none => [⟨pLen, none⟩]
    | some i => ⟨pLen, some i⟩ :: cuts vPath i
  termination_by pLen
  decreasing_by
    have hlt := lastSlash_lt _h
    simp only [List.length_take] at hlt
    omega

def parentLen (slash : Nat) : Nat := if slash = 0 then 1 else slash

def Cut.childLen (cut : Cut) : Nat :=
  match cut.slash with
  | some i => cut.pLen - i - 1
  | none => cut.pLen

def stripSlashes (path : Bytes) : Bytes :=
  if _h : 1 < path.length ∧ path.getLast? = some SLASH then stripSlashes path.dropLast else path
  termination_by path.length
  decreasing_by
    rw [List.length_dropLast]
    omega

namespace Kernel

/-- The directory rule at a prefix of the path, of the same uid or else a global one. The
prefix is counted: the byte after it is the next byte of the path. -/
def nearest (vPath : Bytes) (uid : UInt32) (len : Nat) (k : Kernel) : Option Rule :=
  match Art.searchExact (vPath.take len) (vPath.getD len 0) uid k.root with
  | some ex => some ex
  | none => if uid ≠ 0 then Art.searchExact (vPath.take len) (vPath.getD len 0) 0 k.root else none

/-- The parent exists outside the table: enter the rule into the child set behind its inode. -/
def attachReal (env : Nat → Answers) (found : Inode) (rule : Rule) (childLen : Nat) (k : Kernel) :
    Int32 × Kernel :=
  match found with
  | .virtual none => (ENOTDIR, k)
  | .virtual (some dir) =>
    if (env k.clock).capture ≠ 0 then ((env k.clock).capture, k.tick)
    else injectChild (env (k.clock + 1)).alloc dir rule childLen k.tick.tick
  | .native number =>
    match k.hooks number with
    | some dir =>
      if (env k.clock).hijack ≠ 0 then ((env k.clock).hijack, k.tick)
      else injectChild (env (k.clock + 1)).alloc dir rule childLen k.tick.tick
    | none =>
      if (env k.clock).alloc = false then (ENOMEM, k.tick)
      else
        let dir := k.nextDir
        let k := { k.tick with nextDir := dir + 1 }
        if (env k.clock).hijack ≠ 0 then ((env k.clock).hijack, k.tick)
        else
          let result := injectChild (env (k.clock + 1)).alloc dir rule childLen k.tick.tick
          if result.1 ≠ 0 then result
          else (0, { result.2 with hooks := Function.update result.2.hooks number (some dir) })

/-- A directory rule for a parent which nothing provides, with `child` as its only child. -/
def generate (path : Bytes) (uid : UInt32) (child : Rule) (childLen : Nat) (k : Kernel) : Rule × Kernel :=
  let rule : Rule := ⟨k.nextId, path, [], IS_DIR ||| VIRTUAL_DIR, uid⟩
  let dir := k.nextDir
  let k := (injectChild true dir child childLen { k with nextId := k.nextId + 1, nextDir := dir + 1 }).2
  let k := k.setOwner dir (some rule)
  (rule, { k with thisDir := Function.update k.thisDir rule.id (some dir) })

/-- The loop over the ancestors. A path without a slash has no parent: no rule is found
there, and generating one copies a negative length, after which there is no kernel left. -/
def attach (env : Nat → Answers) (vPath : Bytes) (uid : UInt32) :
    List Cut → Rule → List Rule → Kernel → Option (Int32 × List Rule × Kernel)
  | [], _, generated, k => some (0, generated, k)
  | cut :: rest, current, generated, k =>
    match cut.slash.bind fun i => nearest vPath uid (parentLen i) k with
    | some ex =>
      if ex.has IS_DIR = false then some (ENOTDIR, generated, k)
      else
        match k.thisDir ex.id with
        | none => some (ENOMEM, generated, k)
        | some dir =>
          if (env k.clock).capture ≠ 0 then some ((env k.clock).capture, generated, k.tick)
          else
            let result := injectChild (env (k.clock + 1)).alloc dir current cut.childLen k.tick.tick
            some (result.1, generated, result.2)
    | none =>
      match (env k.clock).kernPath with
      | some found =>
        let result := attachReal env found current cut.childLen k.tick
        some (result.1, generated, result.2)
      | none =>
        match cut.slash with
        | none => none
        | some i =>
          if (env (k.clock + 1)).alloc = false then some (ENOMEM, generated, k.tick.tick)
          else if (env (k.clock + 2)).alloc = false then some (ENOMEM, generated, k.tick.tick.tick)
          else
            let made := generate (vPath.take (parentLen i)) uid current cut.childLen k.tick.tick.tick
            attach env vPath uid rest made.1 (made.1 :: generated) made.2

def insertAll (env : Nat → Answers) : List Rule → Kernel → Int32 × Kernel
  | [], k => (0, k)
  | rule :: rest, k =>
    let result := treeInsert (env k.clock).alloc rule k.tick
    if result.1 ≠ 0 then result else insertAll env rest result.2

def generateVirtualTopology (env : Nat → Answers) (target : Rule) (k : Kernel) :
    Option (Int32 × List Rule × Kernel) :=
  match attach env target.vPath target.targetUid (cuts target.vPath target.vPath.length) target [] k with
  | none => none
  | some (err, generated, k) =>
    let result := if err ≠ 0 then (err, k) else insertAll env generated k
    some (result.1, generated,
      if result.1 ≠ 0 then rollbackGeneratedTopology target generated result.2 else result.2)

/-- What a record of `ADD_RULE` asks for. -/
structure Request where
  vPath : Bytes
  rPath : Bytes
  flags : Nat
  uid : UInt32
  deriving DecidableEq, Repr

/-- Whiteout and opaque rules carry no real path. -/
def Request.bare (request : Request) : Bool := UInt16.ofNat request.flags &&& (WHITEOUT ||| OPAQUE) != 0

def Request.rule (request : Request) (id : Nat) (isDir : Bool) : Rule where
  id := id
  vPath := stripSlashes request.vPath
  rPath := if request.bare then [] else stripSlashes request.rPath
  flags :=
    let flags := UInt16.ofNat request.flags
    let flags := if flags &&& OPAQUE = 0 then flags else flags ||| IS_DIR ||| VIRTUAL_DIR
    if isDir then flags ||| IS_DIR else flags
  targetUid := request.uid

/-- A new directory node of a rule. -/
def giveDir (rule : Rule) (k : Kernel) : Kernel :=
  { k with
    nextDir := k.nextDir + 1
    thisDir := Function.update k.thisDir rule.id (some k.nextDir) }.setOwner k.nextDir (some rule)

def allocRule (env : Nat → Answers) (request : Request) (k : Kernel) : Except Int32 Rule × Kernel :=
  if (env k.clock).alloc = false then (.error ENOMEM, k.tick)
  else
    match if request.bare then some false else (env (k.clock + 1)).realIsDir with
    | none => (.error ENOENT, k.tick.tick)
    | some isDir =>
      let rule := request.rule k.nextId isDir
      let k := { k.tick.tick with nextId := k.nextId + 1 }
      if rule.has IS_DIR = false then (.ok rule, k)
      else if (env k.clock).alloc = false then (.error ENOMEM, k.tick)
      else (.ok rule, giveDir rule k.tick)

/-- The directory node goes over to the rule which takes the place of another. -/
def handOver (rule existing : Rule) (k : Kernel) : Kernel :=
  match k.thisDir existing.id with
  | some dir =>
    if rule.has IS_DIR then
      { k.setOwner dir (some rule) with
        thisDir := Function.update (Function.update k.thisDir rule.id (some dir)) existing.id none }
    else k
  | none => k

def shadowExisting (rule : Rule) (k : Kernel) : Kernel :=
  match Art.searchExact rule.vPath 0 rule.targetUid k.root with
  | some existing => detachRule existing false (handOver rule existing k)
  | none => k

def addRule (env : Nat → Answers) (request : Request) (k : Kernel) : Option (Int32 × Kernel) :=
  match allocRule env request k with
  | (.error err, k) => some (err, k)
  | (.ok rule, k) =>
    match generateVirtualTopology env rule (shadowExisting rule k) with
    | none => none
    | some (err, generated, k) =>
      if err ≠ 0 then some (err, k)
      else
        let result := treeInsert (env k.clock).alloc rule k.tick
        if result.1 ≠ 0 then some (result.1, rollbackGeneratedTopology rule generated result.2)
        else some (0, result.2)

def hasChildren (k : Kernel) (rule : Rule) : Bool :=
  match k.thisDir rule.id with
  | some dir => (k.dirs dir).children ≠ []
  | none => false

/-- A copy of a rule which only connects the children of its directory. -/
def copyParent (rule : Rule) (k : Kernel) : Rule × Kernel :=
  let parent : Rule := ⟨k.nextId, rule.vPath, [], IS_DIR ||| VIRTUAL_DIR, rule.targetUid⟩
  (parent, { k with
    nextId := k.nextId + 1
    thisDir := Function.update k.thisDir parent.id (k.thisDir rule.id)
    parentDir := Function.update k.parentDir parent.id (k.parentDir rule.id)
    childLen := Function.update k.childLen parent.id (k.childLen rule.id) })

def enterParent (env : Nat → Answers) (parent : Rule) (k : Kernel) : Int32 × Kernel :=
  let inserted := treeInsert (env k.clock).alloc parent k.tick
  if inserted.1 ≠ 0 then inserted
  else
    match k.parentDir parent.id with
    | some dir => injectChild (env inserted.2.clock).alloc dir parent (k.childLen parent.id) inserted.2.tick
    | none => inserted

def takeDir (parent rule : Rule) (k : Kernel) : Kernel :=
  let k := match k.thisDir parent.id with
    | some dir => k.setOwner dir (some parent)
    | none => k
  { k with thisDir := Function.update k.thisDir rule.id none }

/-- A directory rule with children leaves a rule behind which keeps its directory. -/
def preserveVirtualParent (env : Nat → Answers) (rule : Rule) (k : Kernel) : Int32 × Kernel :=
  if rule.flags = IS_DIR ||| VIRTUAL_DIR then (0, k)
  else if (env k.clock).alloc = false then (ENOMEM, k.tick)
  else
    let parent := (copyParent rule k.tick).1
    let result := enterParent env parent (copyParent rule k.tick).2
    if result.1 ≠ 0 then
      (result.1, { result.2 with
        root := Art.removeLeaf parent result.2.root 0
        rules := result.2.rules.erase parent })
    else (0, unlink rule (takeDir parent rule result.2))

/-- The path is counted and `beyond` is the byte after it in the page. -/
def delRule (env : Nat → Answers) (vPath : Bytes) (beyond : UInt8) (uid : UInt32) (k : Kernel) :
    Int32 × Kernel :=
  let path := stripSlashes vPath
  match Art.searchExact path ((vPath ++ [beyond]).getD path.length 0) uid k.root with
  | none => (0, k)
  | some rule =>
    if k.hasChildren rule then preserveVirtualParent env rule k else (0, detachRule rule true k)

def disown (k : Kernel) (rule : Rule) : Kernel :=
  match k.thisDir rule.id with
  | some dir => k.setOwner dir none
  | none => k

/-- `hm_free_rule` drops the reference of the owner. A node that has lost its owner is freed, unless
an inode or a lookup is among those that still hold it. -/
def GivenBack (held : Nat → Prop) (k : Kernel) (dir : Nat) : Prop := (k.dirs dir).tag = some none ∧ ¬ held dir

/-- The victims of a request are freed at its end and their directory nodes lose their owner. -/
def retire (k : Kernel) : Kernel := { k.victims.foldl disown k with victims := [] }

def emptyParent (k : Kernel) (rule : Rule) : Kernel :=
  match k.parentDir rule.id with
  | some dir => k.setDir dir { k.dirs dir with children := [], capacity := 0 }
  | none => k

def clearAll (k : Kernel) : Kernel :=
  retire { k.rules.foldl emptyParent k with rules := [], victims := k.rules, root := .null }

end Kernel

end HybridMount.Vfs
