import Mathlib.Logic.Function.Basic
import HybridMount.LittleEndian

/-! The adaptive radix tree in which the kernel module keeps its rules. Rules of one
path hang on one leaf as a chain; a key is a path with its terminating zero. -/

namespace HybridMount.Vfs

open LittleEndian

def ENOMEM : Int32 := -12

/-- The fields of a rule which never change after its allocation, under the object's identity. -/
structure Rule where
  id : Nat
  vPath : Bytes
  rPath : Bytes
  flags : UInt16
  targetUid : UInt32
  deriving DecidableEq, Repr

def Rule.key (rule : Rule) : Bytes := rule.vPath ++ [0]

inductive ArtType where
  | node4
  | node16
  | node48
  | node256
  deriving DecidableEq, Repr

def ArtType.capacity : ArtType → Nat
  | node4 => 4
  | node16 => 16
  | node48 => 48
  | node256 => 256

/-- `index` is the array of keys in the two small node types and `child_index` in the
third; a missing pointer is `null`. -/
inductive Art where
  | null
  | leaf (rule : Rule) (nextUid : List Rule)
  | node (type : ArtType) (numChildren : UInt8) (prefixLen : UInt16) (index : Nat → UInt8)
      (children : Nat → Art)

namespace Art

def isNull : Art → Bool
  | null => true
  | _ => false

/-- The slot of the child for a key byte. -/
def findChild (type : ArtType) (numChildren : UInt8) (index : Nat → UInt8) (children : Nat → Art) (c : UInt8) :
    Option Nat :=
  match type with
  | .node4 | .node16 => (List.range numChildren.toNat).find? fun i => index i = c
  | .node48 => if index c.toNat = 0 then none else some ((index c.toNat).toNat - 1)
  | .node256 => if (children c.toNat).isNull then none else some c.toNat

/-- The byte at a depth of at most the length of the path, where `beyond` follows the path in memory. -/
def byteAt (path : Bytes) (beyond : UInt8) (depth : Nat) : UInt8 := (path ++ [beyond]).getD depth 0

/-- The chain of rules at a path, which is counted and not terminated. -/
def searchPath (path : Bytes) (beyond : UInt8) : Art → Nat → Option (Rule × List Rule)
  | null, _ => none
  | leaf rule nextUid, _ => if rule.vPath = path then some (rule, nextUid) else none
  | node type numChildren prefixLen index children, depth =>
    if path.length < depth + prefixLen.toNat then none
    else
      match findChild type numChildren index children (byteAt path beyond (depth + prefixLen.toNat)) with
      | some i => searchPath path beyond (children i) (depth + prefixLen.toNat + 1)
      | none => none

def searchExact (path : Bytes) (beyond : UInt8) (uid : UInt32) (root : Art) : Option Rule :=
  match searchPath path beyond root 0 with
  | some (rule, nextUid) => (rule :: nextUid).find? fun r => r.targetUid = uid
  | none => none

/-- The first free slot. -/
def freeSlot (children : Nat → Art) : Nat := ((List.range 48).find? fun i => (children i).isNull).getD 48

/-- `child_index` for the keys of a full small node. -/
def indexOfKeys (keys : Nat → UInt8) : Nat → UInt8 :=
  (List.range 16).foldl (fun table i => Function.update table (keys i).toNat (UInt8.ofNat (i + 1))) fun _ => 0

/-- Store one more child in a node, which grows into the next type when it is full. -/
def addChild (alloc : Bool) (type : ArtType) (numChildren : UInt8) (prefixLen : UInt16) (index : Nat → UInt8)
    (children : Nat → Art) (c : UInt8) (child : Art) : Int32 × Art :=
  match type with
  | .node4 =>
    if numChildren < 4 then
      (0, node .node4 (numChildren + 1) prefixLen (Function.update index numChildren.toNat c)
        (Function.update children numChildren.toNat child))
    else if alloc then
      (0, node .node16 (numChildren + 1) prefixLen
        (Function.update (fun i => if i < 4 then index i else 0) 4 c)
        (Function.update (fun i => if i < 4 then children i else null) 4 child))
    else (ENOMEM, node type numChildren prefixLen index children)
  | .node16 =>
    if numChildren < 16 then
      (0, node .node16 (numChildren + 1) prefixLen (Function.update index numChildren.toNat c)
        (Function.update children numChildren.toNat child))
    else if alloc then
      (0, node .node48 (numChildren + 1) prefixLen (Function.update (indexOfKeys index) c.toNat 17)
        (Function.update (fun i => if i < 16 then children i else null) 16 child))
    else (ENOMEM, node type numChildren prefixLen index children)
  | .node48 =>
    if numChildren < 48 then
      let pos := freeSlot children
      (0, node .node48 (numChildren + 1) prefixLen (Function.update index c.toNat (UInt8.ofNat (pos + 1)))
        (Function.update children pos child))
    else if alloc then
      (0, node .node256 (numChildren + 1) prefixLen (fun _ => 0)
        (Function.update (fun i => if i < 256 ∧ index i ≠ 0 then children ((index i).toNat - 1) else null)
          c.toNat child))
    else (ENOMEM, node type numChildren prefixLen index children)
  | .node256 =>
    (0, node .node256 (numChildren + 1) prefixLen index (Function.update children c.toNat child))

def firstSlot (type : ArtType) (children : Nat → Art) : Nat :=
  match type with
  | .node4 | .node16 => 0
  | .node48 => ((List.range 48).find? fun i => !(children i).isNull).getD 0
  | .node256 => ((List.range 256).find? fun i => !(children i).isNull).getD 0

/-- Some rule below a node; all of them share the node's prefix. -/
def minimum : Art → Option Rule
  | null => none
  | leaf rule _ => some rule
  | node type _ _ _ children => minimum (children (firstSlot type children))

/-- How far two keys agree from a depth on. -/
def matchLen (a b : Bytes) (depth limit : Nat) : Nat :=
  ((List.range limit).takeWhile fun p => a.getD (depth + p) 0 = b.getD (depth + p) 0).length

/-- A node of two children which differ after `p` bytes. -/
def branch (p : Nat) (c : UInt8) (old : Art) (d : UInt8) (rule : Rule) : Art :=
  node .node4 2 (UInt16.ofNat p) (fun i => if i = 0 then c else if i = 1 then d else 0)
    fun i => if i = 0 then old else if i = 1 then leaf rule [] else null

/-- The status and the tree after an insertion; `alloc` answers the allocation of a node. -/
def insert (alloc : Bool) (rule : Rule) : Art → Nat → Int32 × Art
  | null, _ => (0, leaf rule [])
  | leaf existing nextUid, depth =>
    if existing.vPath = rule.vPath then (0, leaf existing (rule :: nextUid))
    else if alloc then
      let p := matchLen existing.key rule.key depth (min existing.vPath.length rule.vPath.length - depth)
      (0, branch p (existing.key.getD (depth + p) 0) (leaf existing nextUid)
      (rule.key.getD (depth + p) 0) rule)
    else (ENOMEM, leaf existing nextUid)
  | node type numChildren prefixLen index children, depth =>
    let borrowed := ((minimum (node type numChildren prefixLen index children)).map Rule.key).getD []
    let p := matchLen borrowed rule.key depth (min prefixLen.toNat (rule.vPath.length - depth))
    if p < prefixLen.toNat then
      if alloc then
        (0, branch p (borrowed.getD (depth + p) 0)
          (node type numChildren (prefixLen - UInt16.ofNat (p + 1)) index children)
          (rule.key.getD (depth + p) 0) rule)
      else (ENOMEM, node type numChildren prefixLen index children)
    else
      match findChild type numChildren index children (rule.key.getD (depth + prefixLen.toNat) 0) with
      | some i =>
        let result := insert alloc rule (children i) (depth + prefixLen.toNat + 1)
        (result.1, node type numChildren prefixLen index (Function.update children i result.2))
      | none =>
        addChild alloc type numChildren prefixLen index children (rule.key.getD (depth + prefixLen.toNat) 0)
          (leaf rule [])

/-- A node takes the place of its parent and with it the parent's prefix and key byte. -/
def lengthen (extra : UInt16) : Art → Art
  | node type numChildren prefixLen index children => node type numChildren (prefixLen + extra) index children
  | other => other

/-- Forget the child in a slot, whose pointer is already cleared; a node left with one child makes
room for it. -/
def removeChild (type : ArtType) (numChildren : UInt8) (prefixLen : UInt16) (index : Nat → UInt8)
    (children : Nat → Art) (pos : Nat) (key : UInt8) : Art :=
  let last := (numChildren - 1).toNat
  let index' := match type with
    | .node4 | .node16 => Function.update index pos (index last)
    | .node48 => Function.update index key.toNat 0
    | .node256 => index
  let children' := match type with
    | .node4 | .node16 => Function.update children pos (children last)
    | .node48 | .node256 => children
  if numChildren - 1 = 1 then lengthen (prefixLen + 1) (children' (firstSlot type children'))
  else node type (numChildren - 1) prefixLen index' children'

def removeLeaf (target : Rule) : Art → Nat → Art
  | null, _ => null
  | leaf rule nextUid, _ =>
    if rule.vPath = target.vPath then
      if rule = target then
        match nextUid with
        | next :: rest => leaf next rest
        | [] => null
      else leaf rule (nextUid.erase target)
    else leaf rule nextUid
  | node type numChildren prefixLen index children, depth =>
    if target.vPath.length < depth + prefixLen.toNat then node type numChildren prefixLen index children
    else
      let key := target.key.getD (depth + prefixLen.toNat) 0
      match findChild type numChildren index children key with
      | none => node type numChildren prefixLen index children
      | some i =>
        let child := removeLeaf target (children i) (depth + prefixLen.toNat + 1)
        if !(children i).isNull && child.isNull then
          removeChild type numChildren prefixLen index (Function.update children i null) i key
        else node type numChildren prefixLen index (Function.update children i child)

end Art

end HybridMount.Vfs
