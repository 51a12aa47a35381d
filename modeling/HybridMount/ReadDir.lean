import HybridMount.ChildMultimap
import HybridMount.CursorReads

/-! The listing of a hooked directory and of a directory rule: the stock names pass through a
filter, and the injected children follow under packed positions. -/

namespace HybridMount.Vfs.ReadDir

open LittleEndian ChildArray

def sig16 : UInt64 := 0x686D

/-- The positions of a reader that is not a 32-bit one. -/
def isVirtualPos (pos : UInt64) : Bool := (pos &&& (0xFFFFFFFF00000000 : UInt64)) == sig16 <<< 48

def packPos (id : UInt32) : UInt64 := sig16 <<< 48 ||| id.toUInt64

def unpackPos (pos : UInt64) : UInt32 := (pos &&& (0xFFFFFFFF : UInt64)).toUInt32

/-- A reader with room for some more entries, and the names it has. -/
structure DirContext where
  pos : UInt64
  room : Nat
  names : List Bytes

/-- What the reader does with an entry; no further entry is wanted once one did not fit. -/
def dirEmit (ctx : DirContext) (name : Bytes) : Bool × DirContext :=
  match ctx.room with
  | 0 => (false, ctx)
  | room + 1 => (true, { ctx with room, names := ctx.names ++ [name] })

/-- A directory of a filesystem: entry `i` is offered at position `pos i`, the listing ends at the
position after the last, and from each of these positions, or the start, it goes on where it was. -/
structure Stock where
  names : List Bytes
  pos : Nat → UInt64
  resume : UInt64 → Nat
  nodup : names.Nodup
  resume_start : resume 0 = 0
  resume_pos : ∀ i, i ≤ names.length → resume (pos i) = i
  unpacked : ∀ i, i ≤ names.length → isVirtualPos (pos i) = false

section Iterate

variable {σ : Type} (setPos : σ → UInt64 → σ) (actor : σ → Bytes → UInt64 → Bool × σ)

def iterateFrom (pos : Nat → UInt64) : List Bytes → Nat → σ → σ
  | [], i, ctx => setPos ctx (pos i)
  | name :: names, i, ctx =>
    match actor (setPos ctx (pos i)) name (pos i) with
    | (true, ctx) => iterateFrom pos names (i + 1) ctx
    | (false, ctx) => ctx

/-- The listing of a filesystem, from a position, until the actor stops it. -/
def Stock.iterate (S : Stock) (start : UInt64) (ctx : σ) : σ :=
  let i := min (S.resume start) S.names.length
  iterateFrom setPos actor S.pos (S.names.drop i) i ctx

end Iterate

def DirContext.setPos (ctx : DirContext) (pos : UInt64) : DirContext := { ctx with pos }

/-- The stock listing straight to the reader. -/
def nativeIterate (S : Stock) (ctx : DirContext) : DirContext :=
  S.iterate DirContext.setPos (fun ctx name _ => dirEmit ctx name) ctx.pos ctx

structure ProxyCtx where
  pos : UInt64
  orig : DirContext
  emitted : Bool

def ProxyCtx.setPos (proxy : ProxyCtx) (pos : UInt64) : ProxyCtx := { proxy with pos }

variable {ρ : Type} [DecidableEq ρ] (N : Naming ρ) (isWhiteout : ρ → Bool)

/-- A name of which the reader sees a rule is passed over. -/
def actorProxy (node : Option (ChildSet ρ)) (uidBlocked : Bool) (fsuid : UInt32)
    (proxy : ProxyCtx) (name : Bytes) (offset : UInt64) : Bool × ProxyCtx :=
  let hidden := match node with
    | some d => !uidBlocked && d.bloomMask &&& bloomBit (N.hash name) != 0 &&
        (getRuleInfo N d name fsuid).isSome
    | none => false
  if hidden then (true, { proxy with pos := offset })
  else
    let (ret, orig) := dirEmit { proxy.orig with pos := proxy.pos } name
    (ret, { proxy with pos := orig.pos, orig, emitted := true })

/-- How many slots the children fill, and the rule of each. -/
def childSlots : Children ρ → Nat × (Nat → Option ρ)
  | .null => (0, fun _ => none)
  | .single rule => (1, fun i => if i = 0 then some rule else none)
  | .slots arr => (arr.count, arr.rules)

/-- The rule is the one its name stands for to the reader. -/
def isResolved (children : Children ρ) (id : Nat) (rule : ρ) (fsuid : UInt32) : Bool :=
  match children with
  | .slots arr =>
    (childForUid N arr (N.name rule) (arr.hashes id) fsuid false).1 = some rule
  | _ => true

def emitFrom (children : Children ρ) (fsuid : UInt32) (id : Nat) (ctx : DirContext) : DirContext :=
  if _h : id < (childSlots children).1 then
    let ctx := ctx.setPos (packPos (UInt32.ofNat id))
    match (childSlots children).2 id with
    | some rule =>
      if (N.uid rule = 0 ∨ N.uid rule = fsuid) ∧ isResolved N children id rule fsuid ∧
          isWhiteout rule = false then
        match dirEmit ctx (N.name rule) with
        | (true, ctx) =>
          emitFrom children fsuid (id + 1) (ctx.setPos (packPos (UInt32.ofNat (id + 1))))
        | (false, ctx) => ctx
      else emitFrom children fsuid (id + 1) (ctx.setPos (packPos (UInt32.ofNat (id + 1))))
    | none => emitFrom children fsuid (id + 1) (ctx.setPos (packPos (UInt32.ofNat (id + 1))))
  else ctx
  termination_by (childSlots children).1 - id

def emitVirtualChildren (node : Option (ChildSet ρ)) (blocked : Bool) (fsuid : UInt32)
    (ctx : DirContext) : DirContext :=
  match node with
  | none => ctx
  | some d =>
    if blocked then ctx
    else
      let ctx := if isVirtualPos ctx.pos then ctx else ctx.setPos (packPos 0)
      emitFrom N isWhiteout d.children fsuid (unpackPos ctx.pos).toNat ctx

/-- The stock names that pass the filter, then the children once none is left to pass. -/
def proxied (S : Stock) (node : Option (ChildSet ρ)) (blocked : Bool) (fsuid : UInt32)
    (ctx : DirContext) : DirContext :=
  let proxy := S.iterate ProxyCtx.setPos (actorProxy N node blocked fsuid) ctx.pos
    ⟨ctx.pos, ctx, false⟩
  let ctx := proxy.orig.setPos proxy.pos
  if proxy.emitted then ctx
  else emitVirtualChildren N isWhiteout node blocked fsuid (ctx.setPos (packPos 0))

def hijackedIterateDir (S : Stock) (d : ChildSet ρ) (blocked : Bool) (fsuid : UInt32)
    (ctx : DirContext) : Int × DirContext :=
  if isVirtualPos ctx.pos then
    (0, if blocked then ctx else emitVirtualChildren N isWhiteout (some d) blocked fsuid ctx)
  else if blocked ∨ d.bloomMask = 0 then (0, nativeIterate S ctx)
  else (0, proxied N isWhiteout S (some d) blocked fsuid ctx)

/-- The entries `.` and `..`, at the positions 0 and 1. -/
def dirEmitDots (ctx : DirContext) : Bool × DirContext :=
  let dotdot (ctx : DirContext) : Bool × DirContext :=
    if ctx.pos = 1 then
      match dirEmit ctx [46, 46] with
      | (true, ctx) => (true, ctx.setPos 2)
      | (false, ctx) => (false, ctx)
    else (true, ctx)
  if ctx.pos = 0 then
    match dirEmit ctx [46] with
    | (true, ctx) => dotdot (ctx.setPos 1)
    | (false, ctx) => (false, ctx)
  else dotdot ctx

/-- An open directory of a rule: its children, the native target, and the backing directory unless
the directory is virtual. -/
structure OpenDir (ρ : Type) where
  node : Option (ChildSet ρ)
  virtualDir : Bool
  native : Option Stock
  real : Option Stock

def dirIterateDir (dir : OpenDir ρ) (blocked : Bool) (fsuid : UInt32) (ctx : DirContext) :
    Int × DirContext :=
  if blocked then
    match dir.native with
    | none => (-2, ctx)
    | some native => (0, nativeIterate native (if isVirtualPos ctx.pos then ctx.setPos 0 else ctx))
  else if isVirtualPos ctx.pos then
    (0, emitVirtualChildren N isWhiteout dir.node blocked fsuid ctx)
  else match dir.real with
    | some real => (0, proxied N isWhiteout real dir.node blocked fsuid ctx)
    | none =>
      if dir.virtualDir then
        match (if ctx.pos.toInt64 < 2 then dirEmitDots ctx else (true, ctx)) with
        | (true, ctx) =>
          (0, emitVirtualChildren N isWhiteout dir.node blocked fsuid (ctx.setPos (packPos 0)))
        | (false, ctx) => (0, ctx)
      else (-20, ctx)

/-- A directory that is listed with injected children. -/
inductive Directory (ρ : Type) where
  | hooked (stock : Stock) (children : ChildSet ρ)
  | ofRule (dir : OpenDir ρ)

def Directory.node : Directory ρ → Option (ChildSet ρ)
  | .hooked _ children => some children
  | .ofRule dir => dir.node

/-- The directory whose names pass through the filter, for which a virtual one has none. -/
def Directory.stock : Directory ρ → Option Stock
  | .hooked stock _ => some stock
  | .ofRule dir => dir.real

def Directory.virtualDir : Directory ρ → Bool
  | .hooked _ _ => false
  | .ofRule dir => dir.virtualDir

def Directory.iterate (dir : Directory ρ) (blocked : Bool) (fsuid : UInt32) (ctx : DirContext) :
    Int × DirContext :=
  match dir with
  | .hooked stock children => hijackedIterateDir N isWhiteout stock children blocked fsuid ctx
  | .ofRule dir => dirIterateDir N isWhiteout dir blocked fsuid ctx

/-- One read: the names it delivers and the position it leaves. -/
def getdents (dir : Directory ρ) (blocked : Bool) (fsuid : UInt32) (room : Nat) (pos : UInt64) :
    List Bytes × UInt64 :=
  let ctx := (dir.iterate N isWhiteout blocked fsuid ⟨pos, room, []⟩).2
  (ctx.names, ctx.pos)

end HybridMount.Vfs.ReadDir
