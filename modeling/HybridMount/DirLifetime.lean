import Mathlib.Tactic
import HybridMount.Tally

/-! The life of the directory node of a rule. Lookups publish inodes for it, inodes are evicted
and the rule is freed, each in several steps between which all others can come. -/

namespace HybridMount.Vfs.Lifetime

/-- `v_inode`: no inode, one of them, or the mark after which none comes any more. -/
inductive Slot where
  | empty
  | inode (i : Nat)
  | retired
  deriving DecidableEq

/-- A lookup which makes the inode of one number. It reads the rule, takes a reference, counts its
inode and publishes it; `aimed` has read the slot again and `crashed` has followed a null pointer. -/
inductive Creator where
  | idle
  | looking
  | got
  | counted
  | looping
  | aimed (previous : Slot)
  | crashed
  | holding
  | finished
  deriving DecidableEq

/-- An inode up to the point where it is counted no longer and the owner of the node is read. -/
inductive Evictor where
  | unborn
  | live
  | evicting
  | cleared
  | dropped
  | passed
  deriving DecidableEq

/-- The end of an eviction and of a free: are there inodes, is the slot empty, drop the reference. -/
inductive Check where
  | idle
  | users
  | slot
  | put
  | leave
  | done
  deriving DecidableEq

inductive Retirer where
  | evictor (i : Nat)
  | freer
  deriving DecidableEq

inductive Thread where
  | creator (i : Nat)
  | retirer (r : Retirer)
  deriving DecidableEq

/-- The phases in a read section, in which a node is not given back. -/
def Creator.reads : Creator → Bool
  | .looking => true
  | .got => true
  | .counted => true
  | .aimed _ => true
  | .crashed => true
  | _ => false

/-- The phases with a reference to the node. -/
def Creator.pins : Creator → Bool
  | .idle => false
  | .looking => false
  | .finished => false
  | _ => true

def Evictor.reads : Evictor → Bool
  | .evicting => true
  | .cleared => true
  | .dropped => true
  | _ => false

/-- The phases in which the inode is one of `inode_users`. -/
def Evictor.counts : Evictor → Bool
  | .live => true
  | .evicting => true
  | .cleared => true
  | _ => false

def Check.reads : Check → Bool
  | .idle => false
  | .done => false
  | _ => true

/-- A directory node and all who know of it. `children` are the rules in its child set, which point
back to it and hold no reference; `orphan` is the tag without an owner; `waiting` are the readers
whose sections began before the last reference went. `fault` is a use of the node after it was given
back, or a reference dropped which nobody has; what the requests do by way of a child rule is `stale`
instead. `stranded` are child rules in the set when the owner was freed. -/
structure State where
  slot : Slot
  users : Nat
  refs : Nat
  orphan : Bool
  attached : Bool
  condemned : Bool
  freed : Bool
  fault : Bool
  children : Nat
  stranded : Bool
  stale : Bool
  creator : Nat → Creator
  evictor : Nat → Evictor
  check : Retirer → Check
  waiting : Thread → Bool

/-- A new node belongs to its rule. -/
def fresh : State where
  slot := .empty
  users := 0
  refs := 1
  orphan := false
  attached := true
  condemned := false
  freed := false
  fault := false
  children := 0
  stranded := false
  stale := false
  creator _ := .idle
  evictor _ := .unborn
  check _ := .idle
  waiting _ := false

namespace State

def inSection (s : State) : Thread → Bool
  | .creator i => (s.creator i).reads
  | .retirer (.evictor i) => (s.evictor i).reads || (s.check (.evictor i)).reads
  | .retirer .freer => (s.check .freer).reads

def touch (s : State) : State := { s with fault := s.fault || s.freed }

/-- `hm_dir_put`: with the last reference the node is given back once the readers are gone. -/
def put (s : State) : State where
  slot := s.slot
  users := s.users
  refs := s.refs - 1
  orphan := s.orphan
  attached := s.attached
  condemned := s.condemned || s.refs == 1
  freed := s.freed
  fault := s.fault || s.refs == 0
  children := s.children
  stranded := s.stranded
  stale := s.stale
  creator := s.creator
  evictor := s.evictor
  check := s.check
  waiting := if s.refs = 1 then s.inSection else s.waiting

def setCreator (s : State) (i : Nat) (phase : Creator) : State :=
  { s with creator := Function.update s.creator i phase }

def setEvictor (s : State) (i : Nat) (phase : Evictor) : State :=
  { s with evictor := Function.update s.evictor i phase }

def setCheck (s : State) (r : Retirer) (phase : Check) : State :=
  { s with check := Function.update s.check r phase }

/-- A reader leaves its section. -/
def quit (s : State) (t : Thread) : State := { s with waiting := Function.update s.waiting t false }

/-- The two exchanges of `v_inode`: the first stores the inode of a lookup, or no inode or the mark. -/
def store (s : State) (slot : Slot) : State := { s.touch with slot := slot }

end State

inductive Step : State → State → Prop
  /-- A read section finds the rule in the child set, and the node with it. -/
  | look {s : State} (i : Nat) (h : s.creator i = .idle) (ha : s.attached = true) :
      Step s (s.setCreator i .looking)
  /-- The section is left: the inode in the slot does, or a new one is made first. -/
  | peek {s : State} (i : Nat) (h : s.creator i = .looking) :
      Step s ((s.touch.setCreator i .idle).quit (.creator i))
  | get {s : State} (i : Nat) (h : s.creator i = .looking) (hrefs : s.refs ≠ 0) :
      Step s ({ s.touch with refs := s.refs + 1 }.setCreator i .got)
  | missed {s : State} (i : Nat) (h : s.creator i = .looking) (hrefs : s.refs = 0) :
      Step s ((s.touch.setCreator i .idle).quit (.creator i))
  | count {s : State} (i : Nat) (h : s.creator i = .got) :
      Step s (({ s.touch with users := s.users + 1 }.setEvictor i .live).setCreator i .counted)
  /-- The first exchange finds the slot empty. -/
  | publish {s : State} (i : Nat) (h : s.creator i = .counted) (hslot : s.slot = .empty) :
      Step s (((s.store (.inode i)).setCreator i .holding).quit (.creator i))
  /-- The slot is retired, or the inode there is used instead or cannot be had. -/
  | lose {s : State} (i : Nat) (h : s.creator i = .counted) (hslot : s.slot ≠ .empty) :
      Step s ((s.touch.setCreator i .holding).quit (.creator i))
  /-- The inode there is of another generation. -/
  | retry {s : State} (i j : Nat) (h : s.creator i = .counted) (hslot : s.slot = .inode j) :
      Step s ((s.touch.setCreator i .looping).quit (.creator i))
  | aim {s : State} (i : Nat) (h : s.creator i = .looping) (hslot : s.slot ≠ .retired) :
      Step s (s.touch.setCreator i (.aimed s.slot))
  | aimRetired {s : State} (i : Nat) (h : s.creator i = .looping) (hslot : s.slot = .retired) :
      Step s (s.touch.setCreator i .holding)
  | swap {s : State} (i : Nat) (previous : Slot) (h : s.creator i = .aimed previous)
      (hslot : s.slot = previous) :
      Step s (((s.store (.inode i)).setCreator i .holding).quit (.creator i))
  | swapLost {s : State} (i : Nat) (previous : Slot) (h : s.creator i = .aimed previous)
      (hslot : s.slot ≠ previous)
      (hsome : s.slot ≠ .empty) : Step s ((s.touch.setCreator i .holding).quit (.creator i))
  | swapRetry {s : State} (i j : Nat) (previous : Slot) (h : s.creator i = .aimed previous)
      (hslot : s.slot ≠ previous)
      (hinode : s.slot = .inode j) : Step s ((s.touch.setCreator i .looping).quit (.creator i))
  /-- The inode which was read has gone since, and the null pointer in its place is followed. -/
  | swapEmptied {s : State} (i : Nat) (previous : Slot) (h : s.creator i = .aimed previous)
      (hslot : s.slot ≠ previous)
      (hempty : s.slot = .empty) : Step s (s.touch.setCreator i .crashed)
  | release {s : State} (i : Nat) (h : s.creator i = .holding) : Step s (s.touch.setCreator i .finished).put
  /-- An open directory uses the node of its inode. -/
  | use {s : State} (i : Nat) (h : s.evictor i = .live) : Step s s.touch
  /-- A request finds the rule and links a child rule in its node. -/
  | link {s : State} (ha : s.attached = true) : Step s { s.touch with children := s.children + 1 }
  /-- A directory rule for the same path takes the node over. -/
  | adopt {s : State} (ha : s.attached = true) : Step s s.touch
  /-- A request deletes a child rule, whether the owner is there or not. -/
  | unlink {s : State} (hc : s.children ≠ 0) :
      Step s { s with children := s.children - 1, stale := s.stale || s.freed }
  /-- A derived rule takes the place of a child rule. -/
  | relink {s : State} (hc : s.children ≠ 0) : Step s { s with stale := s.stale || s.freed }
  /-- A derived rule takes the node over and forgets the inode. -/
  | preserve {s : State} (ha : s.attached = true) : Step s (s.store .empty)
  | evict {s : State} (i : Nat) (h : s.evictor i = .live)
      (hdone : s.creator i = .holding ∨ s.creator i = .finished) :
      Step s (s.setEvictor i .evicting)
  | clear {s : State} (i : Nat) (h : s.evictor i = .evicting) :
      Step s ((s.store (if s.slot = Slot.inode i then .empty else s.slot)).setEvictor i .cleared)
  | drop {s : State} (i : Nat) (h : s.evictor i = .cleared) :
      Step s ({ s.touch with users := s.users - 1 }.setEvictor i .dropped)
  | owned {s : State} (i : Nat) (h : s.evictor i = .dropped) (ho : s.orphan = false) :
      Step s ((s.touch.setEvictor i .passed).setCheck (.evictor i) .leave)
  | orphaned {s : State} (i : Nat) (h : s.evictor i = .dropped) (ho : s.orphan = true) :
      Step s ((s.touch.setEvictor i .passed).setCheck (.evictor i) .users)
  | unused {s : State} (r : Retirer) (h : s.check r = .users) (hzero : s.users = 0) :
      Step s (s.touch.setCheck r .slot)
  | used {s : State} (r : Retirer) (h : s.check r = .users) (hsome : s.users ≠ 0) :
      Step s (s.touch.setCheck r .leave)
  | retire {s : State} (r : Retirer) (h : s.check r = .slot) (hslot : s.slot = .empty) :
      Step s ((s.store .retired).setCheck r .put)
  | beaten {s : State} (r : Retirer) (h : s.check r = .slot) (hslot : s.slot ≠ .empty) :
      Step s (s.touch.setCheck r .leave)
  | put {s : State} (r : Retirer) (h : s.check r = .put) : Step s (s.touch.setCheck r .leave).put
  | leave {s : State} (r : Retirer) (h : s.check r = .leave) : Step s ((s.setCheck r .done).quit (.retirer r))
  /-- The rule can be found no longer, but readers may still have it. -/
  | detach {s : State} (ha : s.attached = true) : Step s { s with attached := false }
  /-- Once they are gone the rule is freed, and the node loses its owner. -/
  | orphan {s : State} (ha : s.attached = false) (h : s.check .freer = .idle)
      (hgrace : ∀ i, s.creator i ≠ .looking ∧ s.creator i ≠ .got ∧ s.creator i ≠ .counted) :
      Step s ({ s.touch with orphan := true, stranded := s.stranded || s.children != 0 }.setCheck
        .freer .users)
  | reclaim {s : State} (h : s.condemned = true) (hgrace : ∀ t, s.waiting t = false) :
      Step s { s with freed := true }

inductive Reachable : State → Prop
  | fresh : Reachable fresh
  | step {s s' : State} (h : Reachable s) (hs : Step s s') : Reachable s'

end HybridMount.Vfs.Lifetime
