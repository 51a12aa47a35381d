import Mathlib.Data.List.Sort
import Mathlib.Tactic

/-! VFS rules as the ownership ledger saves them. Flags are compared up to the
bits which the kernel derives from the directory topology. -/

namespace HybridMount

def FLAG_VIRTUAL_DIR : UInt32 := (1 : UInt32) <<< 1
def FLAG_WHITEOUT : UInt32 := (1 : UInt32) <<< 2
def FLAG_OPAQUE : UInt32 := (1 : UInt32) <<< 3

/-- A directory retained solely to connect surviving child rules. -/
def isDerivedParent (flags : UInt32) (realPath : String) : Bool :=
  flags &&& FLAG_VIRTUAL_DIR != 0 && flags &&& ~~~(1 ||| FLAG_VIRTUAL_DIR) == 0 && realPath == ""

structure SavedRule where
  moduleId : String
  virtualPath : String
  realPath : String
  flags : UInt32
  uid : UInt32
  deriving DecidableEq, Repr

def DERIVED_FLAGS : UInt32 := 1 ||| FLAG_VIRTUAL_DIR

abbrev Key := String × UInt32

namespace SavedRule

def key (rule : SavedRule) : Key := (rule.virtualPath, rule.uid)

end SavedRule

def sameKey (left right : SavedRule) : Bool :=
  left.uid == right.uid && left.virtualPath == right.virtualPath

def semanticEqual (expected actual : SavedRule) : Bool :=
  sameKey expected actual && expected.realPath == actual.realPath &&
    expected.flags &&& ~~~DERIVED_FLAGS == actual.flags &&& ~~~DERIVED_FLAGS

def derivedParent (rule : SavedRule) : Bool := isDerivedParent rule.flags rule.realPath

def stripPrefix (pre : List Char) (text : List Char) : Option (List Char) :=
  if pre.isPrefixOf text then some (text.drop pre.length) else none

def ancestor (parent child : String) : Bool :=
  parent != child &&
    match stripPrefix parent.toList child.toList with
    | some suffix => parent == "/" || suffix.head? == some '/'
    | none => false

/-- Neither a source nor a flag beyond the derived ones: the kernel's listing
cannot tell such a rule from a directory which it generated itself. -/
def bare (rule : SavedRule) : Bool :=
  rule.realPath == "" && rule.flags &&& ~~~DERIVED_FLAGS == 0

@[simp] theorem sameKey_iff {left right : SavedRule} :
    sameKey left right = true ↔ left.key = right.key := by
  simp only [sameKey, SavedRule.key, Bool.and_eq_true, beq_iff_eq, Prod.mk.injEq]
  exact and_comm

theorem semanticEqual_iff {expected actual : SavedRule} :
    semanticEqual expected actual = true ↔ expected.key = actual.key ∧
      expected.realPath = actual.realPath ∧
      expected.flags &&& ~~~DERIVED_FLAGS = actual.flags &&& ~~~DERIVED_FLAGS := by
  simp only [semanticEqual, Bool.and_eq_true, sameKey_iff, beq_iff_eq, and_assoc]

theorem semanticEqual_refl (rule : SavedRule) : semanticEqual rule rule = true :=
  semanticEqual_iff.mpr ⟨rfl, rfl, rfl⟩

theorem semanticEqual_symm {a b : SavedRule} (h : semanticEqual a b = true) :
    semanticEqual b a = true := by
  obtain ⟨hk, hr, hf⟩ := semanticEqual_iff.mp h
  exact semanticEqual_iff.mpr ⟨hk.symm, hr.symm, hf.symm⟩

theorem semanticEqual_trans {a b c : SavedRule} (h : semanticEqual a b = true)
    (h' : semanticEqual b c = true) : semanticEqual a c = true := by
  obtain ⟨hk, hr, hf⟩ := semanticEqual_iff.mp h
  obtain ⟨hk', hr', hf'⟩ := semanticEqual_iff.mp h'
  exact semanticEqual_iff.mpr ⟨hk.trans hk', hr.trans hr', hf.trans hf'⟩

theorem semanticEqual_key {a b : SavedRule} (h : semanticEqual a b = true) : a.key = b.key :=
  (semanticEqual_iff.mp h).1

/-- What the wire carries of a rule; the module is known to the ledger only. -/
def wire (rule : SavedRule) : SavedRule := { rule with moduleId := "" }

@[simp] theorem wire_key (rule : SavedRule) : (wire rule).key = rule.key := rfl

@[simp] theorem derivedParent_wire (rule : SavedRule) : derivedParent (wire rule) = derivedParent rule := rfl

theorem semanticEqual_wire (rule : SavedRule) : semanticEqual rule (wire rule) = true :=
  semanticEqual_refl rule

theorem bare_of_derivedParent {rule : SavedRule} (h : derivedParent rule = true) :
    bare rule = true := by
  simp only [derivedParent, isDerivedParent, Bool.and_eq_true] at h
  simpa only [bare, DERIVED_FLAGS, Bool.and_eq_true] using And.intro h.2 h.1.2

theorem bare_of_semanticEqual {a b : SavedRule} (h : semanticEqual a b = true)
    (hb : bare b = true) : bare a = true := by
  obtain ⟨_, hr, hf⟩ := semanticEqual_iff.mp h
  simpa only [bare, hr, hf] using hb

theorem explicit_of_not_bare {rule : SavedRule} (h : bare rule = false) :
    derivedParent rule = false := by
  cases hd : derivedParent rule with
  | false => rfl
  | true => rw [bare_of_derivedParent hd] at h; cases h

/-- Depth in path components, as the source counts it. -/
def ruleDepth (rule : SavedRule) : Nat := rule.virtualPath.toList.count '/'

def ruleOrder (deepestFirst : Bool) (a b : SavedRule) : Ordering :=
  let depth := if deepestFirst then compare (ruleDepth b) (ruleDepth a)
    else compare (ruleDepth a) (ruleDepth b)
  (depth.then (compare a.virtualPath b.virtualPath)).then (compare a.uid b.uid)

def ordered (rules : List SavedRule) (deepestFirst : Bool) : List SavedRule :=
  rules.insertionSort (fun a b => (ruleOrder deepestFirst a b).isLE)

@[simp] theorem mem_ordered {rules : List SavedRule} {deepestFirst : Bool} {rule : SavedRule} :
    rule ∈ ordered rules deepestFirst ↔ rule ∈ rules := by
  simp only [ordered, List.mem_insertionSort]

theorem ordered_perm (rules : List SavedRule) (deepestFirst : Bool) :
    (ordered rules deepestFirst).Perm rules := List.perm_insertionSort _ _

end HybridMount
