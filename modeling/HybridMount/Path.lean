import Mathlib.Tactic

/-! Component-wise paths, as the standard library of the source compares them:
repeated slashes and single dots inside a path carry no meaning. -/

namespace HybridMount

inductive Component where
  | rootDir
  | curDir
  | parentDir
  | normal (name : List Char)
  deriving DecidableEq, Repr

namespace Path

/-- Segments between slashes. -/
def segments : List Char → List (List Char)
  | [] => [[]]
  | c :: cs =>
    if c = '/' then [] :: segments cs
    else
      match segments cs with
      | [] => [[c]]
      | s :: rest => (c :: s) :: rest

def component (segment : List Char) : Option Component :=
  if segment = [] ∨ segment = ['.'] then none
  else if segment = ['.', '.'] then some .parentDir
  else some (.normal segment)

def isAbsolute (path : String) : Bool := path.toList.head? == some '/'

def components (path : String) : List Component :=
  let parts := segments path.toList
  if isAbsolute path then .rootDir :: parts.filterMap component
  else if parts.head? = some ['.'] then .curDir :: parts.filterMap component
  else parts.filterMap component

def startsWith (path base : String) : Bool := (components base).isPrefixOf (components path)

def componentRank : Component → Nat
  | .rootDir => 0
  | .curDir => 1
  | .parentDir => 2
  | .normal _ => 3

def compareComponent : Component → Component → Ordering
  | .normal a, .normal b => compare a b
  | a, b => compare (componentRank a) (componentRank b)

def comparePaths : List Component → List Component → Ordering
  | [], [] => .eq
  | [], _ => .lt
  | _, [] => .gt
  | a :: as, b :: bs => (compareComponent a b).then (comparePaths as bs)

@[simp] theorem startsWith_iff {path base : String} :
    startsWith path base = true ↔ components base <+: components path := by
  simp only [startsWith, List.isPrefixOf_iff_prefix]

end Path

/-- Deepest path first; the source breaks ties by the reversed path order. -/
def deepestFirstOrder (left right : String) : Ordering :=
  (compare (Path.components right).length (Path.components left).length).then
    (Path.comparePaths (Path.components right) (Path.components left))

end HybridMount
