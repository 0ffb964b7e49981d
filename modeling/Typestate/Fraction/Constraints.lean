import Typestate.Fraction.Solution
import Typestate.Text

set_option autoImplicit false

/-!
Sets of constraints, in the order they were added, and whether they have been declared impossible
to meet.
-/

namespace Typestate

structure Constraints where
  items : List Constraint
  /-- Why the set cannot be met, the first reason given. -/
  impossible : Option String
  deriving Inhabited, Repr

namespace Constraints

def empty : Constraints := ⟨[], none⟩

def contains (cs : Constraints) (c : Constraint) : Bool := cs.items.contains c

def size (cs : Constraints) : Nat := cs.items.length

/-- Adding a constraint again changes nothing. -/
def add (cs : Constraints) (c : Constraint) : Constraints :=
  if cs.contains c then cs else { cs with items := cs.items ++ [c] }

def declareImpossible (cs : Constraints) (reason : String) : Constraints :=
  { cs with impossible := cs.impossible.or (some reason) }

def append (cs other : Constraints) : Constraints :=
  let all := other.items.foldl add cs
  { all with impossible := cs.impossible.or other.impossible }

instance : Append Constraints := ⟨append⟩

/-- Equality of a term with itself is not recorded. -/
def addEqual (cs : Constraints) (a b : Term) : Constraints :=
  if a = b then cs else cs.add (.equal [a, b])

/-- A term is at most itself and zero at most anything; neither is recorded. -/
def addAtMost (cs : Constraints) (a b : Term) : Constraints :=
  if a = b || a = .single .zero then cs else cs.add (.atMost a b)

def addLess (cs : Constraints) (a b : Term) : Constraints := cs.add (.less a b)

/-- One and the named constants are positive by themselves. -/
def addNonZero (cs : Constraints) (t : Term) : Constraints :=
  if (t.fraction?.map Fraction.isPositive).getD false then cs else cs.add (.nonZero t)

def addZero (cs : Constraints) (t : Term) : Constraints := cs.addEqual t (.single .zero)

def addOne (cs : Constraints) (t : Term) : Constraints := cs.addEqual t (.single .one)

/-- Whether the two hold the same constraints, in whatever order. -/
def same (a b : Constraints) : Bool :=
  a.impossible == b.impossible && a.size == b.size && a.items.all b.contains

instance : BEq Constraints := ⟨same⟩

def isImpossible (cs : Constraints) : Bool := cs.impossible.isSome

def solution (cs : Constraints) : Solution := .solve cs.items

def isConsistent (cs : Constraints) : Bool := !cs.isImpossible && cs.solution.isConsistent

def isUnsatisfiable (cs : Constraints) : Bool := !cs.isConsistent

/-- Whether a solution shows that a constraint holds. -/
def impliedBy (s : Solution) : Constraint → Bool
  | .equal [] => true
  | .equal (first :: rest) => (first :: rest).all (s.areEqual first)
  | .nonZero t => s.isNonZero t
  | .atMost x y =>
      s.isZero x || s.isOne y || s.areEqual x y ||
        match x, y with
        | .single f, .sum fs => fs.contains f
        | _, _ => false
  | .less x y => s.isZero x && s.isNonZero y

def implies (cs : Constraints) (c : Constraint) : Bool :=
  cs.contains c || impliedBy cs.solution c

/-- Whether the first set implies the second. Constraints that cannot be met imply anything. -/
def atLeastAsPrecise (cs other : Constraints) : Bool :=
  let s := cs.solution
  if cs.isImpossible || !s.isConsistent then true
  else if other.isImpossible then false
  else other.items.all fun c => cs.contains c || impliedBy s c

/-- The set between brackets, the reason it is impossible first. -/
def text (cs : Constraints) : String :=
  let reason := match cs.impossible with
    | some reason => [Text.quoted ("impossible: " ++ reason)]
    | none => []
  "[" ++ String.intercalate ", " (reason ++ cs.items.map Constraint.text) ++ "]"

end Constraints

end Typestate
