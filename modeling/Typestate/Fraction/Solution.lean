import Typestate.Fraction.Constraint

set_option autoImplicit false

/-!
What follows from a set of constraints. A solution divides the terms it knows into classes of equal
terms, each with the literals that occur in it and a mark if its value is more than zero. Solving
applies all constraints again and again, and every sum to its summands, until a round brings nothing
new: each round that does merges two classes or marks one, so rounds end.
-/

namespace Typestate

/-- Terms known to have one value. -/
structure TermClass where
  members : List Term
  /-- The literals among the members, in the order they came in. -/
  literals : List Fraction
  nonZero : Bool
  deriving DecidableEq, Inhabited, Repr

namespace TermClass

/-- What is known of a term by itself. -/
def ofTerm : Term → TermClass
  | .single f =>
      ⟨[.single f], if f.isLiteral then [f] else [], f.isPositive⟩
  | .sum fs => ⟨[.sum fs], [], false⟩

def has (c : TermClass) (t : Term) : Bool := c.members.contains t

/-- One class in place of two. -/
def absorb (c other : TermClass) : TermClass :=
  ⟨c.members ++ other.members,
    c.literals ++ other.literals.filter (fun f => !c.literals.contains f),
    c.nonZero || other.nonZero⟩

/-- No two different literals, and no zero that is more than zero. -/
def isConsistent (c : TermClass) : Bool :=
  c.literals.length ≤ 1 && !(c.nonZero && c.literals.contains .zero)

end TermClass

structure Solution where
  classes : List TermClass
  /-- The summands of the sums among the terms, in the order they came in. -/
  sums : List (List Fraction)
  /-- The strict constraint that cannot hold. -/
  conflict : Option Constraint
  deriving DecidableEq, Inhabited, Repr

namespace Solution

def class? (s : Solution) (t : Term) : Option TermClass := s.classes.find? fun c => c.has t

def knows (s : Solution) (t : Term) : Bool := (s.class? t).isSome

/-- Makes a single fraction known. -/
def trackFraction (s : Solution) (f : Fraction) : Solution :=
  if s.knows f then s else { s with classes := s.classes ++ [.ofTerm f] }

/-- Makes a term known, and before a sum its summands. -/
def track (s : Solution) (t : Term) : Solution :=
  match t with
  | .single f => s.trackFraction f
  | .sum fs =>
      if s.knows (.sum fs) then s
      else
        let s := fs.foldl trackFraction s
        { s with classes := s.classes ++ [.ofTerm (.sum fs)], sums := s.sums ++ [fs] }

/-- Nothing but zero and one. -/
def initial : Solution := (Solution.mk [] [] none).trackFraction .zero |>.trackFraction .one

/-- Puts the class of the second term into the class of the first. -/
def merge (s : Solution) (a b : Term) : Solution :=
  let s := (s.track a).track b
  match s.class? b with
  | none => s
  | some moved =>
      if moved.has a then s
      else
        let others := s.classes.filter fun c => !c.has b
        { s with classes := others.map fun c => if c.has a then c.absorb moved else c }

def makeEqual (s : Solution) : List Term → Solution
  | [] => s
  | first :: rest => rest.foldl (fun s t => s.merge first t) s

def makeZero (s : Solution) (t : Term) : Solution := s.merge (.single .zero) t

def makeOne (s : Solution) (t : Term) : Solution := s.merge (.single .one) t

def makeNonZero (s : Solution) (t : Term) : Solution :=
  let s := s.track t
  { s with classes := s.classes.map fun c => if c.has t then { c with nonZero := true } else c }

/-- Whether a fraction has the given literal in its class, or is that literal. -/
def isLiteral (s : Solution) (f literal : Fraction) : Bool :=
  match s.class? f with
  | some c => c.literals.contains literal
  | none => f == literal

def isNonZeroFraction (s : Solution) (f : Fraction) : Bool :=
  match s.class? f with
  | some c => c.nonZero
  | none => f.isPositive

/-- An unknown sum is zero if all its summands are. -/
def isZero (s : Solution) (t : Term) : Bool :=
  match s.class? t, t with
  | some c, _ => c.literals.contains .zero
  | none, .single f => f == .zero
  | none, .sum fs => fs.all fun f => s.isLiteral f .zero

/-- An unknown sum is one if one of its summands is. -/
def isOne (s : Solution) (t : Term) : Bool :=
  match s.class? t, t with
  | some c, _ => c.literals.contains .one
  | none, .single f => f == .one
  | none, .sum fs => fs.any fun f => s.isLiteral f .one

/-- An unknown sum is more than zero if one of its summands is. -/
def isNonZero (s : Solution) (t : Term) : Bool :=
  match s.class? t, t with
  | some c, _ => c.nonZero
  | none, .single f => f.isPositive
  | none, .sum fs => fs.any s.isNonZeroFraction

def sameClass (s : Solution) (a b : Term) : Bool :=
  match s.class? a with
  | some c => c.has b
  | none => false

def areEqual (s : Solution) (a b : Term) : Bool :=
  a == b || s.sameClass a b || (s.isZero a && s.isZero b) || (s.isOne a && s.isOne b)

/-- The literal a fraction is equal to, or else the fraction itself. -/
def representative (s : Solution) (f : Fraction) : Fraction :=
  match s.class? f with
  | some c => c.literals.headD f
  | none => f

def isConsistent (s : Solution) : Bool :=
  s.conflict.isNone && s.classes.all TermClass.isConsistent

def conflictText (s : Solution) : Option String :=
  s.conflict.map fun c => c.text ++ " cannot hold"

/-- What one constraint adds to the facts so far. -/
def apply (s : Solution) : Constraint → Solution
  | .equal ts => s.makeEqual ts
  | .nonZero t => s.makeNonZero t
  | .atMost x y =>
      let s := if s.isZero y then s.makeZero x else s
      let s := if s.isNonZero x then s.makeNonZero y else s
      if s.isOne x then s.makeOne y else s
  | .less x y =>
      let s := s.makeNonZero y
      if s.isOne x || s.areEqual x y then { s with conflict := some (.less x y) } else s

/-- What a sum says about its summands and they about it. Sums are at most one. -/
def applySum (s : Solution) (fs : List Fraction) : Solution :=
  let summands : List Term := fs.map .single
  if s.isZero (.sum fs) then summands.foldl makeZero s
  else
    let (small, rest) := summands.span fun t => !s.isOne t
    match rest with
    | _ :: others => (small ++ others).foldl makeZero (s.makeOne (.sum fs))
    | [] =>
        let s := if summands.any s.isNonZero then s.makeNonZero (.sum fs) else s
        match summands.filter fun t => !s.isZero t with
        | [] => s.makeZero (.sum fs)
        | [live] => s.makeEqual [.sum fs, live]
        | _ => s

/-- One round over all constraints and all sums. -/
def round (constraints : List Constraint) (s : Solution) : Solution :=
  let s := constraints.foldl apply s
  s.sums.foldl applySum s

/-- How many classes there are, those not marked counted twice: what rounds can still use up. -/
def room (s : Solution) : Nat :=
  s.classes.length + (s.classes.filter fun c => !c.nonZero).length

/-- Rounds up to the first that brings nothing new or meets a conflict. -/
def saturate (constraints : List Constraint) (s : Solution) : Solution :=
  let next := s.round constraints
  if next.conflict.isSome then next
  else if next.room < s.room then saturate constraints next
  else next
termination_by s.room

/-- All that the rounds derive from the constraints. -/
def solve (constraints : List Constraint) : Solution :=
  saturate constraints ((constraints.flatMap Constraint.terms).foldl track initial)

end Solution

end Typestate
