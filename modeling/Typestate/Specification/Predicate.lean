import Typestate.Permission.RequestSet

set_option autoImplicit false

/-!
Predicates: what a specification says about the permissions of an object and its surroundings.
-/

namespace Typestate

/-- The object a predicate is about is the receiver, an argument, the result of a call, or a field
of the receiver by its name. -/
abbrev Target := String

namespace Target

def receiver : Target := "this"

def result : Target := "result"

def argument (i : Nat) : Target := "#" ++ toString i

/-- The number of the argument a target stands for. -/
def argument? (target : Target) : Option Nat :=
  match target.toList with
  | '#' :: digits => Text.index? digits
  | _ => none

/-- How a target is called in reports, about what a method returns or about what it is given. -/
def describe (target : Target) (returning : Bool) : String :=
  if target = receiver || target = result then target
  else
    match argument? target with
    | some i => (if returning then "formal parameter #" else "argument #") ++ toString i
    | none => target

end Target

/-- A permission for one target. -/
structure Clause where
  target : Target
  space : Space
  spec : Spec
  deriving BEq, Inhabited, Repr

inductive Predicate where
  /-- Never holds, as after a method that does not return. -/
  | void
  | clauses (clauses : List Clause)
  deriving BEq, Inhabited, Repr

namespace Predicate

/-- The predicate that asks for nothing. -/
def trivial : Predicate := .clauses []

def isVoid : Predicate → Bool
  | .void => true
  | .clauses _ => false

def parts : Predicate → List Clause
  | .void => []
  | .clauses cs => cs

def targets (p : Predicate) : List Target := (p.parts.map Clause.target).eraseDups

def partsFor (p : Predicate) (target : Target) : List Clause :=
  p.parts.filter fun c => c.target = target

/-- The states a target must be in, by its frame or by its other permissions. -/
def requiredStates (p : Predicate) (target : Target) (inFrame : Bool) : List String :=
  (((p.partsFor target).filter fun c => c.spec.frame == inFrame).flatMap
    fun c => c.spec.states).eraseDups

/-- Adds the permissions of further clauses to a set. -/
def combineClauses (named : Bool) (set : RequestSet) :
    List Clause → SupplyM (Except RequestOverlap RequestSet)
  | [] => return .ok set
  | c :: rest => do
      let next ← RequestSet.ofSpec c.space c.spec named
      match set.combine next with
      | .ok both => combineClauses named both rest
      | .error overlap => return .error overlap

/-- The permissions for one target with fresh fractions, or none if it is not mentioned. -/
def requests (p : Predicate) (target : Target) (named : Bool) :
    SupplyM (Except RequestOverlap (Option RequestSet)) := do
  match p.partsFor target with
  | [] => return .ok none
  | c :: rest =>
      let first ← RequestSet.ofSpec c.space c.spec named
      return (← combineClauses named first rest).map some

def text : Predicate → String
  | .void => "false"
  | .clauses [] => "true"
  | .clauses cs =>
      String.intercalate " * " (cs.map fun c => c.target ++ ": " ++ c.spec.text)

end Predicate

end Typestate
