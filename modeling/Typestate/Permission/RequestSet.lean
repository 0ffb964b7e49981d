import Typestate.Diagnostic
import Typestate.Permission.Pool

set_option autoImplicit false

/-!
The permissions that one clause of a specification asks for or gives for one object.
-/

namespace Typestate

structure RequestSet where
  space : Space
  virtuals : List Request
  frames : List Request
  constraints : Constraints
  deriving Inhabited, Repr

/-- Two requests that cannot be held together. -/
structure RequestOverlap where
  first : Request
  second : Request
  space : Space
  deriving Inhabited, Repr

namespace RequestOverlap

def diagnostic (o : RequestOverlap) : Diagnostic :=
  (Diagnostic.error
    ("permissions " ++ o.first.text ++ " and " ++ o.second.text ++ " overlap in " ++
      o.space.name)).withHelp "only permissions for orthogonal states can be held together"

end RequestOverlap

namespace RequestSet

def empty (space : Space) : RequestSet := ⟨space, [], [], .empty⟩

def ofRequest (space : Space) (q : Request) : RequestSet :=
  if q.isFrame then { empty space with frames := [q] } else { empty space with virtuals := [q] }

/-- The set of one permission with fresh fractions. -/
def ofSpec (space : Space) (spec : Spec) (named : Bool) : SupplyM RequestSet := do
  let (request, constraints) ← Ledger.within .empty (Request.create space spec named)
  return { ofRequest space request with constraints }

/-- The first two requests of two lists that are not orthogonal. -/
def overlap? (space : Space) (a b : List Request) : Option RequestOverlap :=
  (a.flatMap fun p => b.map fun q => RequestOverlap.mk p q space).find? fun o =>
    !space.orthogonal o.first.root o.second.root

/-- Both sets together, if their permissions are orthogonal in each of the two lists. -/
def combine (a b : RequestSet) : Except RequestOverlap RequestSet :=
  match (overlap? a.space a.virtuals b.virtuals).or (overlap? a.space a.frames b.frames) with
  | some overlap => .error overlap
  | none =>
      .ok ⟨a.space, a.virtuals ++ b.virtuals, a.frames ++ b.frames,
        a.constraints ++ b.constraints⟩

def all (r : RequestSet) : List Request := r.virtuals ++ r.frames

def isEmpty (r : RequestSet) : Bool := r.all.isEmpty

def isReadOnly (r : RequestSet) : Bool := r.all.all Request.isReadOnly

def stateInfo (r : RequestSet) (inFrame : Bool) : List String :=
  Pool.stateInfo ((if inFrame then r.frames else r.virtuals).map Request.permission)

def text (r : RequestSet) : String := String.intercalate " * " (r.all.map Request.text)

end RequestSet

end Typestate
