import Typestate.Location
import Typestate.Permission.RequestSet

set_option autoImplicit false

/-!
What is held for one object: its permissions and the constraints their fractions rely on. An object
that has not been reached yet is told apart from one without permissions: nothing is known about
the first and every check succeeds, while the second fails most checks.
-/

namespace Typestate

structure Held where
  virtuals : Pool
  /-- Permissions for the fields of the object itself. -/
  frames : Pool
  /-- The permission that was taken out of the frame while the object is unpacked. -/
  unpacked : Option Permission
  constraints : Constraints
  deriving BEq, Inhabited, Repr

inductive Holding where
  /-- Not reached yet. -/
  | bottom
  | held (held : Held)
  deriving BEq, Inhabited, Repr

namespace Held

def empty : Held := ⟨[], [], none, .empty⟩

def pool (h : Held) (inFrame : Bool) : Pool := if inFrame then h.frames else h.virtuals

def withPool (h : Held) (inFrame : Bool) (pool : Pool) : Held :=
  if inFrame then { h with frames := pool } else { h with virtuals := pool }

def isUnsatisfiable (h : Held) : Bool := h.constraints.isUnsatisfiable

end Held

/-- Permissions for two nodes that are not orthogonal. -/
structure RootOverlap where
  first : String
  second : String
  deriving DecidableEq, Inhabited, Repr

namespace RootOverlap

def diagnostic (o : RootOverlap) : Diagnostic :=
  .error ("permissions for " ++ o.first ++ " and " ++ o.second ++ " are not orthogonal")

end RootOverlap

namespace Holding

/-- No permissions. -/
def empty : Holding := .held .empty

/-- Permissions can be held if the roots of each list are orthogonal. -/
def ofParts (virtuals frames : Pool) (unpacked : Option Permission) (constraints : Constraints) :
    Except RootOverlap Holding :=
  match virtuals.overlap?.or frames.overlap? with
  | some (p, q) => .error ⟨p.root, q.root⟩
  | none => .ok (.held ⟨virtuals, frames, unpacked, constraints⟩)

/-- The permissions of a set of requests, held. -/
def ofRequests (r : RequestSet) : Holding :=
  .held ⟨r.virtuals.map Request.permission, r.frames.map Request.permission, none, r.constraints⟩

def isBottom : Holding → Bool
  | .bottom => true
  | .held _ => false

def virtuals : Holding → Pool
  | .bottom => []
  | .held h => h.virtuals

def frames : Holding → Pool
  | .bottom => []
  | .held h => h.frames

def pool (x : Holding) (inFrame : Bool) : Pool := if inFrame then x.frames else x.virtuals

def unpacked : Holding → Option Permission
  | .bottom => none
  | .held h => h.unpacked

def isUnpacked (x : Holding) : Bool := x.unpacked.isSome

def constraints : Holding → Constraints
  | .bottom => .empty
  | .held h => h.constraints

/-- Whether the constraints were declared impossible, which needs no solving. -/
def isImpossible (x : Holding) : Bool := x.constraints.isImpossible

def isUnsatisfiable : Holding → Bool
  | .bottom => false
  | .held h => h.isUnsatisfiable

def isInState (x : Holding) (state : String) (inFrame : Bool) : Bool :=
  x.isBottom || state = alive || (x.pool inFrame).any fun p => p.impliesState state

def isInStates (x : Holding) (needed : List String) (inFrame : Bool) : Bool :=
  needed.all fun s => x.isInState s inFrame

def stateInfo (x : Holding) (inFrame : Bool) : List String := (x.pool inFrame).stateInfo

def frameRoots (x : Holding) : List String := x.frames.map Permission.root

/-- Changes what is held; an object that was not reached stays so. -/
def map (change : Held → Held) : Holding → Holding
  | .bottom => .bottom
  | .held h => .held (change h)

/-- A state the object is known to be in for now. -/
def learn (x : Holding) (state : String) (inFrame : Bool) : Holding :=
  x.map fun h => h.withPool inFrame <| (h.pool inFrame).map fun p =>
    if p.covers state && p.root != state then p.learn state else p

/-- New state information in place of the old; not for the frame of an unpacked object. -/
def replaceStates (x : Holding) (states : List String) (inFrame : Bool) : Except Fault Holding :=
  if inFrame && x.isUnpacked then .error .replacingWhileUnpacked
  else .ok <| x.map fun h => h.withPool inFrame <| (h.pool inFrame).map fun p =>
    p.withStates (states.filter p.covers)

def forget (x : Holding) : Holding :=
  x.map fun h =>
    { h with
      virtuals := h.virtuals.map Permission.forget
      frames := h.frames.map Permission.forget }

/-- Forgets the states of what others may have changed. -/
def forgetShared (x : Holding) : Holding :=
  x.map fun h =>
    let s := h.constraints.solution
    { h with virtuals := h.virtuals.forgetShared s, frames := h.frames.forgetShared s }

/-- A short description for reports. -/
def describe : Holding → String
  | .bottom => "no information"
  | .held h =>
      let s := h.constraints.solution
      let parts := (h.virtuals ++ h.frames).map (·.describe s) ++
        h.unpacked.toList.map fun u => "unpacked " ++ u.describe s
      if parts.isEmpty then "no permissions" else String.intercalate ", " parts

end Holding

end Typestate
