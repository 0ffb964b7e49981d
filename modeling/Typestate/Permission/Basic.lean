import Typestate.Permission.Kind
import Typestate.Permission.Shares

set_option autoImplicit false

/-!
Permissions: how much is held of the nodes of a space under a root, whether writing is allowed, and
the states the object is known to be in.
-/

namespace Typestate

/-- Places a name in an ascending list unless it is there already. -/
def insertName (name : String) : List String → List String
  | [] => [name]
  | other :: rest =>
      if name = other then other :: rest
      else if name < other then name :: other :: rest
      else other :: insertName name rest

/-- The most precise of the given states in order of their names: without the root of the space,
repetitions and states that another one implies. -/
def Space.cleanStates (space : Space) (states : List String) : List String :=
  let kept := states.filter fun s => s != alive && !states.any fun t => t != s && space.implies t s
  kept.foldr insertName []

structure Permission where
  shares : Shares
  readOnly : Bool
  /-- Whether it is for the fields of the object itself. -/
  frame : Bool
  states : List String
  deriving BEq, Inhabited, Repr

namespace Permission

def make (shares : Shares) (readOnly frame : Bool) (states : List String) : Permission :=
  ⟨shares, readOnly, frame, shares.space.cleanStates states⟩

def space (p : Permission) : Space := p.shares.space

def root (p : Permission) : String := p.shares.root

/-- The kind as far as a solution can tell. -/
def kind (p : Permission) (s : Solution) : Kind :=
  if p.readOnly then
    if s.isZero p.shares.below then .pure else .immutable
  else if s.isOne p.shares.below then
    if s.isOne p.shares.rootValue then .unique else .full
  else .share

def covers (p : Permission) (n : String) : Bool := p.space.covers p.root n

/-- The root and everything above it always hold. -/
def impliesState (p : Permission) (state : String) : Bool :=
  p.space.implies p.root state || p.states.any fun known => p.space.implies known state

def withFrame (p : Permission) (frame : Bool) : Permission := { p with frame }

def withStates (p : Permission) (states : List String) : Permission :=
  make p.shares p.readOnly p.frame states

/-- A new state replaces what was known in the same dimensions. -/
def learn (p : Permission) (state : String) : Permission :=
  p.withStates ((p.states.filter fun s => p.space.orthogonal s state) ++ [state])

/-- Marker states stay for good. -/
def forget (p : Permission) : Permission := p.withStates (p.states.filter p.space.isMarker)

def describe (p : Permission) (s : Solution) : String :=
  describePermission (p.kind s) p.root p.states p.frame

/-- A permission in use holds more than nothing at its root. -/
def demandUsed (p : Permission) : LedgerM Unit :=
  Ledger.demand (·.addNonZero p.shares.rootValue)

/-- Writing needs more than nothing at the root and below it, and a permission that allows it. -/
def makeModifiable (p : Permission) : LedgerM Permission := do
  Ledger.demand (·.addNonZero p.shares.rootValue)
  Ledger.demand (·.addNonZero p.shares.below)
  if p.readOnly then
    Ledger.demand
      (·.declareImpossible ("read-only permission for " ++ p.root ++ " cannot be modified"))
  return { p with readOnly := false }

end Permission

end Typestate
