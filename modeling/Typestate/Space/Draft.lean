import Typestate.Diagnostic
import Typestate.Space.Basic

set_option autoImplicit false

/-!
Building state spaces. A step that fails reports why and leaves what it had already added.
-/

namespace Typestate

inductive SpaceError where
  | duplicateNode (space node : String)
  | unknownRefined (space state : String)
  | dimensionRefined (space node : String)
  | refinesItself (space state : String)
  | unknownFieldNode (space field node : String)
  deriving DecidableEq, Inhabited, Repr

namespace SpaceError

def message : SpaceError → String
  | .duplicateNode space node => "state space " ++ space ++ ": duplicate node " ++ node
  | .unknownRefined space state =>
      "state space " ++ space ++ ": unknown state " ++ state ++ " refined by a dimension"
  | .dimensionRefined space node =>
      "state space " ++ space ++ ": " ++ node ++
        " is a dimension and can only be refined by states"
  | .refinesItself space state => "state space " ++ space ++ ": " ++ state ++ " refines itself"
  | .unknownFieldNode space field node =>
      "state space " ++ space ++ ": field " ++ field ++ " mapped to unknown node " ++ node

def diagnostic (e : SpaceError) : Diagnostic := .error e.message

end SpaceError

namespace Space

/-- The start of the names given to dimensions that were declared without one. -/
def anonymousStem : String := "dim$"

def anonymousName (n : Nat) : String := anonymousStem ++ toString n

def isAnonymous (n : String) : Bool := n.startsWith anonymousStem

/-- A space under construction, with the number of anonymous dimensions asked for so far. -/
structure Draft where
  space : Space
  anonymous : Nat
  deriving Inhabited, Repr

namespace Draft

def new (name : String) : Draft := ⟨⟨name, [], .empty⟩, 0⟩

def addNode (d : Draft) (node : SpaceNode) : Except SpaceError Draft :=
  if d.space.isKnown node.name then .error (.duplicateNode d.space.name node.name)
  else .ok { d with space := { d.space with added := node :: d.space.added } }

/-- Adds the states of a dimension one by one, up to the first that is known already. -/
def addStates (dimension : String) (marker : Bool) :
    List String → Draft → Draft × Except SpaceError Unit
  | [], d => (d, .ok ())
  | state :: rest, d =>
      match d.addNode ⟨state, dimension, false, marker⟩ with
      | .ok next => addStates dimension marker rest next
      | .error e => (d, .error e)

/-- The name of the next dimension: the given one, or the next anonymous one. -/
def nameDimension (d : Draft) : Option String → Draft × String
  | some name => (d, name)
  | none => ({ d with anonymous := d.anonymous + 1 }, anonymousName (d.anonymous + 1))

/-- Refines a state with a dimension that holds the given states, and answers its name. -/
def addDimension (d : Draft) (name : Option String) (refined : String) (states : List String)
    (marker : Bool) : Draft × Except SpaceError String :=
  if !d.space.isKnown refined then (d, .error (.unknownRefined d.space.name refined))
  else if d.space.isDimension refined then (d, .error (.dimensionRefined d.space.name refined))
  else
    let (d, dimension) := d.nameDimension name
    if dimension = refined || states.contains refined then
      (d, .error (.refinesItself d.space.name refined))
    else
      match d.addNode ⟨dimension, refined, true, false⟩ with
      | .error e => (d, .error e)
      | .ok next =>
          let (final, result) := addStates dimension marker states next
          (final, result.map fun _ => dimension)

/-- Refines a state with one state in an anonymous dimension of its own. -/
def addState (d : Draft) (state refined : String) : Draft × Except SpaceError String :=
  d.addDimension none refined [state] false

def mapField (d : Draft) (field node : String) : Except SpaceError Draft :=
  if d.space.isKnown node then
    .ok { d with space := { d.space with fieldNodes := d.space.fieldNodes.insert field node } }
  else .error (.unknownFieldNode d.space.name field node)

end Draft

end Space

end Typestate
