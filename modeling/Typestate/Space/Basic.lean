import Typestate.SortedMap

set_option autoImplicit false

/-!
State spaces of object protocols. A space is a tree rooted at `alive`: states are refined by
dimensions, and a dimension is divided into states that exclude each other. Two nodes are orthogonal
when an object can be in both independently, which is when the ways to them part at two different
dimensions of one state.
-/

namespace Typestate

/-- The root of every state space. -/
def alive : String := "alive"

/-- A node other than the root. -/
structure SpaceNode where
  name : String
  parent : String
  isDimension : Bool
  isMarker : Bool
  deriving DecidableEq, Inhabited, Repr

structure Space where
  name : String
  /-- The nodes other than the root, latest first; a node is later than its parent. -/
  added : List SpaceNode
  /-- The node each mapped field belongs to. -/
  fieldNodes : SortedMap String String
  deriving Inhabited, Repr

namespace Space

/-- Spaces are told apart by name. -/
instance : BEq Space := ⟨fun a b => a.name == b.name⟩

def node? (s : Space) (n : String) : Option SpaceNode := s.added.find? fun e => e.name = n

def isKnown (s : Space) (n : String) : Bool := n = alive || (s.node? n).isSome

/-- A node that is not known counts as a child of the root. -/
def parent? (s : Space) (n : String) : Option String :=
  if n = alive then none
  else some (((s.node? n).map SpaceNode.parent).getD alive)

def nodes (s : Space) : List String := alive :: (s.added.map SpaceNode.name).reverse

def children (s : Space) (n : String) : List String :=
  ((s.added.filter fun e => e.parent = n).map SpaceNode.name).reverse

def isDimension (s : Space) (n : String) : Bool :=
  ((s.node? n).map SpaceNode.isDimension).getD false

def isMarker (s : Space) (n : String) : Bool :=
  ((s.node? n).map SpaceNode.isMarker).getD false

/-- The dimensions that refine a state. -/
def dimensions (s : Space) (state : String) : List String :=
  (s.children state).filter s.isDimension

/-- The node a field belongs to, if it is mapped. -/
def fieldNode? (s : Space) (field : String) : Option String := s.fieldNodes.get? field

def fields (s : Space) : List (String × String) := s.fieldNodes.entries

/-- Walks up through earlier and earlier nodes, since a parent is earlier than its child. -/
def ancestorsAmong (n : String) : List SpaceNode → List String
  | [] => if n = alive then [alive] else [n, alive]
  | e :: earlier =>
      if e.name = n then n :: ancestorsAmong e.parent earlier else ancestorsAmong n earlier

/-- A node and all its ancestors, up to the root. -/
def ancestors (s : Space) (n : String) : List String := ancestorsAmong n s.added

/-- Whether the second node is the first or lies below it. -/
def covers (s : Space) (upper lower : String) : Bool := (s.ancestors lower).contains upper

/-- Being in a dimension means being in the state that it refines. -/
def stateOf (s : Space) (n : String) : String :=
  if s.isDimension n then (s.parent? n).getD alive else n

/-- Whether an object in the known node is also in the needed one. -/
def implies (s : Space) (known needed : String) : Bool := s.covers (s.stateOf needed) known

def lowestCommonAncestor (s : Space) (a b : String) : String :=
  ((s.ancestors b).find? fun n => s.covers n a).getD alive

/-- The lowest common ancestor, or the state it refines if it is a dimension. -/
def lowestCommonState (s : Space) (a b : String) : String :=
  s.stateOf (s.lowestCommonAncestor a b)

/-- The lowest node above all of the given ones. -/
def commonAncestor (s : Space) : List String → String
  | [] => alive
  | first :: rest => rest.foldl s.lowestCommonAncestor first

/-- The nodes up to and including the given one, or none at all if it does not occur. -/
def upTo (upper : String) : List String → List String
  | [] => []
  | n :: rest =>
      if n = upper then [n]
      else
        match upTo upper rest with
        | [] => []
        | path => n :: path

/-- The nodes on the way from the lower node up to the upper one, both included. -/
def path (s : Space) (upper lower : String) : List String := upTo upper (s.ancestors lower)

/-- The child of the upper node on the way down to the lower one. -/
def childToward? (s : Space) (upper lower : String) : Option String :=
  (s.path upper lower).reverse[1]?

def orthogonal (s : Space) (a b : String) : Bool :=
  if a = b || a = alive || b = alive || s.covers a b || s.covers b a then false
  else
    let meet := s.lowestCommonAncestor a b
    -- Sibling states of one dimension exclude each other.
    match s.childToward? meet a, s.childToward? meet b with
    | some x, some y => s.isDimension x && s.isDimension y
    | _, _ => false

/-- Whether every two entries of the list are orthogonal. -/
def allOrthogonal (s : Space) : List String → Bool
  | [] => true
  | n :: rest => rest.all (s.orthogonal n) && s.allOrthogonal rest

end Space

end Typestate
