import Typestate.Context.Precision

set_option autoImplicit false

/-!
Compact contexts: nested nodes of one kind are flattened, elements that say nothing are dropped,
and one that says all stands for its node. Freezing also drops elements that a sibling makes
redundant.
-/

namespace Typestate

/-- The two kinds of inner nodes. What holds of one kind holds of the other with the roles of
failure and unreachability exchanged. -/
inductive Junction where
  | choice
  | all
  deriving DecidableEq, Inhabited, Repr

namespace Junction

def node : Junction → List Context → Context
  | .choice => .choice
  | .all => .all

/-- An element that decides the whole node. -/
def absorbs : Junction → Context → Bool
  | .choice => Context.isUnreachable
  | .all => Context.isStuck

/-- An element that the node does not need. -/
def ignores : Junction → Context → Bool
  | .choice => Context.isStuck
  | .all => Context.isUnreachable

/-- The elements of a node of the same kind, or the context itself. -/
def elements : Junction → Context → List Context
  | .choice, .choice es => es
  | .all, .all es => es
  | _, c => [c]

/-- Whether the first element makes the second redundant. -/
def prefers : Junction → Context → Context → Bool
  | .choice, a, b => a.atLeastAsPrecise b
  | .all, a, b => b.atLeastAsPrecise a

/-- Adds an element unless an equal one is there. -/
def keepNew (survivors : List Context) (c : Context) : List Context :=
  if survivors.contains c then survivors else survivors ++ [c]

/-- Adds an element unless one makes it redundant, and drops those that it makes redundant. -/
def keepBest (j : Junction) (survivors : List Context) (c : Context) : List Context :=
  if survivors.any fun s => j.prefers s c then survivors
  else survivors.filter (fun s => !j.prefers c s) ++ [c]

/-- A single survivor replaces the node. Without any, an element that was dropped stays, since it
may say why there is none. -/
def close (j : Junction) (dropped : Option Context) : List Context → Context
  | [] => dropped.getD (j.node [])
  | [c] => c
  | survivors => j.node survivors

/-- A node of elements that are compact themselves. -/
def compact (j : Junction) (freeze : Bool) (es : List Context) : Context :=
  match es.find? j.absorbs with
  | some e => e
  | none =>
      let candidates := (es.filter fun e => !j.ignores e).flatMap j.elements
      let survivors := candidates.foldl (if freeze then j.keepBest else keepNew) []
      j.close (es.find? j.ignores) survivors

end Junction

namespace Context

mutual

def compact (freeze : Bool) : Context → Context
  | .choice es => Junction.choice.compact freeze (compactList freeze es)
  | .all es => Junction.all.compact freeze (compactList freeze es)
  | leaf => leaf

def compactList (freeze : Bool) : List Context → List Context
  | [] => []
  | e :: es => e.compact freeze :: compactList freeze es

end

/-- The most compact form. -/
def freeze (c : Context) : Context := c.compact true

end Context

end Typestate
