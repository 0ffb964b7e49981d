import Typestate.Fault
import Typestate.Fraction.Ledger
import Typestate.Space.Basic

set_option autoImplicit false

/-!
How much a permission holds at every node of a space: one fraction for each node from its root up to
`alive`, one for all nodes below the root, and nothing elsewhere.
-/

namespace Typestate

structure Shares where
  space : Space
  root : String
  /-- The nodes from the root up with their fractions. -/
  values : List (String × Fraction)
  below : Fraction
  deriving BEq, Inhabited, Repr

namespace Shares

/-- A fraction for every node from the root up is given in that order. -/
def ofValues (space : Space) (root : String) (above : List Fraction) (below : Fraction) :
    Except Fault Shares :=
  let path := space.ancestors root
  if path.length = above.length then .ok ⟨space, root, path.zip above, below⟩
  else .error .sharesSizeMismatch

/-- The fraction of each node from the root up is worked out in that order, and after them the one
for all nodes below. -/
def tabulate (space : Space) (root : String) (above : String → LedgerM Fraction)
    (below : LedgerM Fraction) : LedgerM Shares := do
  let values ← (space.ancestors root).mapM fun n => return (n, ← above n)
  return ⟨space, root, values, ← below⟩

/-- The same fraction everywhere. -/
def constant (space : Space) (root : String) (f : Fraction) : Shares :=
  ⟨space, root, (space.ancestors root).map fun n => (n, f), f⟩

/-- Fresh fractions from the root up, a given one below. -/
def freshAbove (space : Space) (root : String) (named : Bool) (below : Fraction) :
    LedgerM Shares :=
  tabulate space root (fun _ => Ledger.freshOf named) (return below)

/-- Fresh fractions from the root up and below. -/
def freshAll (space : Space) (root : String) (named : Bool) : LedgerM Shares :=
  tabulate space root (fun _ => Ledger.freshOf named) (Ledger.freshOf named)

def rootValue (s : Shares) : Fraction := (s.values.head?.map Prod.snd).getD .zero

def get (s : Shares) (n : String) : Fraction :=
  match s.values.find? fun entry => entry.1 = n with
  | some entry => entry.2
  | none => if s.space.covers s.root n then s.below else .zero

def fractions (s : Shares) : List Fraction := s.values.map Prod.snd ++ [s.below]

def mentions (s : Shares) (f : Fraction) : Bool := s.fractions.contains f

def withBelow (s : Shares) (below : Fraction) : Shares := { s with below }

/-- Nothing below the root. -/
def purify (s : Shares) : Shares := s.withBelow .zero

/-- Every fraction changed by a function, which sees the one below at the root. -/
def map (s : Shares) (change : String → Fraction → Fraction) : Shares :=
  { s with
    values := s.values.map fun (n, f) => (n, change n f)
    below := change s.root s.below }

/-- The nodes at which a change of all fractions looks, in order. -/
def visited (s : Shares) : List String := s.values.map Prod.fst ++ [s.root]

/-- The shares seen from another root. -/
def reroot (s : Shares) (root : String) : Shares :=
  ⟨s.space, root, (s.space.ancestors root).map fun n => (n, s.get n), s.below⟩

/-- Combines the fractions of two at every node from the first one's root up, then those below. -/
def combine (s t : Shares) (both : Fraction → Fraction → LedgerM Fraction) : LedgerM Shares := do
  let values ← s.values.mapM fun (n, f) => return (n, ← both f (t.get n))
  return { s with values, below := ← both s.below t.below }

end Shares

end Typestate
