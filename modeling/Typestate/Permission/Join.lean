import Typestate.Permission.Basic

set_option autoImplicit false

/-!
Comparing permissions, and joining those that two ways through a program bring together.
-/

namespace Typestate

namespace Permission

/-- Equal fractions under a solution, and at least as much known of the states. -/
def atLeastAsPrecise (p other : Permission) (s : Solution) : Bool :=
  if p == other then true
  else if p.root != other.root || p.frame != other.frame then false
  else if p.readOnly && !other.readOnly then false
  else
    s.areEqual p.shares.below other.shares.below &&
      p.shares.values.all (fun (n, f) => s.areEqual f (other.shares.get n)) &&
      other.states.all p.impliesState

/-- A fraction that is at most the first one and, if asked for, at most the second. -/
def joinFraction (s : Solution) (symmetric : Bool) (p q : Fraction) : LedgerM Fraction := do
  if s.areEqual p q then return p
  else if s.isZero p || s.isZero q then return .zero
  else
    let w ← Ledger.fresh
    Ledger.demand (·.addAtMost w p)
    if symmetric then
      Ledger.demand (·.addAtMost w q)
    if s.isNonZero p && s.isNonZero q then
      Ledger.demand (·.addNonZero w)
    return w

/-- What two lists of states have in common strictly below a root. -/
def commonStates (space : Space) (root : String) (a b : List String) : List String :=
  (a.flatMap fun s => b.map fun t => space.lowestCommonState s t).filter fun s =>
    s != root && space.covers root s

/-- What two permissions with one root have in common. Unless asked to be symmetric, only the
first one's fractions are constrained. -/
def join (p other : Permission) (s : Solution) (symmetric : Bool) : LedgerM Permission := do
  let shares ← p.shares.combine other.shares (joinFraction s symmetric)
  return make shares (p.readOnly || other.readOnly) p.frame
    (commonStates p.space p.root p.states other.states)

end Permission

end Typestate
