import Typestate.Permission.Request

set_option autoImplicit false

/-!
Splitting permissions and putting them together again. Splitting a request off leaves, at every
node, a rest that makes up the old fraction together with the requested one.
-/

namespace Typestate

namespace Permission

/-- What is left of the first fraction when the second is taken. -/
def splitFraction (p q : Fraction) : LedgerM Fraction := do
  if q = .zero then return p
  else if p = q then return .zero
  else
    let r ← Ledger.fresh
    Ledger.demand (·.addEqual p (.ofSum [q, r]))
    return r

/-- The two fractions together. -/
def mergeFraction (p q : Fraction) : LedgerM Fraction := do
  if q = .zero then return p
  else if p = .zero then return q
  else
    let w ← Ledger.fresh
    Ledger.demand (·.addEqual w (.ofSum [p, q]))
    return w

/-- Splits a request off a permission and answers the rest, if there is one. The two have one root,
or a request to look on has a higher one. -/
def split (p : Permission) (q : Request) (s : Solution) : LedgerM (Option Permission) := do
  match (p.kind s).split q.kind with
  | .impossible =>
      Ledger.demand (·.declareImpossible
        ("cannot split " ++ q.kind.text ++ "(" ++ q.root ++ ") off " ++ (p.kind s).text ++ "(" ++
          p.root ++ ")"))
      return some p
  | .nothing =>
      let _ ← p.shares.combine q.permission.shares splitFraction
      return none
  | .kind k =>
      let shares ← p.shares.combine q.permission.shares splitFraction
      return some { p with shares, readOnly := k.isReadOnly }

/-- Adds the fractions of a permission with the same root. -/
def merge (p other : Permission) (s : Solution) : LedgerM Permission := do
  let shares ← p.shares.combine other.shares mergeFraction
  let immutable := p.kind s = .immutable || other.kind s = .immutable
  return make shares (immutable || (p.readOnly && other.readOnly)) p.frame
    (p.states ++ other.states)

/-- Only permissions with one root can be merged. -/
def mergeChecked (p other : Permission) (s : Solution) : Except Fault (LedgerM Permission) :=
  if p.root = other.root then .ok (p.merge other s) else .error .mergingDifferentRoots

end Permission

end Typestate
