import Typestate.Permission.Request

set_option autoImplicit false

/-!
Moving permissions to other roots. Moving down divides a permission into a part for a lower node and
parts for the dimensions that lie beside the way to it; combining up goes the other way.
-/

namespace Typestate

namespace Permission

/-- The permission for another root, with the states that concern it. -/
def reroot (p : Permission) (root : String) : Permission :=
  make (p.shares.reroot root) p.readOnly p.frame
    (p.states.filter fun s => p.space.covers root s || p.space.covers s root)

/-- The dimensions beside the given one that refine the same state. -/
def siblings (space : Space) (n : String) : List String :=
  if space.isDimension n then
    match space.parent? n with
    | some state => (space.dimensions state).filter (· != n)
    | none => []
  else []

/-- The dimensions beside the way from the root down to a node. -/
def beside (p : Permission) (n : String) : List String :=
  ((p.space.path p.root n).takeWhile (· != p.root)).flatMap (siblings p.space)

/-- The part for a node below the root, and the parts for the dimensions beside the way to it. -/
def moveDown (p : Permission) (n : String) : Permission × List Permission :=
  (p.reroot n, (p.beside n).map p.reroot)

/-- One fraction that is at most each of the given ones. -/
def weaken (first : Fraction) (rest : List Fraction) : LedgerM Fraction := do
  if rest.all (· == first) then return first
  else
    let w ← Ledger.fresh
    for f in first :: rest do
      Ledger.demand (·.addAtMost w f)
    return w

/-- Permissions for all the dimensions of a state as one permission for that state. -/
def combineUp (root : String) : List Permission → LedgerM (Option Permission)
  | [] => return none
  | first :: rest => do
      let all := first :: rest
      let dimensions := first.space.dimensions root
      if dimensions.isEmpty || dimensions.length != all.length ||
          !dimensions.all fun d => all.any fun p => p.root == d then
        return none
      else
        let shares ← Shares.tabulate first.space root
          (fun n => weaken (first.shares.get n) (rest.map (·.shares.get n)))
          (weaken first.shares.below (rest.map (·.shares.below)))
        return some (make shares (all.any readOnly) first.frame (all.flatMap states))

end Permission

end Typestate
