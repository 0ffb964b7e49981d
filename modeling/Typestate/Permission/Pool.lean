import Typestate.Permission.Join
import Typestate.Permission.Reroot
import Typestate.Permission.Transfer

set_option autoImplicit false

/-!
Lists of permissions for one object. Their roots are orthogonal to each other, and taking
permissions out and putting them in keeps them so.
-/

namespace Typestate

abbrev Pool := List Permission

namespace Pool

/-- The first permission that passes a test, and the others. -/
def extract? (test : Permission → Bool) : Pool → Option (Permission × Pool)
  | [] => none
  | p :: rest =>
      if test p then some (p, rest)
      else (extract? test rest).map fun (found, others) => (found, p :: others)

/-- Replaces the first permission that passes a test. -/
def update (test : Permission → Bool) (replacement : Permission) : Pool → Pool
  | [] => []
  | p :: rest => if test p then replacement :: rest else p :: update test replacement rest

/-- Takes the permission for a node out of the pool. One with a higher root is moved down first and
its other parts stay. If asked to, one for a lower node is acceptable too. -/
def take? (pool : Pool) (needed : String) (tolerateSmaller : Bool) :
    Option (Permission × Pool) :=
  match pool.extract? fun p => p.root == needed with
  | some found => some found
  | none =>
      match pool.extract? fun p => p.covers needed with
      | some (p, others) =>
          let (part, rest) := p.moveDown needed
          some (part, others ++ rest)
      | none =>
          if tolerateSmaller then pool.extract? fun p => p.space.covers needed p.root else none

def conflictReason (pool : Pool) (p : Permission) : String :=
  "permission for " ++ p.root ++ " conflicts with existing permissions for " ++
    String.intercalate "," (pool.map Permission.root)

/-- Leaves a permission out that cannot be held together with those of the pool. -/
def refuse (pool : Pool) (p : Permission) : LedgerM Pool := do
  Ledger.demand (·.declareImpossible (pool.conflictReason p))
  return pool

/-- Adds a permission, where the parts of divided permissions may lie at most so many levels below
it. -/
def mergeWithin : Nat → Solution → Pool → Permission → LedgerM Pool
  | 0, _, pool, p => pool.refuse p
  | levels + 1, s, pool, p => do
      match pool.find? fun q => q.root == p.root with
      | some q => return pool.update (fun q => q.root == p.root) (← q.merge p s)
      | none =>
          match pool.extract? fun q => q.covers p.root with
          | some (q, others) =>
              let (part, rest) := q.moveDown p.root
              return others ++ rest ++ [← part.merge p s]
          | none =>
              match pool.extract? fun q => p.covers q.root with
              | some (q, others) =>
                  let (part, rest) := p.moveDown q.root
                  rest.foldlM (mergeWithin levels s) (others ++ [← q.merge part s])
              | none =>
                  if pool.all fun q => p.space.orthogonal q.root p.root then return pool ++ [p]
                  -- The permission is for a state that excludes another one.
                  else pool.refuse p

/-- Adds a permission and keeps the roots orthogonal. Divided permissions go down in the tree, which
has no more levels than nodes. -/
def merge (s : Solution) (pool : Pool) (p : Permission) : LedgerM Pool :=
  mergeWithin (p.space.added.length + 2) s pool p

/-- Takes the permissions for all the dimensions of a state out of the pool as one for the state. -/
def takeCombined (pool : Pool) (root : String) : LedgerM (Option Permission × Pool) := do
  match pool.head? with
  | none => return (none, pool)
  | some first =>
      let dimensions := first.space.dimensions root
      if dimensions.isEmpty || !dimensions.all fun d => pool.any fun p => p.root == d then
        return (none, pool)
      else
        let (parts, rest) := pool.partition fun p => dimensions.contains p.root
        return (← Permission.combineUp root parts, rest)

/-- Splits one request off the pool; the rest of the permission it comes from goes to the end. -/
def splitOne (s : Solution) (pool : Pool) (q : Request) : LedgerM Pool := do
  let (taken, others) ← match pool.take? q.root q.toleratesSmallerRoot with
    | some (p, others) => pure (some p, others)
    | none => pool.takeCombined q.root
  match taken with
  | none =>
      Ledger.demand (·.declareImpossible ("No permission available to split off " ++ q.text))
      return others
  | some p =>
      match ← p.split q s with
      | some remainder => return others ++ [remainder]
      | none => return others

def split (s : Solution) (pool : Pool) (requests : List Request) : LedgerM Pool :=
  requests.foldlM (splitOne s) pool

/-- Joins permissions with one root; a root that only one side has is dropped. -/
def join (a b : Pool) (s : Solution) (symmetric : Bool) : LedgerM Pool := do
  let joined ← a.mapM fun p =>
    match b.find? fun q => q.root == p.root with
    | some q => return [← p.join q s symmetric]
    | none => return []
  return joined.flatten

/-- Every permission of the second pool is matched by a more precise one of the first. -/
def atLeastAsPrecise (a b : Pool) (s : Solution) : Bool :=
  b.all fun q => a.any fun p => p.atLeastAsPrecise q s

/-- The roots and known states of all permissions, without repetitions. -/
def stateInfo (pool : Pool) : List String :=
  (pool.flatMap fun p => p.root :: p.states).eraseDups

/-- Others may change what share and pure permissions are for. -/
def forgetShared (pool : Pool) (s : Solution) : Pool :=
  pool.map fun p =>
    match p.kind s with
    | .share | .pure => p.forget
    | _ => p

/-- The first two permissions whose roots are not orthogonal. -/
def overlap? : Pool → Option (Permission × Permission)
  | [] => none
  | p :: rest =>
      match rest.find? fun q => !p.space.orthogonal p.root q.root with
      | some q => some (p, q)
      | none => overlap? rest

end Pool

end Typestate
