import Typestate.Permission.RequestSet

set_option autoImplicit false

/-!
The steps of splitting requests off a pool, one by one.
-/

namespace Typestate

open Ledger

theorem Permission.weaken_eq (first : Fraction) (rest : List Fraction) :
    Permission.weaken first rest =
      if rest.all (· == first) then pure first
      else (do
        let w ← fresh
        demand fun cs => (first :: rest).foldl (fun cs (f : Fraction) => cs.addAtMost w f) cs
        return w) := by
  have each (w : Fraction) (fs : List Fraction) :
      (forIn fs PUnit.unit fun (f : Fraction) _ => do
        demand (·.addAtMost w f)
        pure (ForInStep.yield PUnit.unit)) =
        (demand fun cs => fs.foldl (fun cs (f : Fraction) => cs.addAtMost w f) cs :
          LedgerM PUnit) := by
    induction fs with
    | nil => rfl
    | cons f rest ih =>
        rw [List.forIn_cons]
        simp only [bind_assoc, pure_bind, ih]
        rfl
  simp only [Permission.weaken, each]

namespace Pool

theorem takeCombined_eq (pool : Pool) (root : String) :
    pool.takeCombined root =
      match pool.head? with
      | none => pure (none, pool)
      | some first =>
          if (first.space.dimensions root).isEmpty ||
              !(first.space.dimensions root).all fun d => pool.any fun p => p.root == d then
            pure (none, pool)
          else (do
            let whole ← Permission.combineUp root
              (pool.filter fun p => (first.space.dimensions root).contains p.root)
            return (whole,
              pool.filter fun p => !(first.space.dimensions root).contains p.root)) := by
  simp only [takeCombined, List.partition_eq_filter_filter]
  rfl

/-- What a request is split off from, and the permissions that are not touched by it. -/
def claim (pool : Pool) (q : Request) : LedgerM (Option Permission × Pool) :=
  match pool.take? q.root q.toleratesSmallerRoot with
  | some (p, others) => pure (some p, others)
  | none => pool.takeCombined q.root

theorem splitOne_eq (s : Solution) (pool : Pool) (q : Request) :
    pool.splitOne s q = (do
      let (taken, others) ← pool.claim q
      match taken with
      | none =>
          demand (·.declareImpossible ("No permission available to split off " ++ q.text))
          return others
      | some p =>
          match ← p.split q s with
          | some remainder => return others ++ [remainder]
          | none => return others) := by
  simp only [splitOne, claim]
  cases pool.take? q.root q.toleratesSmallerRoot <;> rfl

end Pool

end Typestate
