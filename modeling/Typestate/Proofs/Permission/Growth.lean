import Typestate.Proofs.Permission.Equations
import Typestate.Proofs.Work

set_option autoImplicit false

/-!
No work on permissions gives drawn fractions back or takes demands back: the supply only moves up,
and constraints are only added.
-/

namespace Typestate

namespace Constraints

/-- The second set demands whatever the first does. -/
structure Within (cs other : Constraints) : Prop where
  items : cs.items ⊆ other.items
  impossible : cs.isImpossible = true → other.isImpossible = true

namespace Within

theorem refl (cs : Constraints) : cs.Within cs := ⟨List.Subset.refl _, id⟩

theorem trans {a b c : Constraints} (first : a.Within b) (second : b.Within c) : a.Within c :=
  ⟨List.Subset.trans first.items second.items,
    fun given => second.impossible (first.impossible given)⟩

theorem add (cs : Constraints) (c : Constraint) : cs.Within (cs.add c) := by
  unfold Constraints.add
  split
  · exact refl cs
  · exact ⟨List.subset_append_left _ _, id⟩

theorem foldl {α : Type} {step : Constraints → α → Constraints}
    (grows : ∀ (cs : Constraints) a, cs.Within (step cs a)) (xs : List α) (cs : Constraints) :
    cs.Within (xs.foldl step cs) := by
  induction xs generalizing cs with
  | nil => exact refl cs
  | cons a rest ih => exact (grows cs a).trans (ih _)

theorem addEqual (cs : Constraints) (a b : Term) : cs.Within (cs.addEqual a b) := by
  unfold Constraints.addEqual
  split
  · exact refl cs
  · exact add cs _

theorem addAtMost (cs : Constraints) (a b : Term) : cs.Within (cs.addAtMost a b) := by
  unfold Constraints.addAtMost
  split
  · exact refl cs
  · exact add cs _

theorem addNonZero (cs : Constraints) (t : Term) : cs.Within (cs.addNonZero t) := by
  unfold Constraints.addNonZero
  split
  · exact refl cs
  · exact add cs _

theorem declareImpossible (cs : Constraints) (reason : String) :
    cs.Within (cs.declareImpossible reason) := by
  refine ⟨List.Subset.refl _, fun given => ?_⟩
  simp only [isImpossible, Constraints.declareImpossible, Option.isSome_or] at given ⊢
  simp [given]

theorem append (cs other : Constraints) : cs.Within (cs ++ other) := by
  refine ⟨(foldl add other.items cs).items, fun given => ?_⟩
  change (cs.impossible.or other.impossible).isSome = true
  rw [Option.isSome_or, Bool.or_eq_true]
  exact .inl given

end Within

end Constraints

def Supply.Reached (n : Nat) (supply : Supply) : Prop := n ≤ supply.next

namespace Ledger

def Reached (n : Nat) (ledger : Ledger) : Prop := ledger.supply.Reached n

/-- A property that ends neither when a fraction is drawn nor when more is demanded. -/
structure Stable (property : Ledger → Prop) : Prop where
  draws : Keeps property nextId
  demands : ∀ {change : Constraints → Constraints},
    (∀ cs : Constraints, cs.Within (change cs)) → Keeps property (demand change)

theorem reached_stable (n : Nat) : Stable (Reached n) :=
  ⟨fun _ reached => Nat.le_succ_of_le reached, fun _ _ reached => reached⟩

theorem demanded_stable (cs : Constraints) : Stable fun l => cs.Within l.constraints :=
  ⟨fun _ inside => inside, fun grows l inside => inside.trans (grows l.constraints)⟩

variable {property : Ledger → Prop} (stable : Stable property)

include stable

theorem fresh_keeps : Keeps property fresh := stable.draws.bind fun _ => .pure _

theorem freshOf_keeps (named : Bool) : Keeps property (freshOf named) :=
  stable.draws.bind fun _ => .pure _

omit stable in
theorem solution_keeps : Keeps property solution := fun _ holds => holds

omit stable in
theorem within_keeps {α : Type} {work : LedgerM α} {n : Nat} (keeps : Keeps (Reached n) work)
    (cs : Constraints) : Keeps (Supply.Reached n) (within cs work) :=
  fun supply reached => keeps ⟨cs, supply⟩ reached

end Ledger

open Ledger

section Keeping

variable {property : Ledger → Prop}

theorem Shares.tabulate_keeps (space : Space) (root : String) {above : String → LedgerM Fraction}
    {below : LedgerM Fraction} (values : ∀ n, Keeps property (above n))
    (lowest : Keeps property below) : Keeps property (tabulate space root above below) :=
  (Keeps.mapM (fun n => (values n).bind fun _ => .pure _) _).bind fun _ =>
    lowest.bind fun _ => .pure _

theorem Shares.combine_keeps (s t : Shares) {both : Fraction → Fraction → LedgerM Fraction}
    (keeps : ∀ f g, Keeps property (both f g)) : Keeps property (s.combine t both) :=
  (Keeps.mapM (fun _ => (keeps _ _).bind fun _ => .pure _) _).bind fun _ =>
    (keeps _ _).bind fun _ => .pure _

variable (stable : Stable property)

include stable

namespace Permission

theorem splitFraction_keeps (p q : Fraction) : Keeps property (splitFraction p q) :=
  .ite (.pure _) (.ite (.pure _) ((fresh_keeps stable).bind fun _ =>
    (stable.demands fun cs => .addEqual cs _ _).bind fun _ => .pure _))

theorem mergeFraction_keeps (p q : Fraction) : Keeps property (mergeFraction p q) :=
  .ite (.pure _) (.ite (.pure _) ((fresh_keeps stable).bind fun _ =>
    (stable.demands fun cs => .addEqual cs _ _).bind fun _ => .pure _))

theorem weaken_keeps (first : Fraction) (rest : List Fraction) :
    Keeps property (weaken first rest) := by
  rw [weaken_eq]
  refine .ite (.pure _) ((fresh_keeps stable).bind fun _ => ?_)
  refine (stable.demands fun cs => ?_).bind fun _ => .pure _
  exact .foldl (fun cs (f : Fraction) => .addAtMost cs _ f) _ cs

theorem split_keeps (p : Permission) (q : Request) (s : Solution) :
    Keeps property (p.split q s) := by
  have shares : Keeps property (p.shares.combine q.permission.shares splitFraction) :=
    p.shares.combine_keeps _ (splitFraction_keeps stable)
  unfold split
  cases (p.kind s).split q.kind with
  | impossible =>
      exact (stable.demands fun cs => .declareImpossible cs _).bind fun _ => .pure _
  | nothing => exact shares.bind fun _ => .pure _
  | kind k => exact shares.bind fun _ => .pure _

theorem merge_keeps (p other : Permission) (s : Solution) : Keeps property (p.merge other s) :=
  (p.shares.combine_keeps _ (mergeFraction_keeps stable)).bind fun _ => .pure _

theorem combineUp_keeps (root : String) (parts : List Permission) :
    Keeps property (combineUp root parts) := by
  cases parts with
  | nil => exact .pure _
  | cons first rest =>
      exact .ite (.pure _) ((Shares.tabulate_keeps _ _ (fun _ => weaken_keeps stable _ _)
        (weaken_keeps stable _ _)).bind fun _ => .pure _)

end Permission

namespace Pool

theorem takeCombined_keeps (pool : Pool) (root : String) :
    Keeps property (pool.takeCombined root) := by
  rw [takeCombined_eq]
  cases pool.head? with
  | none => exact .pure _
  | some first =>
      exact .ite (.pure _) ((Permission.combineUp_keeps stable root _).bind fun _ => .pure _)

theorem claim_keeps (pool : Pool) (q : Request) : Keeps property (pool.claim q) := by
  unfold claim
  cases pool.take? q.root q.toleratesSmallerRoot with
  | none => exact takeCombined_keeps stable pool q.root
  | some found => exact .pure _

theorem splitOne_keeps (s : Solution) (pool : Pool) (q : Request) :
    Keeps property (pool.splitOne s q) := by
  rw [splitOne_eq]
  refine (claim_keeps stable pool q).bind fun (taken, others) => ?_
  cases taken with
  | none => exact (stable.demands fun cs => .declareImpossible cs _).bind fun _ => .pure _
  | some p =>
      refine (p.split_keeps stable q s).bind fun remainder => ?_
      cases remainder <;> exact .pure _

theorem split_keeps (s : Solution) (pool : Pool) (requests : List Request) :
    Keeps property (pool.split s requests) :=
  Keeps.foldlM (splitOne_keeps stable s) requests pool

theorem mergeWithin_keeps (levels : Nat) (s : Solution) (pool : Pool) (p : Permission) :
    Keeps property (mergeWithin levels s pool p) := by
  have refused (pool : Pool) (p : Permission) : Keeps property (pool.refuse p) :=
    (stable.demands fun cs => .declareImpossible cs _).bind fun _ => .pure _
  have merged (p other : Permission) := Permission.merge_keeps stable p other s
  induction levels generalizing pool p with
  | zero => exact refused pool p
  | succ levels ih =>
      unfold mergeWithin
      split
      · exact (merged _ _).bind fun _ => .pure _
      · split
        · exact (merged _ _).bind fun _ => .pure _
        · split
          · exact (merged _ _).bind fun _ => Keeps.foldlM ih _ _
          · exact .ite (.pure _) (refused pool p)

theorem merge_keeps (s : Solution) (pool : Pool) (p : Permission) :
    Keeps property (merge s pool p) :=
  mergeWithin_keeps stable _ s pool p

end Pool

theorem Request.shares_keeps (space : Space) (root : String) (named : Bool) (kind : Kind) :
    Keeps property (shares space root named kind) := by
  have fresh (below : LedgerM Fraction) (keeps : Keeps property below) :=
    Shares.tabulate_keeps space root (fun _ => freshOf_keeps stable named) keeps
  cases kind with
  | unique => exact .pure _
  | full | pure => exact fresh _ (.pure _)
  | share | immutable => exact fresh _ (freshOf_keeps stable named)

end Keeping

theorem RequestSet.ofSpec_keeps {n : Nat} (space : Space) (spec : Spec) (named : Bool) :
    Keeps (Supply.Reached n) (ofSpec space spec named) := by
  have stable := reached_stable n
  have created : Keeps (Reached n) (Request.create space spec named) :=
    (Request.shares_keeps stable _ _ _ _).bind fun _ =>
      (stable.demands fun cs => .addNonZero cs _).bind fun _ =>
        .ite ((stable.demands fun cs => .addNonZero cs _).bind fun _ => .pure _) (.pure _)
  exact (within_keeps created _).bind fun _ => .pure _

end Typestate
