import Typestate.Proofs.Fraction.Monotonicity
import Typestate.Proofs.Holding.Contracts
import Typestate.Proofs.Holding.Drawing
import Typestate.Proofs.Permission.Asking
import Typestate.Proofs.Permission.Roots

set_option autoImplicit false

/-!
What unpacking leads to: a permission for the very node that was asked for. It is demanded that it
holds more than nothing there, or else nothing can be met. A write to what is unpacked demands no
more.
-/

namespace Typestate

theorem Constraints.isNonZero_of_asks {cs : Constraints} (consistent : cs.isConsistent = true)
    {f : Fraction} (asks : cs.asks f = true) : cs.solution.isNonZero f = true := by
  simp only [isConsistent, Bool.and_eq_true] at consistent
  simp only [Constraints.asks, Bool.or_eq_true, contains, List.contains_eq_mem,
    decide_eq_true_eq] at asks
  rcases asks with positive | demanded
  · cases found : cs.solution.class? f with
    | none => simp [Solution.isNonZero, found, positive]
    | some c =>
      obtain ⟨member, inside⟩ := Solution.class?_mem found
      have marked := Solution.solve_marked cs.items c member f positive inside
      simpa [Solution.isNonZero, found] using marked
  · have saturated := Solution.saturated_of_isConsistent consistent.2
    have known := saturated.known _ demanded (.single f) (by simp [Constraint.terms])
    exact (Solution.isNonZero_iff known).mpr (saturated.settles _ demanded)

theorem Pool.take?_root {pool others : Pool} {needed : String} {p : Permission}
    (taken : pool.take? needed false = some (p, others)) : p.root = needed := by
  cases taking_of_take? taken with
  | here _ root => exact root
  | above => rfl
  | below tolerated => cases tolerated

namespace Holding

variable {x : Holding} {root : String}

/-- A permission for the root is unpacked. As long as nothing is impossible it is demanded that it
holds more than nothing there. -/
structure OpenAt (root : String) (x : Holding) (p : Permission) : Prop where
  unpacked : x.unpacked = some p
  root : p.root = root
  used : x.isImpossible = false → x.constraints.asks p.shares.rootValue = true

theorem OpenAt.isNonZero {p : Permission} (opened : x.OpenAt root p)
    (satisfiable : x.isUnsatisfiable = false) :
    x.constraints.solution.isNonZero p.shares.rootValue = true := by
  have consistent : x.constraints.isConsistent = true := by
    cases x with
    | bottom => cases opened.unpacked
    | held h => exact (Bool.not_eq_false' (b := h.constraints.isConsistent)).mp satisfiable
  have possible : x.isImpossible = false := by
    simp only [Constraints.isConsistent, Bool.and_eq_true, Bool.not_eq_true'] at consistent
    exact consistent.1
  exact Constraints.isNonZero_of_asks consistent (opened.used possible)

theorem merge_unpacked (x : Holding) (r : RequestSet) :
    Yields (x.merge r) fun y => y.unpacked = x.unpacked := by
  intro supply
  cases x with
  | bottom => rfl
  | held h => rfl

theorem OpenAt.merge {p : Permission} (opened : x.OpenAt root p) (r : RequestSet) :
    Yields (x.merge r) fun y => y.OpenAt root p := by
  intro supply
  have inside := x.merge_within r supply
  refine ⟨(x.merge_unpacked r supply).trans opened.unpacked, opened.root, fun possible => ?_⟩
  have before : x.isImpossible = false := by
    refine Bool.eq_false_iff.mpr fun impossible => ?_
    exact Bool.eq_false_iff.mp possible (inside.impossible impossible)
  exact Constraints.asks_mono inside.items (opened.used before)

theorem isBottom_rework (x : Holding) (work : Held → LedgerM Held) :
    Yields (x.rework work) fun y => y.isBottom = x.isBottom := by
  intro supply
  cases x with
  | bottom => rfl
  | held h => rfl

theorem isBottom_pack {states : List String} {work : SupplyM Holding}
    (done : x.pack states = .ok work) : Yields work fun y => y.isBottom = x.isBottom := by
  unfold Holding.pack at done
  split at done
  · cases done
  · cases done
    exact isBottom_rework x _

theorem exists_unpack (packed : x.isUnpacked = false) (space : Space) (root : String) :
    ∃ work, x.unpack space root = .ok work ∧ Yields work fun y => ∃ p, y.OpenAt root p := by
  have reached : ∃ h, (if x.isBottom then empty else x) = .held h := by
    cases x with
    | bottom => exact ⟨_, rfl⟩
    | held h => exact ⟨h, rfl⟩
  obtain ⟨h, same⟩ := reached
  rw [Holding.unpack, packed]
  simp only [same]
  refine ⟨_, rfl, fun supply => ?_⟩
  simp only [rework]
  cases taken : h.frames.take? root false with
  | some found =>
    obtain ⟨p, others⟩ := found
    exact ⟨p, rfl, Pool.take?_root taken, fun _ => Constraints.asks_addNonZero h.constraints _⟩
  | none =>
    -- Nothing that comes after it makes the impossible possible.
    let declared := h.constraints.declareImpossible ("No permission available to unpack to " ++ root)
    have stable := Ledger.demanded_stable declared
    have kept : Keeps _ (Shares.freshAll space root false) :=
      Shares.tabulate_keeps space root (fun _ => Ledger.freshOf_keeps stable false)
        (Ledger.freshOf_keeps stable false)
    have never := (kept ⟨declared, supply⟩ (.refl declared)).impossible (by
      simp [declared, Constraints.isImpossible, Constraints.declareImpossible])
    have made : Yields (Shares.freshAll space root false) _ := Shares.tabulate_yields space root _ _
    refine ⟨_, rfl, (made ⟨declared, supply⟩).2, fun possible => ?_⟩
    exact absurd never (Bool.eq_false_iff.mp possible)

/-- A write demands nothing of a permission that allows it, and the impossible of any other. -/
theorem makeUnpackedModifiable_yields {u : Permission} (unpacked : x.unpacked = some u) :
    ∃ work, x.makeUnpackedModifiable = .ok work ∧ Yields work fun y =>
      (u.readOnly = false ∧ y = x) ∨ (u.readOnly = true ∧ y.isUnsatisfiable = true) := by
  rw [makeUnpackedModifiable, isUnpacked_of_some unpacked]
  refine ⟨_, rfl, fun supply => ?_⟩
  cases x with
  | bottom => cases unpacked
  | held h =>
    replace unpacked : h.unpacked = some u := unpacked
    simp only [rework, unpacked]
    cases readOnly : u.readOnly with
    | false => exact .inl ⟨rfl, rfl⟩
    | true =>
      refine .inr ⟨rfl, ?_⟩
      let cs := (h.constraints.addNonZero u.shares.rootValue).addNonZero u.shares.below
      have impossible : ∀ reason, (cs.declareImpossible reason).isUnsatisfiable = true := by
        simp [Constraints.isUnsatisfiable, Constraints.isConsistent, Constraints.isImpossible,
          Constraints.declareImpossible]
      simp only [Permission.makeModifiable, readOnly]
      exact impossible _

end Holding

end Typestate
