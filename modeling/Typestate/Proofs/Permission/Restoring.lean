import Typestate.Proofs.Fraction.Cohesion
import Typestate.Proofs.Permission.Bookkeeping
import Typestate.Proofs.Permission.Comparing

set_option autoImplicit false

/-!
What was split off can be put back: the fractions are those from before again, and a permission that
could be written with can be written with, unless the request was for an immutable one.
-/

namespace Typestate

open Permission

theorem Term.ofSum_pair_comm {q r : Fraction} (first : q ≠ .zero) (second : r ≠ .zero) :
    Term.ofSum [q, r] = Term.ofSum [r, q] := by
  have left : [q, r].filter (· != .zero) = [q, r] := by simp [first, second]
  have right : [r, q].filter (· != .zero) = [r, q] := by simp [first, second]
  have sorted : sortFractions [q, r] = sortFractions [r, q] := by
    cases q <;> cases r <;>
      simp [sortFractions, insertFraction, Fraction.before, Fraction.rank] <;> grind
  rw [ofSum, ofSum, left, right, sorted]

namespace Constraints

variable {cs : Constraints} {p q r m : Fraction}

theorem place_eq_of_written (consistent : cs.isConsistent = true) {a b : Term}
    (written : .equal [a, b] ∈ cs.items) : cs.solution.place a = cs.solution.place b := by
  rw [isConsistent, Bool.and_eq_true] at consistent
  exact (Solution.solve_models consistent.2).satisfies _ written a (by simp) b (by simp)

theorem Gathers.areEqual (consistent : cs.isConsistent = true) (leaves : cs.Leaves p q r)
    (gathers : cs.Gathers r q m) : cs.solution.areEqual m p = true := by
  have same (f : Fraction) : cs.solution.areEqual f f = true := by simp [Solution.areEqual]
  cases leaves with
  | all nothing =>
      cases gathers with
      | first _ => exact same p
      | second zero =>
          rw [zero, nothing]
          exact same .zero
      | total _ _ some _ => exact absurd nothing some
  | nothing all =>
      cases gathers with
      | first zero =>
          rw [all, zero]
          exact same .zero
      | second _ =>
          rw [all]
          exact same q
      | total _ some _ _ => exact absurd rfl some
  | rest id some written =>
      cases gathers with
      | first zero => exact absurd zero some
      | second zero => cases zero
      | total last left _ both =>
          -- The two equations are about one sum, for a sum does not tell the order of its summands.
          rw [Term.ofSum_pair_comm some left] at written
          have old := place_eq_of_written consistent written
          have new := place_eq_of_written consistent both
          exact Solution.areEqual_of_place (new.trans old.symm)

theorem Leaves.isZero_of_one (leaves : cs.Leaves p .one r) : cs.solution.isZero r = true := by
  cases leaves with
  | all nothing => cases nothing
  -- Nothing is left, or what is left stands beside one in a sum.
  | nothing _ =>
      have orderly := Solution.solve_orderly cs.items
      exact (orderly.isZero_iff orderly.zero).mpr rfl
  | rest id some written =>
      obtain ⟨gs, sum, shape⟩ := Term.ofSum_pair some (nofun : Fraction.unknown id ≠ .zero)
      obtain ⟨before, after, parts, others⟩ := pair_parts shape
      rw [sum] at written
      exact Solution.solve_isZero_beside_one written (by simp [Constraint.terms]) parts
        (by simp [others])

end Constraints

theorem Kind.full_of_split_isReadOnly {k asked left : Kind} (outcome : k.split asked = .kind left)
    (writable : k.isReadOnly = false) (reads : asked ≠ .immutable)
    (looks : left.isReadOnly = true) : asked = .full := by
  revert outcome writable reads looks
  cases k <;> cases asked <;> cases left <;> decide

namespace Permission

variable {p r : Permission} {q : Request} {s : Solution} {l : Ledger}

theorem split_some (allowed : (p.kind s).split q.kind ≠ .impossible)
    (left : ((p.split q s).run l).1 = some r) :
    Shares.Combined p.shares q.permission.shares
        ((p.split q s).run l).2.constraints.Leaves r.shares ∧
      ∃ k, (p.kind s).split q.kind = .kind k ∧ r.readOnly = k.isReadOnly := by
  obtain ⟨-, combined⟩ := p.shares.combine_leaves q.permission.shares l
  rw [split_eq allowed] at left ⊢
  cases outcome : (p.kind s).split q.kind with
  | impossible => exact absurd outcome allowed
  | nothing =>
      rw [outcome] at left
      cases left
  | kind k =>
      rw [outcome] at left
      cases left
      exact ⟨combined, k, rfl, rfl⟩

section Flags

variable {S : Space} {cs : Constraints} {k : Kind} (made : q.Made S)
  (outcome : (p.kind s).split q.kind = .kind k) (writable : p.readOnly = false)
  (reads : q.kind ≠ .immutable)

include made reads in
theorem request_kind_ne_immutable : q.permission.kind cs.solution ≠ .immutable := by
  obtain ⟨readOnly, l, last, started⟩ := made.started
  rw [Ne, kind_immutable_iff, readOnly]
  rintro ⟨looks, positive⟩
  have kind : q.kind = .pure := by
    revert looks reads
    cases q.kind <;> decide
  have orderly := Solution.solve_orderly cs.items
  have nothing : q.permission.shares.below = .zero := started.looks kind
  rw [nothing, Constraints.solution, (orderly.isZero_iff orderly.zero).mpr rfl] at positive
  cases positive

include made outcome writable reads in
theorem remainder_kind_ne_immutable (flag : r.readOnly = k.isReadOnly)
    (below : cs.Leaves p.shares.below q.permission.shares.below r.shares.below) :
    r.kind cs.solution ≠ .immutable := by
  rw [Ne, kind_immutable_iff, flag]
  rintro ⟨looks, positive⟩
  -- Only what is left beside a full permission is for looking on, and that is nothing below.
  have full := Kind.full_of_split_isReadOnly outcome ((p.isReadOnly_kind s).trans writable) reads
    looks
  obtain ⟨-, l, last, started⟩ := made.started
  have one : q.permission.shares.below = .one := started.owns.mpr (.inl full)
  rw [one] at below
  rw [below.isZero_of_one] at positive
  cases positive

include made outcome writable reads in
theorem flags_apart (flag : r.readOnly = k.isReadOnly) :
    (r.readOnly && q.permission.readOnly) = false := by
  rw [flag, made.started.1, Bool.and_eq_false_iff, or_iff_not_imp_left, Bool.not_eq_false]
  intro looks
  rw [Kind.full_of_split_isReadOnly outcome ((p.isReadOnly_kind s).trans writable) reads looks]
  rfl

end Flags

/-- Merging what was split off into what was left restores the fractions, and the permission to
write unless the request took it. -/
theorem merge_restores_split (built : p.space.Built) (laid : p.shares.Laid) (made : q.Made p.space)
    (root : q.root = p.root) (s : Solution) (l : Ledger)
    (allowed : (p.kind s).split q.kind ≠ .impossible)
    (left : ((p.split q s).run l).1 = some r) :
    let next := ((p.split q s).run l).2
    let restored := (r.merge q.permission next.constraints.solution).run next
    r.mergeChecked q.permission next.constraints.solution =
        .ok (r.merge q.permission next.constraints.solution) ∧
      restored.1.shares.spots = p.shares.spots ∧
      (restored.2.constraints.isConsistent = true → ∀ spot ∈ p.shares.spots,
        restored.2.constraints.solution.areEqual (restored.1.shares.fractionAt spot)
          (p.shares.fractionAt spot) = true) ∧
      (p.readOnly = false → q.kind ≠ .immutable → restored.1.readOnly = false) := by
  intro next restored
  obtain ⟨combined, k, outcome, flag⟩ := split_some allowed left
  obtain ⟨inside, gathered⟩ := r.shares.combine_gathers q.permission.shares next
  have same : r.root = q.root := combined.root.trans root.symm
  refine ⟨if_pos same, gathered.spots_eq.trans combined.spots_eq, fun consistent spot among => ?_,
    fun writable reads => ?_⟩
  · have leaves := combined.spot built.grown laid among
    have grown : r.shares.space.Grown := combined.space ▸ built.grown
    have gathers := gathered.spot grown (combined.laid laid) (combined.spots_eq ▸ among)
    exact gathers.areEqual consistent (leaves.mono inside)
  · have fromRest := remainder_kind_ne_immutable made outcome writable reads flag combined.below
    have fromRequest : q.permission.kind next.constraints.solution ≠ .immutable :=
      request_kind_ne_immutable made reads
    have apart := flags_apart made outcome writable reads flag
    change (decide (r.kind next.constraints.solution = .immutable) ||
      decide (q.permission.kind next.constraints.solution = .immutable) ||
      (r.readOnly && q.permission.readOnly)) = false
    rw [apart]
    simp [next, fromRest, fromRequest]

theorem merge_restores_split_full_door :
    let p := Door.permission (.unknown 0) (.named 0) .one (.unknown 1) false
    let asked := (Door.request .full false).run
      ⟨⟨[.equal [.single (.unknown 1), .single .one]], none⟩, ⟨2⟩⟩
    let s := asked.2.constraints.solution
    let rest := (p.split asked.1 s).run asked.2
    ∃ r, rest.1 = some r ∧ r.readOnly = true ∧
      let restored := (r.merge asked.1.permission rest.2.constraints.solution).run rest.2
      restored.2.constraints.isConsistent = true ∧ restored.1.readOnly = false ∧
        ∀ spot ∈ p.shares.spots, restored.2.constraints.solution.areEqual
          (restored.1.shares.fractionAt spot) (p.shares.fractionAt spot) = true := by
  intro p asked s rest
  have present : rest.1.isSome = true := by decide +kernel
  let r := rest.1.getD p
  have left : rest.1 = some r :=
    (Option.some_get present).symm.trans (congrArg some (Option.get_eq_getD rest.1))
  have consistent : ((r.merge asked.1.permission rest.2.constraints.solution).run
      rest.2).2.constraints.isConsistent = true := by decide +kernel
  obtain ⟨-, -, restores, writable⟩ := merge_restores_split (p := p) (q := asked.1) Door.built
    (by decide +kernel) (.create _ _ _) rfl s asked.2 (by decide +kernel) left
  exact ⟨r, left, by decide +kernel, consistent, writable rfl (by decide +kernel),
    restores consistent⟩

end Permission

end Typestate
