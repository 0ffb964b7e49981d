import Mathlib.Logic.Function.Iterate
import Typestate.Proofs.Fraction.Monotonicity

set_option autoImplicit false

/-!
The rounds of solving. Each but the last merges classes or marks one, so there are no more of them
than there was room in the beginning. What they end with, if it is consistent, is closed under the
rules for constraints and for sums.
-/

namespace Typestate

namespace Solution

section Rounds

variable {constraints : List Constraint}

/-- What is known before the first round: the terms of the constraints, each by itself. -/
def start (constraints : List Constraint) : Solution :=
  (constraints.flatMap Constraint.terms).foldl track initial

/-- The rounds go on up to this one and end with the next, which meets a conflict or changes
nothing. -/
structure EndsAfter (constraints : List Constraint) (s : Solution) (rounds : Nat) : Prop where
  goesOn : ∀ k < rounds, ((round constraints)^[k + 1] s).conflict = none ∧
    (round constraints)^[k + 1] s ≠ (round constraints)^[k] s
  ends : ((round constraints)^[rounds + 1] s).conflict.isSome = true ∨
    (round constraints)^[rounds + 1] s = (round constraints)^[rounds] s

theorem EndsAfter.zero {s : Solution}
    (ends : (s.round constraints).conflict.isSome = true ∨ s.round constraints = s) :
    EndsAfter constraints s 0 :=
  ⟨nofun, ends⟩

theorem EndsAfter.succ {s : Solution} {rounds : Nat}
    (clean : (s.round constraints).conflict = none) (changed : s.round constraints ≠ s)
    (later : EndsAfter constraints (s.round constraints) rounds) :
    EndsAfter constraints s (rounds + 1) := by
  refine ⟨fun k less => ?_, later.ends⟩
  cases k with
  | zero => exact ⟨clean, changed⟩
  | succ k => exact later.goesOn k (by omega)

theorem Orderly.saturate_eq_rounds {s : Solution} (orderly : s.Orderly)
    (known : ∀ c ∈ constraints, ∀ t ∈ c.terms, s.knows t = true) :
    ∃ rounds ≤ s.room, EndsAfter constraints s rounds ∧
      s.saturate constraints = (Solution.round constraints)^[rounds + 1] s := by
  fun_induction Solution.saturate constraints s with
  | case1 s next conflict => exact ⟨0, Nat.zero_le _, .zero (.inl conflict), rfl⟩
  | case2 s next conflict less ih =>
      obtain ⟨advance, -⟩ := orderly.round known
      obtain ⟨rounds, bound, later, same⟩ := ih advance.orderly
        fun c member t among => advance.known t (known c member t among)
      have changed : next ≠ s := by
        intro equal
        rw [equal] at less
        omega
      have clean : next.conflict = none := by simpa using conflict
      exact ⟨rounds + 1, by omega, later.succ clean changed, same⟩
  | case3 s next conflict less =>
      -- A round that leaves all the room has changed nothing.
      obtain ⟨advance, -⟩ := orderly.round known
      have same := advance.settled (Nat.le_antisymm advance.room (Nat.le_of_not_lt less))
        (by simpa using conflict)
      exact ⟨0, Nat.zero_le _, .zero (.inr same), rfl⟩

theorem start_orderly (constraints : List Constraint) :
    (start constraints).Orderly ∧
      ∀ c ∈ constraints, ∀ t ∈ c.terms, (start constraints).knows t = true := by
  obtain ⟨orderly, known⟩ := initial_orderly.tracks (constraints.flatMap Constraint.terms)
  exact ⟨orderly, fun c member t among => known t (List.mem_flatMap.mpr ⟨c, member, among⟩)⟩

end Rounds

/-- All that the rule for a sum of at most one can derive from a solution, it shows already. -/
structure ClosedUnderSum (s : Solution) (fs : List Fraction) : Prop where
  zero : s.isZero (.sum fs) = true → ∀ f ∈ fs, s.isZero f = true
  nonZero : ∀ f ∈ fs, s.isNonZero f = true → s.isNonZero (.sum fs) = true
  one : ∀ (before : List Fraction) (f : Fraction) (after : List Fraction),
    fs = before ++ f :: after → s.isOne f = true →
      s.isOne (.sum fs) = true ∧ ∀ g ∈ before ++ after, s.isZero g = true
  alone : ∀ (before : List Fraction) (f : Fraction) (after : List Fraction),
    fs = before ++ f :: after → s.isZero f = false → (∀ g ∈ before ++ after, s.isZero g = true) →
      s.areEqual (.sum fs) f = true

/-- All that the rules for the constraints and the sums in them can derive from a solution, it
shows already, and it refutes none of the strict constraints. -/
structure Closed (constraints : List Constraint) (s : Solution) : Prop where
  equal : ∀ ts, .equal ts ∈ constraints → ∀ a ∈ ts, ∀ b ∈ ts, s.areEqual a b = true
  nonZero : ∀ t, .nonZero t ∈ constraints → s.isNonZero t = true
  atMost : ∀ a b, .atMost a b ∈ constraints →
    (s.isZero b = true → s.isZero a = true) ∧ (s.isNonZero a = true → s.isNonZero b = true) ∧
      (s.isOne a = true → s.isOne b = true)
  less : ∀ a b, .less a b ∈ constraints →
    s.isNonZero b = true ∧ s.isOne a = false ∧ s.areEqual a b = false
  sums : ∀ c ∈ constraints, ∀ fs, .sum fs ∈ c.terms → s.ClosedUnderSum fs

section Closure

variable {constraints : List Constraint} {s : Solution}

theorem Saturated.closedUnderSum (saturated : Saturated constraints s) (marked : s.Marked)
    (consistent : s.isConsistent = true) {fs : List Fraction} (member : fs ∈ s.sums) :
    s.ClosedUnderSum fs := by
  have orderly := saturated.orderly
  -- The solution is a reading of its own constraints, in which the sum is at most one.
  have bounded := saturated.bounded consistent member
  have sum : s.knows (.sum fs) = true := orderly.summands fs member _ List.mem_cons_self
  have zeroIff (f : Fraction) : s.place f = s.place (.single .zero) ↔ s.isZero f = true := by
    rw [isZero_fraction]
    exact orderly.place_fraction_iff rfl orderly.zero
  constructor
  case zero =>
    intro zeroSum f inside
    exact (zeroIff f).mp (bounded.zero ((orderly.place_zero_iff sum).mpr zeroSum) f inside)
  case nonZero =>
    exact fun f inside positive => saturated.isNonZero_sum consistent marked inside positive
  case one =>
    intro before f after parts live
    rw [isOne_fraction] at live
    obtain ⟨oneSum, others⟩ := bounded.one before f after parts
      ((orderly.place_fraction_iff rfl orderly.one).mpr live)
    exact ⟨orderly.isOne_of_place oneSum, fun g among => (zeroIff g).mp (others g among)⟩
  case alone =>
    intro before f after parts _ others
    exact areEqual_of_place
      (bounded.alone before f after parts fun g among => (zeroIff g).mpr (others g among))

theorem Saturated.closed (saturated : Saturated constraints s) (marked : s.Marked)
    (consistent : s.isConsistent = true) : Closed constraints s := by
  constructor
  case equal =>
    intro ts member a left b right
    have known := saturated.known _ member b right
    exact areEqual_of_place ((place_eq_iff known).mpr (saturated.settles _ member a left b right))
  case nonZero =>
    intro t member
    have known := saturated.known _ member t (by simp [Constraint.terms])
    exact (isNonZero_iff known).mpr (saturated.settles _ member)
  case atMost => exact fun a b member => saturated.settles _ member
  case less =>
    intro a b member
    obtain ⟨positive, notOne, notEqual⟩ := saturated.settles _ member
    have known := saturated.known _ member b (by simp [Constraint.terms])
    exact ⟨(isNonZero_iff known).mpr positive, notOne, notEqual⟩
  case sums =>
    intro c member fs among
    exact saturated.closedUnderSum marked consistent
      (saturated.orderly.sums fs (saturated.known c member _ among))

end Closure

/-- Solving takes no more rounds than there was room, and then one in which nothing changes or a
conflict is met. A consistent result is closed under all rules. -/
theorem solve_ends_closed (constraints : List Constraint) :
    (∃ rounds ≤ (start constraints).room, EndsAfter constraints (start constraints) rounds ∧
      solve constraints = (round constraints)^[rounds + 1] (start constraints)) ∧
    ((solve constraints).isConsistent = true → Closed constraints (solve constraints)) := by
  constructor
  · obtain ⟨orderly, known⟩ := start_orderly constraints
    exact orderly.saturate_eq_rounds known
  · intro consistent
    exact (saturated_of_isConsistent consistent).closed (solve_marked constraints) consistent

theorem solve_ends_closed_over_sum :
    let constraints : List Constraint :=
      [.equal [.single .one, .sum [.unknown 0, .named 0, .unknown 1]],
        .atMost (.single (.unknown 0)) (.single (.unknown 2)),
        .less (.single (.unknown 2)) (.single (.unknown 1)),
        .equal [.single (.unknown 2), .single .zero]]
    (solve constraints).isConsistent = true ∧
      (solve constraints).isZero (.single (.unknown 0)) = true ∧
      Closed constraints (solve constraints) := by
  intro constraints
  have consistent : (solve constraints).isConsistent = true := by decide +kernel
  exact ⟨consistent, by decide +kernel, (solve_ends_closed constraints).2 consistent⟩

end Solution

end Typestate
