import Mathlib.Algebra.Order.BigOperators.Group.List
import Mathlib.Algebra.Order.Ring.Rat
import Mathlib.Tactic.FieldSimp
import Mathlib.Tactic.Linarith
import Mathlib.Tactic.NormNum
import Mathlib.Tactic.Positivity
import Typestate.Proofs.Fraction.Soundness

set_option autoImplicit false

/-!
Valuations: numbers between zero and one for fractions, under which terms are sums of numbers and
constraints compare them. Solving never contradicts a valuation.
-/

namespace Typestate

structure Valuation where
  number : Fraction → ℚ
  nonneg : ∀ f, 0 ≤ number f
  le_one : ∀ f, number f ≤ 1
  zero : number .zero = 0
  one : number .one = 1
  named_pos : ∀ id, 0 < number (.named id)
  named_lt_one : ∀ id, number (.named id) < 1
  named_injective : ∀ i j, number (.named i) = number (.named j) → i = j

namespace Valuation

def value (v : Valuation) : Term → ℚ
  | .single f => v.number f
  | .sum fs => (fs.map v.number).sum

def Satisfies (v : Valuation) : Constraint → Prop
  | .equal ts => ∀ a ∈ ts, ∀ b ∈ ts, v.value a = v.value b
  | .atMost a b => v.value a ≤ v.value b
  | .less a b => v.value a < v.value b
  | .nonZero t => 0 < v.value t

def reading (v : Valuation) : Reading ℚ := ⟨v.value, fun q => 0 < q⟩

theorem reading_zero (v : Valuation) : v.reading.zero = 0 := v.zero

theorem reading_one (v : Valuation) : v.reading.one = 1 := v.one

theorem reading_lawful (v : Valuation) : v.reading.Lawful := by
  refine ⟨?_, ?_, ?_⟩
  -- The constants have different numbers, which lie strictly between zero and one.
  · intro f g first second same
    change v.number f = v.number g at same
    cases f with
    | unknown => simp [Fraction.isLiteral] at first
    | zero =>
        cases g with
        | unknown => simp [Fraction.isLiteral] at second
        | zero => rfl
        | one => linarith [v.zero, v.one]
        | named j => linarith [v.zero, v.named_pos j]
    | one =>
        cases g with
        | unknown => simp [Fraction.isLiteral] at second
        | zero => linarith [v.zero, v.one]
        | one => rfl
        | named j => linarith [v.one, v.named_lt_one j]
    | named i =>
        cases g with
        | unknown => simp [Fraction.isLiteral] at second
        | zero => linarith [v.zero, v.named_pos i]
        | one => linarith [v.one, v.named_lt_one i]
        | named j => rw [v.named_injective i j same]
  · rw [reading_zero]
    exact lt_irrefl (0 : ℚ)
  · intro f positive
    change 0 < v.number f
    cases f with
    | one => linarith [v.one]
    | named i => exact v.named_pos i
    | zero | unknown => simp [Fraction.isPositive] at positive

theorem total_nonneg (v : Valuation) (fs : List Fraction) : 0 ≤ (fs.map v.number).sum := by
  apply List.sum_nonneg
  intro q member
  obtain ⟨f, -, rfl⟩ := List.mem_map.mp member
  exact v.nonneg f

theorem number_le_total (v : Valuation) {fs : List Fraction} {f : Fraction} (member : f ∈ fs) :
    v.number f ≤ (fs.map v.number).sum := by
  apply List.single_le_sum
  · intro q inside
    obtain ⟨g, -, rfl⟩ := List.mem_map.mp inside
    exact v.nonneg g
  · exact List.mem_map_of_mem member

theorem total_eq_zero (v : Valuation) {fs : List Fraction} (zero : ∀ f ∈ fs, v.number f = 0) :
    (fs.map v.number).sum = 0 := by
  apply List.sum_eq_zero
  intro q member
  obtain ⟨f, inside, rfl⟩ := List.mem_map.mp member
  exact zero f inside

theorem total_split (v : Valuation) (before : List Fraction) (f : Fraction)
    (after : List Fraction) :
    ((before ++ f :: after).map v.number).sum =
      v.number f + ((before ++ after).map v.number).sum := by
  simp only [List.map_append, List.map_cons, List.sum_append, List.sum_cons]
  linarith

theorem reading_bounded (v : Valuation) {fs : List Fraction} (bound : v.value (.sum fs) ≤ 1) :
    v.reading.Bounded fs := by
  change (fs.map v.number).sum ≤ 1 at bound
  refine ⟨?_, ?_, ?_, ?_, ?_⟩
  · intro zero f member
    rw [reading_zero] at zero ⊢
    change (fs.map v.number).sum = 0 at zero
    change v.number f = 0
    linarith [v.nonneg f, v.number_le_total member]
  · intro f member positive
    change 0 < v.number f at positive
    change 0 < (fs.map v.number).sum
    linarith [v.number_le_total member]
  -- A summand of one leaves nothing for the others.
  · intro before f after parts one
    subst parts
    rw [reading_one] at one ⊢
    change v.number f = 1 at one
    rw [total_split] at bound
    have rest := v.total_nonneg (before ++ after)
    constructor
    · change ((before ++ f :: after).map v.number).sum = 1
      rw [total_split]
      linarith
    · intro g member
      rw [reading_zero]
      change v.number g = 0
      linarith [v.nonneg g, v.number_le_total member]
  · intro zero
    rw [reading_zero] at zero ⊢
    exact v.total_eq_zero zero
  · intro before f after parts zero
    subst parts
    rw [reading_zero] at zero
    change ((before ++ f :: after).map v.number).sum = v.number f
    rw [total_split, v.total_eq_zero zero]
    linarith

theorem reading_covers (v : Valuation) {t : Term} (bound : v.value t ≤ 1) :
    v.reading.Covers t := by
  cases t with
  | single f => trivial
  | sum fs => exact v.reading_bounded bound

theorem value_nonneg (v : Valuation) (t : Term) : 0 ≤ v.value t := by
  cases t with
  | single f => exact v.nonneg f
  | sum fs => exact v.total_nonneg fs

theorem reading_satisfies (v : Valuation) {c : Constraint}
    (bounded : ∀ t ∈ c.terms, v.value t ≤ 1) (satisfied : v.Satisfies c) :
    v.reading.Satisfies c := by
  cases c with
  | equal ts => exact satisfied
  | nonZero t => exact satisfied
  | atMost a b =>
      have upper := bounded b (by simp [Constraint.terms])
      have lower := v.value_nonneg a
      change v.value a ≤ v.value b at satisfied
      refine ⟨?_, ?_, ?_⟩
      · rw [reading_zero]
        change v.value b = 0 → v.value a = 0
        intro zero
        linarith
      · exact fun positive => lt_of_lt_of_le positive satisfied
      · rw [reading_one]
        change v.value a = 1 → v.value b = 1
        intro one
        linarith
  | less a b =>
      have upper := bounded b (by simp [Constraint.terms])
      change v.value a < v.value b at satisfied
      refine ⟨lt_of_le_of_lt (v.value_nonneg a) satisfied, ?_, satisfied.ne⟩
      rw [reading_one]
      change v.value a ≠ 1
      linarith

theorem reading_models (v : Valuation) {constraints : List Constraint}
    (bounded : ∀ c ∈ constraints, ∀ t ∈ c.terms, v.value t ≤ 1)
    (satisfied : ∀ c ∈ constraints, v.Satisfies c) : v.reading.Models constraints where
  lawful := v.reading_lawful
  covers c member t among := v.reading_covers (bounded c member t among)
  satisfies c member := v.reading_satisfies (bounded c member) (satisfied c member)

/-- Given numbers for the unknown fractions, and unit fractions for the named ones. -/
def ofUnknowns (number : Nat → ℚ) (nonneg : ∀ id, 0 ≤ number id) (le_one : ∀ id, number id ≤ 1) :
    Valuation where
  number
    | .zero => 0
    | .one => 1
    | .named id => 1 / (id + 2)
    | .unknown id => number id
  nonneg f := by
    cases f with
    | zero | one => norm_num
    | named id => positivity
    | unknown id => exact nonneg id
  le_one f := by
    cases f with
    | zero | one => norm_num
    | named id =>
        rw [div_le_one (by positivity)]
        linarith [Nat.cast_nonneg (α := ℚ) id]
    | unknown id => exact le_one id
  zero := rfl
  one := rfl
  named_pos id := by positivity
  named_lt_one id := by
    rw [div_lt_one (by positivity)]
    linarith [Nat.cast_nonneg (α := ℚ) id]
  named_injective i j same := by
    field_simp at same
    have equal : (i : ℚ) = j := by linarith
    exact_mod_cast equal

end Valuation

/-- A set of constraints that some valuation satisfies is never found to be contradictory, and all
that is derived from it is true under the valuation, of terms in the set and of others. -/
theorem Solution.solve_agrees_with_valuation (v : Valuation) (constraints : List Constraint)
    (bounded : ∀ c ∈ constraints, ∀ t ∈ c.terms, v.value t ≤ 1)
    (satisfied : ∀ c ∈ constraints, v.Satisfies c) :
    (solve constraints).isConsistent = true ∧ (solve constraints).conflict = none ∧
      (∀ t, v.value t ≤ 1 →
        ((solve constraints).isZero t = true → v.value t = 0) ∧
        ((solve constraints).isOne t = true → v.value t = 1) ∧
        ((solve constraints).isNonZero t = true → 0 < v.value t)) ∧
      (∀ a b, v.value a ≤ 1 → v.value b ≤ 1 →
        (solve constraints).areEqual a b = true → v.value a = v.value b) ∧
      (∀ f, v.number ((solve constraints).representative f) = v.number f) ∧
      (∀ cs : Constraints, cs.items = constraints → cs.isImpossible = false →
        cs.isUnsatisfiable = false) := by
  have lawful := v.reading_lawful
  have sound := Solution.solve_sound (v.reading_models bounded satisfied)
  have consistent := sound.isConsistent lawful
  refine ⟨consistent, sound.conflict, ?_, ?_, sound.representative, ?_⟩
  · intro t bound
    have covers := v.reading_covers bound
    exact ⟨fun zero => (sound.isZero covers zero).trans v.zero,
      fun one => (sound.isOne covers one).trans v.one, sound.isNonZero lawful covers⟩
  · intro a b left right
    exact sound.areEqual (v.reading_covers left) (v.reading_covers right)
  · intro cs items possible
    simp [Constraints.isUnsatisfiable, Constraints.isConsistent, Constraints.solution, items,
      possible, consistent]

theorem Solution.solve_agrees_with_halves :
    let v := Valuation.ofUnknowns
      (fun id => if id = 0 then 3 / 4 else if id = 1 then 1 / 4 else 1 / 2)
      (by intro id; split_ifs <;> norm_num)
      (by intro id; split_ifs <;> norm_num)
    let constraints : List Constraint :=
      [.equal [.single (.unknown 0), .sum [.unknown 2, .zero, .unknown 1]],
        .less (.single (.unknown 1)) (.single (.named 0)), .nonZero (.single (.unknown 3)),
        .atMost (.single (.named 0)) (.sum [.unknown 1, .unknown 2])]
    (∀ c ∈ constraints, ∀ t ∈ c.terms, v.value t ≤ 1) ∧
      (∀ c ∈ constraints, v.Satisfies c) ∧ (solve constraints).isConsistent = true := by
  intro v constraints
  have bounded : ∀ c ∈ constraints, ∀ t ∈ c.terms, v.value t ≤ 1 := by
    simp [constraints, Constraint.terms, Valuation.value, v, Valuation.ofUnknowns]
    norm_num
  have satisfied : ∀ c ∈ constraints, v.Satisfies c := by
    simp [constraints, Valuation.Satisfies, Valuation.value, v, Valuation.ofUnknowns]
    norm_num
  exact ⟨bounded, satisfied, (solve_agrees_with_valuation v constraints bounded satisfied).1⟩

end Typestate
