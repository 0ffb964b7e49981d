import Typestate.Fraction.Constraints

set_option autoImplicit false

/-!
Readings: a value for every term, and which of the values are more than zero. A reading does not
have to be about numbers. It only has to tell literals apart, and what it makes of a sum has to fit
what it makes of the summands.
-/

namespace Typestate

structure Reading (V : Type) where
  value : Term → V
  positive : V → Prop

namespace Reading

variable {V : Type}

def zero (r : Reading V) : V := r.value (.single .zero)

def one (r : Reading V) : V := r.value (.single .one)

structure Lawful (r : Reading V) : Prop where
  apart : ∀ f g : Fraction, f.isLiteral = true → g.isLiteral = true →
    r.value f = r.value g → f = g
  zero_positive : ¬r.positive r.zero
  literal_positive : ∀ f : Fraction, f.isPositive = true → r.positive (r.value f)

/-- The value of a sum of at most one. -/
structure Bounded (r : Reading V) (fs : List Fraction) : Prop where
  zero : r.value (.sum fs) = r.zero → ∀ f ∈ fs, r.value f = r.zero
  positive : ∀ f ∈ fs, r.positive (r.value f) → r.positive (r.value (.sum fs))
  one : ∀ (before : List Fraction) (f : Fraction) (after : List Fraction),
    fs = before ++ f :: after → r.value f = r.one →
    r.value (.sum fs) = r.one ∧ ∀ g ∈ before ++ after, r.value g = r.zero
  none : (∀ f ∈ fs, r.value f = r.zero) → r.value (.sum fs) = r.zero
  alone : ∀ (before : List Fraction) (f : Fraction) (after : List Fraction),
    fs = before ++ f :: after → (∀ g ∈ before ++ after, r.value g = r.zero) → r.value (.sum fs) = r.value f

def Covers (r : Reading V) : Term → Prop
  | .single _ => True
  | .sum fs => r.Bounded fs

/-- Only what follows from an order is asked of constraints that speak of one. -/
def Satisfies (r : Reading V) : Constraint → Prop
  | .equal ts => ∀ a ∈ ts, ∀ b ∈ ts, r.value a = r.value b
  | .nonZero t => r.positive (r.value t)
  | .atMost a b =>
      (r.value b = r.zero → r.value a = r.zero) ∧
        (r.positive (r.value a) → r.positive (r.value b)) ∧
        (r.value a = r.one → r.value b = r.one)
  | .less a b => r.positive (r.value b) ∧ r.value a ≠ r.one ∧ r.value a ≠ r.value b

/-- A lawful reading under which all constraints hold and the sums in them are at most one. -/
structure Models (r : Reading V) (constraints : List Constraint) : Prop where
  lawful : r.Lawful
  covers : ∀ c ∈ constraints, ∀ t ∈ c.terms, r.Covers t
  satisfies : ∀ c ∈ constraints, r.Satisfies c

theorem Lawful.zero_ne_one {r : Reading V} (lawful : r.Lawful) : r.zero ≠ r.one := by
  intro same
  have equal := lawful.apart .zero .one rfl rfl same
  cases equal

end Reading

/-- A class all of whose members have one value, and whose marks are right about it. -/
structure TermClass.Sound {V : Type} (r : Reading V) (c : TermClass) : Prop where
  same : ∀ a ∈ c.members, ∀ b ∈ c.members, r.value a = r.value b
  literal : ∀ f ∈ c.literals, f.isLiteral = true ∧ .single f ∈ c.members
  nodup : c.literals.Nodup
  positive : c.nonZero = true → ∀ a ∈ c.members, r.positive (r.value a)

/-- A solution that says nothing a reading does not bear out. -/
structure Solution.Sound {V : Type} (r : Reading V) (s : Solution) : Prop where
  classes : ∀ c ∈ s.classes, c.Sound r
  sums : ∀ fs ∈ s.sums, r.Bounded fs
  conflict : s.conflict = none

end Typestate
