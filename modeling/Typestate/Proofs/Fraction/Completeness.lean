import Typestate.Proofs.Fraction.Saturation

set_option autoImplicit false

/-!
A consistent solution is itself a reading of its constraints: every term is read as the class it is
in. So constraints are found consistent exactly if there is a reading of them, and a fraction is
found to be zero or one exactly if every reading makes it so.
-/

namespace Typestate

namespace Reading

variable {V : Type}

/-- The reading in which everything but zero is more than zero. -/
def filled (value : Term → V) : Reading V := ⟨value, fun v => v ≠ value (.single .zero)⟩

theorem eq_or_mem_of_append {fs before after before' after' : List Fraction} {f g : Fraction}
    (first : fs = before ++ f :: after) (second : fs = before' ++ g :: after') :
    (before = before' ∧ f = g ∧ after = after') ∨ g ∈ before ++ after ∧ f ∈ before' ++ after' := by
  rw [first, List.append_eq_append_iff] at second
  rcases second with ⟨between, shape, rest⟩ | ⟨between, shape, rest⟩
  · cases between with
    | nil =>
        obtain ⟨same, tails⟩ := List.cons_eq_cons.mp rest
        exact .inl ⟨by simpa using shape.symm, same, tails⟩
    | cons h tail =>
        obtain ⟨rfl, tails⟩ := List.cons_eq_cons.mp rest
        exact .inr (by simp [shape, tails])
  · cases between with
    | nil =>
        obtain ⟨same, tails⟩ := List.cons_eq_cons.mp rest
        exact .inl ⟨by simpa using shape, same.symm, tails.symm⟩
    | cons h tail =>
        obtain ⟨rfl, tails⟩ := List.cons_eq_cons.mp rest
        exact .inr (by simp [shape, tails])

section Filled

variable {value : Term → V} {fs : List Fraction}

theorem filled_bounded_of_spent (distinct : value (.single .zero) ≠ value (.single .one))
    (all : ∀ f ∈ fs, value f = value (.single .zero))
    (sum : value (.sum fs) = value (.single .zero)) : (filled value).Bounded fs := by
  refine ⟨fun _ => all, fun f member live => absurd (all f member) live, ?_, fun _ => sum, ?_⟩
  · intro before f after parts one
    have zero := all f (by simp [parts])
    exact absurd (zero.symm.trans one) distinct
  · intro before f after parts _
    exact sum.trans (all f (by simp [parts])).symm

theorem filled_bounded_of_alone (distinct : value (.single .zero) ≠ value (.single .one))
    {before after : List Fraction} {f : Fraction} (parts : fs = before ++ f :: after)
    (others : ∀ g ∈ before ++ after, value g = value (.single .zero))
    (sum : value (.sum fs) = value f) : (filled value).Bounded fs := by
  have all (zero : value f = value (.single .zero)) :
      ∀ g ∈ fs, value g = value (.single .zero) := by
    intro g member
    rw [parts, List.mem_append, List.mem_cons] at member
    rcases member with left | rfl | right
    · exact others g (List.mem_append_left _ left)
    · exact zero
    · exact others g (List.mem_append_right _ right)
  refine ⟨fun zero => all (sum ▸ zero), fun g member live zero => live (all (sum ▸ zero) g member),
    ?_, fun none => sum.trans (none f (by simp [parts])), ?_⟩
  · intro before' g after' parts' one
    -- A summand other than `f` is zero, so only `f` can be one.
    rcases eq_or_mem_of_append parts parts' with ⟨rfl, rfl, rfl⟩ | ⟨among, -⟩
    · exact ⟨sum.trans one, others⟩
    · exact absurd ((others g among).symm.trans one) distinct
  · intro before' g after' parts' others'
    rcases eq_or_mem_of_append parts parts' with ⟨rfl, rfl, rfl⟩ | ⟨among, among'⟩
    · exact sum
    · exact sum.trans ((others' f among').trans (others g among).symm)

theorem filled_bounded_of_several (sum : value (.sum fs) ≠ value (.single .zero))
    (small : ∀ f ∈ fs, value f ≠ value (.single .one))
    (live : ∃ f ∈ fs, value f ≠ value (.single .zero))
    (another : ∀ (before : List Fraction) (f : Fraction) (after : List Fraction),
      fs = before ++ f :: after → ∃ g ∈ before ++ after, value g ≠ value (.single .zero)) :
    (filled value).Bounded fs := by
  refine ⟨fun zero => absurd zero sum, fun _ _ _ => sum, ?_, ?_, ?_⟩
  · intro before f after parts one
    exact absurd one (small f (by simp [parts]))
  · intro none
    obtain ⟨f, member, nonzero⟩ := live
    exact absurd (none f member) nonzero
  · intro before f after parts others
    obtain ⟨g, among, nonzero⟩ := another before f after parts
    exact absurd (others g among) nonzero

end Filled

end Reading

namespace Solution

/-- A known term is read as its class, any other term as itself. -/
def place (s : Solution) (t : Term) : TermClass ⊕ Term :=
  match s.class? t with
  | some c => .inl c
  | none => .inr t

def reading (s : Solution) : Reading (TermClass ⊕ Term) := .filled s.place

section Places

variable {s : Solution}

theorem place_of_class? {t : Term} {c : TermClass} (found : s.class? t = some c) :
    s.place t = .inl c := by
  simp [place, found]

theorem place_of_not_knows {t : Term} (unknown : s.knows t ≠ true) : s.place t = .inr t := by
  have missing : s.class? t = none := by simpa [knows] using unknown
  simp [place, missing]

theorem place_eq_iff {t u : Term} (known : s.knows u = true) :
    s.place t = s.place u ↔ s.class? t = s.class? u := by
  obtain ⟨d, there⟩ := exists_class? known
  rw [place_of_class? there, there]
  cases found : s.class? t with
  | none => simp [place, found]
  | some c => simp [place, found]

theorem Orderly.place_zero_iff (orderly : s.Orderly) {t : Term} (known : s.knows t = true) :
    s.place t = s.place (.single .zero) ↔ s.isZero t = true := by
  rw [place_eq_iff orderly.zero, orderly.isZero_iff known]

theorem Orderly.place_one_iff (orderly : s.Orderly) {t : Term} (known : s.knows t = true) :
    s.place t = s.place (.single .one) ↔ s.isOne t = true := by
  rw [place_eq_iff orderly.one, orderly.isOne_iff known]

theorem Orderly.place_fraction_iff (orderly : s.Orderly) {f literal : Fraction}
    (kind : literal.isLiteral = true) (present : s.knows literal = true) :
    s.place f = s.place literal ↔ s.isLiteral f literal = true := by
  by_cases known : s.knows f = true
  · obtain ⟨c, found⟩ := exists_class? known
    have looked : s.isLiteral f literal = c.literals.contains literal := by simp [isLiteral, found]
    rw [place_eq_iff present, looked]
    exact (orderly.literal_iff kind found).symm
  · obtain ⟨d, there⟩ := exists_class? present
    have missing : s.class? f = none := by simpa [knows] using known
    rw [place_of_not_knows known, place_of_class? there, isLiteral, missing]
    constructor
    · rintro ⟨⟩
    · intro same
      rw [beq_iff_eq.mp same] at known
      exact absurd present known

theorem isZero_fraction (s : Solution) (f : Fraction) :
    s.isZero f = s.isLiteral f .zero := by
  unfold isZero isLiteral
  cases s.class? f <;> rfl

theorem isOne_fraction (s : Solution) (f : Fraction) : s.isOne f = s.isLiteral f .one := by
  unfold isOne isLiteral
  cases s.class? f <;> rfl

end Places

section Models

variable {constraints : List Constraint} {s : Solution}

theorem class_isConsistent (consistent : s.isConsistent = true) {c : TermClass}
    (member : c ∈ s.classes) : c.isConsistent = true := by
  simp only [isConsistent, Bool.and_eq_true, List.all_eq_true] at consistent
  exact consistent.2 c member

theorem Orderly.place_apart (orderly : s.Orderly) (consistent : s.isConsistent = true)
    {f g : Fraction} (first : f.isLiteral = true) (second : g.isLiteral = true)
    (same : s.place f = s.place g) : f = g := by
  by_cases known : s.knows g = true
  · obtain ⟨c, there⟩ := exists_class? known
    have found : s.class? f = some c := by rw [← there, ← place_eq_iff known, same]
    have labelled := orderly.labelled c (class?_mem there).1
    have inside : f ∈ c.literals := (labelled f).mpr ⟨first, (class?_mem found).2⟩
    have also : g ∈ c.literals := (labelled g).mpr ⟨second, (class?_mem there).2⟩
    have few := class_isConsistent consistent (class?_mem there).1
    simp only [TermClass.isConsistent, Bool.and_eq_true, decide_eq_true_eq] at few
    -- A consistent class has at most one literal.
    cases shape : c.literals with
    | nil => simp [shape] at inside
    | cons h rest =>
      cases rest with
      | nil =>
        rw [shape, List.mem_singleton] at inside also
        exact inside.trans also.symm
      | cons h' others => simp [shape] at few
  · rw [place_of_not_knows known] at same
    by_cases knownF : s.knows f = true
    · obtain ⟨c, found⟩ := exists_class? knownF
      rw [place_of_class? found] at same
      cases same
    · rw [place_of_not_knows knownF] at same
      exact Term.single.inj (Sum.inr.inj same)

theorem Orderly.reading_lawful (orderly : s.Orderly) (consistent : s.isConsistent = true) :
    s.reading.Lawful := by
  refine ⟨fun f g => orderly.place_apart consistent, fun zero => zero rfl,
    fun f positive same => ?_⟩
  have literal : f.isLiteral = true := by
    cases f <;> simp_all [Fraction.isPositive, Fraction.isLiteral]
  rw [orderly.place_apart consistent literal rfl same] at positive
  cases positive

theorem Orderly.place_ne_zero (orderly : s.Orderly) (consistent : s.isConsistent = true) {t : Term}
    (known : s.knows t = true) (marked : ∀ c, s.class? t = some c → c.nonZero = true) :
    s.place t ≠ s.place (.single .zero) := by
  intro same
  obtain ⟨c, found⟩ := exists_class? known
  have zero : c.literals.contains .zero = true :=
    (orderly.literal_iff rfl found).mpr ((place_eq_iff orderly.zero).mp same)
  have fine := class_isConsistent consistent (class?_mem found).1
  rw [TermClass.isConsistent, marked c found, zero] at fine
  simp at fine

theorem Saturated.satisfies (saturated : Saturated constraints s)
    (consistent : s.isConsistent = true) {c : Constraint} (member : c ∈ constraints) :
    s.reading.Satisfies c := by
  have orderly := saturated.orderly
  have known := saturated.known c member
  have settled := saturated.settles c member
  cases c with
  | equal ts =>
      intro a left b right
      exact (place_eq_iff (known b right)).mpr (settled a left b right)
  | nonZero t =>
      exact orderly.place_ne_zero consistent (known t (by simp [Constraint.terms])) settled
  | atMost x y =>
      have left := known x (by simp [Constraint.terms])
      have right := known y (by simp [Constraint.terms])
      have below : s.place y = s.place (.single .zero) → s.place x = s.place (.single .zero) := by
        rw [orderly.place_zero_iff left, orderly.place_zero_iff right]
        exact settled.1
      refine ⟨below, fun live zero => live (below zero), ?_⟩
      change s.place x = s.place (.single .one) → s.place y = s.place (.single .one)
      rw [orderly.place_one_iff left, orderly.place_one_iff right]
      exact settled.2.2
  | less x y =>
      have left := known x (by simp [Constraint.terms])
      have right := known y (by simp [Constraint.terms])
      obtain ⟨marked, notOne, notEqual⟩ := settled
      refine ⟨orderly.place_ne_zero consistent right marked, fun one => ?_, fun same => ?_⟩
      · rw [(orderly.place_one_iff left).mp one] at notOne
        cases notOne
      -- Terms in one place are in one class, and then they would have been found equal.
      · obtain ⟨c, found⟩ := exists_class? left
        have equal := (place_eq_iff right).mp same
        have inside : c.has y = true := by
          simpa [TermClass.has] using (class?_mem (equal.symm.trans found)).2
        simp [areEqual, sameClass, found, inside] at notEqual

theorem Saturated.bounded (saturated : Saturated constraints s)
    (consistent : s.isConsistent = true) {fs : List Fraction} (member : fs ∈ s.sums) :
    s.reading.Bounded fs := by
  have orderly := saturated.orderly
  have known := orderly.summands fs member
  have sum : s.knows (.sum fs) = true := known _ List.mem_cons_self
  have distinct := (orderly.reading_lawful consistent).zero_ne_one
  have zeroIff (f : Fraction) : s.place f = s.place (.single .zero) ↔ s.isZero f = true := by
    rw [isZero_fraction]
    exact orderly.place_fraction_iff rfl orderly.zero
  have oneIff (f : Fraction) : s.place f = s.place (.single .one) ↔ s.isOne f = true := by
    rw [isOne_fraction]
    exact orderly.place_fraction_iff rfl orderly.one
  -- One case for each way in which looking at the sum had nothing to add.
  cases saturated.settlesSum fs member with
  | zero zeroSum all =>
      exact Reading.filled_bounded_of_spent distinct
        (fun f inside => (zeroIff f).mpr (all f inside))
        ((orderly.place_zero_iff sum).mpr zeroSum)
  | one before f after parts live oneSum others =>
      refine Reading.filled_bounded_of_alone distinct parts
        (fun g among => (zeroIff g).mpr (others g among)) ?_
      rw [(orderly.place_one_iff sum).mpr oneSum, (oneIff f).mpr live]
  | alone small before f after parts others same =>
      refine Reading.filled_bounded_of_alone distinct parts
        (fun g among => (zeroIff g).mpr (others g among)) ?_
      exact (place_eq_iff (known f (by simp [parts]))).mpr same
  | several notZero small live another _ =>
      have nonzero {f : Fraction} (live : s.isZero f = false) :
          s.place f ≠ s.place (.single .zero) := by
        rw [Ne, zeroIff, live]
        exact Bool.false_ne_true
      refine Reading.filled_bounded_of_several ?_ ?_ ?_ ?_
      · rw [Ne, orderly.place_zero_iff sum, notZero]
        exact Bool.false_ne_true
      · intro f inside
        rw [Ne, oneIff, small f inside]
        exact Bool.false_ne_true
      · obtain ⟨f, inside, alive⟩ := live
        exact ⟨f, inside, nonzero alive⟩
      · intro before f after parts
        obtain ⟨g, among, alive⟩ := another before f after parts
        exact ⟨g, among, nonzero alive⟩

theorem Saturated.models (saturated : Saturated constraints s)
    (consistent : s.isConsistent = true) : s.reading.Models constraints := by
  refine ⟨saturated.orderly.reading_lawful consistent, fun c member t among => ?_,
    fun c member => saturated.satisfies consistent member⟩
  cases t with
  | single f => trivial
  | sum fs =>
      exact saturated.bounded consistent
        (saturated.orderly.sums fs (saturated.known c member _ among))

end Models

section Solving

variable {constraints : List Constraint}

theorem saturated_of_isConsistent (consistent : (solve constraints).isConsistent = true) :
    Saturated constraints (solve constraints) := by
  simp only [isConsistent, Bool.and_eq_true] at consistent
  exact solve_saturated (Option.isNone_iff_eq_none.mp consistent.1)

theorem solve_models (consistent : (solve constraints).isConsistent = true) :
    (solve constraints).reading.Models constraints :=
  (saturated_of_isConsistent consistent).models consistent

/-- Constraints are found consistent exactly if there is a reading of them. -/
theorem solve_isConsistent_iff :
    (solve constraints).isConsistent = true ↔
      ∃ (V : Type) (r : Reading V), r.Models constraints :=
  ⟨fun consistent => ⟨_, _, solve_models consistent⟩,
    fun ⟨_, _, models⟩ => (solve_sound models).isConsistent models.lawful⟩

theorem solve_isZero_iff (consistent : (solve constraints).isConsistent = true) (f : Fraction) :
    (solve constraints).isZero f = true ↔
      ∀ {V : Type} {r : Reading V}, r.Models constraints → r.value f = r.zero := by
  constructor
  · exact fun found _ _ models => (solve_sound models).isZero trivial found
  · intro always
    have orderly := (saturated_of_isConsistent consistent).orderly
    rw [isZero_fraction, ← orderly.place_fraction_iff rfl orderly.zero]
    exact always (solve_models consistent)

theorem solve_isOne_iff (consistent : (solve constraints).isConsistent = true) (f : Fraction) :
    (solve constraints).isOne f = true ↔
      ∀ {V : Type} {r : Reading V}, r.Models constraints → r.value f = r.one := by
  constructor
  · exact fun found _ _ models => (solve_sound models).isOne trivial found
  · intro always
    have orderly := (saturated_of_isConsistent consistent).orderly
    rw [isOne_fraction, ← orderly.place_fraction_iff rfl orderly.one]
    exact always (solve_models consistent)

end Solving

end Solution

end Typestate
