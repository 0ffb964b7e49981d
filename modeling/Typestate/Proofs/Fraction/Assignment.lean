import Typestate.Fraction.Ledger
import Typestate.Proofs.Fraction.Completeness
import Typestate.Proofs.Holding.Drawing

set_option autoImplicit false

/-!
Assignments of values to terms that meet a set of constraints, where everything but zero counts as
more than zero. A set is satisfiable exactly if some assignment meets it.
-/

namespace Typestate

variable {V : Type}

def Constraints.MetBy (cs : Constraints) (value : Term → V) : Prop :=
  cs.impossible = none ∧ (Reading.filled value).Models cs.items

/-- One fraction is no more than another as far as zero and one tell. -/
def Fits (value : Term → V) (f g : Fraction) : Prop :=
  (value g = value (.single .zero) → value f = value (.single .zero)) ∧
    (value f = value (.single .one) → value g = value (.single .one))

section Fits

variable {value : Term → V}

theorem Fits.refl (value : Term → V) (f : Fraction) : Fits value f f := ⟨id, id⟩

theorem Fits.trans {f g h : Fraction} (first : Fits value f g) (second : Fits value g h) :
    Fits value f h :=
  ⟨fun zero => first.1 (second.1 zero), fun one => second.2 (first.2 one)⟩

theorem Fits.of_eq {f g : Fraction} (same : value f = value g) : Fits value f g :=
  ⟨fun zero => same.trans zero, fun one => same.symm.trans one⟩

theorem Fits.map {W : Type} {i : V → W} (injective : Function.Injective i) {f g : Fraction}
    (fits : Fits value f g) : Fits (fun t => i (value t)) f g :=
  ⟨fun zero => congrArg i (fits.1 (injective zero)),
    fun one => congrArg i (fits.2 (injective one))⟩

theorem satisfies_atMost_iff {f g : Fraction} :
    (Reading.filled value).Satisfies (.atMost f g) ↔ Fits value f g :=
  ⟨fun satisfied => ⟨satisfied.1, satisfied.2.2⟩,
    fun fits => ⟨fits.1, fun live zero => live (fits.1 zero), fits.2⟩⟩

end Fits

namespace Constraints

section Adding

variable {value : Term → V} {cs : Constraints}

theorem mem_add {c d : Constraint} : d ∈ (cs.add c).items ↔ d ∈ cs.items ∨ d = c := by
  unfold add
  split
  · next present =>
      have inside : c ∈ cs.items := by simpa [contains] using present
      constructor
      · exact .inl
      · rintro (old | rfl)
        · exact old
        · exact inside
  · simp

theorem mem_append {other : Constraints} {d : Constraint} :
    d ∈ (cs ++ other).items ↔ d ∈ cs.items ∨ d ∈ other.items := by
  have folded (items : List Constraint) (cs : Constraints) :
      d ∈ (items.foldl add cs).items ↔ d ∈ cs.items ∨ d ∈ items := by
    induction items generalizing cs with
    | nil => simp
    | cons c rest ih => rw [List.foldl_cons, ih, mem_add, List.mem_cons, or_assoc]
  exact folded other.items cs

theorem impossible_append {other : Constraints} :
    (cs ++ other).impossible = cs.impossible.or other.impossible := rfl

theorem impossible_add {c : Constraint} : (cs.add c).impossible = cs.impossible := by
  unfold add
  split <;> rfl

theorem impossible_addEqual {a b : Term} : (cs.addEqual a b).impossible = cs.impossible := by
  unfold addEqual
  split
  · rfl
  · exact impossible_add

theorem isUnsatisfiable_eq_false_iff :
    cs.isUnsatisfiable = false ↔ ∃ (V : Type) (value : Term → V), cs.MetBy value := by
  simp only [isUnsatisfiable, isConsistent, isImpossible, solution, Bool.not_eq_false',
    Bool.and_eq_true, Bool.not_eq_true', Option.isSome_eq_false_iff, Option.isNone_iff_eq_none]
  constructor
  · rintro ⟨possible, consistent⟩
    exact ⟨_, _, possible, Solution.solve_models consistent⟩
  · rintro ⟨V, value, possible, models⟩
    exact ⟨possible, Solution.solve_isConsistent_iff.mpr ⟨V, _, models⟩⟩

theorem MetBy.sound (met : cs.MetBy value) : cs.solution.Sound (Reading.filled value) :=
  Solution.solve_sound met.2

theorem metBy_append {other : Constraints} :
    (cs ++ other).MetBy value ↔ cs.MetBy value ∧ other.MetBy value := by
  simp only [MetBy, impossible_append, Option.or_eq_none_iff]
  constructor
  · rintro ⟨⟨first, second⟩, models⟩
    refine ⟨⟨first, models.lawful, ?_, ?_⟩, ⟨second, models.lawful, ?_, ?_⟩⟩
    · exact fun c member => models.covers c (mem_append.mpr (.inl member))
    · exact fun c member => models.satisfies c (mem_append.mpr (.inl member))
    · exact fun c member => models.covers c (mem_append.mpr (.inr member))
    · exact fun c member => models.satisfies c (mem_append.mpr (.inr member))
  · rintro ⟨⟨first, models⟩, ⟨second, others⟩⟩
    refine ⟨⟨first, second⟩, models.lawful, fun c member => ?_, fun c member => ?_⟩
    · rcases mem_append.mp member with old | new
      · exact models.covers c old
      · exact others.covers c new
    · rcases mem_append.mp member with old | new
      · exact models.satisfies c old
      · exact others.satisfies c new

theorem metBy_add {c : Constraint} :
    (cs.add c).MetBy value ↔ cs.MetBy value ∧
      (∀ t ∈ c.terms, (Reading.filled value).Covers t) ∧ (Reading.filled value).Satisfies c := by
  simp only [MetBy, impossible_add]
  constructor
  · rintro ⟨first, models⟩
    refine ⟨⟨first, models.lawful, ?_, ?_⟩, ?_, ?_⟩
    · exact fun d member => models.covers d (mem_add.mpr (.inl member))
    · exact fun d member => models.satisfies d (mem_add.mpr (.inl member))
    · exact models.covers c (mem_add.mpr (.inr rfl))
    · exact models.satisfies c (mem_add.mpr (.inr rfl))
  · rintro ⟨⟨first, models⟩, covers, satisfied⟩
    refine ⟨first, models.lawful, fun d member => ?_, fun d member => ?_⟩
    · rcases mem_add.mp member with old | rfl
      · exact models.covers d old
      · exact covers
    · rcases mem_add.mp member with old | rfl
      · exact models.satisfies d old
      · exact satisfied

theorem MetBy.map {W : Type} {g : V → W} (injective : Function.Injective g)
    (met : cs.MetBy value) : cs.MetBy fun t => g (value t) := by
  obtain ⟨possible, models⟩ := met
  refine ⟨possible, ⟨?_, fun zero => zero rfl, ?_⟩, fun c member t among => ?_, fun c member => ?_⟩
  · exact fun f h first second same => models.lawful.apart f h first second (injective same)
  · exact fun f positive same => models.lawful.literal_positive f positive (injective same)
  · cases t with
    | single f => trivial
    | sum fs =>
        obtain ⟨zero, positive, one, none, alone⟩ := models.covers c member _ among
        constructor <;>
          simpa only [Reading.filled, Reading.zero, Reading.one, injective.eq_iff, ne_eq]
  · have satisfied := models.satisfies c member
    cases c <;>
      simpa only [Reading.Satisfies, Reading.filled, Reading.zero, Reading.one, injective.eq_iff,
        ne_eq] using satisfied

/-- An assignment that makes zero and one just of what the solution finds to be so. -/
structure Generic (cs : Constraints) (value : Term → V) : Prop where
  met : cs.MetBy value
  zero : ∀ f : Fraction, value f = value (.single .zero) → cs.solution.isZero f = true
  one : ∀ f : Fraction, value f = value (.single .one) → cs.solution.isOne f = true

theorem Generic.map {W : Type} {i : V → W} (injective : Function.Injective i)
    (generic : cs.Generic value) : cs.Generic fun t => i (value t) :=
  ⟨generic.met.map injective, fun f zero => generic.zero f (injective zero),
    fun f one => generic.one f (injective one)⟩

/-- The solution itself, read as an assignment, makes nothing zero or one that it does not find
so. -/
theorem generic_place (satisfiable : cs.isUnsatisfiable = false) : cs.Generic cs.solution.place := by
  obtain ⟨V, value, met⟩ := isUnsatisfiable_eq_false_iff.mp satisfiable
  have consistent := Solution.solve_isConsistent_iff.mpr ⟨V, _, met.2⟩
  have orderly := (Solution.saturated_of_isConsistent consistent).orderly
  refine ⟨⟨met.1, Solution.solve_models consistent⟩, fun f same => ?_, fun f same => ?_⟩
  · rw [Solution.isZero_fraction]
    exact (orderly.place_fraction_iff rfl orderly.zero).mp same
  · rw [Solution.isOne_fraction]
    exact (orderly.place_fraction_iff rfl orderly.one).mp same

theorem exists_generic (satisfiable : cs.isUnsatisfiable = false) :
    ∃ (W : Type) (other : Term → W), cs.Generic other := ⟨_, _, generic_place satisfiable⟩

theorem MetBy.zero_ne_one (met : cs.MetBy value) :
    value (.single .zero) ≠ value (.single .one) := met.2.lawful.zero_ne_one

theorem MetBy.zero_fits (met : cs.MetBy value) (f : Fraction) : Fits value .zero f :=
  ⟨fun _ => rfl, fun one => absurd one met.zero_ne_one⟩

theorem metBy_addAtMost {f g : Fraction} :
    (cs.addAtMost f g).MetBy value ↔ cs.MetBy value ∧ Fits value f g := by
  unfold addAtMost
  split
  · next known =>
      refine ⟨fun met => ⟨met, ?_⟩, And.left⟩
      simp only [Bool.or_eq_true, decide_eq_true_eq, Term.single.injEq] at known
      rcases known with same | zero
      · exact .of_eq (by rw [same])
      · rw [zero]
        exact met.zero_fits g
  · rw [metBy_add, satisfies_atMost_iff]
    have covers : ∀ t ∈ (Constraint.atMost (.single f) (.single g)).terms,
        (Reading.filled value).Covers t := by simp [Constraint.terms, Reading.Covers]
    exact ⟨fun both => ⟨both.1, both.2.2⟩, fun both => ⟨both.1, covers, both.2⟩⟩

theorem metBy_addNonZero {f : Fraction} :
    (cs.addNonZero f).MetBy value ↔ cs.MetBy value ∧ value f ≠ value (.single .zero) := by
  unfold addNonZero
  split
  · next known =>
      refine ⟨fun met => ⟨met, ?_⟩, And.left⟩
      exact met.2.lawful.literal_positive f (by simpa [Term.fraction?] using known)
  · rw [metBy_add]
    have covers : ∀ t ∈ (Constraint.nonZero (.single f)).terms,
        (Reading.filled value).Covers t := by simp [Constraint.terms, Reading.Covers]
    exact ⟨fun both => ⟨both.1, both.2.2⟩, fun both => ⟨both.1, covers, both.2⟩⟩

theorem metBy_addEqual_sum {f : Fraction} {gs : List Fraction} :
    (cs.addEqual f (.sum gs)).MetBy value ↔ cs.MetBy value ∧
      (Reading.filled value).Bounded gs ∧ value f = value (.sum gs) := by
  have different : (Term.single f) ≠ .sum gs := nofun
  rw [addEqual, if_neg different, metBy_add]
  constructor
  · rintro ⟨met, covers, satisfied⟩
    exact ⟨met, covers (.sum gs) (by simp [Constraint.terms]),
      satisfied f (by simp) (.sum gs) (by simp)⟩
  · rintro ⟨met, bounded, same⟩
    refine ⟨met, fun t member => ?_, fun a left b right => ?_⟩
    · cases t with
      | single g => trivial
      | sum hs =>
          have summands : hs = gs := by simpa [Constraint.terms] using member
          rwa [summands]
    · have single (t : Term) (member : t ∈ [.single f, .sum gs]) : value t = value f := by
        rcases List.mem_cons.mp member with rfl | last
        · rfl
        · rw [List.mem_singleton.mp last, same]
      exact (single a left).trans (single b right).symm

theorem not_metBy_declareImpossible (reason : String) :
    ¬(cs.declareImpossible reason).MetBy value := by
  rintro ⟨possible, -⟩
  simp [declareImpossible] at possible

end Adding

end Constraints

/-- A literal, or an unknown that a supply at the given number has drawn. -/
def Fraction.IsDrawn (n : Nat) : Fraction → Prop
  | .unknown id => id < n
  | _ => True

def Term.IsDrawn (n : Nat) (t : Term) : Prop := ∀ f ∈ t.fractions, f.IsDrawn n

def Constraints.IsDrawn (n : Nat) (cs : Constraints) : Prop :=
  ∀ c ∈ cs.items, ∀ t ∈ c.terms, t.IsDrawn n

theorem Fraction.IsBelow.isDrawn {n : Nat} {f : Fraction} (below : f.IsBelow n) : f.IsDrawn n := by
  cases f with
  | unknown id => exact below
  | zero | one | named id => trivial

theorem Fraction.IsDrawn.mono {n m : Nat} {f : Fraction} (drawn : f.IsDrawn n) (more : n ≤ m) :
    f.IsDrawn m := by
  cases f with
  | unknown id => exact Nat.lt_of_lt_of_le drawn more
  | zero | one | named id => trivial

theorem Term.isDrawn_single {n : Nat} {f : Fraction} : (Term.single f).IsDrawn n ↔ f.IsDrawn n := by
  simp [Term.IsDrawn, Term.fractions]

/-- Two assignments that differ at most in what is yet to be drawn. -/
def Agree (n : Nat) (value other : Term → V) : Prop := ∀ t, t.IsDrawn n → other t = value t

section Agree

variable {n m : Nat} {value other : Term → V}

theorem Agree.refl (n : Nat) (value : Term → V) : Agree n value value := fun _ _ => rfl

theorem Agree.trans {last : Term → V} (first : Agree n value other) (more : n ≤ m)
    (second : Agree m other last) : Agree n value last :=
  fun t drawn => (second t fun f member => (drawn f member).mono more).trans (first t drawn)

theorem Agree.fraction (agree : Agree n value other) {f : Fraction} (drawn : f.IsDrawn n) :
    other f = value f := agree f (Term.isDrawn_single.mpr drawn)

theorem Agree.zero (agree : Agree n value other) : other (.single .zero) = value (.single .zero) :=
  agree.fraction (f := .zero) trivial

theorem Agree.one (agree : Agree n value other) : other (.single .one) = value (.single .one) :=
  agree.fraction (f := .one) trivial

theorem Fits.agree {f g : Fraction} (fits : Fits value f g) (agree : Agree n value other)
    (left : f.IsDrawn n) (right : g.IsDrawn n) : Fits other f g := by
  unfold Fits
  rw [agree.fraction left, agree.fraction right, agree.zero, agree.one]
  exact fits

section Congruence

variable (zero : other (.single .zero) = value (.single .zero))
  (one : other (.single .one) = value (.single .one))

include zero one

theorem Reading.Bounded.congr {fs : List Fraction} (bounded : (filled value).Bounded fs)
    (sum : other (.sum fs) = value (.sum fs)) (summand : ∀ f ∈ fs, other f = value f) :
    (filled other).Bounded fs := by
  -- Bounds only ask which summands are zero or one, and both assignments agree on that.
  have zeros (gs : List Fraction) (inside : ∀ g ∈ gs, g ∈ fs) :
      (∀ g ∈ gs, other g = other (.single .zero)) ↔ ∀ g ∈ gs, value g = value (.single .zero) := by
    refine forall₂_congr fun g member => ?_
    rw [summand g (inside g member), zero]
  have rest {before after : List Fraction} {f : Fraction} (parts : fs = before ++ f :: after) :
      (∀ g ∈ before ++ after, g ∈ fs) ∧ f ∈ fs :=
    ⟨fun g member => parts ▸ List.perm_middle.mem_iff.mpr (List.mem_cons_of_mem f member),
      by simp [parts]⟩
  refine ⟨fun none => ?_, fun f member live none => ?_, ?_, fun none => ?_, ?_⟩
  · refine (zeros fs fun _ => id).mpr (bounded.zero ?_)
    exact (sum.symm.trans none).trans zero
  · refine bounded.positive f member (fun same => live ?_) ((sum.symm.trans none).trans zero)
    exact (summand f member).trans (same.trans zero.symm)
  · intro before f after parts all
    obtain ⟨total, others⟩ := bounded.one before f after parts
      (((summand f (rest parts).2).symm.trans all).trans one)
    exact ⟨sum.trans (total.trans one.symm), (zeros _ (rest parts).1).mpr others⟩
  · exact (sum.trans (bounded.none ((zeros fs fun _ => id).mp none))).trans zero.symm
  · intro before f after parts others
    have alone := bounded.alone before f after parts ((zeros _ (rest parts).1).mp others)
    exact sum.trans (alone.trans (summand f (rest parts).2).symm)

theorem Reading.Satisfies.congr {c : Constraint} (satisfied : (filled value).Satisfies c)
    (term : ∀ t ∈ c.terms, other t = value t) : (filled other).Satisfies c := by
  cases c with
  | equal ts =>
      intro a left b right
      exact (term a left).trans ((satisfied a left b right).trans (term b right).symm)
  | nonZero u =>
      intro same
      exact satisfied (((term u (by simp [Constraint.terms])).symm.trans same).trans zero)
  | atMost a b =>
      have left := term a (by simp [Constraint.terms])
      have right := term b (by simp [Constraint.terms])
      simp only [Reading.Satisfies, Reading.filled, Reading.zero, Reading.one, left, right, zero,
        one]
      exact satisfied
  | less a b =>
      have left := term a (by simp [Constraint.terms])
      have right := term b (by simp [Constraint.terms])
      simp only [Reading.Satisfies, Reading.filled, Reading.one, left, right, zero, one]
      exact satisfied

end Congruence

theorem Constraints.MetBy.agree {cs : Constraints} (met : cs.MetBy value) (drawn : cs.IsDrawn n)
    (agree : Agree n value other) : cs.MetBy other := by
  obtain ⟨possible, models⟩ := met
  -- Literals are below every bound.
  have literal (f : Fraction) (kind : f.isLiteral = true) : other f = value f :=
    agree.fraction (by cases f <;> simp_all [Fraction.isLiteral, Fraction.IsDrawn])
  have lawful : (Reading.filled other).Lawful := by
    refine ⟨fun f g first second same => ?_, fun zero => zero rfl, fun f positive same => ?_⟩
    · refine models.lawful.apart f g first second ?_
      exact (literal f first).symm.trans (same.trans (literal g second))
    · have kind : f.isLiteral = true := by
        cases f <;> simp_all [Fraction.isPositive, Fraction.isLiteral]
      exact models.lawful.literal_positive f positive
        ((literal f kind).symm.trans (same.trans agree.zero))
  refine ⟨possible, lawful, fun c member t among => ?_, fun c member => ?_⟩
  · cases t with
    | single f => trivial
    | sum fs =>
        have known := drawn c member _ among
        exact Reading.Bounded.congr agree.zero agree.one (models.covers c member _ among)
          (agree _ known) fun f inside => agree.fraction (known f inside)
  · exact (models.satisfies c member).congr agree.zero agree.one
      fun t among => agree t (drawn c member t among)

end Agree

end Typestate
