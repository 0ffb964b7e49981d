import Typestate.Proofs.Fraction.Monotonicity
import Typestate.Proofs.Fraction.Valuation

set_option autoImplicit false

/-!
Constraints that only say which fractions are equal and which are more than zero. Of these, solving
finds out everything: from a consistent solution come valuations that tell apart what it does not
find equal, and that take to zero what it does not find to be more.
-/

namespace Typestate

/-- Whether a constraint says of single fractions that they are equal, or of one that it is more
than zero. -/
def Constraint.isPlain : Constraint → Bool
  | .equal ts => ts.all fun t => t.fraction?.isSome
  | .nonZero t => t.fraction?.isSome
  | .atMost _ _ | .less _ _ => false

theorem Constraint.exists_single {c : Constraint} (plain : c.isPlain = true) {t : Term}
    (among : t ∈ c.terms) : ∃ f : Fraction, t = f := by
  have single : t.fraction?.isSome = true := by
    cases c with
    | equal ts => exact List.all_eq_true.mp plain t among
    | nonZero u => exact List.mem_singleton.mp among ▸ plain
    | atMost | less => cases plain
  cases t with
  | single f => exact ⟨f, rfl⟩
  | sum fs => cases single

namespace Valuation

/-- A number of its own for every fraction; only the absent one, if it is an unknown, is at zero. -/
def spread (absent : Fraction) : Valuation :=
  ofUnknowns (fun id => if .unknown id = absent then 0 else 2 / (2 * id + 3))
    (fun id => by split_ifs <;> positivity)
    (fun id => by
      split_ifs
      · norm_num
      · rw [div_le_one (by positivity)]
        linarith [Nat.cast_nonneg (α := ℚ) id])

theorem spread_unknown {absent : Fraction} {id : Nat} (present : .unknown id ≠ absent) :
    (spread absent).number (.unknown id) = 2 / (2 * id + 3) := if_neg present

theorem spread_zero_unknown (id : Nat) :
    (spread .zero).number (.unknown id) = 2 / (2 * id + 3) := spread_unknown nofun

theorem spread_pos {absent f : Fraction} (live : f ≠ .zero) (present : f ≠ absent) :
    0 < (spread absent).number f := by
  cases f with
  | zero => exact absurd rfl live
  | one => exact one_pos
  | named id => exact (spread absent).named_pos id
  | unknown id =>
      rw [spread_unknown present]
      positivity

theorem spread_absent {absent : Fraction} (possible : absent.isPositive = false) :
    (spread absent).number absent = 0 := by
  cases absent with
  | zero => rfl
  | one | named => cases possible
  | unknown id => exact if_pos rfl

theorem spread_named_ne_unknown (i j : Nat) :
    (spread .zero).number (.named i) ≠ (spread .zero).number (.unknown j) := by
  rw [spread_zero_unknown]
  change (1 : ℚ) / (i + 2) ≠ 2 / (2 * j + 3)
  intro same
  field_simp at same
  -- No unit fraction has an odd number of halves as its denominator.
  have halves : 2 * j + 3 = 2 * (i + 2) := by
    have : (2 * j + 3 : ℚ) = 2 * (i + 2) := by linarith
    exact_mod_cast this
  omega

theorem spread_unknown_lt_one (id : Nat) : (spread .zero).number (.unknown id) < 1 := by
  rw [spread_zero_unknown, div_lt_one (by positivity)]
  linarith [Nat.cast_nonneg (α := ℚ) id]

theorem spread_unknown_injective {i j : Nat}
    (same : (spread .zero).number (.unknown i) = (spread .zero).number (.unknown j)) : i = j := by
  rw [spread_zero_unknown, spread_zero_unknown] at same
  field_simp at same
  have equal : (i : ℚ) = j := by linarith
  exact_mod_cast equal

theorem spread_literal_ne_unknown {f : Fraction} (literal : f.isLiteral = true) (j : Nat) :
    (spread .zero).number f ≠ (spread .zero).number (.unknown j) := by
  have positive : 0 < (spread .zero).number (.unknown j) := spread_pos nofun nofun
  cases f with
  | zero => exact positive.ne
  | one => exact (spread_unknown_lt_one j).ne'
  | named i => exact spread_named_ne_unknown i j
  | unknown => cases literal

theorem spread_injective : Function.Injective (spread .zero).number := by
  intro f g same
  -- Every valuation tells two literals apart.
  cases f with
  | unknown i =>
      cases g with
      | unknown j => rw [spread_unknown_injective same]
      | zero | one | named => exact absurd same.symm (spread_literal_ne_unknown rfl i)
  | zero | one | named =>
      cases g with
      | unknown j => exact absurd same (spread_literal_ne_unknown rfl j)
      | zero | one | named => exact (spread .zero).reading_lawful.apart _ _ rfl rfl same

/-- Every fraction is at the number of another that stands for it, literals at their own. -/
def comap (v : Valuation) (leader : Fraction → Fraction)
    (literal : ∀ f, f.isLiteral = true → leader f = f) : Valuation where
  number f := v.number (leader f)
  nonneg f := v.nonneg (leader f)
  le_one f := v.le_one (leader f)
  zero := by rw [literal .zero rfl, v.zero]
  one := by rw [literal .one rfl, v.one]
  named_pos id := by
    rw [literal (.named id) rfl]
    exact v.named_pos id
  named_lt_one id := by
    rw [literal (.named id) rfl]
    exact v.named_lt_one id
  named_injective i j same := by
    rw [literal (.named i) rfl, literal (.named j) rfl] at same
    exact v.named_injective i j same

end Valuation

namespace Solution

section Leaders

variable {s : Solution}

/-- The fractions of a class, its literals in front. -/
def fractionsOf (c : TermClass) : List Fraction :=
  c.literals ++ c.members.filterMap Term.fraction?

/-- One fraction that stands for all of a class, a literal if it has one. -/
def leader (s : Solution) (f : Fraction) : Fraction :=
  match s.class? f with
  | some c => (fractionsOf c).headD f
  | none => f

theorem mem_fractionsOf {f : Fraction} {c : TermClass} (found : s.class? f = some c) :
    f ∈ fractionsOf c :=
  List.mem_append_right _ (List.mem_filterMap.mpr ⟨f, (class?_mem found).2, rfl⟩)

theorem leader_of_place {f g : Fraction} (same : s.place f = s.place g) :
    s.leader f = s.leader g := by
  cases first : s.class? f with
  | none =>
      cases second : s.class? g with
      | none =>
          have equal : f = g := by simpa [place, first, second] using same
          rw [equal]
      | some d => simp [place, first, second] at same
  | some c =>
      cases second : s.class? g with
      | none => simp [place, first, second] at same
      | some d =>
          have equal : c = d := by simpa [place, first, second] using same
          have inside := mem_fractionsOf first
          simp only [leader, first, second, ← equal]
          cases shape : fractionsOf c with
          | nil => simp [shape] at inside
          | cons h rest => rfl

variable (orderly : s.Orderly)

include orderly

theorem Orderly.place_leader (f : Fraction) : s.place (s.leader f) = s.place f := by
  cases found : s.class? f with
  | none => simp [leader, found]
  | some c =>
      have member := (class?_mem found).1
      have among : s.leader f ∈ fractionsOf c := by
        simp only [leader, found]
        cases shape : fractionsOf c with
        | nil => exact absurd (mem_fractionsOf found) (by simp [shape])
        | cons h rest => exact List.mem_cons_self
      have inside : Term.single (s.leader f) ∈ c.members := by
        rcases List.mem_append.mp among with literal | fraction
        · exact ((orderly.labelled c member _).mp literal).2
        · obtain ⟨t, there, same⟩ := List.mem_filterMap.mp fraction
          cases t with
          | single g => exact Option.some.inj same ▸ there
          | sum fs => cases same
      rw [place_of_class? (orderly.class?_of_mem member inside), place_of_class? found]

theorem Orderly.leader_eq_iff {f g : Fraction} :
    s.leader f = s.leader g ↔ s.place f = s.place g := by
  refine ⟨fun same => ?_, leader_of_place⟩
  rw [← orderly.place_leader f, same, orderly.place_leader g]

theorem Orderly.leader_literal (consistent : s.isConsistent = true) (f : Fraction)
    (literal : f.isLiteral = true) : s.leader f = f := by
  cases found : s.class? f with
  | none => simp [leader, found]
  | some c =>
      -- The first literal of a consistent class is its only one.
      have own := orderly.representative_of_place consistent literal (f := f) rfl
      have listed : f ∈ c.literals :=
        (orderly.labelled c (class?_mem found).1 f).mpr ⟨literal, (class?_mem found).2⟩
      simp only [representative, found] at own
      simp only [leader, found, fractionsOf]
      cases shape : c.literals with
      | nil => simp [shape] at listed
      | cons h rest => simpa [shape] using own

/-- Fractions of one class at one number, and everything else apart but for the absent class. -/
def Orderly.valuation (consistent : s.isConsistent = true) (absent : Fraction) : Valuation :=
  (Valuation.spread absent).comap s.leader (orderly.leader_literal consistent)

theorem Orderly.valuation_number (consistent : s.isConsistent = true) (absent f : Fraction) :
    (orderly.valuation consistent absent).number f =
      (Valuation.spread absent).number (s.leader f) := rfl

theorem Orderly.place_of_valuation (consistent : s.isConsistent = true) {f g : Fraction}
    (same : (orderly.valuation consistent .zero).number f =
      (orderly.valuation consistent .zero).number g) : s.place f = s.place g :=
  orderly.leader_eq_iff.mp (Valuation.spread_injective same)

theorem Orderly.leader_ne_zero (marked : s.Marked) (consistent : s.isConsistent = true)
    {f : Fraction} (positive : s.isNonZero f = true) : s.leader f ≠ .zero := by
  intro zero
  have shown := (s.shows_place _).mpr positive
  rw [← orderly.place_leader f, zero] at shown
  exact (orderly.marking_lawful marked consistent).zero_positive shown

theorem Orderly.leader_isPositive (marked : s.Marked) (consistent : s.isConsistent = true)
    {f : Fraction} (unmarked : s.isNonZero f = false) : (s.leader f).isPositive = false := by
  rw [← Bool.not_eq_true] at unmarked ⊢
  intro positive
  have shown := (orderly.marking_lawful marked consistent).literal_positive _ positive
  change s.shows (s.place (s.leader f)) at shown
  rw [orderly.place_leader, shows_place] at shown
  exact unmarked shown

end Leaders

section Plain

variable {constraints : List Constraint} {s : Solution}

theorem Saturated.valuation_satisfies (saturated : Saturated constraints s) (marked : s.Marked)
    (consistent : s.isConsistent = true) {absent : Fraction}
    (free : ∀ f : Fraction, s.isNonZero f = true → s.leader f ≠ absent) {c : Constraint}
    (member : c ∈ constraints) (plain : c.isPlain = true) :
    (saturated.orderly.valuation consistent absent).Satisfies c := by
  have orderly := saturated.orderly
  have models := saturated.marking_models marked consistent
  have satisfied := models.satisfies c member
  cases c with
  | equal ts =>
      intro a left b right
      obtain ⟨f, rfl⟩ := Constraint.exists_single plain left
      obtain ⟨g, rfl⟩ := Constraint.exists_single plain right
      have same : s.leader f = s.leader g := leader_of_place (satisfied _ left _ right)
      exact congrArg (Valuation.spread absent).number same
  | nonZero t =>
      obtain ⟨f, rfl⟩ := Constraint.exists_single plain (t := t) List.mem_cons_self
      have positive := (s.shows_place _).mp satisfied
      exact Valuation.spread_pos (orderly.leader_ne_zero marked consistent positive)
        (free f positive)
  | atMost | less => cases plain

/-- With zero itself as the absent one, every class but that of zero is at a number above zero. -/
theorem solve_valuation_satisfies (plain : ∀ c ∈ constraints, c.isPlain = true)
    (consistent : (solve constraints).isConsistent = true) :
    ∀ c ∈ constraints, ((saturated_of_isConsistent consistent).orderly.valuation consistent
      .zero).Satisfies c := by
  have saturated := saturated_of_isConsistent consistent
  have marked := solve_marked constraints
  exact fun c member => saturated.valuation_satisfies marked consistent
    (fun f => saturated.orderly.leader_ne_zero marked consistent) member (plain c member)

theorem solve_sound_of_plain (plain : ∀ c ∈ constraints, c.isPlain = true) {v : Valuation}
    (satisfied : ∀ c ∈ constraints, v.Satisfies c) : (solve constraints).Sound v.reading := by
  refine solve_sound (v.reading_models (fun c member t among => ?_) satisfied)
  obtain ⟨f, rfl⟩ := Constraint.exists_single (plain c member) among
  exact v.le_one f

end Plain

/-- For sets that only say which single fractions are equal and which are more than zero, solving
is a decision procedure: it finds a contradiction exactly if there is no valuation, and otherwise of
each fraction and each two of them exactly what all valuations have in common. -/
theorem solve_decides_plain (constraints : List Constraint)
    (plain : ∀ c ∈ constraints, c.isPlain = true) :
    ((solve constraints).isConsistent = true ↔
      ∃ v : Valuation, ∀ c ∈ constraints, v.Satisfies c) ∧
    ((solve constraints).isConsistent = true → ∀ f g : Fraction,
      ((solve constraints).areEqual f g = true ↔
        ∀ v : Valuation, (∀ c ∈ constraints, v.Satisfies c) → v.number f = v.number g) ∧
      ((solve constraints).isZero f = true ↔
        ∀ v : Valuation, (∀ c ∈ constraints, v.Satisfies c) → v.number f = 0) ∧
      ((solve constraints).isOne f = true ↔
        ∀ v : Valuation, (∀ c ∈ constraints, v.Satisfies c) → v.number f = 1) ∧
      ((solve constraints).isNonZero f = true ↔
        ∀ v : Valuation, (∀ c ∈ constraints, v.Satisfies c) → 0 < v.number f)) := by
  have marked := solve_marked constraints
  constructor
  · constructor
    · exact fun consistent => ⟨_, solve_valuation_satisfies plain consistent⟩
    · rintro ⟨v, satisfied⟩
      exact (solve_sound_of_plain plain satisfied).isConsistent v.reading_lawful
  · intro consistent f g
    have saturated := saturated_of_isConsistent consistent
    have orderly := saturated.orderly
    have sound {v : Valuation} := solve_sound_of_plain plain (v := v)
    let apart := orderly.valuation consistent .zero
    have possible : ∀ c ∈ constraints, apart.Satisfies c :=
      solve_valuation_satisfies plain consistent
    refine ⟨⟨fun found v satisfied => ?_, fun always => ?_⟩,
      ⟨fun found v satisfied => ?_, fun always => ?_⟩,
      ⟨fun found v satisfied => ?_, fun always => ?_⟩,
      ⟨fun found v satisfied => ?_, fun always => ?_⟩⟩
    · exact (sound satisfied).areEqual (a := f) (b := g) trivial trivial found
    · exact areEqual_of_place (orderly.place_of_valuation consistent (always apart possible))
    · exact ((sound satisfied).isZero (t := f) trivial found).trans v.zero
    · have same := (always apart possible).trans apart.zero.symm
      exact orderly.isZero_of_place (orderly.place_of_valuation consistent same)
    · exact ((sound satisfied).isOne (t := f) trivial found).trans v.one
    · have same := (always apart possible).trans apart.one.symm
      exact orderly.isOne_of_place (orderly.place_of_valuation consistent same)
    · exact (sound satisfied).isNonZero v.reading_lawful (t := f) trivial found
    · -- An unmarked class can be at zero, since no constraint asks for more.
      by_contra unmarked
      rw [Bool.not_eq_true] at unmarked
      have free (h : Fraction) (positive : (solve constraints).isNonZero h = true) :
          (solve constraints).leader h ≠ (solve constraints).leader f := by
        intro same
        have shown := (shows_place _ _).mpr positive
        rw [orderly.leader_eq_iff.mp same, shows_place, unmarked] at shown
        cases shown
      have positive := always (orderly.valuation consistent ((solve constraints).leader f))
        fun c member => saturated.valuation_satisfies marked consistent free member (plain c member)
      rw [orderly.valuation_number,
        Valuation.spread_absent (orderly.leader_isPositive marked consistent unmarked)] at positive
      exact lt_irrefl _ positive

theorem solve_decides_plain_for_three :
    let constraints : List Constraint :=
      [.equal [.single (.unknown 0), .single (.unknown 1)], .nonZero (.single (.unknown 1)),
        .equal [.single (.named 0), .single (.unknown 2)]]
    (∀ c ∈ constraints, c.isPlain = true) ∧ (solve constraints).isConsistent = true ∧
      (∃ v : Valuation, ∀ c ∈ constraints, v.Satisfies c) ∧
      ¬∀ v : Valuation, (∀ c ∈ constraints, v.Satisfies c) →
        v.number (.unknown 0) = v.number (.unknown 2) := by
  intro constraints
  have plain : ∀ c ∈ constraints, c.isPlain = true := by decide
  have consistent : (solve constraints).isConsistent = true := by decide +kernel
  have different : (solve constraints).areEqual (.single (.unknown 0)) (.single (.unknown 2)) =
      false := by decide +kernel
  have decided := solve_decides_plain constraints plain
  refine ⟨plain, consistent, decided.1.mp consistent, fun always => ?_⟩
  rw [(decided.2 consistent (.unknown 0) (.unknown 2)).1.mpr always] at different
  cases different

end Solution

end Typestate
