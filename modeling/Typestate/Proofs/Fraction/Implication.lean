import Typestate.Proofs.Fraction.Valuation

set_option autoImplicit false

/-!
What constraints are found to imply holds under every valuation that meets them.
-/

namespace Typestate

namespace Valuation

/-- All constraints hold, and no sum in them is more than one. -/
structure Meets (v : Valuation) (cs : Constraints) : Prop where
  satisfies : ∀ c ∈ cs.items, v.Satisfies c
  bounded : ∀ c ∈ cs.items, ∀ t ∈ c.terms, v.value t ≤ 1

variable {v : Valuation} {cs : Constraints}

theorem Meets.sound (meets : v.Meets cs) : cs.solution.Sound v.reading :=
  Solution.solve_sound (v.reading_models meets.bounded meets.satisfies)

theorem satisfies_of_impliedBy {s : Solution} (sound : s.Sound v.reading) {c : Constraint}
    (bounded : ∀ t ∈ c.terms, v.value t ≤ 1) (implied : Constraints.impliedBy s c = true) :
    v.Satisfies c := by
  have covers (t : Term) (among : t ∈ c.terms) : v.reading.Covers t :=
    v.reading_covers (bounded t among)
  cases c with
  | equal ts =>
      cases ts with
      | nil => exact nofun
      | cons first rest =>
          have same (t : Term) (member : t ∈ first :: rest) : v.value first = v.value t :=
            sound.areEqual (covers first List.mem_cons_self) (covers t member)
              (List.all_eq_true.mp implied t member)
          exact fun a left b right => (same a left).symm.trans (same b right)
  | nonZero t => exact sound.isNonZero v.reading_lawful (covers t List.mem_cons_self) implied
  | atMost x y =>
      have left := covers x (by simp [Constraint.terms])
      have right := covers y (by simp [Constraint.terms])
      change v.value x ≤ v.value y
      simp only [Constraints.impliedBy, Bool.or_eq_true] at implied
      rcases implied with ((zero | one) | same) | summand
      · have nothing : v.value x = 0 := (sound.isZero left zero).trans v.zero
        rw [nothing]
        exact v.value_nonneg y
      · have all : v.value y = 1 := (sound.isOne right one).trans v.one
        rw [all]
        exact bounded x (by simp [Constraint.terms])
      · exact le_of_eq (sound.areEqual left right same)
      · -- A fraction is at most a sum it occurs in, whatever the solution says of the two.
        split at summand
        · next f fs => exact v.number_le_total (List.contains_iff_mem.mp summand)
        · cases summand
  | less x y =>
      have left := covers x (by simp [Constraint.terms])
      have right := covers y (by simp [Constraint.terms])
      rw [Constraints.impliedBy, Bool.and_eq_true] at implied
      have nothing : v.value x = 0 := (sound.isZero left implied.1).trans v.zero
      change v.value x < v.value y
      rw [nothing]
      exact sound.isNonZero v.reading_lawful right implied.2

theorem Meets.satisfies_of_implies (meets : v.Meets cs) {c : Constraint}
    (bounded : ∀ t ∈ c.terms, v.value t ≤ 1) (implied : cs.implies c = true) : v.Satisfies c := by
  rcases Bool.or_eq_true_iff.mp implied with present | shown
  · exact meets.satisfies c (List.contains_iff_mem.mp present)
  · exact satisfies_of_impliedBy meets.sound bounded shown

theorem Meets.solution_isConsistent (meets : v.Meets cs) : cs.solution.isConsistent = true :=
  meets.sound.isConsistent v.reading_lawful

end Valuation

namespace Constraints

theorem atLeastAsPrecise_iff {cs other : Constraints} (consistent : cs.isConsistent = true) :
    cs.atLeastAsPrecise other = true ↔
      other.isImpossible = false ∧ ∀ c ∈ other.items, cs.implies c = true := by
  rw [isConsistent, Bool.and_eq_true, Bool.not_eq_true'] at consistent
  simp only [atLeastAsPrecise, consistent.1, consistent.2, Bool.not_true, Bool.or_self,
    Bool.false_eq_true, if_false]
  cases other.isImpossible with
  | true => simp
  | false => simp [implies]

/-- If one set is at least as precise as another, what meets the first meets the second. -/
theorem meets_of_atLeastAsPrecise {cs other : Constraints} (possible : cs.isImpossible = false)
    (precise : cs.atLeastAsPrecise other = true) {v : Valuation} (meets : v.Meets cs)
    (bounded : ∀ c ∈ other.items, ∀ t ∈ c.terms, v.value t ≤ 1) :
    v.Meets other ∧ other.isImpossible = false := by
  -- A set that some valuation meets is consistent, so its precision is not that of a contradiction.
  have consistent : cs.isConsistent = true := by
    rw [isConsistent, possible, meets.solution_isConsistent]
    rfl
  obtain ⟨possibleOther, implied⟩ := (atLeastAsPrecise_iff consistent).mp precise
  refine ⟨⟨fun c member => ?_, bounded⟩, possibleOther⟩
  exact meets.satisfies_of_implies (bounded c member) (implied c member)

theorem meets_of_atLeastAsPrecise_beyond_known :
    let cs : Constraints := ⟨[.equal [.single (.unknown 0), .single .zero],
      .nonZero (.single (.unknown 1)), .equal [.single (.unknown 2), .single .one]], none⟩
    let other : Constraints := ⟨[.nonZero (.sum [.unknown 3, .unknown 1]),
      .equal [.sum [.unknown 0, .unknown 0], .single .zero],
      .atMost (.single (.unknown 3)) (.sum [.unknown 1, .unknown 3]),
      .atMost (.single (.unknown 1)) (.sum [.unknown 0, .unknown 2]),
      .less (.single (.unknown 0)) (.single (.named 7))], none⟩
    cs.isImpossible = false ∧ cs.atLeastAsPrecise other = true ∧
      ∃ v : Valuation, v.Meets cs ∧ v.Meets other ∧ other.isImpossible = false := by
  intro cs other
  let v := Valuation.ofUnknowns (fun id => if id = 0 then 0 else if id = 2 then 1 else 1 / 2)
    (by intro id; split_ifs <;> norm_num)
    (by intro id; split_ifs <;> norm_num)
  have precise : cs.atLeastAsPrecise other = true := by decide +kernel
  have meets : v.Meets cs := by
    constructor
    · simp [cs, Valuation.Satisfies, Valuation.value, v, Valuation.ofUnknowns]
    · simp [cs, Constraint.terms, Valuation.value, v, Valuation.ofUnknowns]
      norm_num
  have bounded : ∀ c ∈ other.items, ∀ t ∈ c.terms, v.value t ≤ 1 := by
    simp [other, Constraint.terms, Valuation.value, v, Valuation.ofUnknowns]
    norm_num
  exact ⟨rfl, precise, v, meets, meets_of_atLeastAsPrecise rfl precise meets bounded⟩

end Constraints

end Typestate
