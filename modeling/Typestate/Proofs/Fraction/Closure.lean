import Mathlib.Data.Quot
import Typestate.Proofs.Fraction.Cohesion

set_option autoImplicit false

/-!
Solutions that are told one thing after the other, without rounds of solving. In whatever order that
happens, and whenever a term comes up for the first time, the classes are those of the least
equivalence with all equalities that were told, and a class is marked if something more than zero is
in it. Read as a value for every term, that equivalence is lawful exactly if the solution is
consistent.
-/

namespace Typestate

/-- What a solution can be told. -/
inductive Assertion where
  | equal (ts : List Term)
  | zero (t : Term)
  | one (t : Term)
  | nonZero (t : Term)
  deriving DecidableEq, Repr

def Assertion.Equates : Assertion → Term → Term → Prop
  | .equal ts, a, b => a ∈ ts ∧ b ∈ ts
  | .zero t, a, b => a = .single .zero ∧ b = t
  | .one t, a, b => a = .single .one ∧ b = t
  | .nonZero _, _, _ => False

def Asserted (told : List Assertion) (a b : Term) : Prop := ∃ x ∈ told, x.Equates a b

/-- The least equivalence with all equalities that were told. -/
def Equated (told : List Assertion) : Term → Term → Prop := Relation.EqvGen (Asserted told)

/-- Every term is read as all that it is equated with. That is more than zero if one, a constant or
a term said to be so is there. -/
def Reading.ofAssertions (told : List Assertion) : Reading (Quot (Asserted told)) where
  value := Quot.mk _
  positive v := ∃ t, Quot.mk _ t = v ∧
    ((∃ f : Fraction, f.isPositive = true ∧ t = f) ∨ .nonZero t ∈ told)

section Readings

variable {told : List Assertion}

theorem Reading.ofAssertions_value_iff {a b : Term} :
    (ofAssertions told).value a = (ofAssertions told).value b ↔ Equated told a b :=
  Quot.eq

theorem Reading.ofAssertions_positive_iff {a : Term} :
    (ofAssertions told).positive ((ofAssertions told).value a) ↔
      ∃ t, Equated told a t ∧
        ((∃ f : Fraction, f.isPositive = true ∧ t = f) ∨ .nonZero t ∈ told) :=
  exists_congr fun _ => and_congr_left fun _ => eq_comm.trans ofAssertions_value_iff

theorem Reading.ofAssertions_literals (f : Fraction) (positive : f.isPositive = true) :
    (ofAssertions told).positive ((ofAssertions told).value f) :=
  ⟨f, rfl, .inl ⟨f, positive, rfl⟩⟩

/-- The reading fails to be lawful in two ways only: if it does not tell two literals apart, or if
zero is equated with what was said to be more. -/
theorem Reading.ofAssertions_lawful_iff :
    (ofAssertions told).Lawful ↔
      ¬((∃ f g : Fraction, f.isLiteral = true ∧ g.isLiteral = true ∧ f ≠ g ∧ Equated told f g) ∨
        ∃ t, Equated told (.single .zero) t ∧ .nonZero t ∈ told) := by
  constructor
  · rintro lawful (⟨f, g, first, second, different, equated⟩ | ⟨t, equated, positive⟩)
    · exact different (lawful.apart f g first second (ofAssertions_value_iff.mpr equated))
    · exact lawful.zero_positive (ofAssertions_positive_iff.mpr ⟨t, equated, .inr positive⟩)
  · intro clean
    refine ⟨fun f g first second same => ?_, fun zero => clean ?_, ofAssertions_literals⟩
    · by_contra different
      exact clean (.inl ⟨f, g, first, second, different, ofAssertions_value_iff.mp same⟩)
    · obtain ⟨t, equated, ⟨f, positive, rfl⟩ | asserted⟩ := ofAssertions_positive_iff.mp zero
      · -- One and the constants are literals other than zero.
        refine .inl ⟨.zero, f, rfl, ?_, ?_, equated⟩ <;>
          cases f <;> simp_all [Fraction.isPositive, Fraction.isLiteral]
      · exact .inr ⟨t, equated, asserted⟩

end Readings

namespace Solution

def accept (s : Solution) : Assertion → Solution
  | .equal ts => s.makeEqual ts
  | .zero t => s.makeZero t
  | .one t => s.makeOne t
  | .nonZero t => s.makeNonZero t

def acceptAll (told : List Assertion) : Solution := told.foldl accept initial

section Steps

variable {s : Solution}

theorem Invariant.accept {property : Solution → Prop} (invariant : Invariant property)
    (holds : property s) (x : Assertion) : property (s.accept x) := by
  cases x with
  | equal ts => exact invariant.makeEqual holds ts
  | zero t => exact invariant.merge s _ t holds
  | one t => exact invariant.merge s _ t holds
  | nonZero t => exact invariant.mark s t holds

theorem Invariant.accepts {property : Solution → Prop} (invariant : Invariant property)
    (holds : property s) (told : List Assertion) : property (told.foldl Solution.accept s) :=
  List.foldlRecOn told _ holds fun _ holds x _ => invariant.accept holds x

theorem Orderly.makeEqual_together (orderly : s.Orderly) {first t : Term} {rest : List Term}
    (member : t ∈ rest) : Together first t (s.makeEqual (first :: rest)) := by
  induction rest generalizing s with
  | nil => cases member
  | cons u rest ih =>
      change Together first t ((s.merge first u).makeEqual (first :: rest))
      rcases List.mem_cons.mp member with rfl | later
      · exact (together_invariant _ _).makeEqual (orderly.merge_together first t) _
      · exact ih (orderly.growsInto_merge first u).toOrderly later

-- Of one term alone nothing is learnt, not even the term itself.
theorem Orderly.accept_together (orderly : s.Orderly) {x : Assertion} {a b : Term}
    (equates : x.Equates a b) (different : a ≠ b) : Together a b (s.accept x) := by
  cases x with
  | equal ts =>
      obtain ⟨left, right⟩ := equates
      cases ts with
      | nil => cases left
      | cons first rest =>
          -- Every term is merged with the first one, so two others meet there.
          have beside {t : Term} (member : t ∈ rest) :
              Together first t (s.makeEqual (first :: rest)) := orderly.makeEqual_together member
          rcases List.mem_cons.mp left with rfl | inner <;>
            rcases List.mem_cons.mp right with rfl | other
          · exact absurd rfl different
          · exact beside other
          · exact (beside inner).symm
          · exact (beside inner).symm.trans (beside other)
  | zero t =>
      obtain ⟨rfl, rfl⟩ := equates
      exact orderly.merge_together _ _
  | one t =>
      obtain ⟨rfl, rfl⟩ := equates
      exact orderly.merge_together _ _
  | nonZero t => cases equates

theorem accept_conflict (s : Solution) (x : Assertion) : (s.accept x).conflict = s.conflict := by
  cases x with
  | equal ts =>
      exact makeEqual_induction (motive := fun next => next.conflict = s.conflict)
        (fun next same a _ b _ => (merge_conflict next a b).trans same) rfl
  | zero t => exact merge_conflict s _ t
  | one t => exact merge_conflict s _ t
  | nonZero t => exact makeNonZero_conflict s t

end Steps

section Runs

variable {told : List Assertion}

theorem acceptAll_orderly (told : List Assertion) : (acceptAll told).Orderly :=
  ((growsInto_invariant initial).accepts (.refl initial_orderly) told).toOrderly

theorem acceptAll_marked (told : List Assertion) : (acceptAll told).Marked :=
  marked_invariant.accepts initial_marked told

theorem acceptAll_conflict (told : List Assertion) : (acceptAll told).conflict = none :=
  List.foldlRecOn told accept (motive := fun s => s.conflict = none) rfl
    fun s clean x _ => (accept_conflict s x).trans clean

theorem exists_accept_growsInto {x : Assertion} (member : x ∈ told) :
    ∃ s : Solution, s.Orderly ∧ (s.accept x).GrowsInto (acceptAll told) := by
  obtain ⟨before, after, rfl⟩ := List.append_of_mem member
  have earlier := acceptAll_orderly before
  have accepted := (growsInto_invariant (acceptAll before)).accept (.refl earlier) x
  refine ⟨acceptAll before, earlier, ?_⟩
  have later := (growsInto_invariant _).accepts (.refl accepted.toOrderly) after
  simpa only [acceptAll, List.foldl_append, List.foldl_cons] using later

theorem acceptAll_place {a b : Term} (equated : Equated told a b) :
    (acceptAll told).place a = (acceptAll told).place b := by
  have agrees (a b : Term) (asserted : Asserted told a b) :
      (acceptAll told).place a = (acceptAll told).place b := by
    obtain ⟨x, member, equates⟩ := asserted
    by_cases same : a = b
    · rw [same]
    · obtain ⟨s, orderly, grows⟩ := exists_accept_growsInto member
      have together := (orderly.accept_together equates same).mono grows
      obtain ⟨c, inside, -, right⟩ := together.shared
      exact (place_eq_iff (knows_of_mem inside right)).mpr together.class?_eq
  -- Being in one place is an equivalence too, so the least one is within it.
  exact congrArg (Quot.lift _ agrees) (Quot.eq.mpr equated)

theorem acceptAll_isNonZero_of_mem {t : Term} (asserted : .nonZero t ∈ told) :
    (acceptAll told).isNonZero t = true := by
  obtain ⟨s, orderly, grows⟩ := exists_accept_growsInto asserted
  obtain ⟨c, member, inside⟩ := knows_iff.mp (knows_track s t).2
  have changed : mark t c ∈ (s.makeNonZero t).classes := List.mem_map_of_mem member
  obtain ⟨d, later, within⟩ := grows.kept (mark t c) changed
  have there : t ∈ d.members := within.1 t (by rwa [mark_members])
  have live : d.nonZero = true := within.2 (by simp [mark, TermClass.has, inside])
  simp [isNonZero, grows.class?_of_mem later there, live]

theorem acceptAll_soundClasses (told : List Assertion) :
    (acceptAll told).SoundClasses (.ofAssertions told) := by
  have literals := @Reading.ofAssertions_literals told
  have empty : (Solution.mk [] [] none).SoundClasses (.ofAssertions told) := by
    simp [SoundClasses]
  have start := (empty.track literals (.single .zero)).track literals (.single .one)
  refine List.foldlRecOn told accept start fun s sound x member => ?_
  have equal {a b : Term} (equates : x.Equates a b) :
      (Reading.ofAssertions told).value a = (Reading.ofAssertions told).value b :=
    Quot.sound ⟨x, member, equates⟩
  cases x with
  | equal ts =>
      exact makeEqual_induction (motive := SoundClasses (.ofAssertions told))
        (fun s sound a left b right => sound.merge literals (equal ⟨left, right⟩)) sound
  | zero t => exact sound.merge literals (equal ⟨rfl, rfl⟩)
  | one t => exact sound.merge literals (equal ⟨rfl, rfl⟩)
  | nonZero t => exact sound.makeNonZero literals ⟨t, rfl, .inr member⟩

theorem acceptAll_areEqual_iff (f g : Fraction) :
    (acceptAll told).areEqual f g = true ↔ Equated told f g := by
  have sound := acceptAll_soundClasses told
  refine ⟨fun found => Reading.ofAssertions_value_iff.mp ?_,
    fun equated => areEqual_of_place (acceptAll_place equated)⟩
  simp only [areEqual, isZero_fraction, isOne_fraction, Bool.or_eq_true, Bool.and_eq_true,
    beq_iff_eq] at found
  rcases found with ((same | same) | ⟨first, second⟩) | ⟨first, second⟩
  · rw [same]
  · exact sound.sameClass same
  · exact (sound.isLiteral first).trans (sound.isLiteral second).symm
  · exact (sound.isLiteral first).trans (sound.isLiteral second).symm

theorem acceptAll_isLiteral_iff {literal : Fraction} (kind : literal.isLiteral = true)
    (known : (acceptAll told).knows literal = true) (f : Fraction) :
    (acceptAll told).isLiteral f literal = true ↔ Equated told f literal := by
  constructor
  · intro found
    exact Reading.ofAssertions_value_iff.mp ((acceptAll_soundClasses told).isLiteral found)
  · intro equated
    exact ((acceptAll_orderly told).place_fraction_iff kind known).mp (acceptAll_place equated)

theorem acceptAll_isNonZero_iff (f : Fraction) :
    (acceptAll told).isNonZero f = true ↔
      ∃ t, Equated told f t ∧
        ((∃ p : Fraction, p.isPositive = true ∧ t = p) ∨ .nonZero t ∈ told) := by
  constructor
  · intro found
    rw [isNonZero_fraction] at found
    exact Reading.ofAssertions_positive_iff.mp
      ((acceptAll_soundClasses told).isNonZeroFraction Reading.ofAssertions_literals found)
  · rintro ⟨t, equated, live⟩
    have shown : (acceptAll told).isNonZero t = true := by
      rcases live with ⟨p, positive, rfl⟩ | asserted
      · exact (acceptAll_marked told).isNonZero positive
      · exact acceptAll_isNonZero_of_mem asserted
    rwa [← shows_place, acceptAll_place equated, shows_place]

theorem acceptAll_isConsistent_iff :
    (acceptAll told).isConsistent = true ↔ (Reading.ofAssertions told).Lawful := by
  constructor
  · intro consistent
    have lawful := (acceptAll_orderly told).marking_lawful (acceptAll_marked told) consistent
    refine ⟨fun f g first second same => ?_, fun zero => ?_, Reading.ofAssertions_literals⟩
    · exact lawful.apart f g first second
        (acceptAll_place (Reading.ofAssertions_value_iff.mp same))
    · refine lawful.zero_positive ((shows_place _ _).mpr ?_)
      exact (acceptAll_isNonZero_iff .zero).mpr (Reading.ofAssertions_positive_iff.mp zero)
  · intro lawful
    simp only [isConsistent, acceptAll_conflict, Option.isNone_none, Bool.true_and,
      List.all_eq_true]
    exact fun c member => (acceptAll_soundClasses told c member).isConsistent lawful

-- A sum that was said to be more than zero is equated with a fraction at zero only later.
example :
    let s := (initial.makeNonZero (.sum [.unknown 0, .unknown 1])).makeZero (.single (.unknown 2))
    (s.makeEqual [.single (.unknown 2), .sum [.unknown 0, .unknown 1]]).isConsistent = false := by
  decide +kernel

end Runs

end Solution

end Typestate
