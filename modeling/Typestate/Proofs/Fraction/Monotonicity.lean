import Mathlib.Data.List.Perm.Subperm
import Typestate.Proofs.Fraction.Completeness

set_option autoImplicit false

/-!
More constraints never take back what fewer of them show. The solution of a consistent set is a
reading of all its parts in which the marked classes are what is more than zero, so whatever a part
derives holds in the whole. In which order the constraints come makes no difference.
-/

namespace Typestate

namespace Solution

/-- A property that no single step of solving ends. -/
structure Invariant (property : Solution → Prop) : Prop where
  track : ∀ s t, property s → property (s.track t)
  merge : ∀ s a b, property s → property (s.merge a b)
  mark : ∀ s t, property s → property (s.makeNonZero t)
  refute : ∀ s c, property s → property { s with conflict := some c }

namespace Invariant

variable {property : Solution → Prop} (invariant : Invariant property)

include invariant

theorem makeEqual {s : Solution} (holds : property s) (ts : List Term) :
    property (s.makeEqual ts) :=
  makeEqual_induction (fun s holds a _ b _ => invariant.merge s a b holds) holds

theorem makeZeros {s : Solution} (holds : property s) (ts : List Term) :
    property (ts.foldl Solution.makeZero s) :=
  List.foldlRecOn ts _ holds fun s holds t _ => invariant.merge s _ t holds

theorem apply {s : Solution} (holds : property s) (c : Constraint) : property (s.apply c) := by
  cases c with
  | equal ts => exact invariant.makeEqual holds ts
  | nonZero t => exact invariant.mark s t holds
  | atMost x y =>
      simp only [Solution.apply]
      -- Three updates, each made on what the one before it left, or skipped.
      have first : property (if s.isZero y = true then s.makeZero x else s) := by
        split
        · exact invariant.merge s _ x holds
        · exact holds
      generalize (if s.isZero y = true then s.makeZero x else s) = s₁ at first
      have second : property (if s₁.isNonZero x = true then s₁.makeNonZero y else s₁) := by
        split
        · exact invariant.mark s₁ y first
        · exact first
      generalize (if s₁.isNonZero x = true then s₁.makeNonZero y else s₁) = s₂ at second
      split
      · exact invariant.merge s₂ _ y second
      · exact second
  | less x y =>
      have marked := invariant.mark s y holds
      simp only [Solution.apply]
      split
      · exact invariant.refute _ _ marked
      · exact marked

theorem applySum {s : Solution} (holds : property s) (fs : List Fraction) :
    property (s.applySum fs) := by
  have marked : property (s.markSum fs) := by
    unfold markSum
    split
    · exact invariant.mark s _ holds
    · exact holds
  have step := applySum_step s fs
  generalize s.applySum fs = next at step
  cases step with
  | zero => exact invariant.makeZeros holds _
  | one => exact invariant.makeZeros (invariant.merge s _ _ holds) _
  | spent => exact invariant.merge _ _ _ marked
  | alone => exact invariant.makeEqual marked _
  | several => exact marked

theorem saturate (constraints : List Constraint) {s : Solution} (holds : property s) :
    property (s.saturate constraints) := by
  have round (s : Solution) (holds : property s) : property (s.round constraints) :=
    List.foldlRecOn _ _
      (List.foldlRecOn constraints _ holds fun _ holds c _ => invariant.apply holds c)
      fun _ holds fs _ => invariant.applySum holds fs
  fun_induction Solution.saturate constraints s with
  | case1 s next conflict => exact round s holds
  | case2 s next conflict less ih => exact ih (round s holds)
  | case3 s next conflict less => exact round s holds

theorem solve (start : property initial) (constraints : List Constraint) :
    property (solve constraints) :=
  invariant.saturate constraints
    (List.foldlRecOn _ _ start fun s holds t _ => invariant.track s t holds)

end Invariant

end Solution

def TermClass.Marked (c : TermClass) : Prop :=
  ∀ f : Fraction, f.isPositive = true → Term.single f ∈ c.members → c.nonZero = true

theorem TermClass.ofTerm_marked (t : Term) : (ofTerm t).Marked := by
  intro f positive inside
  cases t with
  | single g =>
      have same : f = g := by simpa [ofTerm] using inside
      exact same ▸ positive
  | sum fs => simp [ofTerm] at inside

theorem TermClass.Marked.absorb {c other : TermClass} (first : c.Marked)
    (second : other.Marked) : (c.absorb other).Marked := by
  intro f positive inside
  simp only [TermClass.absorb, List.mem_append, Bool.or_eq_true] at inside ⊢
  rcases inside with left | right
  · exact .inl (first f positive left)
  · exact .inr (second f positive right)

namespace Solution

def Marked (s : Solution) : Prop := ∀ c ∈ s.classes, c.Marked

theorem Marked.add {s : Solution} (marked : s.Marked) (t : Term) (sums : List (List Fraction)) :
    Marked { s with classes := s.classes ++ [.ofTerm t], sums } := by
  intro c member
  rcases List.mem_append.mp member with old | new
  · exact marked c old
  · exact List.mem_singleton.mp new ▸ TermClass.ofTerm_marked t

theorem Marked.track {s : Solution} (marked : s.Marked) (t : Term) : (s.track t).Marked := by
  have tracked (s : Solution) (marked : s.Marked) (f : Fraction) : (s.trackFraction f).Marked := by
    unfold trackFraction
    split
    · exact marked
    · exact marked.add _ _
  cases t with
  | single f => exact tracked s marked f
  | sum fs =>
      simp only [Solution.track]
      split
      · exact marked
      · exact Marked.add (List.foldlRecOn fs _ marked fun s marked f _ => tracked s marked f) _ _

theorem Marked.merge {s : Solution} (marked : s.Marked) (a b : Term) : (s.merge a b).Marked := by
  have tracked := (marked.track a).track b
  simp only [Solution.merge]
  split
  · exact tracked
  · next moved found =>
      split
      · exact tracked
      · intro c member
        obtain ⟨d, inside, rfl⟩ := List.mem_map.mp member
        have own := tracked d (List.mem_filter.mp inside).1
        split
        · exact own.absorb (tracked moved (class?_mem found).1)
        · exact own

theorem Marked.makeNonZero {s : Solution} (marked : s.Marked) (t : Term) :
    (s.makeNonZero t).Marked := by
  intro c member
  obtain ⟨d, inside, rfl⟩ := List.mem_map.mp member
  split
  · exact fun _ _ _ => rfl
  · exact marked.track t d inside

theorem marked_invariant : Invariant Marked where
  track _ t marked := marked.track t
  merge _ a b marked := marked.merge a b
  mark _ t marked := marked.makeNonZero t
  refute _ _ marked := marked

theorem initial_marked : initial.Marked := by
  have empty : (Solution.mk [] [] none).Marked := by simp [Marked]
  exact (empty.track (.single .zero)).track (.single .one)

theorem solve_marked (constraints : List Constraint) : (solve constraints).Marked :=
  marked_invariant.solve initial_marked constraints

theorem Marked.isNonZero {s : Solution} (marked : s.Marked) {f : Fraction}
    (positive : f.isPositive = true) : s.isNonZero f = true := by
  cases found : s.class? (.single f) with
  | none => simpa [Solution.isNonZero, found] using positive
  | some c =>
      obtain ⟨member, inside⟩ := class?_mem found
      simpa [Solution.isNonZero, found] using marked c member f positive inside

/-- Known terms are more than zero if their class is marked, and others if that is plain. -/
def shows (s : Solution) : TermClass ⊕ Term → Prop
  | .inl c => c.nonZero = true
  | .inr t => s.isNonZero t = true

def marking (s : Solution) : Reading (TermClass ⊕ Term) := ⟨s.place, s.shows⟩

theorem shows_place (s : Solution) (t : Term) : s.shows (s.place t) ↔ s.isNonZero t = true := by
  cases found : s.class? t with
  | none => simp [place, found, shows]
  | some c => simp [place, found, shows, isNonZero]

theorem isNonZero_fraction (s : Solution) (f : Fraction) :
    s.isNonZero f = s.isNonZeroFraction f := by
  cases found : s.class? f <;> simp [isNonZero, isNonZeroFraction, found]

section Marking

variable {constraints : List Constraint} {s : Solution}

theorem Orderly.marking_lawful (orderly : s.Orderly) (marked : s.Marked)
    (consistent : s.isConsistent = true) : s.marking.Lawful := by
  refine ⟨fun f g => orderly.place_apart consistent, fun positive => ?_, fun f positive => ?_⟩
  · have zero := (isNonZero_iff orderly.zero).mp ((s.shows_place _).mp positive)
    exact orderly.place_ne_zero consistent orderly.zero zero rfl
  · exact (s.shows_place _).mpr (marked.isNonZero positive)

theorem Saturated.marking_bounded (saturated : Saturated constraints s) (marked : s.Marked)
    (consistent : s.isConsistent = true) {fs : List Fraction} (member : fs ∈ s.sums) :
    s.marking.Bounded fs := by
  have orderly := saturated.orderly
  have lawful := orderly.marking_lawful marked consistent
  have bounded := saturated.bounded consistent member
  have sum : s.knows (.sum fs) = true := orderly.summands fs member _ List.mem_cons_self
  have live {f : Fraction} (positive : s.marking.positive (s.place f)) : s.isZero f ≠ true := by
    intro zero
    rw [isZero_fraction, ← orderly.place_fraction_iff rfl orderly.zero] at zero
    rw [zero] at positive
    exact lawful.zero_positive positive
  -- Only the mark is new; how the values of a sum and its summands fit is known already.
  refine ⟨bounded.zero, fun f inside positive => ?_, bounded.one, bounded.none, bounded.alone⟩
  cases saturated.settlesSum fs member with
  | zero _ all => exact absurd (all f inside) (live positive)
  | one before g after parts _ one _ =>
      have same : s.place (.sum fs) = s.place (.single .one) := (orderly.place_one_iff sum).mpr one
      change s.shows (s.place (.sum fs))
      exact same ▸ lawful.literal_positive .one rfl
  | alone _ before g after parts others same =>
      have placed : s.place (.sum fs) = s.place g :=
        (place_eq_iff (orderly.summands fs member _ (by simp [parts]))).mpr same
      rw [parts, List.mem_append, List.mem_cons] at inside
      rcases inside with left | rfl | right
      · exact absurd (others f (List.mem_append_left _ left)) (live positive)
      · change s.shows (s.place (.sum fs))
        exact placed ▸ positive
      · exact absurd (others f (List.mem_append_right _ right)) (live positive)
  | several _ _ _ _ marks =>
      exact (s.shows_place _).mpr (marks f inside ((s.shows_place _).mp positive))

theorem Saturated.marking_models (saturated : Saturated constraints s) (marked : s.Marked)
    (consistent : s.isConsistent = true) : s.marking.Models constraints := by
  have orderly := saturated.orderly
  refine ⟨orderly.marking_lawful marked consistent, fun c member t among => ?_,
    fun c member => ?_⟩
  · cases t with
    | single f => trivial
    | sum fs =>
        exact saturated.marking_bounded marked consistent
          (orderly.sums fs (saturated.known c member _ among))
  · have known := saturated.known c member
    have settled := saturated.settles c member
    have satisfied := saturated.satisfies consistent member
    cases c with
    | equal ts => exact satisfied
    | nonZero t =>
        have present := known t (by simp [Constraint.terms])
        exact (s.shows_place t).mpr ((isNonZero_iff present).mpr settled)
    | atMost x y =>
        refine ⟨satisfied.1, fun positive => ?_, satisfied.2.2⟩
        exact (s.shows_place y).mpr (settled.2.1 ((s.shows_place x).mp positive))
    | less x y =>
        refine ⟨(s.shows_place y).mpr ?_, satisfied.2⟩
        exact (isNonZero_iff (known y (by simp [Constraint.terms]))).mpr settled.1

end Marking

section Places

variable {s : Solution}

theorem knows_of_place {t u : Term} (known : s.knows u = true) (same : s.place t = s.place u) :
    s.knows t = true := by
  rwa [knows, (place_eq_iff known).mp same]

theorem Orderly.isZero_of_place (orderly : s.Orderly) {t : Term}
    (same : s.place t = s.place (.single .zero)) : s.isZero t = true :=
  (orderly.place_zero_iff (knows_of_place orderly.zero same)).mp same

theorem Orderly.isOne_of_place (orderly : s.Orderly) {t : Term}
    (same : s.place t = s.place (.single .one)) : s.isOne t = true :=
  (orderly.place_one_iff (knows_of_place orderly.one same)).mp same

theorem areEqual_of_place {a b : Term} (same : s.place a = s.place b) :
    s.areEqual a b = true := by
  by_cases known : s.knows b = true
  · obtain ⟨c, found⟩ := exists_class? known
    have first : s.class? a = some c := ((place_eq_iff known).mp same).trans found
    have inside : c.has b = true := by simpa [TermClass.has] using (class?_mem found).2
    simp [areEqual, sameClass, first, inside]
  · rw [place_of_not_knows known] at same
    by_cases other : s.knows a = true
    · obtain ⟨c, found⟩ := exists_class? other
      rw [place_of_class? found] at same
      cases same
    · rw [place_of_not_knows other] at same
      simp [areEqual, Sum.inr.inj same]

theorem Orderly.representative_of_place (orderly : s.Orderly) (consistent : s.isConsistent = true)
    {f g : Fraction} (literal : g.isLiteral = true) (same : s.place f = s.place g) :
    s.representative f = g := by
  by_cases known : s.knows g = true
  · obtain ⟨c, found⟩ := exists_class? known
    have first : s.class? f = some c := ((place_eq_iff known).mp same).trans found
    obtain ⟨member, inside⟩ := class?_mem found
    have listed : g ∈ c.literals := (orderly.labelled c member g).mpr ⟨literal, inside⟩
    -- A consistent class has no second literal that could stand for it.
    have few := class_isConsistent consistent member
    simp only [TermClass.isConsistent, Bool.and_eq_true, decide_eq_true_eq] at few
    cases shape : c.literals with
    | nil => simp [shape] at listed
    | cons h rest =>
      cases rest with
      | nil =>
        rw [shape, List.mem_singleton] at listed
        simp [representative, first, shape, listed]
      | cons h' others => simp [shape] at few
  -- A term that is not known has a place of its own.
  · rw [place_of_not_knows known] at same
    by_cases other : s.knows f = true
    · obtain ⟨c, found⟩ := exists_class? other
      rw [place_of_class? found] at same
      cases same
    · have missing : s.class? (.single f) = none := by simpa [knows] using other
      rw [place_of_not_knows other] at same
      simpa [representative, missing] using Term.single.inj (Sum.inr.inj same)

theorem Orderly.representative_cases (orderly : s.Orderly) (f : Fraction) :
    s.representative f = f ∨ (s.representative f).isLiteral = true := by
  unfold representative
  split
  · next c found =>
      cases shape : c.literals with
      | nil => exact .inl rfl
      | cons g rest =>
          have listed := orderly.labelled c (class?_mem found).1 g
          exact .inr (listed.mp (by simp [shape])).1
  · exact .inl rfl

end Places

section Sums

variable {constraints : List Constraint} {s : Solution} (saturated : Saturated constraints s)
  (consistent : s.isConsistent = true) {fs : List Fraction}

include saturated consistent

-- A sum that is not known is answered from its summands; of a known one, saturation has settled as
-- much.
theorem Saturated.isZero_sum (all : ∀ f ∈ fs, s.isLiteral f .zero = true) :
    s.isZero (.sum fs) = true := by
  have orderly := saturated.orderly
  by_cases known : s.knows (.sum fs) = true
  · have bounded := saturated.bounded consistent (orderly.sums fs known)
    refine orderly.isZero_of_place (bounded.none fun f member => ?_)
    exact (orderly.place_fraction_iff rfl orderly.zero).mpr (all f member)
  · have missing : s.class? (.sum fs) = none := by simpa [knows] using known
    simpa [isZero, missing] using all

theorem Saturated.isOne_sum {f : Fraction} (member : f ∈ fs) (one : s.isLiteral f .one = true) :
    s.isOne (.sum fs) = true := by
  have orderly := saturated.orderly
  by_cases known : s.knows (.sum fs) = true
  · have bounded := saturated.bounded consistent (orderly.sums fs known)
    obtain ⟨before, after, parts⟩ := List.append_of_mem member
    refine orderly.isOne_of_place (bounded.one before f after parts ?_).1
    exact (orderly.place_fraction_iff rfl orderly.one).mpr one
  · have missing : s.class? (.sum fs) = none := by simpa [knows] using known
    simpa [isOne, missing] using ⟨f, member, one⟩

theorem Saturated.isNonZero_sum (marked : s.Marked) {f : Fraction} (member : f ∈ fs)
    (positive : s.isNonZero f = true) : s.isNonZero (.sum fs) = true := by
  by_cases known : s.knows (.sum fs) = true
  · have bounded := saturated.marking_bounded marked consistent (saturated.orderly.sums fs known)
    exact (s.shows_place _).mp (bounded.positive f member ((s.shows_place _).mpr positive))
  · have missing : s.class? (.sum fs) = none := by simpa [knows] using known
    rw [isNonZero_fraction] at positive
    simpa [isNonZero, missing] using ⟨f, member, positive⟩

end Sums

/-- Whatever the first solution shows of terms, the second shows too. -/
structure ShownBy (s other : Solution) : Prop where
  zero : ∀ t, s.isZero t = true → other.isZero t = true
  one : ∀ t, s.isOne t = true → other.isOne t = true
  nonZero : ∀ t, s.isNonZero t = true → other.isNonZero t = true
  equal : ∀ a b, s.areEqual a b = true → other.areEqual a b = true

theorem Sound.covers {V : Type} {r : Reading V} {s : Solution} (sound : s.Sound r)
    (orderly : s.Orderly) {t : Term} (known : s.knows t = true) : r.Covers t := by
  cases t with
  | single f => trivial
  | sum fs => exact sound.sums fs (orderly.sums fs known)

section Growth

variable {few many : List Constraint}

theorem solve_sound_marking (inside : ∀ c ∈ few, c ∈ many)
    (consistent : (solve many).isConsistent = true) :
    (solve few).Sound (solve many).marking := by
  have models :=
    (saturated_of_isConsistent consistent).marking_models (solve_marked many) consistent
  exact solve_sound ⟨models.lawful, fun c member => models.covers c (inside c member),
    fun c member => models.satisfies c (inside c member)⟩

theorem solve_consistent_of_subset (inside : ∀ c ∈ few, c ∈ many)
    (consistent : (solve many).isConsistent = true) : (solve few).isConsistent = true :=
  (solve_sound_marking inside consistent).isConsistent
    ((saturated_of_isConsistent consistent).orderly.marking_lawful (solve_marked many) consistent)

theorem solve_covers (inside : ∀ c ∈ few, c ∈ many)
    (consistent : (solve many).isConsistent = true) {t : Term}
    (known : (solve few).knows t = true) : (solve many).marking.Covers t := by
  have fine := solve_consistent_of_subset inside consistent
  have sound := solve_sound_marking inside consistent
  exact sound.covers (saturated_of_isConsistent fine).orderly known

/-- Only a sum that was never mentioned is not covered; it is judged by its summands. -/
theorem solve_covers_or_unknown_sum (inside : ∀ c ∈ few, c ∈ many)
    (consistent : (solve many).isConsistent = true) (t : Term) :
    (solve many).marking.Covers t ∨ ∃ fs, t = .sum fs ∧ (solve few).class? (.sum fs) = none := by
  cases found : (solve few).class? t with
  | some c => exact .inl (solve_covers inside consistent (by simp [knows, found]))
  | none =>
      cases t with
      | single f => exact .inl trivial
      | sum fs => exact .inr ⟨fs, rfl, found⟩

theorem solve_isZero_mono (inside : ∀ c ∈ few, c ∈ many)
    (consistent : (solve many).isConsistent = true) {t : Term}
    (holds : (solve few).isZero t = true) : (solve many).isZero t = true := by
  have saturated := saturated_of_isConsistent consistent
  have sound := solve_sound_marking inside consistent
  rcases solve_covers_or_unknown_sum inside consistent t with covers | ⟨fs, rfl, unknown⟩
  · exact saturated.orderly.isZero_of_place (sound.isZero covers holds)
  · simp only [isZero, unknown, List.all_eq_true] at holds
    refine saturated.isZero_sum consistent fun f member => ?_
    exact (saturated.orderly.place_fraction_iff rfl saturated.orderly.zero).mp
      (sound.soundClasses.isLiteral (holds f member))

theorem solve_isOne_mono (inside : ∀ c ∈ few, c ∈ many)
    (consistent : (solve many).isConsistent = true) {t : Term}
    (holds : (solve few).isOne t = true) : (solve many).isOne t = true := by
  have saturated := saturated_of_isConsistent consistent
  have sound := solve_sound_marking inside consistent
  rcases solve_covers_or_unknown_sum inside consistent t with covers | ⟨fs, rfl, unknown⟩
  · exact saturated.orderly.isOne_of_place (sound.isOne covers holds)
  · simp only [isOne, unknown, List.any_eq_true] at holds
    obtain ⟨f, member, one⟩ := holds
    refine saturated.isOne_sum consistent member ?_
    exact (saturated.orderly.place_fraction_iff rfl saturated.orderly.one).mp
      (sound.soundClasses.isLiteral one)

theorem solve_isNonZero_mono (inside : ∀ c ∈ few, c ∈ many)
    (consistent : (solve many).isConsistent = true) {t : Term}
    (holds : (solve few).isNonZero t = true) : (solve many).isNonZero t = true := by
  have saturated := saturated_of_isConsistent consistent
  have marked := solve_marked many
  have lawful := saturated.orderly.marking_lawful marked consistent
  have sound := solve_sound_marking inside consistent
  rcases solve_covers_or_unknown_sum inside consistent t with covers | ⟨fs, rfl, unknown⟩
  · exact (shows_place _ t).mp (sound.isNonZero lawful covers holds)
  · simp only [isNonZero, unknown, List.any_eq_true] at holds
    obtain ⟨f, member, positive⟩ := holds
    exact saturated.isNonZero_sum consistent marked member
      ((shows_place _ _).mp
        (sound.soundClasses.isNonZeroFraction lawful.literal_positive positive))

theorem solve_shownBy (inside : ∀ c ∈ few, c ∈ many)
    (consistent : (solve many).isConsistent = true) : (solve few).ShownBy (solve many) := by
  have zero {t : Term} := solve_isZero_mono (t := t) inside consistent
  have one {t : Term} := solve_isOne_mono (t := t) inside consistent
  refine ⟨fun _ => zero, fun _ => one, fun _ => solve_isNonZero_mono inside consistent,
    fun a b holds => ?_⟩
  simp only [areEqual, Bool.or_eq_true, Bool.and_eq_true, beq_iff_eq] at holds
  rcases holds with ((same | same) | ⟨first, second⟩) | ⟨first, second⟩
  · simp [areEqual, same]
  · exact areEqual_of_place ((solve_sound_marking inside consistent).soundClasses.sameClass same)
  · simp [areEqual, zero first, zero second]
  · simp [areEqual, one first, one second]

theorem solve_representative (inside : ∀ c ∈ few, c ∈ many) (also : ∀ c ∈ many, c ∈ few)
    (consistent : (solve many).isConsistent = true) (f : Fraction) :
    (solve few).representative f = (solve many).representative f := by
  have fine := solve_consistent_of_subset inside consistent
  have orderly := (saturated_of_isConsistent consistent).orderly
  have orderlyFew := (saturated_of_isConsistent fine).orderly
  have placed : (solve many).place ((solve few).representative f) = (solve many).place f :=
    (solve_sound_marking inside consistent).representative f
  have placedFew : (solve few).place ((solve many).representative f) = (solve few).place f :=
    (solve_sound_marking also fine).representative f
  -- A literal that stands for the fraction on one side has its value on the other side too.
  rcases orderlyFew.representative_cases f with same | literal
  · rcases orderly.representative_cases f with other | literal
    · rw [same, other]
    · exact orderlyFew.representative_of_place fine literal placedFew.symm
  · exact (orderly.representative_of_place consistent literal placed.symm).symm

end Growth

end Solution

theorem Constraints.mem_iff_of_same {a b : Constraints} (distinct : a.items.Nodup)
    (same : a.same b = true) : a.impossible = b.impossible ∧ ∀ c, c ∈ a.items ↔ c ∈ b.items := by
  simp only [Constraints.same, Constraints.size, Constraints.contains, Bool.and_eq_true,
    beq_iff_eq, List.all_eq_true, List.contains_eq_mem, decide_eq_true_eq] at same
  obtain ⟨⟨possible, size⟩, inside⟩ := same
  have perm : a.items.Perm b.items :=
    (List.subperm_of_subset distinct inside).perm_of_length_le (Nat.le_of_eq size.symm)
  exact ⟨possible, fun c => perm.mem_iff⟩

/-- Adding constraints takes nothing back that was shown before, as long as the whole is consistent.
So sets that count as equal, in whatever order they were put together, agree. -/
theorem Solution.solve_grows :
    (∀ few many : List Constraint, (∀ c ∈ few, c ∈ many) → (solve many).isConsistent = true →
      (solve few).isConsistent = true ∧ (solve few).ShownBy (solve many)) ∧
    ∀ a b : Constraints, a.items.Nodup → (a == b) = true →
      a.isConsistent = b.isConsistent ∧ a.solution.isConsistent = b.solution.isConsistent ∧
        (a.solution.isConsistent = true →
          a.solution.ShownBy b.solution ∧ b.solution.ShownBy a.solution ∧
            ∀ f, a.solution.representative f = b.solution.representative f) := by
  refine ⟨fun few many inside consistent =>
    ⟨solve_consistent_of_subset inside consistent, solve_shownBy inside consistent⟩,
    fun a b distinct same => ?_⟩
  obtain ⟨possible, members⟩ := Constraints.mem_iff_of_same distinct same
  have into : ∀ c ∈ a.items, c ∈ b.items := fun c => (members c).mp
  have back : ∀ c ∈ b.items, c ∈ a.items := fun c => (members c).mpr
  have verdict : a.solution.isConsistent = b.solution.isConsistent :=
    Bool.eq_iff_iff.mpr ⟨solve_consistent_of_subset back, solve_consistent_of_subset into⟩
  refine ⟨?_, verdict, fun consistent => ?_⟩
  · simp only [Constraints.isConsistent, Constraints.isImpossible, possible, verdict]
  · have other : b.solution.isConsistent = true := verdict ▸ consistent
    exact ⟨solve_shownBy into other, solve_shownBy back consistent,
      solve_representative into back other⟩

theorem Solution.solve_grows_by_a_bound :
    let few : List Constraint :=
      [.equal [.single (.unknown 0), .sum [.unknown 1, .unknown 2]],
        .nonZero (.single (.unknown 2))]
    let more : List Constraint := [.atMost (.single (.unknown 0)) (.single (.named 0)),
      .nonZero (.single (.unknown 2)), .equal [.single (.unknown 0), .sum [.unknown 1, .unknown 2]]]
    (∀ c ∈ few, c ∈ more) ∧ (solve more).isConsistent = true ∧
      (solve few).isNonZero (.single (.unknown 0)) = true ∧
      (solve more).isNonZero (.single (.unknown 0)) = true := by
  intro few more
  have inside : ∀ c ∈ few, c ∈ more := by decide
  have consistent : (solve more).isConsistent = true := by decide +kernel
  have positive : (solve few).isNonZero (.single (.unknown 0)) = true := by decide +kernel
  exact ⟨inside, consistent, positive,
    (solve_grows.1 few more inside consistent).2.nonZero _ positive⟩

end Typestate
