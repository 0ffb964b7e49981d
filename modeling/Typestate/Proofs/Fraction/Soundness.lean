import Mathlib.Data.List.TakeDrop
import Mathlib.Data.List.TakeWhile
import Typestate.Proofs.Fraction.Reading

set_option autoImplicit false

/-!
Whatever solving derives from a set of constraints holds under every reading of the set.
-/

namespace Typestate

variable {V : Type} {r : Reading V}

namespace TermClass

theorem ofTerm_sound
    (literals : ∀ f : Fraction, f.isPositive = true → r.positive (r.value f)) (t : Term) :
    (ofTerm t).Sound r := by
  cases t with
  | single f =>
      constructor
      · simp [ofTerm]
      · intro g member
        cases literal : f.isLiteral <;> simp_all [ofTerm]
      · cases literal : f.isLiteral <;> simp [ofTerm, literal]
      · intro marked a member
        simp only [ofTerm, List.mem_singleton] at member
        exact member ▸ literals f marked
  | sum fs => constructor <;> simp [ofTerm]

theorem Sound.absorb {c other : TermClass} (sound : c.Sound r) (otherSound : other.Sound r)
    {a b : Term} (left : a ∈ c.members) (right : b ∈ other.members)
    (equal : r.value a = r.value b) : (c.absorb other).Sound r := by
  -- The classes meet in `a` and `b`, so all of their members have one value.
  have across : ∀ x ∈ c.members, ∀ y ∈ other.members, r.value x = r.value y := by
    intro x inside y outside
    rw [sound.same x inside a left, equal, otherSound.same b right y outside]
  constructor
  · intro x first y second
    simp only [TermClass.absorb, List.mem_append] at first second
    rcases first with first | first <;> rcases second with second | second
    · exact sound.same x first y second
    · exact across x first y second
    · exact (across y second x first).symm
    · exact otherSound.same x first y second
  · intro f member
    simp only [TermClass.absorb, List.mem_append, List.mem_filter] at member ⊢
    rcases member with member | ⟨member, -⟩
    · exact ⟨(sound.literal f member).1, .inl (sound.literal f member).2⟩
    · exact ⟨(otherSound.literal f member).1, .inr (otherSound.literal f member).2⟩
  · simp only [TermClass.absorb, List.nodup_append]
    refine ⟨sound.nodup, otherSound.nodup.filter _, ?_⟩
    intro f mine g theirs same
    simp_all
  · intro marked x member
    simp only [TermClass.absorb, List.mem_append, Bool.or_eq_true] at marked member
    have reached : ∀ y, y ∈ c.members ∨ y ∈ other.members → r.value y = r.value x := by
      intro y place
      rcases place with place | place <;> rcases member with member | member
      · exact sound.same y place x member
      · exact across y place x member
      · exact (across x member y place).symm
      · exact otherSound.same y place x member
    rcases marked with marked | marked
    · exact reached a (.inl left) ▸ sound.positive marked a left
    · exact reached b (.inr right) ▸ otherSound.positive marked b right

theorem Sound.isConsistent (lawful : r.Lawful) {c : TermClass} (sound : c.Sound r) :
    c.isConsistent = true := by
  -- Two literals of one class would have one value, and a reading tells literals apart.
  have single : c.literals.length ≤ 1 := by
    match shape : c.literals with
    | [] => simp
    | [_] => simp
    | f :: g :: rest =>
        have first := sound.literal f (by simp [shape])
        have second := sound.literal g (by simp [shape])
        have equal := lawful.apart f g first.1 second.1 (sound.same _ first.2 _ second.2)
        have distinct := sound.nodup
        simp [shape, equal] at distinct
  have marked : ¬(c.nonZero = true ∧ .zero ∈ c.literals) := by
    rintro ⟨marked, member⟩
    exact lawful.zero_positive (sound.positive marked _ (sound.literal _ member).2)
  by_cases positive : c.nonZero = true <;> simp_all [TermClass.isConsistent]

end TermClass

namespace Solution

theorem class?_mem {s : Solution} {t : Term} {c : TermClass} (found : s.class? t = some c) :
    c ∈ s.classes ∧ t ∈ c.members := by
  refine ⟨List.mem_of_find?_eq_some found, ?_⟩
  simpa [TermClass.has] using List.find?_some found

/-- The classes are right about a reading, whatever it makes of the sums. -/
def SoundClasses (r : Reading V) (s : Solution) : Prop := ∀ c ∈ s.classes, c.Sound r

section Classes

variable {s : Solution} (literals : ∀ f : Fraction, f.isPositive = true → r.positive (r.value f))
  (sound : s.SoundClasses r)

include literals sound

theorem SoundClasses.add (t : Term) (sums : List (List Fraction)) :
    SoundClasses r { s with classes := s.classes ++ [.ofTerm t], sums } := by
  intro c member
  rcases List.mem_append.mp member with old | new
  · exact sound c old
  · exact List.mem_singleton.mp new ▸ TermClass.ofTerm_sound literals t

theorem SoundClasses.track (t : Term) : (s.track t).SoundClasses r := by
  have single (s : Solution) (sound : s.SoundClasses r) (f : Fraction) :
      (s.trackFraction f).SoundClasses r := by
    unfold Solution.trackFraction
    split
    · exact sound
    · exact sound.add literals f _
  cases t with
  | single f => exact single s sound f
  | sum fs =>
      simp only [Solution.track]
      split
      · exact sound
      · exact SoundClasses.add literals
          (List.foldlRecOn fs _ sound fun s sound f _ => single s sound f) _ _

theorem SoundClasses.merge {a b : Term} (equal : r.value a = r.value b) :
    (s.merge a b).SoundClasses r := by
  have tracked := (sound.track literals a).track literals b
  simp only [Solution.merge]
  split
  · exact tracked
  · next moved found =>
      obtain ⟨member, inside⟩ := class?_mem found
      split
      · exact tracked
      · intro c changed
        obtain ⟨d, kept, rfl⟩ := List.mem_map.mp changed
        have dSound := tracked d (List.mem_filter.mp kept).1
        split
        · next has =>
            exact dSound.absorb (tracked moved member) (by simpa [TermClass.has] using has) inside
              equal
        · exact dSound

theorem SoundClasses.makeNonZero {t : Term} (positive : r.positive (r.value t)) :
    (s.makeNonZero t).SoundClasses r := by
  intro c changed
  obtain ⟨d, member, rfl⟩ := List.mem_map.mp changed
  have dSound := sound.track literals t d member
  split
  · next has =>
      have inside : t ∈ d.members := by simpa [TermClass.has] using has
      refine ⟨dSound.same, dSound.literal, dSound.nodup, ?_⟩
      intro _ a reached
      exact dSound.same t inside a reached ▸ positive
  · exact dSound

end Classes

section Sums

variable {s : Solution}

theorem trackFraction_sums (s : Solution) (f : Fraction) : (s.trackFraction f).sums = s.sums := by
  unfold trackFraction
  split <;> rfl

theorem mem_sums_track {t : Term} {fs : List Fraction} (member : fs ∈ (s.track t).sums) :
    fs ∈ s.sums ∨ t = .sum fs := by
  cases t with
  | single f => exact .inl (trackFraction_sums s f ▸ member)
  | sum gs =>
      have summands : (gs.foldl trackFraction s).sums = s.sums :=
        List.foldlRecOn gs trackFraction (motive := fun next => next.sums = s.sums) rfl
          fun next same f _ => (trackFraction_sums next f).trans same
      simp only [track] at member
      split at member
      · exact .inl member
      · rcases List.mem_append.mp member with old | new
        · exact .inl (summands ▸ old)
        · exact .inr (by rw [List.mem_singleton.mp new])

theorem merge_sums (s : Solution) (a b : Term) :
    (s.merge a b).sums = ((s.track a).track b).sums := by
  simp only [merge]
  split
  · rfl
  · split <;> rfl

end Sums

theorem track_conflict (s : Solution) (t : Term) : (s.track t).conflict = s.conflict := by
  have single (s : Solution) (f : Fraction) : (s.trackFraction f).conflict = s.conflict := by
    unfold trackFraction
    split <;> rfl
  cases t with
  | single f => exact single s f
  | sum fs =>
      simp only [track]
      split
      · rfl
      · exact List.foldlRecOn fs trackFraction (motive := fun next => next.conflict = s.conflict)
          rfl fun next same f _ => (single next f).trans same

theorem merge_conflict (s : Solution) (a b : Term) : (s.merge a b).conflict = s.conflict := by
  have tracked : ((s.track a).track b).conflict = s.conflict := by
    rw [track_conflict, track_conflict]
  simp only [merge]
  split
  · exact tracked
  · split <;> exact tracked

theorem makeNonZero_conflict (s : Solution) (t : Term) :
    (s.makeNonZero t).conflict = s.conflict := track_conflict s t

theorem makeEqual_induction {motive : Solution → Prop} {ts : List Term}
    (step : ∀ s, motive s → ∀ a ∈ ts, ∀ b ∈ ts, motive (s.merge a b)) {s : Solution}
    (holds : motive s) : motive (s.makeEqual ts) := by
  cases ts with
  | nil => exact holds
  | cons first rest =>
      exact List.foldlRecOn rest _ holds fun s holds t member =>
        step s holds first List.mem_cons_self t (List.mem_cons_of_mem _ member)

theorem Sound.soundClasses {s : Solution} (sound : s.Sound r) : s.SoundClasses r := sound.classes

theorem Sound.track (lawful : r.Lawful) {s : Solution} (sound : s.Sound r) {t : Term}
    (covers : r.Covers t) : (s.track t).Sound r := by
  refine ⟨sound.soundClasses.track lawful.literal_positive t, fun fs member => ?_, ?_⟩
  · rcases mem_sums_track member with old | rfl
    · exact sound.sums fs old
    · exact covers
  · rw [track_conflict, sound.conflict]

theorem initial_sound (lawful : r.Lawful) : Solution.initial.Sound r := by
  have empty : (Solution.mk [] [] none).Sound r := ⟨by simp, by simp, rfl⟩
  exact (empty.track lawful (t := .single .zero) trivial).track lawful (t := .single .one) trivial

theorem Sound.merge (lawful : r.Lawful) {s : Solution} (sound : s.Sound r) {a b : Term}
    (left : r.Covers a) (right : r.Covers b) (equal : r.value a = r.value b) :
    (s.merge a b).Sound r := by
  have tracked := (sound.track lawful left).track lawful right
  refine ⟨sound.soundClasses.merge lawful.literal_positive equal, ?_, ?_⟩
  · rw [merge_sums]
    exact tracked.sums
  · rw [merge_conflict, sound.conflict]

theorem Sound.makeEqual (lawful : r.Lawful) {s : Solution} (sound : s.Sound r) {ts : List Term}
    (covers : ∀ t ∈ ts, r.Covers t) (equal : ∀ a ∈ ts, ∀ b ∈ ts, r.value a = r.value b) :
    (s.makeEqual ts).Sound r :=
  makeEqual_induction (fun _ sound a left b right =>
    sound.merge lawful (covers a left) (covers b right) (equal a left b right)) sound

theorem Sound.makeZero (lawful : r.Lawful) {s : Solution} (sound : s.Sound r) {t : Term}
    (covers : r.Covers t) (equal : r.value t = r.zero) : (s.makeZero t).Sound r :=
  sound.merge lawful trivial covers equal.symm

theorem Sound.makeOne (lawful : r.Lawful) {s : Solution} (sound : s.Sound r) {t : Term}
    (covers : r.Covers t) (equal : r.value t = r.one) : (s.makeOne t).Sound r :=
  sound.merge lawful trivial covers equal.symm

theorem Sound.makeZeros (lawful : r.Lawful) {s : Solution} (sound : s.Sound r) {ts : List Term}
    (covers : ∀ t ∈ ts, r.Covers t) (equal : ∀ t ∈ ts, r.value t = r.zero) :
    (ts.foldl Solution.makeZero s).Sound r := by
  induction ts generalizing s with
  | nil => exact sound
  | cons t rest ih =>
      exact ih (sound.makeZero lawful (covers t (by simp)) (equal t (by simp)))
        (fun u member => covers u (List.mem_cons_of_mem _ member))
        (fun u member => equal u (List.mem_cons_of_mem _ member))

theorem Sound.makeNonZero (lawful : r.Lawful) {s : Solution} (sound : s.Sound r) {t : Term}
    (covers : r.Covers t) (positive : r.positive (r.value t)) : (s.makeNonZero t).Sound r := by
  have tracked := sound.track lawful covers
  exact ⟨sound.soundClasses.makeNonZero lawful.literal_positive positive, tracked.sums,
    tracked.conflict⟩

section Queries

variable {s : Solution}

theorem SoundClasses.value_of_literal (sound : s.SoundClasses r) {t : Term} {c : TermClass}
    {f : Fraction} (found : s.class? t = some c) (literal : c.literals.contains f = true) :
    r.value t = r.value f := by
  obtain ⟨member, inside⟩ := class?_mem found
  have cSound := sound c member
  have present := (cSound.literal f (by simpa using literal)).2
  exact cSound.same t inside f present

theorem SoundClasses.isLiteral (sound : s.SoundClasses r) {f literal : Fraction}
    (holds : s.isLiteral f literal = true) : r.value f = r.value literal := by
  unfold Solution.isLiteral at holds
  split at holds
  · next found => exact sound.value_of_literal found holds
  · exact congrArg (fun g : Fraction => r.value g) (by simpa using holds)

theorem SoundClasses.isNonZeroFraction (sound : s.SoundClasses r)
    (literals : ∀ f : Fraction, f.isPositive = true → r.positive (r.value f)) {f : Fraction}
    (holds : s.isNonZeroFraction f = true) : r.positive (r.value f) := by
  unfold Solution.isNonZeroFraction at holds
  split at holds
  · next c found =>
      obtain ⟨member, inside⟩ := class?_mem found
      exact (sound c member).positive holds f inside
  · exact literals f holds

theorem SoundClasses.sameClass (sound : s.SoundClasses r) {a b : Term}
    (holds : s.sameClass a b = true) : r.value a = r.value b := by
  unfold Solution.sameClass at holds
  split at holds
  · next c found =>
      obtain ⟨member, inside⟩ := class?_mem found
      exact (sound c member).same a inside b (by simpa [TermClass.has] using holds)
  · simp at holds

theorem Sound.isZero (sound : s.Sound r) {t : Term} (covers : r.Covers t)
    (holds : s.isZero t = true) : r.value t = r.zero := by
  unfold Solution.isZero at holds
  split at holds
  · next found => exact sound.soundClasses.value_of_literal found holds
  · exact congrArg (fun g : Fraction => r.value g) (by simpa using holds)
  · next fs _ =>
      apply Reading.Bounded.none covers
      intro f member
      exact sound.soundClasses.isLiteral (List.all_eq_true.mp holds f member)

theorem Sound.isOne (sound : s.Sound r) {t : Term} (covers : r.Covers t)
    (holds : s.isOne t = true) : r.value t = r.one := by
  unfold Solution.isOne at holds
  split at holds
  · next found => exact sound.soundClasses.value_of_literal found holds
  · exact congrArg (fun g : Fraction => r.value g) (by simpa using holds)
  · next fs _ =>
      obtain ⟨f, member, one⟩ := List.any_eq_true.mp holds
      obtain ⟨before, after, shape⟩ := List.append_of_mem member
      exact (Reading.Bounded.one covers before f after shape (sound.soundClasses.isLiteral one)).1

theorem Sound.isNonZero (lawful : r.Lawful) (sound : s.Sound r) {t : Term} (covers : r.Covers t)
    (holds : s.isNonZero t = true) : r.positive (r.value t) := by
  unfold Solution.isNonZero at holds
  split at holds
  · next c found =>
      obtain ⟨member, inside⟩ := class?_mem found
      exact (sound.classes c member).positive holds _ inside
  · next f _ => exact lawful.literal_positive f holds
  · next fs _ =>
      obtain ⟨f, member, positive⟩ := List.any_eq_true.mp holds
      exact Reading.Bounded.positive covers f member
        (sound.soundClasses.isNonZeroFraction lawful.literal_positive positive)

theorem Sound.areEqual (sound : s.Sound r) {a b : Term} (left : r.Covers a) (right : r.Covers b)
    (holds : s.areEqual a b = true) : r.value a = r.value b := by
  simp only [Solution.areEqual, Bool.or_eq_true, Bool.and_eq_true, beq_iff_eq] at holds
  rcases holds with ((same | same) | ⟨first, second⟩) | ⟨first, second⟩
  · exact congrArg r.value same
  · exact sound.soundClasses.sameClass same
  · exact (sound.isZero left first).trans (sound.isZero right second).symm
  · exact (sound.isOne left first).trans (sound.isOne right second).symm

theorem Sound.representative (sound : s.Sound r) (f : Fraction) :
    r.value (s.representative f) = r.value f := by
  unfold Solution.representative
  split
  · next c found =>
      cases shape : c.literals with
      | nil => simp
      | cons literal rest =>
          exact (sound.soundClasses.value_of_literal found (by simp [shape])).symm
  · rfl

theorem Sound.isConsistent (lawful : r.Lawful) (sound : s.Sound r) : s.isConsistent = true := by
  simp only [Solution.isConsistent, sound.conflict, Option.isNone_none, Bool.true_and,
    List.all_eq_true]
  exact fun c member => (sound.classes c member).isConsistent lawful

end Queries

theorem Sound.apply (lawful : r.Lawful) {s : Solution} (sound : s.Sound r) {c : Constraint}
    (covers : ∀ t ∈ c.terms, r.Covers t) (satisfied : r.Satisfies c) : (s.apply c).Sound r := by
  cases c with
  | equal ts => exact sound.makeEqual lawful covers satisfied
  | nonZero t => exact sound.makeNonZero lawful (covers t (by simp [Constraint.terms])) satisfied
  | atMost x y =>
      have left : r.Covers x := covers x (by simp [Constraint.terms])
      have right : r.Covers y := covers y (by simp [Constraint.terms])
      obtain ⟨zero, positive, one⟩ := satisfied
      -- The three rules follow one another, each sound for what the one before left.
      have zeroed : (if s.isZero y then s.makeZero x else s).Sound r := by
        split
        · next holds => exact sound.makeZero lawful left (zero (sound.isZero right holds))
        · exact sound
      simp only [Solution.apply]
      generalize (if s.isZero y then s.makeZero x else s) = t at zeroed
      have marked : (if t.isNonZero x then t.makeNonZero y else t).Sound r := by
        split
        · next holds =>
            exact zeroed.makeNonZero lawful right (positive (zeroed.isNonZero lawful left holds))
        · exact zeroed
      generalize (if t.isNonZero x then t.makeNonZero y else t) = u at marked
      split
      · next holds => exact marked.makeOne lawful right (one (marked.isOne left holds))
      · exact marked
  | less x y =>
      have left : r.Covers x := covers x (by simp [Constraint.terms])
      have right : r.Covers y := covers y (by simp [Constraint.terms])
      obtain ⟨positive, notOne, notEqual⟩ := satisfied
      have marked := sound.makeNonZero lawful right positive
      simp only [Solution.apply]
      split
      · next holds =>
          -- A reading of the constraint excludes both ways in which it could be refuted.
          rcases Bool.or_eq_true_iff.mp holds with one | equal
          · exact absurd (marked.isOne left one) notOne
          · exact absurd (marked.areEqual left right equal) notEqual
      · exact marked

theorem map_single_eq_append {fs : List Fraction} {small others : List Term} {t : Term}
    (shape : fs.map Term.single = small ++ t :: others) :
    ∃ before f after, fs = before ++ f :: after ∧ small = before.map Term.single ∧
      t = .single f ∧ others = after.map Term.single := by
  obtain ⟨before, tail, rfl, rfl, rest⟩ := List.map_eq_append_iff.mp shape
  obtain ⟨f, after, rfl, rfl, rfl⟩ := List.map_eq_cons_iff.mp rest
  exact ⟨before, f, after, rfl, rfl, rfl, rfl⟩

def markSum (s : Solution) (fs : List Fraction) : Solution :=
  if fs.any fun f => s.isNonZero f then s.makeNonZero (.sum fs) else s

/-- All that looking at a sum can do. -/
inductive SumStep (s : Solution) (fs : List Fraction) : Solution → Prop
  | zero (holds : s.isZero (.sum fs) = true) :
      SumStep s fs ((fs.map Term.single).foldl Solution.makeZero s)
  | one (before : List Fraction) (f : Fraction) (after : List Fraction)
      (parts : fs = before ++ f :: after) (holds : s.isOne f = true) :
      SumStep s fs
        (((before ++ after).map Term.single).foldl Solution.makeZero (s.makeOne (.sum fs)))
  | spent (small : ∀ f ∈ fs, s.isOne f = false)
      (zero : ∀ f ∈ fs, (s.markSum fs).isZero f = true) :
      SumStep s fs ((s.markSum fs).makeZero (.sum fs))
  | alone (small : ∀ f ∈ fs, s.isOne f = false)
      (before : List Fraction) (f : Fraction) (after : List Fraction)
      (parts : fs = before ++ f :: after)
      (zero : ∀ g ∈ before ++ after, (s.markSum fs).isZero g = true) :
      SumStep s fs ((s.markSum fs).makeEqual [.sum fs, .single f])
  | several (small : ∀ f ∈ fs, s.isOne f = false)
      (live : ∃ f ∈ fs, (s.markSum fs).isZero f = false)
      (another : ∀ (before : List Fraction) (f : Fraction) (after : List Fraction),
        fs = before ++ f :: after → ∃ g ∈ before ++ after, (s.markSum fs).isZero g = false) :
      SumStep s fs (s.markSum fs)

theorem live_singles_eq_nil {u : Solution} {fs : List Fraction} :
    (fs.map Term.single).filter (fun t => !u.isZero t) = [] ↔ ∀ f ∈ fs, u.isZero f = true := by
  simp [List.filter_eq_nil_iff]

theorem live_singles_eq_singleton {u : Solution} {fs : List Fraction} {t : Term} :
    (fs.map Term.single).filter (fun t => !u.isZero t) = [t] ↔
      ∃ (before : List Fraction) (f : Fraction) (after : List Fraction),
        fs = before ++ f :: after ∧ t = .single f ∧ u.isZero f = false ∧
          ∀ g ∈ before ++ after, u.isZero g = true := by
  constructor
  · intro live
    obtain ⟨first, others, shape, lower, here, upper⟩ := List.filter_eq_cons_iff.mp live
    obtain ⟨before, f, after, parts, rfl, rfl, rfl⟩ := map_single_eq_append shape
    refine ⟨before, f, after, parts, rfl, by simpa using here, fun g member => ?_⟩
    rcases List.mem_append.mp member with first | last
    · simpa using lower _ (List.mem_map_of_mem first)
    · exact live_singles_eq_nil.mp upper g last
  · rintro ⟨before, f, after, rfl, rfl, here, zero⟩
    have lower := live_singles_eq_nil.mpr fun g first => zero g (List.mem_append_left _ first)
    have upper := live_singles_eq_nil.mpr fun g last => zero g (List.mem_append_right _ last)
    rw [List.map_append, List.map_cons, List.filter_append,
      List.filter_cons_of_pos (by simpa using here), lower, upper]
    rfl

/-- Looking for a summand that is one stops at the first; the others are those around it. -/
theorem first_one_among_singles {s : Solution} {fs : List Fraction} {t : Term} {others : List Term}
    (rest : (fs.map Term.single).dropWhile (fun t => !s.isOne t) = t :: others) :
    ∃ (before : List Fraction) (f : Fraction) (after : List Fraction),
      fs = before ++ f :: after ∧ s.isOne f = true ∧
        (fs.map Term.single).takeWhile (fun t => !s.isOne t) = before.map Term.single ∧
        others = after.map Term.single := by
  have shape : fs.map Term.single =
      (fs.map Term.single).takeWhile (fun t => !s.isOne t) ++ t :: others := by
    rw [← rest, List.takeWhile_append_dropWhile]
  have stopped := List.head_dropWhile_not (fun t => !s.isOne t) (l := fs.map Term.single)
    (rest ▸ List.cons_ne_nil t others)
  obtain ⟨before, f, after, parts, small, rfl, rfl⟩ := map_single_eq_append shape
  simp only [rest, List.head_cons, Bool.not_eq_false'] at stopped
  exact ⟨before, f, after, parts, stopped, small, rfl⟩

theorem applySum_step (s : Solution) (fs : List Fraction) : SumStep s fs (s.applySum fs) := by
  have marks : (if (fs.map Term.single).any s.isNonZero then s.makeNonZero (.sum fs) else s) =
      s.markSum fs := by simp [markSum, List.any_map, Function.comp_def]
  simp only [Solution.applySum, marks]
  split
  · next holds => exact .zero holds
  · rw [List.span_eq_takeWhile_dropWhile]
    split
    · next t others rest =>
        obtain ⟨before, f, after, parts, one, small, rfl⟩ := first_one_among_singles rest
        dsimp only
        rw [small, ← List.map_append]
        exact .one before f after parts one
    · next rest =>
        have small : ∀ f ∈ fs, s.isOne f = false := by
          simpa using List.dropWhile_eq_nil_iff.mp rest
        split
        · next none => exact .spent small (live_singles_eq_nil.mp none)
        · next t live =>
            obtain ⟨before, f, after, parts, rfl, -, zero⟩ := live_singles_eq_singleton.mp live
            exact .alone small before f after parts zero
        · next notNone notOne =>
            have some : ¬∀ f ∈ fs, (s.markSum fs).isZero f = true :=
              fun zero => notNone (live_singles_eq_nil.mpr zero)
            refine .several small (by simpa using some) fun before f after parts => ?_
            by_contra none
            have zero : ∀ g ∈ before ++ after, (s.markSum fs).isZero g = true := by
              simpa using none
            -- With the others zero, this one is not, and then it is the only one left.
            cases here : (s.markSum fs).isZero f with
            | false =>
                exact notOne f (live_singles_eq_singleton.mpr
                  ⟨before, f, after, parts, rfl, here, zero⟩)
            | true =>
                refine some fun g member => ?_
                rcases List.mem_cons.mp (List.perm_middle.mem_iff.mp (parts ▸ member)) with
                  rfl | beside
                · exact here
                · exact zero g beside

theorem Sound.applySum (lawful : r.Lawful) {s : Solution} (sound : s.Sound r)
    {fs : List Fraction} (bounded : r.Bounded fs) : (s.applySum fs).Sound r := by
  have covers : r.Covers (.sum fs) := bounded
  have singles (gs : List Fraction) : ∀ t ∈ gs.map Term.single, r.Covers t := by
    intro t member
    obtain ⟨f, -, rfl⟩ := List.mem_map.mp member
    trivial
  have zeros (gs : List Fraction) (zero : ∀ g ∈ gs, r.value g = r.zero) :
      ∀ t ∈ gs.map Term.single, r.value t = r.zero := by
    intro t member
    obtain ⟨f, inside, rfl⟩ := List.mem_map.mp member
    exact zero f inside
  have marked : (s.markSum fs).Sound r := by
    unfold markSum
    split
    · next holds =>
        obtain ⟨f, member, positive⟩ := List.any_eq_true.mp holds
        exact sound.makeNonZero lawful covers
          (bounded.positive f member (sound.isNonZero lawful trivial positive))
    · exact sound
  -- Each way that the sum can go is covered by one of the bounds.
  have step := applySum_step s fs
  generalize s.applySum fs = next at step
  cases step with
  | zero holds =>
      have zero := bounded.zero (sound.isZero covers holds)
      exact sound.makeZeros lawful (singles fs) (zeros fs zero)
  | one before f after parts holds =>
      obtain ⟨one, zero⟩ := bounded.one before f after parts (sound.isOne trivial holds)
      exact (sound.makeOne lawful covers one).makeZeros lawful (singles _) (zeros _ zero)
  | spent small zero =>
      have sum := bounded.none fun f member => marked.isZero trivial (zero f member)
      exact marked.makeZero lawful covers sum
  | alone small before f after parts zero =>
      have equal := bounded.alone before f after parts
        fun g member => marked.isZero trivial (zero g member)
      refine marked.makeEqual lawful ?_ (by simp [equal])
      intro t member
      simp only [List.mem_cons, List.not_mem_nil, or_false] at member
      rcases member with rfl | rfl
      · exact covers
      · trivial
  | several small live another => exact marked

theorem Sound.round {constraints : List Constraint} (models : r.Models constraints)
    {s : Solution} (sound : s.Sound r) : (s.round constraints).Sound r := by
  have applied (cs : List Constraint) (inside : ∀ c ∈ cs, c ∈ constraints) (s : Solution)
      (sound : s.Sound r) : (cs.foldl Solution.apply s).Sound r := by
    induction cs generalizing s with
    | nil => exact sound
    | cons c rest ih =>
        have member := inside c (by simp)
        exact ih (fun d later => inside d (List.mem_cons_of_mem _ later)) _
          (sound.apply models.lawful (models.covers c member) (models.satisfies c member))
  have summed (sums : List (List Fraction)) (bounded : ∀ fs ∈ sums, r.Bounded fs)
      (s : Solution) (sound : s.Sound r) : (sums.foldl Solution.applySum s).Sound r := by
    induction sums generalizing s with
    | nil => exact sound
    | cons fs rest ih =>
        exact ih (fun gs later => bounded gs (List.mem_cons_of_mem _ later)) _
          (sound.applySum models.lawful (bounded fs (by simp)))
  -- The sums looked at are those known after all constraints were applied.
  have first := applied constraints (fun _ member => member) s sound
  exact summed _ first.sums _ first

theorem Sound.saturate {constraints : List Constraint} (models : r.Models constraints)
    {s : Solution} (sound : s.Sound r) : (s.saturate constraints).Sound r := by
  fun_induction Solution.saturate constraints s with
  | case1 s next conflict => exact sound.round models
  | case2 s next conflict less ih => exact ih (sound.round models)
  | case3 s next conflict less => exact sound.round models

/-- What solving derives holds under every reading of the constraints. -/
theorem solve_sound {constraints : List Constraint} (models : r.Models constraints) :
    (Solution.solve constraints).Sound r := by
  have tracked (ts : List Term) (covers : ∀ t ∈ ts, r.Covers t) (s : Solution)
      (sound : s.Sound r) : (ts.foldl Solution.track s).Sound r := by
    induction ts generalizing s with
    | nil => exact sound
    | cons t rest ih =>
        exact ih (fun u later => covers u (List.mem_cons_of_mem _ later)) _
          (sound.track models.lawful (covers t (by simp)))
  refine Sound.saturate models (tracked _ ?_ _ (initial_sound models.lawful))
  intro t member
  obtain ⟨c, inside, among⟩ := List.mem_flatMap.mp member
  exact models.covers c inside t among

end Solution

end Typestate
