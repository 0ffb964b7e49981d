import Mathlib.Logic.Function.Basic
import Typestate.Permission.Pool
import Typestate.Proofs.Fraction.Demands
import Typestate.Proofs.Permission.Equations

set_option autoImplicit false

/-!
Splitting, joining and weakening fractions: what the demands say about the fractions that come out,
and that they can be met whenever the fractions that go in allow it.
-/

namespace Typestate

variable {V : Type}

/-- Both fractions are drawn and the first fits into the second. -/
def Fitting (f g : Fraction) (n : Nat) (value : Term → V) : Prop :=
  f.IsDrawn n ∧ g.IsDrawn n ∧ Fits value f g

theorem Fitting.lasting (f g : Fraction) : Lasting (Fitting f g (V := V)) := by
  rintro n m value other more agree ⟨left, right, fits⟩
  exact ⟨left.mono more, right.mono more, fits.agree agree left right⟩

section Drawing

namespace Constraints

variable {n m : Nat} {cs : Constraints}

theorem IsDrawn.mono (drawn : cs.IsDrawn n) (more : n ≤ m) : cs.IsDrawn m :=
  fun c member t among f inside => (drawn c member t among f inside).mono more

theorem IsDrawn.append {other : Constraints} (left : cs.IsDrawn n) (right : other.IsDrawn n) :
    (cs ++ other).IsDrawn n := by
  intro c member
  rcases mem_append.mp member with old | new
  · exact left c old
  · exact right c new

theorem IsDrawn.add (drawn : cs.IsDrawn n) {c : Constraint} (new : ∀ t ∈ c.terms, t.IsDrawn n) :
    (cs.add c).IsDrawn n := by
  intro d member
  rcases mem_add.mp member with old | rfl
  · exact drawn d old
  · exact new

theorem IsDrawn.addEqual (drawn : cs.IsDrawn n) {a b : Term} (left : a.IsDrawn n)
    (right : b.IsDrawn n) : (cs.addEqual a b).IsDrawn n := by
  unfold Constraints.addEqual
  split
  · exact drawn
  · exact drawn.add (by simpa [Constraint.terms] using ⟨left, right⟩)

theorem IsDrawn.addAtMost (drawn : cs.IsDrawn n) {a b : Term} (left : a.IsDrawn n)
    (right : b.IsDrawn n) : (cs.addAtMost a b).IsDrawn n := by
  unfold Constraints.addAtMost
  split
  · exact drawn
  · exact drawn.add (by simpa [Constraint.terms] using ⟨left, right⟩)

theorem IsDrawn.addNonZero (drawn : cs.IsDrawn n) {t : Term} (new : t.IsDrawn n) :
    (cs.addNonZero t).IsDrawn n := by
  unfold Constraints.addNonZero
  split
  · exact drawn
  · exact drawn.add (by simpa [Constraint.terms] using new)

end Constraints

theorem Agree.update {n : Nat} {value other : Term → V} (agree : Agree n value other) {t : Term}
    (new : ¬t.IsDrawn n) (v : V) : Agree n value (Function.update other t v) := by
  intro u drawn
  have different : u ≠ t := fun same => new (same ▸ drawn)
  rw [Function.update_of_ne different, agree u drawn]

theorem not_isDrawn_unknown (n : Nat) : ¬(Fraction.unknown n).IsDrawn n := Nat.lt_irrefl n

/-- A solution that cannot tell anything of the unknown fractions from a number on. -/
def Solution.Silent (s : Solution) (n : Nat) : Prop :=
  ∀ id, n ≤ id →
    s.isZero (Fraction.unknown id) = false ∧ s.isOne (Fraction.unknown id) = false

theorem Solution.Silent.mono {s : Solution} {n m : Nat} (silent : s.Silent n) (more : n ≤ m) :
    s.Silent m := fun id later => silent id (more.trans later)

/-- Constraints say nothing of a fraction that is yet to be drawn, for it can have any value. -/
theorem Constraints.MetBy.silent {cs : Constraints} {value : Term → V} (met : cs.MetBy value)
    {n : Nat} (drawn : cs.IsDrawn n) : cs.solution.Silent n := by
  intro id later
  have new : ¬(Term.single (.unknown id)).IsDrawn n := fun known =>
    Nat.not_lt.mpr later (Term.isDrawn_single.mp known)
  have chosen (v : V) : ∃ other, Agree n value other ∧ cs.MetBy other ∧
      other (.single (.unknown id)) = v :=
    have agree := (Agree.refl n value).update new v
    ⟨_, agree, met.agree drawn agree, Function.update_self _ _ _⟩
  constructor
  · rw [Bool.eq_false_iff]
    intro zero
    -- If it were found to be zero it could not be given the value of one.
    obtain ⟨other, agree, met', same⟩ := chosen (value (.single .one))
    have nothing : other (.single (.unknown id)) = other (.single .zero) :=
      met'.sound.isZero trivial zero
    rw [same, agree.zero] at nothing
    exact met.zero_ne_one nothing.symm
  · rw [Bool.eq_false_iff]
    intro one
    obtain ⟨other, agree, met', same⟩ := chosen (value (.single .zero))
    have everything : other (.single (.unknown id)) = other (.single .one) :=
      met'.sound.isOne trivial one
    rw [same, agree.one] at everything
    exact met.zero_ne_one everything

theorem Agree.draw (n : Nat) (value : Term → V) (v : V) :
    Agree n value (Function.update value (.single (.unknown n)) v) :=
  (Agree.refl n value).update (fun drawn => not_isDrawn_unknown n (Term.isDrawn_single.mp drawn)) v

end Drawing

namespace Admits

variable {before : Nat → (Term → V) → Prop}

theorem fresh {after : Fraction → Nat → (Term → V) → Prop}
    (choose : ∀ n value, before n value →
      ∃ v, after (.unknown n) (n + 1) (Function.update value (.single (.unknown n)) v)) :
    Admits before Ledger.fresh after := by
  rintro l value ⟨met, drawn⟩ start
  obtain ⟨v, known⟩ := choose _ value start
  have agree := Agree.draw l.supply.next value v
  have step : l.supply.next ≤ l.supply.next + 1 := Nat.le_succ _
  exact ⟨_, agree, step, ⟨met.agree drawn agree, drawn.mono step⟩, known⟩

theorem demand {change : Constraints → Constraints}
    (meets : ∀ cs n value, before n value → cs.MetBy value → (change cs).MetBy value)
    (draws : ∀ (cs : Constraints) n value, before n value → cs.IsDrawn n →
      (change cs).IsDrawn n) : Admits before (Ledger.demand change) fun _ => before :=
  fun _ value met start => ⟨value, .refl _ value, Nat.le_refl _,
    ⟨meets _ _ value start met.1, draws _ _ value start met.2⟩, start⟩

end Admits

section Pairs

variable {value : Term → V} {gs : List Fraction} {q r : Fraction}

theorem Term.ofSum_pair (first : q ≠ .zero) (second : r ≠ .zero) :
    ∃ gs, Term.ofSum [q, r] = .sum gs ∧ (gs = [q, r] ∨ gs = [r, q]) := by
  have kept : [q, r].filter (· != .zero) = [q, r] := by simp [first, second]
  unfold Term.ofSum
  rw [kept]
  by_cases order : r.before q = true
  · exact ⟨[r, q], by simp [Term.sortFractions, Term.insertFraction, order], .inr rfl⟩
  · exact ⟨[q, r], by simp [Term.sortFractions, Term.insertFraction, order], .inl rfl⟩

theorem Term.isDrawn_ofSum_pair {n : Nat} (first : q ≠ .zero) (second : r ≠ .zero)
    (left : q.IsDrawn n) (right : r.IsDrawn n) : (Term.ofSum [q, r]).IsDrawn n := by
  obtain ⟨gs, sum, shape⟩ := Term.ofSum_pair first second
  rw [sum]
  rcases shape with rfl | rfl <;> simp [Term.IsDrawn, Term.fractions, left, right]

theorem pair_parts (shape : gs = [q, r] ∨ gs = [r, q]) :
    ∃ before after, gs = before ++ q :: after ∧ before ++ after = [r] := by
  rcases shape with rfl | rfl
  · exact ⟨[], [r], rfl, rfl⟩
  · exact ⟨[r], [], rfl, rfl⟩

theorem Fits.of_summand (shape : gs = [q, r] ∨ gs = [r, q])
    (bounded : (Reading.filled value).Bounded gs) {p : Fraction} (sum : value p = value (.sum gs)) :
    Fits value q p := by
  obtain ⟨before, after, parts, -⟩ := pair_parts shape
  constructor
  · intro zero
    exact bounded.zero (sum.symm.trans zero) q (by simp [parts])
  · intro one
    exact sum.trans (bounded.one before q after parts one).1

/-- If one of two fractions is all there is, the other one is nothing. -/
def Excludes (value : Term → V) (f g : Fraction) : Prop :=
  (value f = value (.single .one) → value g = value (.single .zero)) ∧
    (value g = value (.single .one) → value f = value (.single .zero))

theorem Excludes.symm {f g : Fraction} (excludes : Excludes value f g) : Excludes value g f :=
  ⟨excludes.2, excludes.1⟩

/-- A fraction divided in two, as far as zero and one tell. -/
structure Divided (value : Term → V) (p q r : Fraction) : Prop where
  taken : Fits value q p
  rest : Fits value r p
  apart : Excludes value q r

theorem Divided.of_summands (shape : gs = [q, r] ∨ gs = [r, q])
    (bounded : (Reading.filled value).Bounded gs) {p : Fraction} (sum : value p = value (.sum gs)) :
    Divided value p q r := by
  have other {f g : Fraction} (shape : gs = [f, g] ∨ gs = [g, f])
      (one : value f = value (.single .one)) : value g = value (.single .zero) := by
    obtain ⟨before, after, parts, rest⟩ := pair_parts shape
    exact (bounded.one before f after parts one).2 g (by simp [rest])
  exact ⟨.of_summand shape bounded sum, .of_summand shape.symm bounded sum, other shape,
    other shape.symm⟩

/-- What is left of a fraction when a part is taken: nothing, all of it, or something that is
neither zero nor one. -/
def IsRest (value : Term → V) (p q : Fraction) (v : V) : Prop :=
  value q = value p ∧ v = value (.single .zero) ∨
    value q = value (.single .zero) ∧ v = value p ∨
    value q ≠ value (.single .zero) ∧ value q ≠ value p ∧ v = value q

theorem exists_isRest (value : Term → V) (p q : Fraction) : ∃ v, IsRest value p q v := by
  by_cases whole : value q = value p
  · exact ⟨_, .inl ⟨whole, rfl⟩⟩
  · by_cases nothing : value q = value (.single .zero)
    · exact ⟨_, .inr (.inl ⟨nothing, rfl⟩)⟩
    · exact ⟨_, .inr (.inr ⟨nothing, whole, rfl⟩)⟩

theorem Fits.bounded {p : Fraction} (fits : Fits value q p)
    (distinct : value (.single .zero) ≠ value (.single .one)) (shape : gs = [q, r] ∨ gs = [r, q])
    (rest : IsRest value p q (value r)) (sum : value (.sum gs) = value p) :
    (Reading.filled value).Bounded gs := by
  -- A part that is all or nothing stands beside a zero; otherwise part and rest are both proper.
  rcases rest with ⟨whole, nothing⟩ | ⟨nothing, whole⟩ | ⟨some, proper, same⟩
  · obtain ⟨before, after, parts, others⟩ := pair_parts shape
    refine Reading.filled_bounded_of_alone distinct parts ?_ (sum.trans whole.symm)
    rw [others]
    simpa using nothing
  · obtain ⟨before, after, parts, others⟩ := pair_parts shape.symm
    refine Reading.filled_bounded_of_alone distinct parts ?_ (sum.trans whole.symm)
    rw [others]
    simpa using nothing
  · have summands : ∀ g ∈ gs, value g = value q := by
      rcases shape with rfl | rfl <;> simp [same]
    refine Reading.filled_bounded_of_several ?_ ?_ ?_ ?_
    · exact fun zero => some (fits.1 (sum.symm.trans zero))
    · intro g member one
      have all : value q = value (.single .one) := (summands g member).symm.trans one
      exact proper (all.trans (fits.2 all).symm)
    · obtain ⟨before, after, parts, -⟩ := pair_parts shape
      exact ⟨q, by simp [parts], some⟩
    · intro before g after parts
      have length : (before ++ after).length = 1 := by
        have total : gs.length = 2 := by rcases shape with rfl | rfl <;> rfl
        rw [parts] at total
        simp only [List.length_append, List.length_cons] at total ⊢
        omega
      obtain ⟨h, only⟩ := List.length_eq_one_iff.mp length
      have inside : h ∈ gs := by
        have among : h ∈ before ++ after := by simp [only]
        rw [parts]
        rcases List.mem_append.mp among with left | right
        · simp [left]
        · simp [right]
      exact ⟨h, by simp [only], fun zero => some ((summands h inside).symm.trans zero)⟩

end Pairs

namespace Permission

open Ledger

section Split

variable {value : Term → V}

theorem splitFraction_divides (distinct : value (.single .zero) ≠ value (.single .one))
    (p q : Fraction) : Reveals value (splitFraction p q) (Divided value p q) := by
  have nothing (f : Fraction) : Fits value .zero f ∧ Excludes value .zero f :=
    ⟨⟨fun _ => rfl, fun one => absurd one distinct⟩, fun one => absurd one distinct, fun _ => rfl⟩
  refine .ite (fun zero => .pure ?_) fun nonzero => .ite (fun same => .pure ?_) fun _ => ?_
  · rw [zero]
    exact ⟨(nothing p).1, .refl value p, (nothing p).2⟩
  · rw [same]
    exact ⟨.refl value q, (nothing q).1, (nothing q).2.symm⟩
  · refine .fresh fun id => ?_
    obtain ⟨gs, sum, shape⟩ := Term.ofSum_pair nonzero (nofun : Fraction.unknown id ≠ .zero)
    have fact : Reveals value (demand (·.addEqual p (.ofSum [q, .unknown id])))
        fun _ => Divided value p q (.unknown id) := by
      refine .demand fun cs met => ?_
      rw [sum, Constraints.metBy_addEqual_sum] at met
      exact ⟨met.1, .of_summands shape met.2.1 met.2.2⟩
    exact fact.bind fun _ => .pure fun divided => divided

/-- All fractions are drawn, and the last is the rest of the first without the second. -/
def Rests (p q r : Fraction) (n : Nat) (value : Term → V) : Prop :=
  Fitting q p n value ∧ r.IsDrawn n ∧ IsRest value p q (value r)

theorem Rests.lasting (p q r : Fraction) : Lasting (Rests p q r (V := V)) := by
  rintro n m value other more agree ⟨fitting, drawn, rest⟩
  refine ⟨Fitting.lasting q p more agree fitting, drawn.mono more, ?_⟩
  unfold IsRest
  rw [agree.fraction fitting.1, agree.fraction fitting.2.1, agree.fraction drawn, agree.zero]
  exact rest

theorem splitFraction_admits (p q : Fraction) :
    Admits (Fitting q p (V := V)) (splitFraction p q) (Rests p q) := by
  refine .ite (fun zero => .pure fun n value fitting => ?_) fun nonzero =>
    .ite (fun same => .pure fun n value fitting => ?_) fun _ => ?_
  · refine ⟨fitting, fitting.2.1, .inr (.inl ⟨?_, rfl⟩)⟩
    rw [zero]
  · refine ⟨fitting, trivial, .inl ⟨?_, rfl⟩⟩
    rw [same]
  rintro l value ⟨met, drawn⟩ fitting
  obtain ⟨left, right, fits⟩ := id fitting
  let r := Fraction.unknown l.supply.next
  obtain ⟨gs, sum, shape⟩ := Term.ofSum_pair nonzero (nofun : r ≠ .zero)
  obtain ⟨v, rest⟩ := exists_isRest value p q
  have newSum : ¬(Term.sum gs).IsDrawn l.supply.next := by
    intro known
    have inside : r ∈ gs := by rcases shape with rfl | rfl <;> simp
    exact not_isDrawn_unknown _ (known r inside)
  -- The rest gets its value, and the sum that is demanded gets the value of the whole.
  let other := Function.update (Function.update value r v) (.sum gs) (value p)
  have agree : Agree l.supply.next value other :=
    (Agree.draw l.supply.next value v).update newSum (value p)
  have chosen : other r = v := by
    simp [other]
  have total : other (.sum gs) = other p := by
    rw [agree.fraction right]
    simp [other]
  have isRest : IsRest other p q (other r) := by
    unfold IsRest
    rw [chosen, agree.fraction left, agree.fraction right, agree.zero]
    exact rest
  have bounded : (Reading.filled other).Bounded gs := by
    refine (fits.agree agree left right).bounded ?_ shape isRest total
    rw [agree.zero, agree.one]
    exact met.zero_ne_one
  have step : l.supply.next ≤ l.supply.next + 1 := Nat.le_succ _
  have second : r.IsDrawn (l.supply.next + 1) := Nat.lt_succ_self _
  refine ⟨other, agree, step, ⟨?_, ?_⟩, Fitting.lasting q p step agree fitting, second, isRest⟩
  · change (l.constraints.addEqual p (.ofSum [q, r])).MetBy other
    rw [sum, Constraints.metBy_addEqual_sum]
    exact ⟨met.agree drawn agree, bounded, total.symm⟩
  · exact (drawn.mono step).addEqual (Term.isDrawn_single.mpr (right.mono step))
      (Term.isDrawn_ofSum_pair nonzero nofun (left.mono step) second)

end Split

section Weaken

variable {value : Term → V}

theorem metBy_addAtMosts {cs : Constraints} {w : Fraction} {fs : List Fraction} :
    (fs.foldl (fun cs (f : Fraction) => cs.addAtMost w f) cs).MetBy value ↔
      cs.MetBy value ∧ ∀ f ∈ fs, Fits value w f := by
  induction fs generalizing cs with
  | nil => simp
  | cons f rest ih => rw [List.foldl_cons, ih, Constraints.metBy_addAtMost, List.forall_mem_cons,
      and_assoc]

theorem isDrawn_addAtMosts {n : Nat} {cs : Constraints} (drawn : cs.IsDrawn n) {w : Fraction}
    (left : w.IsDrawn n) {fs : List Fraction} (right : ∀ f ∈ fs, f.IsDrawn n) :
    (fs.foldl (fun cs (f : Fraction) => cs.addAtMost w f) cs).IsDrawn n := by
  induction fs generalizing cs with
  | nil => exact drawn
  | cons f rest ih =>
      refine ih (drawn.addAtMost (Term.isDrawn_single.mpr left) ?_)
        fun g later => right g (List.mem_cons_of_mem _ later)
      exact Term.isDrawn_single.mpr (right f List.mem_cons_self)

theorem weaken_reveals (first : Fraction) (rest : List Fraction) :
    Reveals value (weaken first rest) fun w => ∀ f ∈ first :: rest, Fits value w f := by
  rw [weaken_eq]
  refine .ite (fun same => .pure fun f member => .of_eq ?_) fun _ => .fresh fun id => ?_
  · rcases List.mem_cons.mp member with rfl | later
    · rfl
    · rw [beq_iff_eq.mp (List.all_eq_true.mp same f later)]
  · have fact : Reveals value
        (demand fun cs => (first :: rest).foldl (fun cs (f : Fraction) =>
          cs.addAtMost (Fraction.unknown id) f) cs)
        fun _ => ∀ f ∈ first :: rest, Fits value (.unknown id) f :=
      .demand fun cs met => metBy_addAtMosts.mp met
    exact fact.bind fun _ => .pure fun fits => fits

theorem weaken_admits (q first : Fraction) (rest : List Fraction) :
    Admits (fun n (value : Term → V) => ∀ f ∈ first :: rest, Fitting q f n value)
      (weaken first rest) (Fitting q) := by
  rw [weaken_eq]
  refine .ite (fun _ => .pure fun n value fitting => fitting first List.mem_cons_self) fun _ => ?_
  -- The fraction that is drawn gets the value of what has to fit into it.
  let known (w : Fraction) (n : Nat) (value : Term → V) : Prop :=
    (∀ f ∈ first :: rest, Fitting q f n value) ∧ w.IsDrawn n ∧ value w = value q
  have drawn : Admits (fun n (value : Term → V) => ∀ f ∈ first :: rest, Fitting q f n value) fresh
      known := by
    refine .fresh fun n value fitting => ⟨value q, ?_, Nat.lt_succ_self n, ?_⟩
    · exact fun f member =>
        Fitting.lasting q f (Nat.le_succ n) (Agree.draw n value _) (fitting f member)
    · rw [(Agree.draw n value _).fraction (fitting first List.mem_cons_self).1]
      simp
  refine drawn.bind fun w => ?_
  have demanded : Admits (known w)
      (demand fun cs => (first :: rest).foldl (fun cs (f : Fraction) => cs.addAtMost w f) cs)
      fun _ => known w := by
    refine .demand (fun cs n value start met => metBy_addAtMosts.mpr ⟨met, fun f member => ?_⟩)
      fun cs n value start drawn => isDrawn_addAtMosts drawn start.2.1 fun f member => ?_
    · exact (Fits.of_eq start.2.2).trans (start.1 f member).2.2
    · exact (start.1 f member).2.1
  refine demanded.bind fun _ => .pure fun n value final => ?_
  exact ⟨(final.1 first List.mem_cons_self).1, final.2.1, .of_eq final.2.2.symm⟩

/-- What can be told of several fractions at once: they have to be one and the same. -/
def tells (test : Fraction → Bool) : List Fraction → Bool
  | [] => false
  | f :: rest => rest.all (· == f) && test f

/-- A solution can tell as much of a fraction as of the ones it stands for. -/
structure StandsFor (s : Solution) (fs : List Fraction) (w : Fraction) : Prop where
  zero : s.isZero w = tells (s.isZero ·) fs
  one : s.isOne w = tells (s.isOne ·) fs

theorem weaken_standsFor {s : Solution} {l : Ledger} (silent : s.Silent l.supply.next)
    (first : Fraction) (rest : List Fraction) :
    StandsFor s (first :: rest) ((weaken first rest).run l).1 := by
  rw [weaken_eq]
  split
  · next same => constructor <;> simp only [tells, same, Bool.true_and] <;> rfl
  · next different =>
      obtain ⟨zero, one⟩ := silent l.supply.next (Nat.le_refl _)
      rw [Bool.not_eq_true] at different
      constructor
      · simp only [tells, different, Bool.false_and]
        exact zero
      · simp only [tells, different, Bool.false_and]
        exact one

end Weaken

section Join

variable {value : Term → V} {s : Solution}

/-- The solution that joining looks at speaks of the fractions only if it is right about them. -/
theorem joinFraction_reveals (distinct : value (.single .zero) ≠ value (.single .one))
    (p q : Fraction) :
    Reveals value (joinFraction s true p q) fun j =>
      (s.Sound (Reading.filled value) → Fits value j p) ∧
        (s.Sound (Reading.filled value) → Fits value j q) := by
  refine .ite (fun same => .pure ?_) fun _ => .ite (fun _ => .pure ?_) fun _ => .fresh fun id => ?_
  · exact ⟨fun _ => .refl value p, fun sound => .of_eq (sound.areEqual trivial trivial same)⟩
  · have zero (f : Fraction) : Fits value .zero f := ⟨fun _ => rfl, fun one => absurd one distinct⟩
    exact ⟨fun _ => zero p, fun _ => zero q⟩
  · have first : Reveals value (demand (·.addAtMost (Fraction.unknown id) p))
        fun _ => Fits value (.unknown id) p :=
      .demand fun cs met => Constraints.metBy_addAtMost.mp met
    have second : Reveals value (demand (·.addAtMost (Fraction.unknown id) q))
        fun _ => Fits value (.unknown id) q :=
      .demand fun cs met => Constraints.metBy_addAtMost.mp met
    have third : Reveals value (demand (·.addNonZero (Fraction.unknown id))) fun _ => True :=
      .demand fun cs met => ⟨(Constraints.metBy_addNonZero.mp met).1, trivial⟩
    refine first.bind fun _ => second.bind fun _ =>
      .ite (fun _ => third.bind fun _ => ?_) fun _ => ?_
    · exact .pure fun _ right left => ⟨fun _ => left, fun _ => right⟩
    · exact .pure fun right left => ⟨fun _ => left, fun _ => right⟩

/-- An assignment that bears out what a solution says when two fractions are joined. -/
structure Joinable (s : Solution) (p q : Fraction) (n : Nat) (value : Term → V) : Prop where
  left : p.IsDrawn n
  right : q.IsDrawn n
  distinct : value (.single .zero) ≠ value (.single .one)
  equal : s.areEqual p q = true → value p = value q
  leftZero : s.isZero p = false → value p ≠ value (.single .zero)
  rightZero : s.isZero q = false → value q ≠ value (.single .zero)

theorem Joinable.lasting (s : Solution) (p q : Fraction) : Lasting (Joinable s p q (V := V)) := by
  intro n m value other more agree start
  have first := agree.fraction start.left
  have second := agree.fraction start.right
  refine ⟨start.left.mono more, start.right.mono more, ?_, ?_, ?_, ?_⟩
  · rw [agree.zero, agree.one]
    exact start.distinct
  · rw [first, second]
    exact start.equal
  · rw [first, agree.zero]
    exact start.leftZero
  · rw [second, agree.zero]
    exact start.rightZero

theorem exists_joined {p q : Fraction}
    (left : value p ≠ value (.single .zero)) (right : value q ≠ value (.single .zero)) :
    ∃ v, v ≠ value (.single .zero) ∧
      (v = value (.single .one) →
        value p = value (.single .one) ∧ value q = value (.single .one)) := by
  by_cases one : value p = value (.single .one)
  · exact ⟨value q, right, fun other => ⟨one, other⟩⟩
  · exact ⟨value p, left, fun other => absurd other one⟩

theorem joinFraction_admits (p q : Fraction) :
    Admits (Joinable s p q (V := V)) (joinFraction s true p q)
      fun j n value => Fitting j p n value ∧ Fitting j q n value := by
  refine .ite (fun same => .pure fun n value start => ?_) fun _ =>
    .ite (fun _ => .pure fun n value start => ?_) fun nonzero => ?_
  · exact ⟨⟨start.left, start.left, .refl value p⟩, start.left, start.right,
      .of_eq (start.equal same)⟩
  · have fits (f : Fraction) : Fits value .zero f :=
      ⟨fun _ => rfl, fun one => absurd one start.distinct⟩
    exact ⟨⟨trivial, start.left, fits p⟩, trivial, start.right, fits q⟩
  simp only [Bool.or_eq_true, not_or, Bool.not_eq_true] at nonzero
  -- None of the two is zero here, so the fraction drawn for both can be positive.
  let known (w : Fraction) (n : Nat) (value : Term → V) : Prop :=
    (Fitting w p n value ∧ Fitting w q n value) ∧ value w ≠ value (.single .zero)
  have drawn : Admits (Joinable s p q (V := V)) fresh known := by
    refine .fresh fun n value start => ?_
    have left := start.leftZero nonzero.1
    have right := start.rightZero nonzero.2
    obtain ⟨v, positive, small⟩ := exists_joined left right
    have agree := Agree.draw n value v
    have chosen : Function.update value (.single (.unknown n)) v (.single (.unknown n)) = v := by
      simp
    have more := Nat.le_succ n
    have new : (Fraction.unknown n).IsDrawn (n + 1) := Nat.lt_succ_self n
    refine ⟨v, ⟨⟨new, start.left.mono more, ?_⟩, new, start.right.mono more, ?_⟩, ?_⟩
    · unfold Fits
      rw [chosen, agree.fraction start.left, agree.zero, agree.one]
      exact ⟨fun zero => absurd zero left, fun one => (small one).1⟩
    · unfold Fits
      rw [chosen, agree.fraction start.right, agree.zero, agree.one]
      exact ⟨fun zero => absurd zero right, fun one => (small one).2⟩
    · rw [chosen, agree.zero]
      exact positive
  refine drawn.bind fun w => ?_
  have first : Admits (known w) (demand (·.addAtMost w p)) fun _ => known w :=
    .demand (fun cs n value start met => Constraints.metBy_addAtMost.mpr ⟨met, start.1.1.2.2⟩)
      fun cs n value start drawn => drawn.addAtMost (Term.isDrawn_single.mpr start.1.1.1)
        (Term.isDrawn_single.mpr start.1.1.2.1)
  have second : Admits (known w) (demand (·.addAtMost w q)) fun _ => known w :=
    .demand (fun cs n value start met => Constraints.metBy_addAtMost.mpr ⟨met, start.1.2.2.2⟩)
      fun cs n value start drawn => drawn.addAtMost (Term.isDrawn_single.mpr start.1.1.1)
        (Term.isDrawn_single.mpr start.1.2.2.1)
  have third : Admits (known w) (demand (·.addNonZero w)) fun _ => known w :=
    .demand (fun cs n value start met => Constraints.metBy_addNonZero.mpr ⟨met, start.2⟩)
      fun cs n value start drawn => drawn.addNonZero (Term.isDrawn_single.mpr start.1.1.1)
  refine first.bind fun _ => second.bind fun _ => .ite (fun _ => third.bind fun _ => ?_) fun _ => ?_
  · exact .pure fun n value final => final.1
  · exact .pure fun n value final => final.1

end Join

end Permission

end Typestate
