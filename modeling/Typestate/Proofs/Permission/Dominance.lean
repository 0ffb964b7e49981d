import Typestate.Proofs.Permission.Bookkeeping
import Typestate.Proofs.Permission.StateInfo

set_option autoImplicit false

/-!
Comparing what two lists of permissions are worth, each under an assignment of its own. A permission
that is backed by another one stays so when both are moved down, when both are put together from
parts, and when the same is split off both of them.
-/

namespace Typestate

open Permission

variable {V W : Type} {S : Space}

/-- One assignment gives a fraction no more than another one gives a second fraction, as far as zero
and one tell. -/
def Dominated (value : Term → V) (other : Term → W) (f g : Fraction) : Prop :=
  (other g = other (.single .zero) → value f = value (.single .zero)) ∧
    (value f = value (.single .one) → other g = other (.single .one))

section Dominated

variable {value : Term → V} {other : Term → W} {e f g h : Fraction}

theorem Fits.dominated (fits : Fits value e f) (dominated : Dominated value other f g) :
    Dominated value other e g :=
  ⟨fun zero => fits.1 (dominated.1 zero), fun one => dominated.2 (fits.2 one)⟩

theorem Dominated.of_zero (distinct : value (.single .zero) ≠ value (.single .one))
    (zero : value f = value (.single .zero)) : Dominated value other f g :=
  ⟨fun _ => zero, fun one => absurd (zero.symm.trans one) distinct⟩

theorem Dominated.congr (dominated : Dominated value other f g) (same : other h = other g) :
    Dominated value other f h := by
  unfold Dominated
  rw [same]
  exact dominated

theorem Dominated.agree {n : Nat} {next : Term → W} (dominated : Dominated value other f g)
    (agree : Agree n other next) (drawn : g.IsDrawn n) : Dominated value next f g := by
  unfold Dominated
  rw [agree.fraction drawn, agree.zero, agree.one]
  exact dominated

theorem Dominated.map {X : Type} {i : W → X} (injective : Function.Injective i)
    (dominated : Dominated value other f g) : Dominated value (fun t => i (other t)) f g :=
  ⟨fun zero => dominated.1 (injective zero), fun one => congrArg i (dominated.2 one)⟩

end Dominated

section Taking

variable {value : Term → V} {other : Term → Option W} {f g h p r left : Fraction}

/-- The literals can be told apart and one value is not theirs. -/
structure Spare (other : Term → Option W) : Prop where
  distinct : other (.single .zero) ≠ other (.single .one)
  zero : other (.single .zero) ≠ none
  one : other (.single .one) ≠ none

/-- The second of two requests takes nothing, or all where the first does, or the spare value where
the first takes something. -/
inductive Takes (value : Term → V) (other : Term → Option W) (f g : Fraction) : Prop
  | nothing (zero : other g = other (.single .zero))
  | all (whole : value f = value (.single .one)) (one : other g = other (.single .one))
  | part (live : value f ≠ value (.single .zero)) (own : other g = none)

theorem Spare.agree {n : Nat} {next : Term → Option W} (spare : Spare other)
    (agree : Agree n other next) : Spare next := by
  obtain ⟨distinct, zero, one⟩ := spare
  rw [← agree.zero] at distinct zero
  rw [← agree.one] at distinct one
  exact ⟨distinct, zero, one⟩

theorem Takes.agree {n : Nat} {next : Term → Option W} (takes : Takes value other f g)
    (agree : Agree n other next) (drawn : g.IsDrawn n) : Takes value next f g := by
  have same := agree.fraction drawn
  cases takes with
  | nothing zero => exact .nothing (by rw [same, zero, agree.zero])
  | all whole one => exact .all whole (by rw [same, one, agree.one])
  | part live own => exact .part live (same.trans own)

theorem Takes.fits (takes : Takes value other f g) (spare : Spare other) (fits : Fits value f p)
    (dominated : Dominated value other p h) : Fits other g h := by
  cases takes with
  | nothing zero => exact ⟨fun _ => zero, fun one => absurd (zero.symm.trans one) spare.distinct⟩
  | all whole one =>
    have everything := dominated.2 (fits.2 whole)
    exact ⟨fun zero => absurd (zero.symm.trans everything) spare.distinct, fun _ => everything⟩
  | part live own =>
    exact ⟨fun zero => absurd (fits.1 (dominated.1 zero)) live,
      fun one => absurd (one.symm.trans own) spare.one⟩

/-- What is left is worth no less where no less was held and the same was taken. -/
theorem Takes.rest (takes : Takes value other f g) (spare : Spare other)
    (distinct : value (.single .zero) ≠ value (.single .one)) (divided : Divided value p f r)
    (dominated : Dominated value other p h) (held : other h ≠ none)
    (rest : IsRest other h g (other left)) : Dominated value other r left := by
  cases takes with
  | nothing zero =>
    have untouched : other left = other h := by
      rcases rest with ⟨all, nothing⟩ | ⟨-, whole⟩ | ⟨some, -, -⟩
      · rw [nothing, ← all, zero]
      · exact whole
      · exact absurd zero some
    exact (divided.rest.dominated dominated).congr untouched
  | all whole _ => exact .of_zero distinct (divided.apart.1 whole)
  | part live own =>
    rcases rest with ⟨all, -⟩ | ⟨nothing, -⟩ | ⟨-, -, same⟩
    · exact absurd (all.symm.trans own) held
    · exact absurd (nothing.symm.trans own) spare.zero
    · -- The first request took something, so not all is left there.
      refine ⟨fun zero => absurd (zero.symm.trans (same.trans own)) spare.zero, fun one => ?_⟩
      exact absurd (divided.apart.2 one) live

end Taking

/-- A fraction is as much as all of the given ones have in common. -/
structure IsMeet (value : Term → V) (fs : List Fraction) (w : Fraction) : Prop where
  fits : ∀ f ∈ fs, Fits value w f
  live : value w = value (.single .zero) → ∃ f ∈ fs, value f = value (.single .zero)
  whole : (∀ f ∈ fs, value f = value (.single .one)) → value w = value (.single .one)
  among : ∃ f, (f = .zero ∨ f = .one ∨ f ∈ fs) ∧ value w = value f

section Meets

variable {value : Term → V} {other : Term → W}

theorem Dominated.of_isMeet (fs : List Fraction) {gs : List Fraction} {v w : Fraction}
    (fits : ∀ f ∈ fs, Fits value v f) (meet : IsMeet other gs w)
    (backed : ∀ g ∈ gs, ∃ f ∈ fs, Dominated value other f g) : Dominated value other v w := by
  constructor
  · intro zero
    obtain ⟨g, member, nothing⟩ := meet.live zero
    obtain ⟨f, among, dominated⟩ := backed g member
    exact (fits f among).1 (dominated.1 nothing)
  · intro one
    refine meet.whole fun g member => ?_
    obtain ⟨f, among, dominated⟩ := backed g member
    exact dominated.2 ((fits f among).2 one)

theorem exists_meet (distinct : value (.single .zero) ≠ value (.single .one))
    (fs : List Fraction) : ∃ g, (g = .zero ∨ g = .one ∨ g ∈ fs) ∧ IsMeet value fs g := by
  by_cases zero : ∃ f ∈ fs, value f = value (.single .zero)
  · exact ⟨.zero, .inl rfl, fun f _ => ⟨fun _ => rfl, fun one => absurd one distinct⟩,
      fun _ => zero, fun whole => by
        obtain ⟨f, member, nothing⟩ := zero
        exact nothing.symm.trans (whole f member), .zero, .inl rfl, rfl⟩
  · by_cases whole : ∀ f ∈ fs, value f = value (.single .one)
    · refine ⟨.one, .inr (.inl rfl), fun f member => ?_, fun nothing => ?_, fun _ => rfl, .one,
        .inr (.inl rfl), rfl⟩
      · exact .of_eq (whole f member).symm
      · exact absurd nothing.symm distinct
    · -- One of them is neither zero nor one, and that is what they have in common.
      simp only [not_forall] at whole
      obtain ⟨f, member, proper⟩ := whole
      refine ⟨f, .inr (.inr member), fun g inside => ?_, fun nothing => ⟨f, member, nothing⟩,
        fun all => all f member, f, .inr (.inr member), rfl⟩
      exact ⟨fun nothing => absurd ⟨g, inside, nothing⟩ zero, fun one => absurd one proper⟩

theorem IsMeet.congr {fs : List Fraction} {g w : Fraction} (meet : IsMeet value fs g)
    (same : value w = value g) : IsMeet value fs w := by
  obtain ⟨f, listed, equal⟩ := meet.among
  refine ⟨fun f member => (Fits.of_eq same).trans (meet.fits f member), ?_, ?_, f, listed,
    same.trans equal⟩
  · rw [same]
    exact meet.live
  · rw [same]
    exact meet.whole

theorem IsMeet.agree {n : Nat} {next : Term → V} {fs : List Fraction} {w : Fraction}
    (meet : IsMeet value fs w) (agree : Agree n value next) (drawn : ∀ f ∈ fs, f.IsDrawn n)
    (new : w.IsDrawn n) : IsMeet next fs w := by
  have kept (f : Fraction) (member : f ∈ fs) : next f = value f := agree.fraction (drawn f member)
  refine ⟨fun f member => (meet.fits f member).agree agree new (drawn f member), fun zero => ?_,
    fun whole => ?_, ?_⟩
  · rw [agree.fraction new, agree.zero] at zero
    obtain ⟨f, member, nothing⟩ := meet.live zero
    exact ⟨f, member, by rw [kept f member, agree.zero, nothing]⟩
  · rw [agree.fraction new, agree.one]
    refine meet.whole fun f member => ?_
    rw [← kept f member, whole f member, agree.one]
  · obtain ⟨f, listed, same⟩ := meet.among
    refine ⟨f, listed, ?_⟩
    rw [agree.fraction new, same]
    rcases listed with rfl | rfl | member
    · exact agree.zero.symm
    · exact agree.one.symm
    · exact (kept f member).symm

theorem IsMeet.ne_none {value : Term → Option W} {fs : List Fraction} {w : Fraction}
    (meet : IsMeet value fs w) (spare : Spare value) (held : ∀ f ∈ fs, value f ≠ none) :
    value w ≠ none := by
  obtain ⟨f, listed, same⟩ := meet.among
  rw [same]
  rcases listed with rfl | rfl | member
  · exact spare.zero
  · exact spare.one
  · exact held f member

end Meets

namespace Permission

open Ledger

theorem weaken_meets (first : Fraction) (rest : List Fraction) :
    Admits (fun n (value : Term → V) => value (.single .zero) ≠ value (.single .one) ∧
        ∀ f ∈ first :: rest, f.IsDrawn n)
      (weaken first rest) fun w n value => w.IsDrawn n ∧ IsMeet value (first :: rest) w := by
  rw [weaken_eq]
  refine .ite (fun same => .pure fun n value start => ?_) fun _ => ?_
  · have equal (f : Fraction) (member : f ∈ first :: rest) : f = first := by
      rcases List.mem_cons.mp member with here | later
      · exact here
      · exact beq_iff_eq.mp (List.all_eq_true.mp same f later)
    refine ⟨start.2 first List.mem_cons_self, fun f member => .of_eq (by rw [equal f member]),
      fun zero => ⟨first, List.mem_cons_self, zero⟩, fun whole => whole first List.mem_cons_self,
      first, .inr (.inr List.mem_cons_self), rfl⟩
  · let known (w : Fraction) (n : Nat) (value : Term → V) : Prop :=
      (∀ f ∈ first :: rest, f.IsDrawn n) ∧ w.IsDrawn n ∧ IsMeet value (first :: rest) w
    have drawn : Admits (fun n (value : Term → V) => value (.single .zero) ≠ value (.single .one) ∧
        ∀ f ∈ first :: rest, f.IsDrawn n) fresh known := by
      refine .fresh fun n value start => ?_
      -- The new fraction gets the value of a literal or of one of the given fractions.
      obtain ⟨g, listed, meet⟩ := exists_meet start.1 (first :: rest)
      have agree := Agree.draw n value (value g)
      have old : g.IsDrawn n := by
        rcases listed with rfl | rfl | member
        · trivial
        · trivial
        · exact start.2 g member
      have chosen : Function.update value (.single (.unknown n)) (value g) (.single (.unknown n)) =
          Function.update value (.single (.unknown n)) (value g) g := by
        rw [agree.fraction old]
        simp
      refine ⟨value g, fun f member => (start.2 f member).mono (Nat.le_succ n),
        Nat.lt_succ_self n, ?_⟩
      exact (meet.agree agree start.2 old).congr chosen
    refine drawn.bind fun w => ?_
    have demanded : Admits (known w)
        (demand fun cs => (first :: rest).foldl (fun cs (f : Fraction) => cs.addAtMost w f) cs)
        fun _ => known w :=
      .demand (fun cs n value start met => metBy_addAtMosts.mpr ⟨met, start.2.2.fits⟩)
        fun cs n value start drawn => isDrawn_addAtMosts drawn start.2.1 start.1
    exact demanded.bind fun _ => .pure fun n value final => final.2

/-- A permission that was put together from parts and has all that they have in common. -/
structure IsCommon (s : Solution) (T : Space) (root : String) (parts : List Permission)
    (w : Permission) (n : Nat) (value : Term → V) : Prop extends
    IsCombined s T root parts w where
  known : w.states = T.cleanStates (parts.flatMap states)
  drawn : w.shares.IsDrawn n
  nodes : ∀ entry ∈ w.shares.values, IsMeet value (parts.map (·.shares.get entry.1)) entry.2
  lowest : IsMeet value (parts.map (·.shares.below)) w.shares.below

theorem IsCommon.held {s : Solution} {T : Space} {root : String} {parts : List Permission}
    {w : Permission} {n : Nat} {value : Term → Option W} (common : IsCommon s T root parts w n value)
    (spare : Spare value) (held : ∀ p ∈ parts, ∀ f ∈ p.shares.fractions, value f ≠ none) :
    ∀ f ∈ w.shares.fractions, value f ≠ none := by
  have reached {change : Permission → Fraction}
      (own : ∀ p ∈ parts, change p ∈ p.shares.fractions ∨ change p = .zero) :
      ∀ f ∈ parts.map change, value f ≠ none := by
    intro f among
    obtain ⟨p, part, rfl⟩ := List.mem_map.mp among
    rcases own p part with member | zero
    · exact held p part _ member
    · rw [zero]
      exact spare.zero
  intro f member
  rcases Shares.mem_fractions.mp member with ⟨entry, inside, rfl⟩ | rfl
  · exact (common.nodes entry inside).ne_none spare (reached fun p _ => p.shares.get_mem entry.1)
  · exact common.lowest.ne_none spare (reached fun p _ => .inl p.shares.below_mem_fractions)

theorem combineUp_meets (s : Solution) (root : String) {first : Permission} {rest : Pool}
    (some : first.space.dimensions root ≠ [])
    (count : (first.space.dimensions root).length = (first :: rest).length)
    (all : ∀ d ∈ first.space.dimensions root, ∃ p ∈ first :: rest, p.root = d) :
    Admits (fun n (value : Term → V) => s.Silent n ∧
        value (.single .zero) ≠ value (.single .one) ∧
        ∀ p ∈ first :: rest, p.shares.IsDrawn n)
      (combineUp root (first :: rest)) fun whole n value => ∃ w, whole = .some w ∧
        IsCommon s first.space root (first :: rest) w n value := by
  let ready (change : Permission → Fraction) (n : Nat) (value : Term → V) : Prop :=
    s.Silent n ∧ value (.single .zero) ≠ value (.single .one) ∧
      ∀ p ∈ first :: rest, (change p).IsDrawn n
  let known (change : Permission → Fraction) (w : Fraction) (n : Nat) (value : Term → V) : Prop :=
    ((w.IsDrawn n ∧ IsMeet value ((first :: rest).map change) w) ∧
      StandsFor s ((first :: rest).map change) w) ∧ ready change n value
  have lasting (change : Permission → Fraction) : Lasting (ready change) := by
    intro n m value next more agree start
    refine ⟨start.1.mono more, ?_, fun p member => (start.2.2 p member).mono more⟩
    rw [agree.zero, agree.one]
    exact start.2.1
  have kept (change : Permission → Fraction) (w : Fraction) : Lasting (known change w) := by
    intro n m value next more agree start
    obtain ⟨⟨⟨drawn, meet⟩, stands⟩, begun⟩ := start
    refine ⟨⟨⟨drawn.mono more, meet.agree agree (fun f member => ?_) drawn⟩, stands⟩,
      lasting change more agree begun⟩
    obtain ⟨p, among, rfl⟩ := List.mem_map.mp member
    exact begun.2.2 p among
  -- One fraction of the whole, put together from those of all parts at one spot.
  have weakened (change : Permission → Fraction) :
      Admits (ready change) (weaken (change first) (rest.map change)) (known change) := by
    refine Carries.keeping (((weaken_meets _ _).mono (fun n value start => ?_) fun _ _ _ => id)
      |>.results fun l value start => weaken_standsFor start.1 _ _) (lasting change) fun _ _ => id
    refine ⟨start.2.1, fun f member => ?_⟩
    obtain ⟨p, among, rfl⟩ := List.mem_map.mp (List.map_cons (f := change) ▸ member)
    exact start.2.2 p among
  refine (combineUp_tabulates root (fun n => lasting (·.shares.get n)) (lasting (·.shares.below))
    (fun n => kept (·.shares.get n)) (fun n => weakened (·.shares.get n))
    (weakened (·.shares.below)) some count all).mono (fun n value start => ?_) ?_
  · obtain ⟨silent, distinct, drawn⟩ := start
    refine ⟨fun node _ => ⟨silent, distinct, fun p member => (drawn p member).get node⟩, silent,
      distinct, fun p member => (drawn p member).below⟩
  · rintro _ n value ⟨shares, made, rfl⟩
    refine ⟨_, rfl, ⟨made.space, made.root, made.laid, rfl,
      fun entry member => (made.values entry member).1.2, made.below.1.2⟩,
      congrArg (fun T : Space => T.cleanStates _) made.space, fun f member => ?_,
      fun entry member => (made.values entry member).1.1.2, made.below.1.1.2⟩
    rcases Shares.mem_fractions.mp member with ⟨entry, inside, rfl⟩ | rfl
    · exact (made.values entry inside).1.1.1
    · exact made.below.1.1.1

end Permission

end Typestate
