import Typestate.Proofs.Fraction.Valuation
import Typestate.Proofs.Permission.Stepwise

set_option autoImplicit false

/-!
How little requests can make do with. Demands that come from splitting can be met by numbers that
are found one after the other: a request gets next to nothing, and what is held stays close to one.
-/

namespace Typestate

variable {V : Type}

namespace Valuation

/-- The same numbers but for one unknown fraction. -/
def draw (v : Valuation) (id : Nat) (x : ℚ) (nonneg : 0 ≤ x) (le_one : x ≤ 1) : Valuation where
  number := Function.update v.number (.unknown id) x
  nonneg f := by
    rw [Function.update_apply]
    split
    · exact nonneg
    · exact v.nonneg f
  le_one f := by
    rw [Function.update_apply]
    split
    · exact le_one
    · exact v.le_one f
  zero := v.zero
  one := v.one
  named_pos := v.named_pos
  named_lt_one := v.named_lt_one
  named_injective := v.named_injective

section Drawing

variable {v : Valuation} {id : Nat} {x : ℚ} {nonneg : 0 ≤ x} {le_one : x ≤ 1}

@[simp] theorem draw_new : (v.draw id x nonneg le_one).number (.unknown id) = x :=
  Function.update_self _ _ _

theorem draw_of_ne {f : Fraction} (different : f ≠ .unknown id) :
    (v.draw id x nonneg le_one).number f = v.number f := Function.update_of_ne different _ _

theorem draw_of_isDrawn {f : Fraction} (drawn : f.IsDrawn id) :
    (v.draw id x nonneg le_one).number f = v.number f := by
  refine draw_of_ne fun same => not_isDrawn_unknown id ?_
  rw [same] at drawn
  exact drawn

end Drawing

theorem value_congr {v w : Valuation} {t : Term}
    (same : ∀ f ∈ t.fractions, w.number f = v.number f) : w.value t = v.value t := by
  cases t with
  | single f => exact same f (by simp [Term.fractions])
  | sum fs => exact congrArg List.sum (List.map_congr_left same)

theorem Satisfies.congr {v w : Valuation} {c : Constraint} (satisfied : v.Satisfies c)
    (same : ∀ t ∈ c.terms, w.value t = v.value t) : w.Satisfies c := by
  cases c with
  | equal ts =>
      intro a left b right
      rw [same a left, same b right]
      exact satisfied a left b right
  | nonZero t =>
      change 0 < w.value t
      rw [same t (by simp [Constraint.terms])]
      exact satisfied
  | atMost a b =>
      change w.value a ≤ w.value b
      rw [same a (by simp [Constraint.terms]), same b (by simp [Constraint.terms])]
      exact satisfied
  | less a b =>
      change w.value a < w.value b
      rw [same a (by simp [Constraint.terms]), same b (by simp [Constraint.terms])]
      exact satisfied

def Solves (v : Valuation) (cs : Constraints) : Prop := ∀ c ∈ cs.items, v.Satisfies c

theorem Solves.draw {v : Valuation} {cs : Constraints} (solves : v.Solves cs) {n : Nat}
    (drawn : cs.IsDrawn n) {x : ℚ} (nonneg : 0 ≤ x) (le_one : x ≤ 1) :
    (v.draw n x nonneg le_one).Solves cs := fun c member =>
  (solves c member).congr fun t among =>
    value_congr fun f inside => draw_of_isDrawn (drawn c member t among f inside)

theorem Solves.add {v : Valuation} {cs : Constraints} (solves : v.Solves cs) {c : Constraint}
    (new : v.Satisfies c) : v.Solves (cs.add c) := by
  intro d member
  rcases Constraints.mem_add.mp member with old | rfl
  · exact solves d old
  · exact new

theorem Solves.addEqual_sum {v : Valuation} {cs : Constraints} (solves : v.Solves cs) {p : Fraction}
    {gs : List Fraction} (same : v.number p = v.value (.sum gs)) :
    v.Solves (cs.addEqual p (.sum gs)) := by
  have different : Term.single p ≠ .sum gs := nofun
  rw [Constraints.addEqual, if_neg different]
  have total (t : Term) (member : t ∈ [.single p, .sum gs]) : v.value t = v.number p := by
    rcases List.mem_cons.mp member with rfl | last
    · rfl
    · rw [List.mem_singleton.mp last, same]
  exact solves.add fun a first b second => (total a first).trans (total b second).symm

theorem Solves.addAtMosts {v : Valuation} {cs : Constraints} (solves : v.Solves cs) {w : Fraction}
    {fs : List Fraction} (small : ∀ f ∈ fs, v.number w ≤ v.number f) :
    v.Solves (fs.foldl (fun cs (f : Fraction) => cs.addAtMost w f) cs) := by
  induction fs generalizing cs with
  | nil => exact solves
  | cons f rest ih =>
      refine ih ?_ fun g later => small g (List.mem_cons_of_mem _ later)
      dsimp only [Constraints.addAtMost]
      split
      · exact solves
      · exact solves.add (small f List.mem_cons_self)

/-- The least of some numbers up to one. -/
def least (numbers : List ℚ) : ℚ := numbers.foldr min 1

theorem le_least {numbers : List ℚ} {b : ℚ} (one : b ≤ 1) (all : ∀ x ∈ numbers, b ≤ x) :
    b ≤ least numbers := by
  induction numbers with
  | nil => exact one
  | cons x rest ih =>
      exact le_min (all x List.mem_cons_self) (ih fun y later => all y (List.mem_cons_of_mem _ later))

theorem least_le {numbers : List ℚ} {x : ℚ} (member : x ∈ numbers) : least numbers ≤ x := by
  induction numbers with
  | nil => cases member
  | cons y rest ih =>
      rcases List.mem_cons.mp member with rfl | later
      · exact min_le_left _ _
      · exact (min_le_right _ _).trans (ih later)

theorem least_le_one (numbers : List ℚ) : least numbers ≤ 1 := by
  induction numbers with
  | nil => exact le_rfl
  | cons x rest ih => exact (min_le_right _ _).trans ih

theorem value_pair (v : Valuation) {q r : Fraction} {gs : List Fraction}
    (shape : gs = [q, r] ∨ gs = [r, q]) : v.value (.sum gs) = v.number q + v.number r := by
  rcases shape with rfl | rfl
  · simp [value]
  · simp [value, add_comm]

/-- Given numbers for the unknown fractions, and parts of a small number for the named ones. -/
def scaled (ε : ℚ) (positive : 0 < ε) (small : ε ≤ 1) (number : Nat → ℚ)
    (nonneg : ∀ id, 0 ≤ number id) (le_one : ∀ id, number id ≤ 1) : Valuation where
  number
    | .zero => 0
    | .one => 1
    | .named id => ε / (id + 2)
    | .unknown id => number id
  nonneg f := by
    cases f with
    | zero | one => norm_num
    | named id => positivity
    | unknown id => exact nonneg id
  le_one f := by
    cases f with
    | zero | one => norm_num
    | named id =>
        rw [div_le_one (by positivity)]
        linarith [Nat.cast_nonneg (α := ℚ) id]
    | unknown id => exact le_one id
  zero := rfl
  one := rfl
  named_pos id := by positivity
  named_lt_one id := by
    rw [div_lt_one (by positivity)]
    linarith [Nat.cast_nonneg (α := ℚ) id]
  named_injective i j same := by
    have apart := positive.ne'
    field_simp at same
    have equal : (i : ℚ) = j := by linarith
    exact_mod_cast equal

end Valuation

variable {asked : Nat → Prop} {value : Term → V} {ε : ℚ} {n : Nat}

/-- Numbers that follow an assignment in what is zero and what is one. Otherwise requests get little
and little is missing of what is held. -/
structure Valuation.Sparing (v : Valuation) (value : Term → V) (asked : Nat → Prop) (ε : ℚ)
    (n : Nat) : Prop where
  named : ∀ id, v.number (.named id) ≤ ε
  little : ∀ id, asked id → v.number (.unknown id) ≤ ε
  nothing : ∀ id, asked id → value (.single (.unknown id)) = value (.single .zero) →
    v.number (.unknown id) = 0
  something : ∀ id, asked id → value (.single (.unknown id)) ≠ value (.single .zero) →
    0 < v.number (.unknown id)
  all : ∀ id, ¬asked id → value (.single (.unknown id)) = value (.single .one) →
    v.number (.unknown id) = 1
  most : ∀ id, ¬asked id → value (.single (.unknown id)) ≠ value (.single .zero) →
    1 - n * ε ≤ v.number (.unknown id)

namespace Valuation.Sparing

variable {v : Valuation}

theorem mono (sparing : v.Sparing value asked ε n) (positive : 0 < ε) {m : Nat} (more : n ≤ m) :
    v.Sparing value asked ε m := by
  refine { sparing with most := fun id free live => le_trans ?_ (sparing.most id free live) }
  have grows : (n : ℚ) ≤ m := by exact_mod_cast more
  nlinarith

theorem held_all (sparing : v.Sparing value asked ε n) {p : Fraction} (held : p.IsHeld asked n)
    (distinct : value (.single .zero) ≠ value (.single .one))
    (one : value p = value (.single .one)) : v.number p = 1 := by
  cases p with
  | zero => exact absurd one distinct
  | one => exact v.one
  | named id => exact held.elim
  | unknown id => exact sparing.all id held.2 one

theorem held_most (sparing : v.Sparing value asked ε n) (positive : 0 < ε) {p : Fraction}
    (held : p.IsHeld asked n) (live : value p ≠ value (.single .zero)) :
    1 - n * ε ≤ v.number p := by
  cases p with
  | zero => exact absurd rfl live
  | one =>
      rw [v.one]
      have scale : (0 : ℚ) ≤ n * ε := by positivity
      linarith
  | named id => exact held.elim
  | unknown id => exact sparing.most id held.2 live

theorem asked_little (sparing : v.Sparing value asked ε n) (positive : 0 < ε) {q : Fraction}
    (request : q.IsAsked asked n) (proper : q ≠ .one) : v.number q ≤ ε := by
  cases q with
  | zero =>
      rw [v.zero]
      exact positive.le
  | one => exact absurd rfl proper
  | named id => exact sparing.named id
  | unknown id => exact sparing.little id request.2

theorem asked_nothing (sparing : v.Sparing value asked ε n) {cs : Constraints}
    (met : cs.MetBy value) {q : Fraction} (request : q.IsAsked asked n)
    (zero : value q = value (.single .zero)) : v.number q = 0 := by
  cases q with
  | zero => exact v.zero
  | one => exact absurd zero.symm met.zero_ne_one
  | named id => exact absurd zero (met.2.lawful.literal_positive (.named id) rfl)
  | unknown id => exact sparing.nothing id request.2 zero

theorem rest_bounds (sparing : v.Sparing value asked ε n) (positive : 0 < ε)
    (small : (n + 1) * ε ≤ 1) {cs : Constraints} (met : cs.MetBy value) {p q r : Fraction}
    (held : p.IsHeld asked n) (request : q.IsAsked asked n) (divided : Divided value p q r) :
    0 ≤ v.number p - v.number q ∧
      (value r = value (.single .one) → v.number p - v.number q = 1) ∧
      (value r ≠ value (.single .zero) → 1 - (n + 1) * ε ≤ v.number p - v.number q) := by
  by_cases zero : value q = value (.single .zero)
  · -- A request for nothing leaves all there was.
    rw [sparing.asked_nothing met request zero, sub_zero]
    refine ⟨v.nonneg p, fun one => ?_, fun live => ?_⟩
    · exact sparing.held_all held met.zero_ne_one (divided.rest.2 one)
    · have most := sparing.held_most positive held fun none => live (divided.rest.1 none)
      linarith
  have most := sparing.held_most positive held fun none => zero (divided.taken.1 none)
  by_cases whole : q = .one
  · -- The request takes all there is, and nothing is left to speak of.
    subst whole
    have nothing : value r = value (.single .zero) := divided.apart.1 rfl
    rw [sparing.held_all held met.zero_ne_one (divided.taken.2 rfl), v.one]
    refine ⟨by norm_num, fun one => ?_, fun live => absurd nothing live⟩
    exact absurd (nothing.symm.trans one) met.zero_ne_one
  · -- What was next to one before is next to one after a little is gone.
    have little := sparing.asked_little positive request whole
    refine ⟨by linarith, fun one => absurd (divided.apart.2 one) zero, fun _ => by linarith⟩

theorem draw (sparing : v.Sparing value asked ε n) (positive : 0 < ε) (new : ¬asked n) {x : ℚ}
    (nonneg : 0 ≤ x) (le_one : x ≤ 1)
    (all : value (.single (.unknown n)) = value (.single .one) → x = 1)
    (most : value (.single (.unknown n)) ≠ value (.single .zero) → 1 - (n + 1) * ε ≤ x) :
    (v.draw n x nonneg le_one).Sparing value asked ε (n + 1) := by
  -- The number drawn is not that of a request.
  have kept {id : Nat} (request : asked id) :
      (v.draw n x nonneg le_one).number (.unknown id) = v.number (.unknown id) := by
    refine draw_of_ne fun same => new ?_
    rw [← Fraction.unknown.inj same]
    exact request
  have later := sparing.mono positive (Nat.le_succ n)
  refine ⟨fun id => ?_, fun id request => ?_, fun id request => ?_, fun id request => ?_,
    fun id free => ?_, fun id free => ?_⟩
  · exact sparing.named id
  · rw [kept request]
    exact sparing.little id request
  · rw [kept request]
    exact sparing.nothing id request
  · rw [kept request]
    exact sparing.something id request
  · by_cases same : id = n
    · subst same
      rw [draw_new]
      exact all
    · rw [draw_of_ne (by simpa using same)]
      exact sparing.all id free
  · by_cases same : id = n
    · subst same
      rw [draw_new]
      push_cast
      exact most
    · rw [draw_of_ne (by simpa using same)]
      exact later.most id free

end Valuation.Sparing

theorem exists_sparing (value : Term → V) (asked : Nat → Prop) (positive : 0 < ε) (small : ε ≤ 1)
    (n : Nat) : ∃ v : Valuation, v.Sparing value asked ε n := by
  classical
  -- Requests get `ε` or nothing, and what is held gets all.
  let number (id : Nat) : ℚ :=
    if asked id then
      if value (.single (.unknown id)) = value (.single .zero) then 0 else ε
    else 1
  have bounds (id : Nat) : 0 ≤ number id ∧ number id ≤ 1 := by
    unfold number
    split_ifs
    · norm_num
    · exact ⟨positive.le, small⟩
    · norm_num
  have scale : (0 : ℚ) ≤ n * ε := by positivity
  refine ⟨.scaled ε positive small number (fun id => (bounds id).1) fun id => (bounds id).2,
    fun id => ?_, fun id request => ?_, fun id request zero => ?_, fun id request live => ?_,
    fun id free _ => ?_, fun id free _ => ?_⟩
  · change ε / (id + 2) ≤ ε
    rw [div_le_iff₀ (by positivity)]
    nlinarith [Nat.cast_nonneg (α := ℚ) id]
  · change number id ≤ ε
    simp only [number, if_pos request]
    split_ifs
    · exact positive.le
    · exact le_rfl
  · change number id = 0
    simp [number, request, zero]
  · change 0 < number id
    simpa [number, request, live] using positive
  · change number id = 1
    simp [number, free]
  · change 1 - n * ε ≤ number id
    simp only [number, if_neg free]
    linarith

/-- The constraints that come from splitting have a solution in numbers once an assignment meets
them, and requests get next to nothing in it. -/
theorem Constraints.Stepwise.exists_solves {cs : Constraints} (made : cs.Stepwise asked n)
    (positive : 0 < ε) (small : (n + 1) * ε ≤ 1) (met : cs.MetBy value) :
    ∃ v : Valuation, v.Sparing value asked ε n ∧ v.Solves cs := by
  induction made with
  | empty n =>
      have scale : (0 : ℚ) ≤ n * ε := by positivity
      obtain ⟨v, sparing⟩ := exists_sparing value asked positive (by linarith) n
      exact ⟨v, sparing, nofun⟩
  | @later n m cs _ more ih =>
      have grows : (n : ℚ) ≤ m := by exact_mod_cast more
      obtain ⟨v, sparing, solves⟩ := ih (by nlinarith) met
      exact ⟨v, sparing.mono positive more, solves⟩
  | @ask n id cs _ drawn request ih =>
      obtain ⟨met, -, live⟩ := metBy_add.mp met
      obtain ⟨v, sparing, solves⟩ := ih small met
      exact ⟨v, sparing, solves.add (sparing.something id request live)⟩
  | @rest n cs p q made new held request live ih =>
      obtain ⟨gs, sum, shape⟩ := Term.ofSum_pair live (nofun : Fraction.unknown n ≠ .zero)
      rw [sum] at met ⊢
      obtain ⟨met, bounded, same⟩ := metBy_addEqual_sum.mp met
      push_cast at small
      obtain ⟨v, sparing, solves⟩ := ih (by linarith) met
      obtain ⟨nonneg, all, most⟩ := sparing.rest_bounds positive (by linarith) met held request
        (.of_summands shape bounded same)
      have le_one : v.number p - v.number q ≤ 1 := by linarith [v.nonneg q, v.le_one p]
      refine ⟨v.draw n _ nonneg le_one, sparing.draw positive new nonneg le_one all most,
        (solves.draw made.isDrawn nonneg le_one).addEqual_sum ?_⟩
      rw [Valuation.value_pair _ shape, Valuation.draw_of_isDrawn held.isDrawn,
        Valuation.draw_of_isDrawn request.isDrawn, Valuation.draw_new]
      linarith
  | @common n cs fs made new held _ ih =>
      obtain ⟨met, fits⟩ := Permission.metBy_addAtMosts.mp met
      push_cast at small
      obtain ⟨v, sparing, solves⟩ := ih (by linarith) met
      -- The largest number that is allowed comes closest to one.
      let x := Valuation.least (fs.map v.number)
      have le_one : x ≤ 1 := Valuation.least_le_one _
      have bound {b : ℚ} (one : b ≤ 1) (all : ∀ f ∈ fs, b ≤ v.number f) : b ≤ x :=
        Valuation.le_least one (List.forall_mem_map.mpr all)
      have nonneg : 0 ≤ x := bound zero_le_one fun f _ => v.nonneg f
      refine ⟨v.draw n x nonneg le_one, sparing.draw positive new nonneg le_one (fun one => ?_)
        fun live => ?_, (solves.draw made.isDrawn nonneg le_one).addAtMosts fun f member => ?_⟩
      · refine le_antisymm le_one (bound le_rfl fun f member => ?_)
        exact (sparing.held_all (held f member) met.zero_ne_one ((fits f member).2 one)).ge
      · have scale : (0 : ℚ) ≤ (n + 1) * ε := by positivity
        refine bound (by linarith) fun f member => ?_
        have most := sparing.held_most positive (held f member)
          fun none => live ((fits f member).1 none)
        linarith
      · rw [Valuation.draw_new, Valuation.draw_of_isDrawn (held f member).isDrawn]
        exact Valuation.least_le (List.mem_map_of_mem member)

end Typestate
