import Typestate.Proofs.Fraction.Implication
import Typestate.Proofs.Permission.Bookkeeping
import Typestate.Proofs.Permission.SmallShares

set_option autoImplicit false

/-!
Splitting and merging are exact on numbers: in every valuation that meets the demands the fractions
add up, and a valuation in which they can add up has numbers for the fractions that are drawn.
-/

namespace Typestate

open Permission

namespace Valuation

variable {v w : Valuation} {cs other : Constraints} {p q r : Fraction}

theorem value_ofSum_pair (v : Valuation) (left : p ≠ .zero) (right : q ≠ .zero) :
    v.value (.ofSum [p, q]) = v.number p + v.number q := by
  obtain ⟨gs, sum, shape⟩ := Term.ofSum_pair left right
  rw [sum, v.value_pair shape]

theorem Meets.subset (meets : v.Meets other) (inside : cs.items ⊆ other.items) : v.Meets cs :=
  ⟨fun c member => meets.satisfies c (inside member),
    fun c member => meets.bounded c (inside member)⟩

theorem Meets.congr (meets : v.Meets cs) {n : Nat} (drawn : cs.IsDrawn n)
    (same : ∀ f : Fraction, f.IsDrawn n → w.number f = v.number f) : w.Meets cs := by
  have value (c : Constraint) (member : c ∈ cs.items) (t : Term) (among : t ∈ c.terms) :
      w.value t = v.value t :=
    value_congr fun f inside => same f (drawn c member t among f inside)
  refine ⟨fun c member => (meets.satisfies c member).congr (value c member),
    fun c member t among => ?_⟩
  rw [value c member t among]
  exact meets.bounded c member t among

theorem Meets.addEqual (meets : v.Meets cs) (left : q ≠ .zero) (right : r ≠ .zero)
    (adds : v.number p = v.number q + v.number r) :
    v.Meets (cs.addEqual p (.ofSum [q, r])) := by
  obtain ⟨gs, sum, shape⟩ := Term.ofSum_pair left right
  have total : v.number p = v.value (.sum gs) := by
    rw [adds, v.value_pair shape]
  rw [sum]
  refine ⟨Solves.addEqual_sum meets.satisfies total, fun c member => ?_⟩
  have different : Term.single p ≠ .sum gs := nofun
  rw [Constraints.addEqual, if_neg different] at member
  rcases Constraints.mem_add.mp member with old | rfl
  · exact meets.bounded c old
  · have single : v.value (.single p) ≤ 1 := v.le_one p
    have both : v.value (.sum gs) ≤ 1 := total ▸ single
    simpa [Constraint.terms] using ⟨single, both⟩

theorem Meets.equal (meets : v.Meets cs) {a b : Term} (written : .equal [a, b] ∈ cs.items) :
    v.value a = v.value b :=
  meets.satisfies _ written a (by simp) b (by simp)

theorem Meets.leaves (meets : v.Meets cs) (leaves : cs.Leaves p q r) :
    v.number p = v.number q + v.number r := by
  cases leaves with
  | all nothing => rw [nothing, v.zero, zero_add]
  | nothing all => rw [all, v.zero, add_zero]
  | rest id some written =>
      exact (meets.equal written).trans (v.value_ofSum_pair some nofun)

theorem Meets.gathers (meets : v.Meets cs) (gathers : cs.Gathers p q r) :
    v.number r = v.number p + v.number q := by
  cases gathers with
  | first nothing => rw [nothing, v.zero, add_zero]
  | second nothing => rw [nothing, v.zero, zero_add]
  | total id left right written =>
      exact (meets.equal written).trans (v.value_ofSum_pair left right)

/-- The two differ at most in unknown fractions that are numbered within a range. -/
def Extends (w v : Valuation) (first last : Nat) : Prop :=
  ∀ f : Fraction, (∀ id, f = .unknown id → id < first ∨ last ≤ id) → w.number f = v.number f

end Valuation

/-- Valuations that meet the demands and give to all that is yet to be drawn the numbers that it has
in a given one. -/
abbrev Cargo.valuations (far : Valuation) : Cargo Valuation where
  fits l v := v.Meets l.constraints ∧ l.constraints.IsDrawn l.supply.next ∧
    ∀ id, l.supply.next ≤ id → v.number (.unknown id) = far.number (.unknown id)
  agree n v w := ∀ f : Fraction, f.IsDrawn n → w.number f = v.number f
  refl _ _ _ _ := rfl
  trans first more second f drawn := (second f (drawn.mono more)).trans (first f drawn)

section Drawing

variable {far v : Valuation} {l : Ledger}

theorem draw_equation (fits : (Cargo.valuations far).fits l v) {x : ℚ} (nonneg : 0 ≤ x)
    (le_one : x ≤ 1) {p q r : Fraction} (whole : p.IsDrawn (l.supply.next + 1))
    (first : q.IsDrawn (l.supply.next + 1)) (second : r.IsDrawn (l.supply.next + 1))
    (left : q ≠ .zero) (right : r ≠ .zero)
    (adds : (v.draw l.supply.next x nonneg le_one).number p =
      (v.draw l.supply.next x nonneg le_one).number q +
        (v.draw l.supply.next x nonneg le_one).number r) :
    let w := v.draw l.supply.next x nonneg le_one
    (Cargo.valuations far).agree l.supply.next v w ∧ (Cargo.valuations far).fits
      ⟨l.constraints.addEqual p (.ofSum [q, r]), ⟨l.supply.next + 1⟩⟩ w := by
  intro w
  obtain ⟨meets, drawn, later⟩ := fits
  have agree : (Cargo.valuations far).agree l.supply.next v w :=
    fun f known => Valuation.draw_of_isDrawn known
  refine ⟨agree, (meets.congr drawn agree).addEqual left right adds, ?_, fun id beyond => ?_⟩
  · exact (drawn.mono (Nat.le_succ _)).addEqual (Term.isDrawn_single.mpr whole)
      (Term.isDrawn_ofSum_pair left right first second)
  · have past : l.supply.next + 1 ≤ id := beyond
    have different : Fraction.unknown id ≠ .unknown l.supply.next := by
      intro same
      have equal := Fraction.unknown.inj same
      omega
    rw [Valuation.draw_of_ne different]
    exact later id (by omega)

/-- Two fractions are drawn, and their numbers are as demanded. -/
def Paired (holds : ℚ → ℚ → Prop) (f g : Fraction) (n : Nat) (v : Valuation) : Prop :=
  f.IsDrawn n ∧ g.IsDrawn n ∧ holds (v.number f) (v.number g)

theorem Paired.keeps (far : Valuation) (holds : ℚ → ℚ → Prop) (f g : Fraction) :
    (Cargo.valuations far).Keeps (Paired holds f g) := by
  rintro n m v w more agree ⟨left, right, known⟩
  refine ⟨left.mono more, right.mono more, ?_⟩
  rw [agree f left, agree g right]
  exact known

theorem splitFraction_completes (far : Valuation) (p q : Fraction) :
    Carries (.valuations far) (Paired (fun x y => y ≤ x) p q) (splitFraction p q)
      fun _ _ _ => True := by
  refine .ite (fun _ => .pure fun _ _ _ => trivial) fun some =>
    .ite (fun _ => .pure fun _ _ _ => trivial) fun _ => ?_
  rintro l v fits ⟨whole, part, fewer⟩
  have more := Nat.le_succ l.supply.next
  -- The rest is the difference.
  have nonneg : 0 ≤ v.number p - v.number q := by linarith
  have le_one : v.number p - v.number q ≤ 1 := by linarith [v.le_one p, v.nonneg q]
  have new : (Fraction.unknown l.supply.next).IsDrawn (l.supply.next + 1) := Nat.lt_succ_self _
  obtain ⟨agree, fits⟩ := draw_equation fits nonneg le_one (whole.mono more) (part.mono more) new
    some nofun (by
      rw [Valuation.draw_of_isDrawn whole, Valuation.draw_of_isDrawn part, Valuation.draw_new]
      linarith)
  exact ⟨_, agree, more, fits, trivial⟩

theorem mergeFraction_completes (far : Valuation) (p q : Fraction) :
    Carries (.valuations far) (Paired (fun x y => x + y ≤ 1) p q) (mergeFraction p q)
      fun _ _ _ => True := by
  refine .ite (fun _ => .pure fun _ _ _ => trivial) fun right =>
    .ite (fun _ => .pure fun _ _ _ => trivial) fun left => ?_
  rintro l v fits ⟨first, second, room⟩
  have more := Nat.le_succ l.supply.next
  have nonneg : 0 ≤ v.number p + v.number q := add_nonneg (v.nonneg p) (v.nonneg q)
  have new : (Fraction.unknown l.supply.next).IsDrawn (l.supply.next + 1) := Nat.lt_succ_self _
  obtain ⟨agree, fits⟩ := draw_equation fits nonneg room new (first.mono more) (second.mono more)
    left right (by
      rw [Valuation.draw_of_isDrawn first, Valuation.draw_of_isDrawn second, Valuation.draw_new])
  exact ⟨_, agree, more, fits, trivial⟩

end Drawing

/-- Work adds demands to a ledger that show something about numbers, and loses no valuation in which
it is allowed. -/
structure Ledger.Exact (l next : Ledger) (allowed shown : Valuation → Prop) : Prop where
  shows : ∀ v : Valuation, v.Meets next.constraints → v.Meets l.constraints ∧ shown v
  completes : ∀ v : Valuation, v.Meets l.constraints → allowed v →
    ∃ w : Valuation, w.Meets next.constraints ∧ w.Extends v l.supply.next next.supply.next

namespace Shares

variable {s t : Shares} {l : Ledger} (grown : s.space.Grown) (laid : s.Laid)
  (known : l.constraints.IsDrawn l.supply.next) (drawnS : s.IsDrawn l.supply.next)
  (drawnT : t.IsDrawn l.supply.next)

include grown laid known drawnS drawnT

theorem combine_completes {both : Fraction → Fraction → LedgerM Fraction} {holds : ℚ → ℚ → Prop}
    (each : ∀ far f g, Carries (.valuations far) (Paired holds f g) (both f g)
      fun _ _ _ => True) {v : Valuation} (meets : v.Meets l.constraints)
    (allowed : ∀ spot ∈ s.spots, holds (v.number (s.fractionAt spot))
      (v.number (t.fractionAt spot))) :
    let next := ((s.combine t both).run l).2
    ∃ w : Valuation, w.Meets next.constraints ∧ w.Extends v l.supply.next next.supply.next := by
  have ready := forall_entries (t := t) (Paired holds · · l.supply.next v) grown laid
    fun spot among => ⟨drawnS.fractionAt spot, drawnT.fractionAt spot, allowed spot among⟩
  obtain ⟨w, agree, -, ⟨meets, -, later⟩, -⟩ := combine_carries s t (Paired.keeps v holds)
    (fun _ _ _ _ _ _ _ _ _ => id) (each v) l v ⟨meets, known, fun _ _ => rfl⟩ ready
  refine ⟨w, meets, fun f outside => ?_⟩
  cases f with
  | zero | one | named id => exact agree _ trivial
  | unknown id =>
      rcases outside id rfl with before | past
      · exact agree _ before
      · exact later id past

end Shares

namespace Permission

/-- What is left at a spot: nothing if no permission is. -/
def leftAt (rest : Option Permission) (spot : Option String) : Fraction :=
  (rest.map (·.shares.fractionAt spot)).getD .zero

theorem nothing_only_of_unique {k k' : Kind} (nothing : k.split k' = .nothing) : k' = .unique := by
  revert nothing
  cases k <;> cases k' <;> decide

section Exactness

variable {p : Permission} (grown : p.space.Grown) (laid : p.shares.Laid) (s : Solution) {l : Ledger}
  (known : l.constraints.IsDrawn l.supply.next) (held : p.shares.IsDrawn l.supply.next)

include grown laid known held

theorem split_exact {q : Request} (made : q.Made p.space) (root : q.root = p.root)
    (drawn : q.permission.shares.IsDrawn l.supply.next)
    (allowed : (p.kind s).split q.kind ≠ .impossible) :
    l.Exact ((p.split q s).run l).2
      (fun v => ∀ spot ∈ p.shares.spots,
        v.number (q.permission.shares.fractionAt spot) ≤ v.number (p.shares.fractionAt spot))
      fun v => ∀ spot ∈ p.shares.spots, v.number (p.shares.fractionAt spot) =
        v.number (q.permission.shares.fractionAt spot) +
          v.number (leftAt ((p.split q s).run l).1 spot) := by
  obtain ⟨inside, combined⟩ := p.shares.combine_leaves q.permission.shares l
  rw [split_eq allowed]
  refine ⟨fun v meets => ⟨meets.subset inside, fun spot among => ?_⟩, fun v meets fewer => ?_⟩
  · have adds := meets.leaves (combined.spot grown laid among)
    cases outcome : (p.kind s).split q.kind with
    | impossible => exact absurd outcome allowed
    | kind k => exact adds
    | nothing =>
        -- The request is for one, and more than one is not to be had.
        rw [made.fractionAt_eq_one grown root (nothing_only_of_unique outcome) among] at adds ⊢
        change _ = _ + v.number .zero
        have le_one := v.le_one (p.shares.fractionAt spot)
        have nonneg := v.nonneg
          (((p.shares.combine q.permission.shares splitFraction).run l).1.fractionAt spot)
        rw [v.one] at adds ⊢
        rw [v.zero]
        linarith
  · exact Shares.combine_completes grown laid known held drawn splitFraction_completes meets fewer

theorem merge_exact {o : Permission} (drawn : o.shares.IsDrawn l.supply.next) :
    l.Exact ((p.merge o s).run l).2
      (fun v => ∀ spot ∈ p.shares.spots,
        v.number (p.shares.fractionAt spot) + v.number (o.shares.fractionAt spot) ≤ 1)
      fun v => ∀ spot ∈ p.shares.spots, v.number (((p.merge o s).run l).1.shares.fractionAt spot) =
        v.number (p.shares.fractionAt spot) + v.number (o.shares.fractionAt spot) := by
  obtain ⟨inside, combined⟩ := p.shares.combine_gathers o.shares l
  refine ⟨fun v meets => ⟨meets.subset inside, fun spot among => ?_⟩, fun v meets room => ?_⟩
  · exact meets.gathers (combined.spot grown laid among)
  · exact Shares.combine_completes grown laid known held drawn mergeFraction_completes meets room

end Exactness

/-- Splitting and merging neither lose valuations nor let in such as do not add up. -/
theorem split_and_merge_exact {p : Permission} (built : p.space.Built) (laid : p.shares.Laid)
    (s : Solution) {l : Ledger} (known : l.constraints.IsDrawn l.supply.next)
    (held : p.shares.IsDrawn l.supply.next) :
    (∀ q : Request, q.Made p.space → q.root = p.root →
      q.permission.shares.IsDrawn l.supply.next → (p.kind s).split q.kind ≠ .impossible →
      l.Exact ((p.split q s).run l).2
        (fun v => ∀ spot ∈ p.shares.spots,
          v.number (q.permission.shares.fractionAt spot) ≤ v.number (p.shares.fractionAt spot))
        fun v => ∀ spot ∈ p.shares.spots, v.number (p.shares.fractionAt spot) =
          v.number (q.permission.shares.fractionAt spot) +
            v.number (leftAt ((p.split q s).run l).1 spot)) ∧
    ∀ o : Permission, o.root = p.root → o.shares.IsDrawn l.supply.next →
      p.mergeChecked o s = .ok (p.merge o s) ∧
      l.Exact ((p.merge o s).run l).2
        (fun v => ∀ spot ∈ p.shares.spots,
          v.number (p.shares.fractionAt spot) + v.number (o.shares.fractionAt spot) ≤ 1)
        fun v => ∀ spot ∈ p.shares.spots,
          v.number (((p.merge o s).run l).1.shares.fractionAt spot) =
            v.number (p.shares.fractionAt spot) + v.number (o.shares.fractionAt spot) := by
  refine ⟨fun q made root drawn allowed => ?_, fun o root drawn => ⟨if_pos root.symm, ?_⟩⟩
  · exact split_exact built.grown laid s known held made root drawn allowed
  · exact merge_exact built.grown laid s known held drawn

theorem split_and_merge_exact_half_door :
    let p := Door.permission (.unknown 0) (.named 0) (.unknown 0) (.unknown 0) false
    let asked := (Door.request .share false).run ⟨.empty, ⟨1⟩⟩
    let q := asked.1
    let s := asked.2.constraints.solution
    let left := (p.split q s).run asked.2
    let both := (p.merge q.permission s).run asked.2
    ∃ v : Valuation, v.Meets asked.2.constraints ∧
      (∃ w : Valuation, w.Meets left.2.constraints ∧ w.Extends v 5 9 ∧
        ∀ spot ∈ p.shares.spots, w.number (p.shares.fractionAt spot) =
          w.number (q.permission.shares.fractionAt spot) + w.number (leftAt left.1 spot)) ∧
      ∃ w : Valuation, w.Meets both.2.constraints ∧ w.Extends v 5 9 ∧
        ∀ spot ∈ p.shares.spots, w.number (both.1.shares.fractionAt spot) =
          w.number (p.shares.fractionAt spot) +
            w.number (q.permission.shares.fractionAt spot) := by
  intro p asked q s left both
  let v := Valuation.ofUnknowns (fun id => if id = 0 then 1 / 2 else 1 / 4)
    (by intro id; split_ifs <;> norm_num)
    (by intro id; split_ifs <;> norm_num)
  have meets : v.Meets asked.2.constraints := by
    have demands : asked.2.constraints.items = [.nonZero (.single (.unknown 1))] := by
      decide +kernel
    constructor
    · simp [demands, Valuation.Satisfies, Valuation.value, v, Valuation.ofUnknowns]
    · simp [demands, Constraint.terms, Valuation.value, v, Valuation.ofUnknowns]
      norm_num
  have pairs : p.shares.spots.map (fun spot => (p.shares.fractionAt spot,
      q.permission.shares.fractionAt spot)) =
      [(.unknown 0, .unknown 1), (.named 0, .unknown 2), (.unknown 0, .unknown 3),
        (.unknown 0, .unknown 4)] := by decide +kernel
  have numbers (spot : Option String) (among : spot ∈ p.shares.spots) :
      v.number (p.shares.fractionAt spot) = 1 / 2 ∧
        v.number (q.permission.shares.fractionAt spot) = 1 / 4 := by
    have pair := pairs ▸ List.mem_map_of_mem (f := fun spot => (p.shares.fractionAt spot,
      q.permission.shares.fractionAt spot)) among
    simp only [List.mem_cons, Prod.mk.injEq, List.not_mem_nil, or_false] at pair
    rcases pair with ⟨held, asks⟩ | ⟨held, asks⟩ | ⟨held, asks⟩ | ⟨held, asks⟩ <;>
      rw [held, asks] <;> norm_num [v, Valuation.ofUnknowns]
  obtain ⟨splits, merges⟩ := split_and_merge_exact (p := p) Door.built (by decide +kernel) s
    (l := asked.2) (by decide +kernel) (by decide +kernel)
  have exactLeft := splits q (.create _ _ _) rfl (by decide +kernel) (by decide +kernel)
  obtain ⟨-, exactBoth⟩ := merges q.permission rfl (by decide +kernel)
  have numbered : left.2.supply.next = 9 ∧ both.2.supply.next = 9 := by decide +kernel
  refine ⟨v, meets, ?_, ?_⟩
  · obtain ⟨w, meets, same⟩ := exactLeft.completes v meets fun spot among => by
      rw [(numbers spot among).1, (numbers spot among).2]
      norm_num
    exact ⟨w, meets, numbered.1 ▸ same, (exactLeft.shows w meets).2⟩
  · obtain ⟨w, meets, same⟩ := exactBoth.completes v meets fun spot among => by
      rw [(numbers spot among).1, (numbers spot among).2]
      norm_num
    exact ⟨w, meets, numbered.2 ▸ same, (exactBoth.shows w meets).2⟩

end Permission

end Typestate
