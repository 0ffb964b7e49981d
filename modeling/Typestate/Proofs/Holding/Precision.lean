import Typestate.Proofs.Holding.JoinedStates

set_option autoImplicit false

/-!
Comparing what is held. Whatever the constraints are, the more precise side is known to be in every
state that the other is known to be in. Among sides with the same constraints precision is a preorder,
which it is not among sides that link their fractions by different constraints.
-/

namespace Typestate

variable {S : Space} {cs : Constraints}

namespace Constraints

/-- The same constraints in whatever order, with the same reason if they were declared impossible. -/
structure Alike (a b : Constraints) : Prop where
  impossible : a.impossible = b.impossible
  mem_iff : ∀ c, c ∈ a.items ↔ c ∈ b.items

theorem Alike.satisfiable {a : Constraints} (alike : a.Alike cs)
    (satisfiable : cs.isUnsatisfiable = false) : a.isUnsatisfiable = false := by
  obtain ⟨V, value, met⟩ := isUnsatisfiable_eq_false_iff.mp satisfiable
  exact isUnsatisfiable_eq_false_iff.mpr
    ⟨V, value, met.congr alike.impossible.symm fun c => (alike.mem_iff c).symm⟩

theorem Alike.areEqual_append {a b : Constraints} (left : a.Alike cs) (right : b.Alike cs)
    (satisfiable : cs.isUnsatisfiable = false) (t u : Term) :
    (a ++ b).solution.areEqual t u = cs.solution.areEqual t u := by
  have into : ∀ c ∈ (a ++ b).items, c ∈ cs.items := fun c member =>
    (mem_append.mp member).elim (left.mem_iff c).mp (right.mem_iff c).mp
  have back : ∀ c ∈ cs.items, c ∈ (a ++ b).items := fun c member =>
    mem_append.mpr (.inl ((left.mem_iff c).mpr member))
  have consistent : cs.solution.isConsistent = true := by
    simp only [isUnsatisfiable, isConsistent, Bool.not_eq_false', Bool.and_eq_true] at satisfiable
    exact satisfiable.2
  exact Bool.eq_iff_iff.mpr ⟨(Solution.solve_shownBy into consistent).equal t u,
    (Solution.solve_shownBy back (Solution.solve_consistent_of_subset into consistent)).equal t u⟩

end Constraints

namespace Held

variable {a b c : Held}

/-- Every permission of the second side has a counterpart in the same place of the first, and nothing
is unpacked in the first alone. -/
@[mk_iff]
structure Matches (fits : Permission → Permission → Prop) (a b : Held) : Prop where
  pools : ∀ inFrame, ∀ r ∈ b.pool inFrame, ∃ p ∈ a.pool inFrame, fits p r
  unpacked : ∀ v, b.unpacked = some v → ∃ u, a.unpacked = some u ∧ fits u v
  packed : b.unpacked = none → a.unpacked = none

namespace Matches

variable {fits : Permission → Permission → Prop}

theorem refl (each : ∀ p, fits p p) (a : Held) : a.Matches fits a :=
  ⟨fun _ r member => ⟨r, member, each r⟩, fun v here => ⟨v, here, each v⟩, id⟩

theorem trans (each : ∀ p q r, fits p q → fits q r → fits p r) (first : a.Matches fits b)
    (second : b.Matches fits c) : a.Matches fits c := by
  refine ⟨fun inFrame r member => ?_, fun w here => ?_,
    fun packed => first.packed (second.packed packed)⟩
  · obtain ⟨q, among, lower⟩ := second.pools inFrame r member
    obtain ⟨p, inside, upper⟩ := first.pools inFrame q among
    exact ⟨p, inside, each p q r upper lower⟩
  · obtain ⟨v, middle, lower⟩ := second.unpacked w here
    obtain ⟨u, found, upper⟩ := first.unpacked v middle
    exact ⟨u, found, each u v w upper lower⟩

theorem imp {other : Permission → Permission → Prop} (matched : a.Matches fits b)
    (each : ∀ p ∈ (Holding.held a).permissions, ∀ r ∈ (Holding.held b).permissions,
      fits p r → other p r) : a.Matches other b := by
  refine ⟨fun inFrame r member => ?_, fun v here => ?_, matched.packed⟩
  · obtain ⟨p, inside, fit⟩ := matched.pools inFrame r member
    exact ⟨p, inside, each p (Holding.mem_permissions_of_pool inside) r
      (Holding.mem_permissions_of_pool member) fit⟩
  · obtain ⟨u, found, fit⟩ := matched.unpacked v here
    exact ⟨u, found, each u (Holding.mem_permissions_of_unpacked found) v
      (Holding.mem_permissions_of_unpacked here) fit⟩

end Matches

theorem unpacked_eq_of_beq (left : ∀ p ∈ (Holding.held a).permissions, p.space = S)
    (right : ∀ p ∈ (Holding.held b).permissions, p.space = S)
    (same : (Holding.held a == .held b) = true) : a.unpacked = b.unpacked := by
  obtain ⟨-, unpacked, -⟩ := parts_of_beq same
  cases first : a.unpacked with
  | none =>
      cases second : b.unpacked with
      | none => rfl
      | some v => simp [first, second] at unpacked
  | some u =>
      cases second : b.unpacked with
      | none => simp [first, second] at unpacked
      | some v =>
          rw [first, second] at unpacked
          have spaces := (left u (Holding.mem_permissions_of_unpacked first)).trans
            (right v (Holding.mem_permissions_of_unpacked second)).symm
          rw [(Permission.same_of_beq unpacked).eq spaces]

theorem forall_pool_iff {s : Solution} :
    (∀ inFrame, ∀ r ∈ b.pool inFrame, ∃ p ∈ a.pool inFrame, p.atLeastAsPrecise r s = true) ↔
      a.virtuals.atLeastAsPrecise b.virtuals s = true ∧
        a.frames.atLeastAsPrecise b.frames s = true := by
  simp only [Bool.forall_bool, Pool.atLeastAsPrecise, List.all_eq_true, List.any_eq_true]
  exact Iff.rfl

/-- The parts of both sides are compared by the constraints of both, unless the sides are equal or
one of them cannot be met. -/
theorem atLeastAsPrecise_iff :
    (Holding.held a).atLeastAsPrecise (.held b) = true ↔
      (Holding.held a == .held b) = true ∨ b.isUnsatisfiable = true ∨
        a.isUnsatisfiable = false ∧ a.Matches
          (fun p r => p.atLeastAsPrecise r (a.constraints ++ b.constraints).solution = true) b := by
  rw [matches_iff, forall_pool_iff]
  unfold Holding.atLeastAsPrecise
  by_cases same : (Holding.held a == .held b) = true
  · simp [same]
  by_cases unmet : b.isUnsatisfiable = true
  · simp [unmet]
  -- What remains is the table for the unpacked permissions: none, one of them, or both.
  cases first : a.unpacked <;> cases second : b.unpacked <;>
    simp [same, unmet, first, second, and_assoc, and_comm]

/-- Permissions for one space under given constraints. -/
structure Under (S : Space) (cs : Constraints) (h : Held) : Prop where
  space : ∀ p ∈ (Holding.held h).permissions, p.space = S
  laid : ∀ p ∈ (Holding.held h).permissions, p.shares.Laid
  constraints : h.constraints.Alike cs

theorem Under.spaces (under : a.Under S cs) : a.Over S :=
  fun _ p member => under.space p (Holding.mem_permissions_of_pool member)

/-- Under the same constraints a side is at least as precise exactly if its permissions refine those
of the other. -/
theorem Under.atLeastAsPrecise_iff_matches (grown : S.Grown)
    (satisfiable : cs.isUnsatisfiable = false) (left : a.Under S cs) (right : b.Under S cs) :
    (Holding.held a).atLeastAsPrecise (.held b) = true ↔
      a.Matches (Permission.Refines cs.solution) b := by
  have equal := left.constraints.areEqual_append right.constraints satisfiable
  have refines (p) (inside : p ∈ (Holding.held a).permissions) (r)
      (member : r ∈ (Holding.held b).permissions) :
      p.atLeastAsPrecise r (a.constraints ++ b.constraints).solution = true ↔
        p.Refines cs.solution r := by
    rw [Permission.atLeastAsPrecise_iff_refines ((left.space p inside).symm ▸ grown)
      (left.laid p inside) ((left.space p inside).trans (right.space r member).symm)]
    exact ⟨.of_areEqual fun f g => (equal f g ▸ ·), .of_areEqual fun f g => ((equal f g).symm ▸ ·)⟩
  constructor
  · intro precise
    rcases atLeastAsPrecise_iff.mp precise with same | unmet | ⟨-, matched⟩
    · -- Sides that count as equal are the same over one space, and nothing is asked of constraints.
      have pools := pool_eq_of_beq left.spaces right.spaces same
      have unpacked := unpacked_eq_of_beq left.space right.space same
      exact ⟨fun inFrame r member => ⟨r, pools inFrame ▸ member, .refl _ r⟩,
        fun v here => ⟨v, unpacked.trans here, .refl _ v⟩, unpacked.trans⟩
    · rw [isUnsatisfiable, right.constraints.satisfiable satisfiable] at unmet
      cases unmet
    · exact matched.imp fun p inside r member => (refines p inside r member).mp
  · intro matched
    exact atLeastAsPrecise_iff.mpr (.inr (.inr ⟨left.constraints.satisfiable satisfiable,
      matched.imp fun p inside r member => (refines p inside r member).mpr⟩))

/-- A stream that is held by the same part everywhere. -/
def ofStream (part : Fraction) (states : List String) (constraints : Constraints) : Held :=
  ⟨[.make (.constant .streams alive part) false false states], [], none, constraints⟩

theorem ofStream_under (part : Fraction) (states : List String) (constraints : Constraints) :
    (ofStream part states constraints).Under .streams constraints := by
  have shares (p) (member : p ∈ (Holding.held (ofStream part states constraints)).permissions) :
      p.shares = .constant .streams alive part := by
    rw [List.mem_singleton.mp member]
    rfl
  refine ⟨fun p member => ?_, fun p member => ?_, rfl, fun _ => Iff.rfl⟩
  · rw [Permission.space, shares p member]
    rfl
  · simp [shares p member, Shares.Laid, Shares.constant, Function.comp_def]

end Held

namespace Holding

variable {x y z : Holding}

/-- Not reached yet, or permissions for one space under given constraints. -/
def Under (S : Space) (cs : Constraints) : Holding → Prop
  | .bottom => True
  | .held h => h.Under S cs

/-- Among what is held under the same constraints precision is a preorder. -/
theorem atLeastAsPrecise_preorder (built : S.Built) (satisfiable : cs.isUnsatisfiable = false)
    (first : x.Under S cs) (second : y.Under S cs) (third : z.Under S cs) :
    x.atLeastAsPrecise x = true ∧
      (x.atLeastAsPrecise y = true → y.atLeastAsPrecise z = true → x.atLeastAsPrecise z = true) := by
  have compared {a b : Held} :=
    Held.Under.atLeastAsPrecise_iff_matches (a := a) (b := b) built.grown satisfiable
  cases x with
  | bottom => exact ⟨rfl, fun _ _ => rfl⟩
  | held a =>
      refine ⟨(compared first first).mpr (.refl (Permission.Refines.refl _) a), fun upper lower => ?_⟩
      cases y with
      | bottom => cases upper
      | held b =>
          cases z with
          | bottom => cases lower
          | held c =>
              refine (compared first third).mpr (.trans (fun p q r => ?_)
                ((compared first second).mp upper) ((compared second third).mp lower))
              exact Permission.Refines.trans satisfiable

/-- Three parts that are equal in a chain. -/
theorem atLeastAsPrecise_of_chain :
    let chain : Constraints := ⟨[.equal [.single (.unknown 1), .single (.unknown 0)],
      .equal [.single (.unknown 2), .single (.unknown 1)]], none⟩
    let x := held (.ofStream (.unknown 2) ["reading"] chain)
    let y := held (.ofStream (.unknown 1) ["open"] chain)
    let z := held (.ofStream (.unknown 0) [] chain)
    chain.isUnsatisfiable = false ∧ x.Under .streams chain ∧ y.Under .streams chain ∧
      z.Under .streams chain ∧ x.atLeastAsPrecise y = true ∧ y.atLeastAsPrecise z = true ∧
      x.atLeastAsPrecise x = true ∧ x.atLeastAsPrecise z = true := by
  intro chain x y z
  have satisfiable : chain.isUnsatisfiable = false := by decide +kernel
  have under (part states) := Held.ofStream_under part states chain
  have upper : x.atLeastAsPrecise y = true := by decide +kernel
  have lower : y.atLeastAsPrecise z = true := by decide +kernel
  obtain ⟨reflexive, transitive⟩ := atLeastAsPrecise_preorder (x := x) (y := y) (z := z)
    Space.streams_built satisfiable (under _ _) (under _ _) (under _ _)
  exact ⟨satisfiable, under _ _, under _ _, under _ _, upper, lower, reflexive,
    transitive upper lower⟩

theorem knowsAtMost_of_atLeastAsPrecise (grown : S.Grown)
    (left : ∀ inFrame, ∀ p ∈ x.pool inFrame, p.space = S)
    (right : ∀ inFrame, ∀ p ∈ y.pool inFrame, p.space = S) (met : y.isUnsatisfiable = false)
    (precise : x.atLeastAsPrecise y = true) : y.KnowsAtMost x := by
  cases x with
  | bottom => exact knowsAtMost_bottom y
  | held a =>
      cases y with
      | bottom => cases precise
      | held b =>
          refine knowsAtMost_of_pools fun inFrame => ?_
          rcases Held.atLeastAsPrecise_iff.mp precise with same | unmet | ⟨-, matched⟩
          · rw [Held.pool_eq_of_beq left right same inFrame]
            exact fun _ => id
          · exact absurd (met.symm.trans unmet) (by decide)
          · intro state known
            obtain ⟨r, member, implied⟩ := List.any_eq_true.mp known
            obtain ⟨p, inside, precise⟩ := matched.pools inFrame r member
            have space : p.space = S := left inFrame p inside
            exact List.any_eq_true.mpr ⟨p, inside, Permission.impliesState_of_atLeastAsPrecise
              (space.symm ▸ grown) (space.trans (right inFrame r member).symm) precise implied⟩

theorem isInStates_of_atLeastAsPrecise (built : S.Built)
    (left : ∀ inFrame, ∀ p ∈ x.pool inFrame, p.space = S)
    (right : ∀ inFrame, ∀ p ∈ y.pool inFrame, p.space = S) (met : y.isUnsatisfiable = false)
    (precise : x.atLeastAsPrecise y = true) {states : List String} {inFrame : Bool}
    (known : y.isInStates states inFrame = true) : x.isInStates states inFrame = true := by
  have atMost := knowsAtMost_of_atLeastAsPrecise built.grown left right met precise
  rw [isInStates, List.all_eq_true] at known ⊢
  exact fun state member => atMost state inFrame (known state member)

/-- The fractions are equal by constraints that only the more precise side has. -/
theorem isInStates_of_linked :
    let x := held (.ofStream (.unknown 1) ["reading"]
      ⟨[.equal [.single (.unknown 1), .single (.unknown 0)]], none⟩)
    let y := held (.ofStream (.unknown 0) ["open"] .empty)
    (∀ inFrame, ∀ p ∈ x.pool inFrame, p.space = .streams) ∧
      (∀ inFrame, ∀ p ∈ y.pool inFrame, p.space = .streams) ∧ y.isUnsatisfiable = false ∧
      x.atLeastAsPrecise y = true ∧ y.isInStates ["open", "use", "mode"] false = true ∧
      x.isInStates ["open", "use", "mode"] false = true := by
  intro x y
  have left : ∀ inFrame, ∀ p ∈ x.pool inFrame, p.space = .streams :=
    (Held.ofStream_under _ _ _).spaces
  have right : ∀ inFrame, ∀ p ∈ y.pool inFrame, p.space = .streams :=
    (Held.ofStream_under _ _ _).spaces
  have met : y.isUnsatisfiable = false := by decide +kernel
  have precise : x.atLeastAsPrecise y = true := by decide +kernel
  have known : y.isInStates ["open", "use", "mode"] false = true := by decide +kernel
  exact ⟨left, right, met, precise, known,
    isInStates_of_atLeastAsPrecise Space.streams_built left right met precise known⟩

end Holding

end Typestate
