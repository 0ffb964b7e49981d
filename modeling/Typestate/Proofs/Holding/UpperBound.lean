import Typestate.Proofs.Holding.Bounding
import Typestate.Proofs.Holding.Precision

set_option autoImplicit false

/-!
When a join is an upper bound of what it was joined from. Comparing asks for equal fractions, while a
join has a fresh fraction or zero wherever the two sides differ. So both sides are as precise as their
join exactly if their constraints show them to hold the same.
-/

namespace Typestate

variable {V : Type} {S : Space}

section Apart

variable {n : Nat} {value : Term → V}

/-- The assignment with a value of its own for all that is yet to be drawn. -/
def setApart (n : Nat) (value : Term → V) (t : Term) : Option V :=
  if t.IsDrawn n then some (value t) else none

theorem setApart_agree (n : Nat) (value : Term → V) :
    Agree n (fun t => some (value t)) (setApart n value) := fun _ drawn => if_pos drawn

theorem setApart_of_isDrawn {f : Fraction} (drawn : f.IsDrawn n) :
    setApart n value f = some (value f) := (setApart_agree n value).fraction drawn

theorem setApart_eq_none {w : Fraction} {last : Nat} (fresh : w.DrawnIn n last) :
    setApart n value w = none := by
  obtain ⟨id, rfl, lower, -⟩ := fresh
  refine if_neg fun drawn => ?_
  have upper : id < n := Term.isDrawn_single.mp drawn
  omega

theorem Constraints.MetBy.setApart {cs : Constraints} (met : cs.MetBy value)
    (drawn : cs.IsDrawn n) : cs.MetBy (setApart n value) :=
  (met.map fun _ _ => Option.some.inj).agree drawn (setApart_agree n value)

/-- What is drawn may be anything but zero and one if its bounds are not zero. -/
theorem Ledger.Bounded.metBy {caps : Fraction → Prop} {cs : Constraints} {next : Ledger}
    (bounded : Ledger.Bounded caps n ⟨cs, ⟨n⟩⟩ next) (met : cs.MetBy value) (drawn : cs.IsDrawn n)
    (live : ∀ f : Fraction, caps f → value f ≠ value (.single .zero)) :
    next.constraints.MetBy (setApart n value) := by
  have start := met.setApart drawn
  have zero : setApart n value (.single .zero) = some (value (.single .zero)) :=
    setApart_of_isDrawn (f := .zero) trivial
  have one : setApart n value (.single .one) = some (value (.single .one)) :=
    setApart_of_isDrawn (f := .one) trivial
  refine ⟨bounded.impossible.trans start.1, start.2.lawful, fun c member t among => ?_,
    fun c member => ?_⟩
  · rcases bounded.added c member with old | new
    · exact start.2.covers c old t among
    · -- Bounds are about single fractions.
      cases new with
      | atMost _ _ =>
          rcases List.mem_pair.mp among with rfl | rfl
          · trivial
          · trivial
      | nonZero _ =>
          rw [List.mem_singleton.mp among]
          trivial
  · rcases bounded.added c member with old | new
    · exact start.2.satisfies c old
    · cases new with
      | @atMost w f fresh cap =>
          rw [satisfies_atMost_iff]
          refine ⟨fun none => ?_, fun all => ?_⟩
          · by_cases known : f.IsDrawn n
            · rw [setApart_of_isDrawn known, zero] at none
              exact absurd (Option.some.inj none) (live f cap)
            · have missing : setApart n value f = Option.none :=
                if_neg fun drawn => known (Term.isDrawn_single.mp drawn)
              rw [missing, zero] at none
              cases none
          · rw [setApart_eq_none fresh, one] at all
            cases all
      | @nonZero w fresh =>
          intro none
          change setApart n value w = setApart n value (.single .zero) at none
          rw [setApart_eq_none fresh, zero] at none
          cases none

end Apart

/-- Packed and in order, with constraints that can be met, and drawn up to a number. -/
structure Held.Proper (S : Space) (n : Nat) (h : Held) : Prop where
  orderly : h.Orderly S
  packed : h.unpacked = none
  satisfiable : h.isUnsatisfiable = false
  drawn : h.IsDrawn n

section Precision

variable {a z : Held}

theorem Held.Orderly.pool (orderly : a.Orderly S) (inFrame : Bool) :
    Pool.Orderly S inFrame (a.pool inFrame) := by
  cases inFrame with
  | false => exact orderly.virtuals
  | true => exact orderly.frames

theorem Held.IsDrawn.pool {n : Nat} (drawn : a.IsDrawn n) {inFrame : Bool} {p : Permission}
    (member : p ∈ a.pool inFrame) : p.shares.IsDrawn n := by
  cases inFrame with
  | false => exact drawn.virtuals p member
  | true => exact drawn.frames p member

theorem Held.Orderly.spaces (orderly : a.Orderly S) : a.Over S := fun inFrame =>
  (orderly.pool inFrame).space

theorem Holding.atLeastAsPrecise_iff (satisfiable : a.isUnsatisfiable = false)
    (packedA : a.unpacked = none) (packedZ : z.unpacked = none) :
    (Holding.held a).atLeastAsPrecise (.held z) = true ↔
      (Holding.held a == .held z) = true ∨ z.isUnsatisfiable = true ∨
        ∀ inFrame, ∀ r ∈ z.pool inFrame, ∃ p ∈ a.pool inFrame,
          p.atLeastAsPrecise r (a.constraints ++ z.constraints).solution = true := by
  simp [Held.atLeastAsPrecise_iff, Held.matches_iff, satisfiable, packedA, packedZ]

theorem Held.Proper.exists_equalAt (grown : S.Grown) {n : Nat} (proper : a.Proper S n)
    (below : z.Over S) (satisfiable : z.isUnsatisfiable = false) (packed : z.unpacked = none)
    (precise : (Holding.held a).atLeastAsPrecise (.held z) = true) {inFrame : Bool} {r : Permission}
    (member : r ∈ z.pool inFrame) :
    ∃ p ∈ a.pool inFrame, p.root = r.root ∧
      p.EqualAt (a.constraints ++ z.constraints).solution r := by
  rcases (Holding.atLeastAsPrecise_iff proper.satisfiable proper.packed packed).mp precise with
    same | unmet | each
  · rw [← Held.pool_eq_of_beq proper.orderly.spaces below same inFrame] at member
    exact ⟨r, member, rfl, fun _ _ => Solution.areEqual_refl _ _⟩
  · rw [satisfiable] at unmet
    cases unmet
  · obtain ⟨p, inside, precise⟩ := each inFrame r member
    have space := (proper.orderly.pool inFrame).space p inside
    refine ⟨p, inside, Permission.root_eq_of_atLeastAsPrecise precise, ?_⟩
    exact ((Permission.atLeastAsPrecise_iff_refines (space.symm ▸ grown)
      ((proper.orderly.pool inFrame).laid p inside)
      (space.trans (below inFrame r member).symm)).mp precise).equal

end Precision

section Agreeing

/-- Permissions for one root hold the same at every spot, by the given constraints. -/
def Held.Agrees (cs : Constraints) (x y : Held) : Prop :=
  ∀ inFrame, ∀ p ∈ x.pool inFrame, ∀ q ∈ y.pool inFrame, q.root = p.root →
    p.EqualAt cs.solution q

theorem Held.Agrees.symm {cs : Constraints} (satisfiable : cs.isUnsatisfiable = false) {x y : Held}
    (left : x.Over S) (right : y.Over S) (agrees : x.Agrees cs y) : y.Agrees cs x := by
  intro inFrame q second p first root spot among
  rw [Permission.spots_eq (left inFrame p first) (right inFrame q second) root.symm] at among
  have same := agrees inFrame p first q second root.symm spot among
  rw [Constraints.areEqual_iff satisfiable] at same ⊢
  exact same.symm

theorem Fraction.Joined.eq_of_areEqual {s : Solution} {symmetric : Bool} {cs : Constraints}
    {first last : Nat} {p q j : Fraction} (joined : Joined s symmetric cs first last p q j)
    (equal : s.areEqual p q = true) : j = p := by
  cases joined with
  | same _ => rfl
  | nothing different _ | bounded different _ _ _ _ =>
      rw [equal] at different
      cases different

theorem Permission.JoinedBy.precise_of_equalAt (grown : S.Grown) {s u : Solution} {symmetric : Bool}
    {cs : Constraints} {first last : Nat} {p q r : Permission}
    (join : p.JoinedBy (Fraction.Joined s symmetric cs first last) q r) (spaceP : p.space = S)
    (spaceQ : q.space = S) (laidP : p.shares.Laid) (laidQ : q.shares.Laid) (root : q.root = p.root)
    (frame : q.frame = p.frame) (equal : p.EqualAt s q) (backwards : q.EqualAt u p) :
    (∀ t, p.atLeastAsPrecise r t = true) ∧ q.atLeastAsPrecise r u = true := by
  have grownP : p.space.Grown := spaceP.symm ▸ grown
  have spaceR : r.space = S := join.shares.space.trans spaceP
  have rootR : r.root = p.root := join.shares.root
  -- Equal fractions are joined to the first of them, so nothing is drawn.
  have unchanged (spot : Option String) (among : spot ∈ p.shares.spots) :
      r.shares.fractionAt spot = p.shares.fractionAt spot :=
    (join.shares.spot grownP laidP among).eq_of_areEqual (equal spot among)
  have implied (state : String) (known : r.impliesState state = true) :
      p.impliesState state = true ∧ q.impliesState state = true :=
    impliesState_of_common grown spaceP spaceQ spaceR root rootR join.states known
  constructor
  · intro t
    have space := spaceP.trans spaceR.symm
    refine (atLeastAsPrecise_iff_refines grownP laidP space).mpr ⟨space, rootR.symm, join.frame.symm,
      fun readOnly => ?_, fun spot among => ?_, fun state known => (implied state known).1⟩
    · rw [join.readOnly, readOnly, Bool.true_or]
    · rw [unchanged spot among]
      exact t.areEqual_refl _
  · have space := spaceQ.trans spaceR.symm
    refine (atLeastAsPrecise_iff_refines (spaceQ.symm ▸ grown) laidQ space).mpr ⟨space,
      root.trans rootR.symm, frame.trans join.frame.symm, fun readOnly => ?_, fun spot among => ?_,
      fun state known => (implied state known).2⟩
    · rw [join.readOnly, readOnly, Bool.or_true]
    · rw [unchanged spot (spots_eq spaceP spaceQ root ▸ among)]
      exact backwards spot among

theorem Held.Proper.atLeastAsPrecise (grown : S.Grown) {n : Nat} {a z : Held} (proper : a.Proper S n)
    (packed : z.unpacked = none) (same : ∀ inFrame, z.pool inFrame = a.pool inFrame) :
    (Holding.held a).atLeastAsPrecise (.held z) = true := by
  refine (Holding.atLeastAsPrecise_iff proper.satisfiable proper.packed packed).mpr
    (.inr (.inr fun inFrame r member => ?_))
  rw [same inFrame] at member
  have space := (proper.orderly.pool inFrame).space r member
  exact ⟨r, member, (Permission.atLeastAsPrecise_iff_refines (space.symm ▸ grown)
    ((proper.orderly.pool inFrame).laid r member) rfl).mpr (.refl _ r)⟩

end Agreeing

section Either

variable {joint a b : Constraints} (either : joint = a ++ b ∨ joint = b ++ a)

include either

theorem Constraints.metBy_of_either {value : Term → V} :
    joint.MetBy value ↔ a.MetBy value ∧ b.MetBy value := by
  rcases either with rfl | rfl
  · exact metBy_append
  · rw [metBy_append, and_comm]

theorem Constraints.mem_of_either {c : Constraint} : c ∈ joint.items ↔ c ∈ a.items ∨ c ∈ b.items := by
  rcases either with rfl | rfl
  · exact mem_append
  · rw [mem_append, or_comm]

end Either

theorem Held.joinOn_unpacked {base other : Held} (packed : base.unpacked = none) (s : Solution)
    (cs : Constraints) (symmetric : Bool) (first : Nat) :
    ((base.joinOn other s cs symmetric).run ⟨first⟩).1.unpacked = none := by
  obtain ⟨-, joined⟩ := base.joinOn_bounded other s cs symmetric first (fun _ => True)
    (fun _ _ _ => trivial) fun _ _ _ _ _ => trivial
  rw [Option.eq_none_iff_forall_ne_some]
  intro j some
  obtain ⟨u, -, left, -⟩ := joined.unpacked j some
  rw [packed] at left
  cases left

/-- What is known of a join on top of both sides' constraints or of one side's alone. -/
structure Held.JoinsInto (joint : Constraints) (first : Nat) (base other z : Held) : Prop where
  packed : z.unpacked = none
  kept : base.constraints.items ⊆ z.constraints.items
  met : z.constraints.MetBy (setApart first joint.solution.place)
  joined : ∃ symmetric last, base.JoinedBy (Permission.JoinedBy
    (Fraction.Joined joint.solution symmetric z.constraints first last)) other z

theorem Held.JoinsInto.satisfiable {joint : Constraints} {first : Nat} {base other z : Held}
    (into : base.JoinsInto joint first other z) : z.isUnsatisfiable = false :=
  Constraints.isUnsatisfiable_eq_false_iff.mpr ⟨_, _, into.met⟩

theorem Held.JoinsInto.spaces {joint : Constraints} {first : Nat} {base other z : Held}
    (into : base.JoinsInto joint first other z) (above : base.Over S) : z.Over S := by
  intro inFrame r member
  obtain ⟨_, _, joined⟩ := into.joined
  obtain ⟨p, left, q, -, -, join⟩ := (joined.pools inFrame).sources r member
  exact join.shares.space.trans (above inFrame p left)

section Comparing

variable {n first : Nat} {joint : Constraints} {base other z : Held} (properB : base.Proper S n)
  (properO : other.Proper S n) (past : n ≤ first) (satisfiable : joint.isUnsatisfiable = false)
  (either : joint = base.constraints ++ other.constraints ∨
    joint = other.constraints ++ base.constraints)

include properB past satisfiable either in
theorem Held.joinOn_joinsInto {cs : Constraints} (drawn : cs.IsDrawn n)
    (start : cs = joint ∨ cs = base.constraints) (symmetric : Bool) :
    base.JoinsInto joint first other
      ((base.joinOn other joint.solution cs symmetric).run ⟨first⟩).1 := by
  obtain ⟨bounded, joined⟩ := base.joinOn_bounded other joint.solution cs symmetric first
    (fun f => joint.solution.isZero f = false) (fun _ _ live => live) fun _ _ _ _ live => live
  have generic := Constraints.generic_place satisfiable
  have met : cs.MetBy joint.solution.place := by
    rcases start with rfl | rfl
    · exact generic.met
    · exact ((Constraints.metBy_of_either either).mp generic.met).1
  have inside : base.constraints.items ⊆ cs.items := by
    rcases start with rfl | rfl
    · exact fun c member => (Constraints.mem_of_either either).mpr (.inl member)
    · exact List.Subset.refl _
  refine ⟨joinOn_unpacked properB.packed _ _ _ _, List.Subset.trans inside bounded.kept, ?_,
    symmetric, _, joined⟩
  refine bounded.metBy met (drawn.mono past) fun f live zero => ?_
  rw [generic.zero f zero] at live
  cases live

variable (into : base.JoinsInto joint first other z)

include properB properO past satisfiable either in
/-- Both sides' constraints can be met with fresh fractions that are equal to no other one. -/
theorem Held.metBy_setApart :
    base.constraints.MetBy (setApart first joint.solution.place) ∧
      other.constraints.MetBy (setApart first joint.solution.place) := by
  obtain ⟨left, right⟩ :=
    (Constraints.metBy_of_either either).mp (Constraints.generic_place satisfiable).met
  exact ⟨left.setApart (properB.drawn.constraints.mono past),
    right.setApart (properO.drawn.constraints.mono past)⟩

variable (grown : S.Grown)

include grown properB properO past satisfiable either into

theorem Held.JoinsInto.agrees_of_precise
    (left : (Holding.held base).atLeastAsPrecise (.held z) = true)
    (right : (Holding.held other).atLeastAsPrecise (.held z) = true) : base.Agrees joint other := by
  intro inFrame p memberP q memberQ root spot among
  obtain ⟨_, _, joined⟩ := into.joined
  obtain ⟨metB, metO⟩ := Held.metBy_setApart properB properO past satisfiable either
  have spaceP := (properB.orderly.pool inFrame).space p memberP
  have spaceQ := (properO.orderly.pool inFrame).space q memberQ
  obtain ⟨r, memberR, join⟩ := (joined.pools inFrame).matched p memberP q
    ((properO.orderly.pool inFrame).find?_root grown memberQ root)
  have rootR : r.root = p.root := join.shares.root
  -- What is joined from the two has to be equal to the fractions of both.
  have below := into.spaces properB.orderly.spaces
  obtain ⟨p', memberP', rootP, equalP⟩ := properB.exists_equalAt grown below
    into.satisfiable into.packed left memberR
  obtain ⟨q', memberQ', rootQ, equalQ⟩ := properO.exists_equalAt grown below
    into.satisfiable into.packed right memberR
  obtain rfl := (properB.orderly.pool inFrame).eq_of_root grown memberP memberP'
    (rootP.trans rootR)
  obtain rfl := (properO.orderly.pool inFrame).eq_of_root grown memberQ memberQ'
    (rootQ.trans (rootR.trans root.symm))
  have amongQ : spot ∈ q'.shares.spots := Permission.spots_eq spaceP spaceQ root ▸ among
  have same : setApart first joint.solution.place (p'.shares.fractionAt spot) =
      setApart first joint.solution.place (q'.shares.fractionAt spot) :=
    ((Constraints.metBy_append.mpr ⟨metB, into.met⟩).eq_of_areEqual (equalP spot among)).trans
      ((Constraints.metBy_append.mpr ⟨metO, into.met⟩).eq_of_areEqual (equalQ spot amongQ)).symm
  rw [setApart_of_isDrawn (((properB.drawn.pool memberP).fractionAt spot).mono past),
    setApart_of_isDrawn (((properO.drawn.pool memberQ).fractionAt spot).mono past)] at same
  exact Solution.areEqual_of_place (Option.some.inj same)

theorem Held.JoinsInto.precise_of_agrees (agrees : base.Agrees joint other) :
    (Holding.held base).atLeastAsPrecise (.held z) = true ∧
      (Holding.held other).atLeastAsPrecise (.held z) = true := by
  obtain ⟨_, _, joined⟩ := into.joined
  obtain ⟨-, metO⟩ := Held.metBy_setApart properB properO past satisfiable either
  -- What both sides say together is known to the second one and the join as well.
  have shown : joint.solution.ShownBy (other.constraints ++ z.constraints).solution := by
    refine Solution.solve_shownBy (fun c member => ?_) (Solution.solve_isConsistent_iff.mpr
      ⟨_, _, (Constraints.metBy_append.mpr ⟨metO, into.met⟩).2⟩)
    rcases (Constraints.mem_of_either either).mp member with left | right
    · exact Constraints.mem_append.mpr (.inr (into.kept left))
    · exact Constraints.mem_append.mpr (.inl right)
  have reversed := agrees.symm satisfiable properB.orderly.spaces properO.orderly.spaces
  have each (inFrame : Bool) (r : Permission) (member : r ∈ z.pool inFrame) :
      (∃ p ∈ base.pool inFrame,
        p.atLeastAsPrecise r (base.constraints ++ z.constraints).solution = true) ∧
      ∃ q ∈ other.pool inFrame,
        q.atLeastAsPrecise r (other.constraints ++ z.constraints).solution = true := by
    obtain ⟨p, memberP, q, memberQ, root, join⟩ := (joined.pools inFrame).sources r member
    have backwards : q.EqualAt (other.constraints ++ z.constraints).solution p := fun spot among =>
      shown.equal _ _ (reversed inFrame q memberQ p memberP root.symm spot among)
    have frame : q.frame = p.frame := by
      rw [(properB.orderly.pool inFrame).frame p memberP,
        (properO.orderly.pool inFrame).frame q memberQ]
    obtain ⟨left, right⟩ := join.precise_of_equalAt grown
      ((properB.orderly.pool inFrame).space p memberP)
      ((properO.orderly.pool inFrame).space q memberQ)
      ((properB.orderly.pool inFrame).laid p memberP)
      ((properO.orderly.pool inFrame).laid q memberQ) root frame
      (agrees inFrame p memberP q memberQ root) backwards
    exact ⟨⟨p, memberP, left _⟩, q, memberQ, right⟩
  exact ⟨(Holding.atLeastAsPrecise_iff properB.satisfiable properB.packed into.packed).mpr
      (.inr (.inr fun inFrame r member => (each inFrame r member).1)),
    (Holding.atLeastAsPrecise_iff properO.satisfiable properO.packed into.packed).mpr
      (.inr (.inr fun inFrame r member => (each inFrame r member).2))⟩

theorem Held.JoinsInto.precise_iff :
    ((Holding.held base).atLeastAsPrecise (.held z) = true ∧
      (Holding.held other).atLeastAsPrecise (.held z) = true) ↔ base.Agrees joint other :=
  ⟨fun both => into.agrees_of_precise properB properO past satisfiable either grown both.1 both.2,
    into.precise_of_agrees properB properO past satisfiable either grown⟩

end Comparing

section Merging

variable (grown : S.Grown) {n first : Nat} {x y : Held}

theorem Held.joinOn_isUnsatisfiable {joint : Constraints} (unmet : joint.isUnsatisfiable = true)
    (s : Solution) (symmetric : Bool) (first : Nat) :
    ((x.joinOn y s joint symmetric).run ⟨first⟩).1.isUnsatisfiable = true := by
  obtain ⟨bounded, -⟩ := x.joinOn_bounded y s joint symmetric first (fun _ => True)
    (fun _ _ _ => trivial) fun _ _ _ _ _ => trivial
  by_contra met
  obtain ⟨V, value, possible, models⟩ :=
    Constraints.isUnsatisfiable_eq_false_iff.mp (Bool.eq_false_of_not_eq_true met)
  have satisfiable := Constraints.isUnsatisfiable_eq_false_iff.mpr ⟨V, value,
    bounded.impossible.symm.trans possible, models.lawful,
    fun c member => models.covers c (bounded.kept member),
    fun c member => models.satisfies c (bounded.kept member)⟩
  rw [unmet] at satisfiable
  cases satisfiable

/-- At the head of a loop the constraints of one side are dropped if the other one's imply them. The
former may be at odds with the latter even so, as sums that are not zero may come to too much. -/
def Constraints.Compatible (point : MergePoint) (a b : Constraints) : Prop :=
  point = .loop → b.atLeastAsPrecise a = true ∨ a.atLeastAsPrecise b = true →
    (a ++ b).isUnsatisfiable = false

example : let a : Constraints := ⟨[.nonZero (.sum [.unknown 1, .unknown 2])], none⟩
    let b : Constraints := ⟨[.equal [.single (.unknown 1), .single .one],
      .equal [.single (.unknown 2), .single .one]], none⟩
    a.isUnsatisfiable = false ∧ b.isUnsatisfiable = false ∧ b.atLeastAsPrecise a = true ∧
      (a ++ b).isUnsatisfiable = true := by decide +kernel

include grown in
theorem Held.join_precise_iff (properX : x.Proper S n) (properY : y.Proper S n) (past : n ≤ first)
    {point : MergePoint} (compatible : x.constraints.Compatible point y.constraints) :
    let joint := x.constraints ++ y.constraints
    let z := ((x.join y point joint.solution).run ⟨first⟩).1
    ((Holding.held x).atLeastAsPrecise (.held z) = true ∧
      (Holding.held y).atLeastAsPrecise (.held z) = true) ↔
        joint.isUnsatisfiable = true ∨ x.Agrees joint y := by
  intro joint z
  have drawn : joint.IsDrawn n := properX.drawn.constraints.append properY.drawn.constraints
  cases met : joint.isUnsatisfiable with
  | true =>
      have kept : x.join y point joint.solution = x.joinOn y joint.solution joint true := by
        have apart (implied : y.constraints.atLeastAsPrecise x.constraints = true ∨
            x.constraints.atLeastAsPrecise y.constraints = true) : point ≠ .loop := fun loop => by
          rw [compatible loop implied] at met
          cases met
        unfold Held.join
        rw [if_neg, if_neg]
        · rw [Bool.and_eq_true, decide_eq_true_eq]
          exact fun both => apart (.inr both.2) both.1
        · rw [Bool.and_eq_true, decide_eq_true_eq]
          exact fun both => apart (.inl both.2) both.1
      have packed : z.unpacked = none := by
        simp only [z, kept]
        exact joinOn_unpacked properX.packed _ _ _ _
      have unmet : z.isUnsatisfiable = true := by
        simp only [z, kept]
        exact joinOn_isUnsatisfiable met _ _ _
      refine iff_of_true ⟨?_, ?_⟩ (.inl rfl)
      · exact (Holding.atLeastAsPrecise_iff properX.satisfiable properX.packed packed).mpr
          (.inr (.inl unmet))
      · exact (Holding.atLeastAsPrecise_iff properY.satisfiable properY.packed packed).mpr
          (.inr (.inl unmet))
  | false =>
      simp only [Bool.false_eq_true, false_or]
      simp only [z, Held.join]
      split
      · exact (joinOn_joinsInto properX past met (.inl rfl) properX.drawn.constraints
          (.inr rfl) false).precise_iff properX properY past met (.inl rfl) grown
      · split
        · -- The sides exchange their roles.
          rw [and_comm, (joinOn_joinsInto properY past met (.inr rfl) properY.drawn.constraints
            (.inr rfl) false).precise_iff properY properX past met (.inr rfl) grown]
          exact ⟨.symm met properY.orderly.spaces properX.orderly.spaces,
            .symm met properX.orderly.spaces properY.orderly.spaces⟩
        · exact (joinOn_joinsInto properX past met (.inl rfl) drawn (.inl rfl) true).precise_iff
            properX properY past met (.inl rfl) grown

end Merging

namespace Holding

/-- Either not reached, or packed and in order with constraints that can be met. -/
def Proper (S : Space) (n : Nat) : Holding → Prop
  | .bottom => True
  | .held h => h.Proper S n

/-- By the constraints of both sides, permissions for one root hold the same at every spot. -/
def Agrees (x y : Holding) : Prop :=
  ∀ inFrame, ∀ p ∈ x.pool inFrame, ∀ q ∈ y.pool inFrame, q.root = p.root →
    p.EqualAt (x.constraints ++ y.constraints).solution q

instance (x y : Holding) : Decidable (x.Agrees y) :=
  inferInstanceAs (Decidable (∀ inFrame, ∀ p ∈ x.pool inFrame, ∀ q ∈ y.pool inFrame,
    q.root = p.root → p.EqualAt (x.constraints ++ y.constraints).solution q))

theorem agrees_held {x y : Held} :
    (held x).Agrees (held y) ↔ x.Agrees (x.constraints ++ y.constraints) y := by
  simp only [Agrees, Held.Agrees, pool_held]
  exact Iff.rfl

theorem pool_bottom (inFrame : Bool) : bottom.pool inFrame = [] := by
  cases inFrame <;> rfl

theorem Proper.atLeastAsPrecise_self (grown : S.Grown) {n : Nat} {x : Holding}
    (proper : x.Proper S n) : x.atLeastAsPrecise x = true := by
  cases x with
  | bottom => rfl
  | held h => exact Held.Proper.atLeastAsPrecise grown proper proper.packed fun _ => rfl

/-- Both sides are at least as precise as their join exactly if they agree, or contradict each other.
Where they hold different fractions the join is no upper bound. -/
theorem join_upperBound_iff (built : S.Built) {n : Nat} {x y : Holding} (properX : x.Proper S n)
    (properY : y.Proper S n) {point : MergePoint}
    (compatible : x.constraints.Compatible point y.constraints) :
    ∃ work, x.join y point = .ok work ∧ ∀ start, n ≤ start →
      let z := (work.run ⟨start⟩).1
      ((x.atLeastAsPrecise z = true ∧ y.atLeastAsPrecise z = true) ↔
        (x.constraints ++ y.constraints).isUnsatisfiable = true ∨ x.Agrees y) := by
  have grown := built.grown
  cases x with
  | bottom =>
      refine ⟨_, rfl, fun start past => iff_of_true ⟨rfl, ?_⟩ (.inr fun inFrame p member => ?_)⟩
      · exact properY.atLeastAsPrecise_self grown
      · rw [pool_bottom] at member
        cases member
  | held x =>
      cases y with
      | bottom =>
          refine ⟨_, rfl, fun start past => iff_of_true ⟨?_, rfl⟩
            (.inr fun inFrame p _ q member => ?_)⟩
          · exact properX.atLeastAsPrecise_self grown
          · rw [pool_bottom] at member
            cases member
      | held y =>
          have orderlyX : x.Orderly S := properX.orderly
          have orderlyY : y.Orderly S := properY.orderly
          rw [join_held properX.satisfiable properY.satisfiable]
          by_cases same : (held x == .held y) = true
          · -- Equal sides hold the same permissions, and the first one is the join.
            have pools := Held.pool_eq_of_beq orderlyX.spaces orderlyY.spaces same
            rw [if_pos same]
            refine ⟨_, rfl, fun start past => iff_of_true ⟨?_, ?_⟩ (.inr (agrees_held.mpr ?_))⟩
            · exact properX.atLeastAsPrecise_self grown
            · exact Held.Proper.atLeastAsPrecise grown properY properX.packed pools
            · intro inFrame p left q right root
              rw [← pools inFrame] at right
              rw [(orderlyX.pool inFrame).eq_of_root grown left right root]
              exact fun _ _ => Solution.areEqual_refl _ _
          · have packed : x.sameUnpacked y (x.constraints ++ y.constraints).solution = true := by
              rw [Held.sameUnpacked, properX.packed, properY.packed]
            rw [if_neg same, if_pos packed]
            refine ⟨_, rfl, fun start past => ?_⟩
            rw [agrees_held]
            exact Held.join_precise_iff grown properX properY past compatible

namespace Crossing

theorem Checks.proper {entries : List (String × List Fraction × Fraction × Bool)}
    {demands : List Constraint} (checks : Checks (side entries demands)) :
    (held (side entries demands)).Proper space known := by
  obtain ⟨-, -, -, satisfiable, below⟩ := id checks
  exact ⟨checks.orderly, rfl, satisfiable, IsBelow.isDrawn below⟩

/-- One way holds a part of a dimension. -/
def sharer : Held := side [("a", [.unknown 1, .unknown 2], .unknown 3, false)] []

/-- The other way may only read it, and has another name for the fraction of its root. -/
def renamer : Held :=
  side [("b", [.one, .one], .one, false), ("a", [.unknown 4, .unknown 2], .unknown 3, true)]
    [.equal [.single (.unknown 4), .single (.unknown 1)]]

theorem join_of_renamed_is_upperBound :
    (held sharer).Proper space known ∧ (held renamer).Proper space known ∧
      (held sharer).Agrees (held renamer) ∧
      ∀ point, sharer.constraints.Compatible point renamer.constraints ∧
        ∃ work, (held sharer).join (held renamer) point = .ok work ∧
          (held sharer).atLeastAsPrecise (work.run ⟨known⟩).1 = true ∧
          (held renamer).atLeastAsPrecise (work.run ⟨known⟩).1 = true := by
  have properX : (held sharer).Proper space known := Checks.proper (by decide +kernel)
  have properY : (held renamer).Proper space known := Checks.proper (by decide +kernel)
  have agrees : (held sharer).Agrees (held renamer) := by decide +kernel
  refine ⟨properX, properY, agrees, fun point => ?_⟩
  have compatible : sharer.constraints.Compatible point renamer.constraints :=
    fun _ _ => by decide +kernel
  obtain ⟨work, joins, bound⟩ := join_upperBound_iff built properX properY compatible
  exact ⟨compatible, work, joins, (bound known (Nat.le_refl _)).mpr (.inr agrees)⟩

/-- Parts with names of their own are joined to a part that neither of them is found equal to. -/
theorem join_of_named_is_no_upperBound :
    let x := side [(alive, [.named 0], .one, false)] []
    let y := side [(alive, [.named 1], .one, false)] []
    (held x).Proper space known ∧ (held y).Proper space known ∧
      ∀ point, ∃ work, (held x).join (held y) point = .ok work ∧
        (held x).atLeastAsPrecise (work.run ⟨known⟩).1 = false ∧
        (held y).atLeastAsPrecise (work.run ⟨known⟩).1 = false := by
  intro x y
  have checksX : Checks x := by decide +kernel
  have checksY : Checks y := by decide +kernel
  refine ⟨checksX.proper, checksY.proper, fun point => ?_⟩
  rw [join_held checksX.proper.satisfiable checksY.proper.satisfiable, if_neg (by decide +kernel),
    if_pos (by decide +kernel)]
  refine ⟨_, rfl, ?_⟩
  cases point with
  | branch => decide +kernel
  | loop => decide +kernel

end Crossing

end Holding

end Typestate
