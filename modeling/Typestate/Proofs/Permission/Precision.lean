import Typestate.Proofs.Fraction.Monotonicity
import Typestate.Proofs.Permission.Bookkeeping
import Typestate.Proofs.Permission.StateInfo

set_option autoImplicit false

/-!
Comparing permissions. The comparison goes through the listed states and fractions; over one space it
comes down to equal fractions at every spot and to every state that the other one implies being
implied. If the constraints that fractions are compared by can be met this is a preorder.
-/

namespace Typestate

variable {V : Type} {S : Space}

section Same

/-- Spaces are told apart by name only, so what counts as equal may differ in its spaces. -/
structure Permission.Same (p q : Permission) : Prop where
  root : p.root = q.root
  values : p.shares.values = q.shares.values
  below : p.shares.below = q.shares.below
  readOnly : p.readOnly = q.readOnly
  frame : p.frame = q.frame
  states : p.states = q.states

theorem Permission.same_of_beq {p q : Permission} (same : (p == q) = true) : p.Same q := by
  obtain ⟨⟨S, root, values, below⟩, readOnly, frame, states⟩ := p
  obtain ⟨⟨T, root', values', below'⟩, readOnly', frame', states'⟩ := q
  change ((S == T && (root == root' && (values == values' && below == below'))) &&
    (readOnly == readOnly' && (frame == frame' && states == states'))) = true at same
  simp only [Bool.and_eq_true, beq_iff_eq] at same
  obtain ⟨⟨-, root, values, below⟩, readOnly, frame, states⟩ := same
  exact ⟨root, values, below, readOnly, frame, states⟩

theorem Permission.Same.eq {p q : Permission} (same : p.Same q) (space : p.space = q.space) :
    p = q := by
  obtain ⟨⟨S, root, values, below⟩, readOnly, frame, states⟩ := p
  obtain ⟨⟨T, root', values', below'⟩, readOnly', frame', states'⟩ := q
  cases space
  cases same.root
  cases same.values
  cases same.below
  cases same.readOnly
  cases same.frame
  cases same.states
  rfl

theorem Pool.same_of_beq {a b : Pool} (same : (a == b) = true) :
    List.Forall₂ Permission.Same a b := by
  induction a generalizing b with
  | nil =>
      cases b with
      | nil => exact .nil
      | cons q others => cases same
  | cons p rest ih =>
      cases b with
      | nil => cases same
      | cons q others =>
          rw [List.cons_beq_cons, Bool.and_eq_true] at same
          exact .cons (Permission.same_of_beq same.1) (ih same.2)

theorem Pool.eq_of_beq {a b : Pool} (left : ∀ p ∈ a, p.space = S) (right : ∀ p ∈ b, p.space = S)
    (same : (a == b) = true) : a = b := by
  have paired := Pool.same_of_beq same
  induction paired with
  | nil => rfl
  | cons here _ ih =>
      rw [List.forall_mem_cons] at left right
      rw [List.cons_beq_cons, Bool.and_eq_true] at same
      rw [here.eq (left.1.trans right.1.symm), ih left.2 right.2 same.2]

end Same

section Equal

theorem Constraints.MetBy.eq_of_areEqual {cs : Constraints} {value : Term → V}
    (met : cs.MetBy value) {f g : Fraction} (same : cs.solution.areEqual f g = true) :
    value f = value g := met.sound.areEqual trivial trivial same

theorem Constraints.areEqual_iff {cs : Constraints} (satisfiable : cs.isUnsatisfiable = false)
    {f g : Fraction} :
    cs.solution.areEqual f g = true ↔ cs.solution.place f = cs.solution.place g :=
  ⟨(generic_place satisfiable).met.eq_of_areEqual, Solution.areEqual_of_place⟩

theorem Solution.areEqual_refl (s : Solution) (t : Term) : s.areEqual t t = true := by
  simp [Solution.areEqual]

end Equal

namespace Permission

variable {s : Solution} {p q r : Permission}

/-- Fractions that a solution finds to be equal at every spot. -/
def EqualAt (s : Solution) (p r : Permission) : Prop :=
  ∀ spot ∈ p.shares.spots, s.areEqual (p.shares.fractionAt spot) (r.shares.fractionAt spot) = true

instance : Decidable (p.EqualAt s r) :=
  inferInstanceAs (Decidable (∀ spot ∈ p.shares.spots,
    s.areEqual (p.shares.fractionAt spot) (r.shares.fractionAt spot) = true))

theorem spots_eq (left : p.space = S) (right : q.space = S) (root : q.root = p.root) :
    q.shares.spots = p.shares.spots := by
  have space : q.shares.space = p.shares.space := right.trans left.symm
  have same : q.shares.root = p.shares.root := root
  rw [Shares.spots, Shares.spots, space, same]

theorem atLeastAsPrecise_iff :
    p.atLeastAsPrecise r s = true ↔ (p == r) = true ∨
      (p.root = r.root ∧ p.frame = r.frame) ∧ (p.readOnly = true → r.readOnly = true) ∧
        (s.areEqual p.shares.below r.shares.below = true ∧
          ∀ entry ∈ p.shares.values, s.areEqual entry.2 (r.shares.get entry.1) = true) ∧
        ∀ state ∈ r.states, p.impliesState state = true := by
  -- What can only be read is never as precise as what can be written.
  have writable : (p.readOnly && !r.readOnly) = false ↔ (p.readOnly = true → r.readOnly = true) := by
    cases p.readOnly <;> cases r.readOnly <;> decide
  unfold atLeastAsPrecise
  split
  · next same => simp [same]
  · next differs =>
      rw [← writable]
      simp only [differs, Bool.false_eq_true, false_or]
      split
      · next apart =>
          simp only [Bool.or_eq_true, bne_iff_ne] at apart
          simp only [Bool.false_eq_true, false_iff]
          exact fun both => apart.elim (· both.1.1) (· both.1.2)
      · next apart =>
          simp only [Bool.or_eq_true, bne_iff_ne, not_or, not_not] at apart
          split
          · next forbidden => simp [forbidden]
          · next allowed =>
              simp only [apart, Bool.eq_false_of_not_eq_true allowed, Bool.and_eq_true,
                List.all_eq_true, true_and, and_self]

theorem root_eq_of_atLeastAsPrecise (precise : p.atLeastAsPrecise r s = true) : p.root = r.root :=
  (atLeastAsPrecise_iff.mp precise).elim (fun same => (same_of_beq same).root) fun parts => parts.1.1

/-- Permissions for one root with equal fractions, of which the first allows at least what the second
allows and knows at least what the second knows. -/
structure Refines (s : Solution) (p r : Permission) : Prop where
  space : p.space = r.space
  root : p.root = r.root
  frame : p.frame = r.frame
  readOnly : p.readOnly = true → r.readOnly = true
  equal : p.EqualAt s r
  knows : ∀ state, r.impliesState state = true → p.impliesState state = true

theorem Refines.refl (s : Solution) (p : Permission) : p.Refines s p :=
  ⟨rfl, rfl, rfl, id, fun _ _ => s.areEqual_refl _, fun _ => id⟩

theorem Refines.of_areEqual {t : Solution}
    (equal : ∀ f g : Term, s.areEqual f g = true → t.areEqual f g = true) (refines : p.Refines s r) :
    p.Refines t r :=
  { refines with equal := fun spot among => equal _ _ (refines.equal spot among) }

theorem Refines.trans {cs : Constraints} (satisfiable : cs.isUnsatisfiable = false)
    (first : p.Refines cs.solution q) (second : q.Refines cs.solution r) :
    p.Refines cs.solution r := by
  refine ⟨first.space.trans second.space, first.root.trans second.root,
    first.frame.trans second.frame, fun readOnly => second.readOnly (first.readOnly readOnly),
    fun spot among => ?_, fun state implied => first.knows state (second.knows state implied)⟩
  -- Fractions found to be equal have one place in the solution, and so the test is transitive.
  have left := first.equal spot among
  have right := second.equal spot (spots_eq rfl first.space.symm first.root.symm ▸ among)
  rw [Constraints.areEqual_iff satisfiable] at left right ⊢
  exact left.trans right

theorem impliesState_of_listed (grown : p.space.Grown) (space : p.space = r.space)
    (root : p.root = r.root) (listed : ∀ state ∈ r.states, p.impliesState state = true)
    {state : String} (implied : r.impliesState state = true) : p.impliesState state = true := by
  rw [impliesState_iff, ← space, ← root] at implied
  rcases implied with atRoot | ⟨known, member, implied⟩
  · exact (p.impliesState_iff state).mpr (.inl atRoot)
  · exact impliesState_of_implies grown (listed known member) implied

theorem impliesState_of_atLeastAsPrecise (grown : p.space.Grown) (space : p.space = r.space)
    (precise : p.atLeastAsPrecise r s = true) {state : String}
    (implied : r.impliesState state = true) : p.impliesState state = true := by
  rcases atLeastAsPrecise_iff.mp precise with same | ⟨⟨root, -⟩, -, -, listed⟩
  · rwa [(same_of_beq same).eq space]
  · exact impliesState_of_listed grown space root listed implied

theorem atLeastAsPrecise_iff_refines (grown : p.space.Grown) (laid : p.shares.Laid)
    (space : p.space = r.space) : p.atLeastAsPrecise r s = true ↔ p.Refines s r := by
  constructor
  · intro precise
    rcases atLeastAsPrecise_iff.mp precise with
      same | ⟨⟨root, frame⟩, readOnly, ⟨below, values⟩, listed⟩
    · rw [(same_of_beq same).eq space]
      exact .refl s r
    · exact ⟨space, root, frame, readOnly,
        Shares.forall_spots (fun f g => s.areEqual f g = true) grown laid values below,
        fun _ => impliesState_of_listed grown space root listed⟩
  · intro refines
    obtain ⟨values, below⟩ :=
      Shares.forall_entries (fun f g => s.areEqual f g = true) grown laid refines.equal
    exact atLeastAsPrecise_iff.mpr (.inr ⟨⟨refines.root, refines.frame⟩, refines.readOnly,
      ⟨below, values⟩, fun state member =>
        refines.knows state (impliesState_of_mem (space ▸ grown) member)⟩)

end Permission

end Typestate
