import Typestate.Holding.Join
import Typestate.Proofs.Holding.Joining
import Typestate.Proofs.Permission.Roots
import Typestate.Proofs.Permission.StateInfo

set_option autoImplicit false

/-!
What is known of states after a join. The state in which two states meet lies above both of them, so
whatever it implies was implied on both sides.
-/

namespace Typestate

variable {S : Space}

/-- The first pool implies no state that the second does not imply. -/
def Pool.KnowsAtMost (joined pool : Pool) : Prop :=
  ∀ state, joined.any (·.impliesState state) = true → pool.any (·.impliesState state) = true

/-- Each permission has one with its root in two other pools, which imply what it implies. -/
def Pool.HasSources (a b joined : Pool) : Prop :=
  ∀ r ∈ joined, ∃ p ∈ a, ∃ q ∈ b, (r.root = p.root ∧ r.root = q.root) ∧
    ∀ state, r.impliesState state = true →
      p.impliesState state = true ∧ q.impliesState state = true

section Joining

variable (grown : S.Grown) (s : Solution) (symmetric : Bool)

include grown

/-- What is known in common is where a state of the one side meets a state of the other. -/
theorem Permission.impliesState_of_common {p q r : Permission} (left : p.space = S)
    (right : q.space = S) (space : r.space = S) (roots : q.root = p.root) (root : r.root = p.root)
    (states : r.states = r.space.cleanStates (commonStates p.space p.root p.states q.states))
    {state : String} (implied : r.impliesState state = true) :
    p.impliesState state = true ∧ q.impliesState state = true := by
  rw [impliesState_iff, states, space, root, left] at implied
  rw [impliesState_iff, impliesState_iff, left, right, roots]
  rcases implied with atRoot | ⟨known, member, implied⟩
  · exact ⟨.inl atRoot, .inl atRoot⟩
  · have common := (List.mem_filter.mp (Space.mem_cleanStates.mp member).1).1
    obtain ⟨a, first, met⟩ := List.mem_flatMap.mp common
    obtain ⟨b, second, rfl⟩ := List.mem_map.mp met
    obtain ⟨overA, overB⟩ := grown.lowestCommonState_above a b
    exact ⟨.inr ⟨a, first, grown.implies_of_above overA implied⟩,
      .inr ⟨b, second, grown.implies_of_above overB implied⟩⟩

theorem Permission.join_states {p q : Permission} (left : p.space = S) (right : q.space = S)
    (roots : q.root = p.root) :
    Yields (p.join q s symmetric) fun r => ∀ state, r.impliesState state = true →
      p.impliesState state = true ∧ q.impliesState state = true := by
  refine (Shares.combine_yields p.shares q.shares _).bind fun shares made => .pure ?_
  let r := make shares (p.readOnly || q.readOnly) p.frame
    (commonStates p.space p.root p.states q.states)
  have space : r.space = S := made.1.trans left
  have root : r.root = p.root := made.2
  intro state implied
  exact impliesState_of_common grown left right space roots root rfl implied

theorem Pool.join_sources {a b : Pool} (left : ∀ p ∈ a, p.space = S)
    (right : ∀ q ∈ b, q.space = S) :
    Yields (a.join b s symmetric) (Pool.HasSources a b) := by
  let sourced (p r : Permission) : Prop := ∃ q ∈ b, (r.root = p.root ∧ r.root = q.root) ∧
    ∀ state, r.impliesState state = true → p.impliesState state = true ∧ q.impliesState state = true
  unfold Pool.join
  refine Yields.bind (.mapM a fun p member => (?_ : Yields _ fun joined => ∀ r ∈ joined, sourced p r))
    fun lists paired => .pure fun r member => ?_
  -- A permission without a partner is dropped, so what is joined has both sources.
  · cases found : b.find? fun q => q.root == p.root with
    | none =>
      refine .pure ?_
      rintro r ⟨⟩
    | some q =>
      have among := List.mem_of_find?_eq_some found
      have roots : q.root = p.root := by simpa using List.find?_some found
      have joined : Yields (p.join q s symmetric) (sourced p) := by
        intro l
        have root : ((p.join q s symmetric).run l).1.root = p.root :=
          (Pool.join_yields p q s symmetric l).root
        exact ⟨q, among, ⟨root, root.trans roots.symm⟩,
          Permission.join_states grown s symmetric (left p member) (right q among) roots l⟩
      exact joined.bind fun r known => .pure (List.forall_mem_singleton.mpr known)
  · obtain ⟨joined, inside, among⟩ := List.mem_flatten.mp member
    obtain ⟨p, first, known⟩ := exists_left_of_forall₂ paired inside
    exact ⟨p, first, known r among⟩

theorem Pool.join_states {a b : Pool} (left : ∀ p ∈ a, p.space = S) (right : ∀ q ∈ b, q.space = S) :
    Yields (a.join b s symmetric) fun joined => joined.KnowsAtMost a ∧ joined.KnowsAtMost b := by
  intro l
  have source {state : String}
      (implied : ((a.join b s symmetric).run l).1.any (·.impliesState state) = true) :
      ∃ p ∈ a, ∃ q ∈ b, p.impliesState state = true ∧ q.impliesState state = true := by
    obtain ⟨r, member, implied⟩ := List.any_eq_true.mp implied
    obtain ⟨p, first, q, second, -, known⟩ :=
      Pool.join_sources grown s symmetric left right l r member
    exact ⟨p, first, q, second, known state implied⟩
  constructor
  · intro state implied
    obtain ⟨p, first, q, second, known⟩ := source implied
    exact List.any_eq_true.mpr ⟨p, first, known.1⟩
  · intro state implied
    obtain ⟨p, first, q, second, known⟩ := source implied
    exact List.any_eq_true.mpr ⟨q, second, known.2⟩

end Joining

namespace Held

/-- All permissions that states are read off are for one space. -/
def Over (S : Space) (h : Held) : Prop := ∀ inFrame, ∀ p ∈ h.pool inFrame, p.space = S

variable (grown : S.Grown) {a b : Held} (first : a.Over S) (second : b.Over S)

include grown first second

theorem joinOn_states (s : Solution) (constraints : Constraints) (symmetric : Bool) :
    Yields (a.joinOn b s constraints symmetric) fun h => ∀ inFrame,
      (h.pool inFrame).KnowsAtMost (a.pool inFrame) ∧
        (h.pool inFrame).KnowsAtMost (b.pool inFrame) := by
  let known (h : Held) : Prop :=
    (h.virtuals.KnowsAtMost a.virtuals ∧ h.virtuals.KnowsAtMost b.virtuals) ∧
      h.frames.KnowsAtMost a.frames ∧ h.frames.KnowsAtMost b.frames
  refine Yields.bind (Pool.within_yields (?_ : Yields _ known) constraints) fun joined kept =>
    .pure fun inFrame => ?_
  · refine (Pool.join_states grown s symmetric (first false) (second false)).bind
      fun virtuals knownVirtuals => ?_
    refine (Pool.join_states grown s symmetric (first true) (second true)).bind
      fun frames knownFrames => ?_
    split
    · exact .after fun unpacked => .pure ⟨knownVirtuals, knownFrames⟩
    · exact .pure ⟨knownVirtuals, knownFrames⟩
  · cases inFrame with
    | false => exact kept.1
    | true => exact kept.2

theorem join_states (point : MergePoint) (s : Solution) :
    Yields (a.join b point s) fun h => ∀ inFrame,
      (h.pool inFrame).KnowsAtMost (a.pool inFrame) ∧
        (h.pool inFrame).KnowsAtMost (b.pool inFrame) := by
  refine .ite (fun _ => joinOn_states grown first second s _ false) fun _ =>
    .ite (fun _ => ?_) fun _ => joinOn_states grown first second s _ true
  intro supply inFrame
  exact (joinOn_states grown second first s _ false supply inFrame).symm

omit grown in
theorem pool_eq_of_beq (same : (Holding.held a == .held b) = true) (inFrame : Bool) :
    a.pool inFrame = b.pool inFrame :=
  Pool.eq_of_beq (first inFrame) (second inFrame) ((parts_of_beq same).1 inFrame)

end Held

namespace Holding

/-- Not reached yet, or constraints that can be met and permissions for one space. -/
def Live (S : Space) (x : Holding) : Prop :=
  x.isUnsatisfiable = false ∧ ∀ inFrame, ∀ p ∈ x.pool inFrame, p.space = S

/-- The first is known to be in no state that the second is not known to be in. -/
def KnowsAtMost (joined x : Holding) : Prop :=
  ∀ state inFrame, joined.isInState state inFrame = true → x.isInState state inFrame = true

theorem KnowsAtMost.refl (x : Holding) : x.KnowsAtMost x := fun _ _ => id

theorem knowsAtMost_bottom (x : Holding) : x.KnowsAtMost .bottom := fun _ _ _ => rfl

theorem isInState_held (h : Held) (state : String) (inFrame : Bool) :
    (held h).isInState state inFrame =
      (decide (state = alive) || (h.pool inFrame).any (·.impliesState state)) := by
  cases inFrame <;> rfl

theorem knowsAtMost_of_pools {h a : Held}
    (pools : ∀ inFrame, (h.pool inFrame).KnowsAtMost (a.pool inFrame)) :
    (held h).KnowsAtMost (.held a) := by
  intro state inFrame known
  rw [isInState_held, Bool.or_eq_true] at known ⊢
  exact known.imp_right (pools inFrame state)

theorem join_states (grown : S.Grown) {x y : Holding} (left : x.Live S) (right : y.Live S)
    {point : MergePoint} {work : SupplyM Holding} (done : x.join y point = .ok work) :
    Yields work fun z => z.KnowsAtMost x ∧ z.KnowsAtMost y := by
  match x, y with
  | .bottom, y =>
    cases done
    exact .pure ⟨knowsAtMost_bottom y, .refl y⟩
  | .held a, .bottom =>
    cases done
    exact .pure ⟨.refl _, knowsAtMost_bottom _⟩
  | .held a, .held b =>
    have overA : a.Over S := left.2
    have overB : b.Over S := right.2
    have liveA : a.isUnsatisfiable = false := left.1
    have liveB : b.isUnsatisfiable = false := right.1
    rw [join_held liveA liveB] at done
    split at done
    · next same =>
      cases done
      refine .pure ⟨.refl _, knowsAtMost_of_pools fun inFrame => ?_⟩
      rw [Held.pool_eq_of_beq overA overB same inFrame]
      exact fun _ => id
    · split at done
      · cases done
        refine (Held.join_states grown overA overB point _).bind fun h known => .pure ?_
        exact ⟨knowsAtMost_of_pools fun inFrame => (known inFrame).1,
          knowsAtMost_of_pools fun inFrame => (known inFrame).2⟩
      · cases done

end Holding

end Typestate
