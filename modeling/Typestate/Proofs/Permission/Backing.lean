import Typestate.Proofs.Permission.Dominance
import Typestate.Proofs.Permission.Neatness

set_option autoImplicit false

/-!
Permissions that back weaker ones. What can be split off the weaker one can be split off the other
one as well if its kind allows it, and what is left of them is backed again.
-/

namespace Typestate

open Permission

variable {V W : Type} {S : Space} {frame : Bool}

/-- A weaker permission of which nothing is known that is not known of the other one, where the
fractions of the other one were drawn before. -/
structure Permission.IsBacked (S : Space) (fits : Fraction → Fraction → Prop) (n : Nat)
    (j p : Permission) : Prop extends j.IsWeaker S fits p where
  states : ∀ s, j.impliesState s = true → p.impliesState s = true
  drawn : p.shares.IsDrawn n

section States

variable {p : Permission}

/-- Whatever a name below a node implies the node implies, or all that implies the name is on one
way with the node. -/
theorem Space.Grown.along_of_implies (grown : S.Grown) {n m t : String} (near : S.Above n m ∨ S.Above m n)
    (implied : S.implies t m = true) : S.implies n m = true ∨ S.Above n t := by
  rcases near with lower | higher
  · cases dimension : S.isDimension m with
    | false => exact .inr (grown.above_trans lower ((Space.implies_iff_of_plain dimension).mp implied))
    | true =>
      rcases (grown.above_iff_of_ne (grown.ne_alive_of_isDimension dimension)).mp lower with
        same | upper
      · exact .inl (same ▸ grown.implies_self n)
      · rw [← Space.stateOf_of_isDimension dimension] at upper
        rw [Space.implies, S.covers_iff] at implied
        exact .inr (grown.above_trans upper implied)
  · exact .inl (grown.implies_of_above higher (grown.implies_self m))

theorem Permission.reroot_states (grown : S.Grown) {j p : Permission} (spaceJ : j.space = S)
    (spaceP : p.space = S) (neat : p.Neat S) {n : String} (atop : S.Above p.root n)
    (states : ∀ s, j.impliesState s = true → p.impliesState s = true) {s : String}
    (implied : (j.reroot n).impliesState s = true) : (p.reroot n).impliesState s = true := by
  have grownJ : j.space.Grown := spaceJ ▸ grown
  have known := ((j.reroot n).impliesState_iff s).mp implied
  refine ((p.reroot n).impliesState_iff s).mpr ?_
  change j.space.implies n s = true ∨ ∃ m ∈ (j.reroot n).states, j.space.implies m s = true at known
  change p.space.implies n s = true ∨ ∃ t ∈ (p.reroot n).states, p.space.implies t s = true
  rw [spaceJ] at known
  rw [spaceP]
  rcases known with atRoot | ⟨m, member, further⟩
  · exact .inl atRoot
  · obtain ⟨among, -⟩ := Space.mem_cleanStates.mp ((mem_reroot_states spaceJ).mp member)
    obtain ⟨own, near⟩ := List.mem_filter.mp among
    simp only [Bool.or_eq_true, S.covers_iff] at near
    have backed := (p.impliesState_iff m).mp (states m (impliesState_of_mem grownJ own))
    rw [spaceP] at backed
    -- `p` implies `m` by its root or by a state, and the state stays with the part for `n` unless
    -- `n` itself implies `m`.
    rcases backed with higher | ⟨t, listed, below⟩
    · exact .inl (grown.implies_of_above atop (grown.implies_trans higher further))
    · rcases grown.along_of_implies near below with covered | lower
      · exact .inl (grown.implies_trans covered further)
      · refine .inr ⟨t, (mem_reroot_states spaceP).mpr ?_, grown.implies_trans below further⟩
        refine neat.mem_clean (fun _ inside => (List.mem_filter.mp inside).1)
          (List.mem_filter.mpr ⟨listed, ?_⟩)
        simp only [Bool.or_eq_true, S.covers_iff]
        exact .inl lower

theorem Pool.cleaned_of_part (grown : S.Grown) {parts : Pool} {state : String}
    (dimension : ∀ p ∈ parts, p.root ∈ S.dimensions state) (neat : ∀ p ∈ parts, p.Neat S)
    (one : ∀ p ∈ parts, ∀ q ∈ parts, p.root = q.root → p = q) {p : Permission} (member : p ∈ parts)
    {t s : String} (known : t ∈ p.states) (implied : S.implies t s = true) :
    S.implies state s = true ∨
      ∃ u ∈ S.cleanStates (parts.flatMap Permission.states), S.implies u s = true := by
  have parent {p : Permission} (part : p ∈ parts) : S.stateOf p.root = state := by
    obtain ⟨dim, parent⟩ := grown.mem_dimensions_iff.mp (dimension p part)
    rw [Space.stateOf_of_isDimension dim, parent]
  have plain : S.stateOf state = state := by
    rw [← parent member, Space.stateOf_of_plain (grown.isDimension_stateOf _)]
  by_cases covered : S.implies state s = true
  · exact .inl covered
  · -- A name that implies it lies strictly below the dimension of its part.
    have strict {p : Permission} (part : p ∈ parts) {u : String} (own : u ∈ p.states)
        (lower : S.implies u s = true) : S.Above p.root (S.stateOf u) := by
      have apart : ¬S.Above u p.root := by
        intro higher
        have same := grown.implies_of_above higher lower
        rw [grown.implies_iff, parent part] at same
        rw [grown.implies_iff, plain] at covered
        exact covered same
      have below := ((neat p part).along u own).resolve_left apart
      cases dim : S.isDimension u with
      | false => rwa [Space.stateOf_of_plain dim]
      | true =>
        rw [Space.stateOf_of_isDimension dim]
        refine ((grown.above_iff_of_ne (grown.ne_alive_of_isDimension dim)).mp below).resolve_left ?_
        intro same
        exact apart (same ▸ grown.above_refl _)
    have low : S.stateOf s ≠ alive := by
      intro top
      refine covered ((grown.implies_iff state s).mpr ?_)
      rw [top]
      exact grown.above_alive _
    refine .inr (grown.exists_mem_cleanStates low (List.mem_flatMap.mpr ⟨p, member, known⟩) implied ?_)
    rintro u among lower - ⟨other, inside, apart, same⟩
    obtain ⟨q, partQ, ownU⟩ := List.mem_flatMap.mp among
    obtain ⟨r, partR, ownOther⟩ := List.mem_flatMap.mp inside
    have implies : S.implies other u = true := (grown.implies_both_iff.mpr same).1
    have overU := strict partQ ownU lower
    have overOther := strict partR ownOther (grown.implies_trans implies lower)
    rw [same] at overOther
    -- Two dimensions of one state would lie above one node, so the parts are the same.
    obtain ⟨dimQ, parentQ⟩ := grown.mem_dimensions_iff.mp (dimension q partQ)
    obtain ⟨dimR, parentR⟩ := grown.mem_dimensions_iff.mp (dimension r partR)
    have root := grown.eq_of_parentOf_eq (grown.ne_alive_of_isDimension dimQ)
      (grown.ne_alive_of_isDimension dimR) (parentQ.trans parentR.symm) overU overOther
    have equal := one q partQ r partR root
    subst equal
    exact apart ((neat q partQ).sole ownU ownOther implies)

end States

section Shifting

variable (grown : S.Grown) {fits : Fraction → Fraction → Prop} {j p : Permission}
  (spaceJ : j.space = S) (spaceP : p.space = S)

include spaceP in
theorem Permission.IsWeaker.spot (weaker : j.IsWeaker S fits p) {spot : Option String}
    (among : spot ∈ p.shares.spots) : fits (j.shares.fractionAt spot) (p.shares.fractionAt spot) := by
  rcases Shares.mem_spots.mp among with ⟨n, node, rfl⟩ | rfl
  · exact weaker.above n (spaceP ▸ node)
  · exact weaker.below

include spaceP in
theorem Permission.isWeaker_of_spots (root : j.root = p.root)
    (writable : j.readOnly = false → p.readOnly = false)
    (each : ∀ spot ∈ p.shares.spots, fits (j.shares.fractionAt spot) (p.shares.fractionAt spot)) :
    j.IsWeaker S fits p := by
  subst spaceP
  exact ⟨root, writable, fun n node => each (some n) (Shares.some_mem_spots node),
    each none (Shares.none_mem_spots _)⟩

include spaceJ spaceP in
theorem Permission.IsWeaker.spots_eq (weaker : j.IsWeaker S fits p) :
    j.shares.spots = p.shares.spots := by
  have spaces : j.shares.space = p.shares.space := spaceJ.trans spaceP.symm
  have roots : j.shares.root = p.shares.root := weaker.root
  rw [Shares.spots, Shares.spots, spaces, roots]

include grown spaceJ spaceP in
theorem Permission.IsBacked.reroot {m : Nat} (backed : j.IsBacked S fits m p)
    (laidJ : j.shares.Laid) (laidP : p.shares.Laid) (neat : p.Neat S) {n : String}
    (atop : S.Above p.root n) : (j.reroot n).IsBacked S fits m (p.reroot n) := by
  have get {q : Permission} (space : q.space = S) (laid : q.shares.Laid)
      (higher : S.Above q.root n) {m : String} (node : S.Above m n) :
      (q.reroot n).shares.get m = q.shares.get m := by
    subst space
    exact Shares.get_reroot grown laid higher (.inl node)
  refine ⟨⟨rfl, backed.writable, fun m node => ?_, backed.below⟩, fun s implied => ?_,
    backed.drawn.reroot n⟩
  · rw [get spaceJ laidJ (backed.root ▸ atop) node, get spaceP laidP atop node]
    exact backed.toIsWeaker.get grown spaceJ spaceP laidJ laidP (grown.above_total node atop)
  · exact reroot_states grown spaceJ spaceP neat atop backed.states implied

end Shifting

section Splitting

theorem Kind.split_writable {k other asked rest : Kind} (outcome : k.split asked = .kind rest)
    (allowed : other.split asked ≠ .impossible)
    (writable : k.isReadOnly = false → other.isReadOnly = false) :
    ∃ left, other.split asked = .kind left ∧
      (rest.isReadOnly = false → left.isReadOnly = false) := by
  cases k <;> cases asked <;> cases outcome <;> cases other <;>
    simp_all [Kind.split, Kind.isReadOnly]

theorem Permission.impliesState_with (p : Permission) {rest : Shares}
    (space : rest.space = p.shares.space) (root : rest.root = p.shares.root) (readOnly : Bool)
    (n : String) :
    impliesState { p with shares := rest, readOnly } n = p.impliesState n := by
  simp only [impliesState, Permission.space, Permission.root, space, root]

/-- The permission for a node at the root or below it. -/
def Permission.lowered (p : Permission) (n : String) : Permission :=
  if p.root = n then p else p.reroot n

/-- Two requests for the same, one for each of two pools, where the second takes no more than its
pool has to have. -/
structure Request.Allots (value : Term → V) (q r : Request) (n : Nat) (other : Term → Option W) :
    Prop where
  kind : r.kind = q.kind
  root : r.root = q.root
  spare : Spare other
  drawn : r.permission.shares.IsDrawn n
  takes : ∀ spot, Takes value other (q.permission.shares.fractionAt spot)
    (r.permission.shares.fractionAt spot)

theorem Request.Allots.lasting (value : Term → V) (q r : Request) :
    Lasting (Request.Allots value q r (W := W)) := by
  intro n m other next more agree allots
  refine ⟨allots.kind, allots.root, allots.spare.agree agree, fun f member => ?_, fun spot => ?_⟩
  · exact (allots.drawn f member).mono more
  · exact (allots.takes spot).agree agree (allots.drawn.fractionAt spot)

/-- A permission is backed by another one, and the spare value is still to be had. -/
structure Permission.Backs (S : Space) (value : Term → V) (j p : Permission) (n : Nat)
    (other : Term → Option W) : Prop extends j.IsBacked S (Dominated value other) n p where
  held : ∀ f ∈ p.shares.fractions, other f ≠ none

theorem Permission.Backs.lasting (S : Space) (value : Term → V) (j p : Permission) :
    Lasting (Permission.Backs S value j p (W := W)) := by
  intro n m other next more agree backs
  refine ⟨⟨⟨backs.root, backs.writable, fun node above => ?_, ?_⟩, backs.states,
    fun f member => (backs.drawn f member).mono more⟩, fun f member => ?_⟩
  · exact (backs.above node above).agree agree (backs.drawn.get node)
  · exact backs.below.agree agree (backs.drawn.fractionAt none)
  · rw [agree.fraction (backs.drawn f member)]
    exact backs.held f member

theorem Permission.Backs.reroot (grown : S.Grown) {value : Term → V} {other : Term → Option W}
    {n : Nat} {j p : Permission} (backs : j.Backs S value p n other) (spare : Spare other)
    (spaceJ : j.space = S) (spaceP : p.space = S) (laidJ : j.shares.Laid) (laidP : p.shares.Laid)
    (neat : p.Neat S) {node : String} (atop : S.Above p.root node) :
    (j.reroot node).Backs S value (p.reroot node) n other := by
  refine ⟨backs.toIsBacked.reroot grown spaceJ spaceP laidJ laidP neat atop, fun f member => ?_⟩
  rcases Shares.mem_fractions_reroot member with old | zero
  · exact backs.held f old
  · rw [zero]
    exact spare.zero

section Lowering

variable (grown : S.Grown) {p j : Permission} (space : p.space = S) {n : String}

theorem Permission.lowered_space (p : Permission) (n : String) :
    (p.lowered n).space = p.space := by
  unfold lowered
  split <;> rfl

theorem Permission.lowered_readOnly (p : Permission) (n : String) :
    (p.lowered n).readOnly = p.readOnly := by
  unfold lowered
  split <;> rfl

theorem Permission.lowered_laid (laid : p.shares.Laid) (n : String) :
    (p.lowered n).shares.Laid := by
  unfold lowered
  split
  · exact laid
  · exact p.shares.reroot_laid n

include grown space in
theorem Permission.lowered_kind (laid : p.shares.Laid) (s : Solution) :
    (p.lowered n).kind s = (p.reroot n).kind s := by
  subst space
  unfold lowered
  split
  · next same =>
    have shares : p.shares = (p.reroot n).shares := by
      rw [← same]
      exact (Shares.reroot_self grown laid).symm
    exact kind_congr (p := p) (q := p.reroot n) rfl shares s
  · rfl

include grown space in
theorem Permission.Backs.lowered {value : Term → V} {other : Term → Option W} {m : Nat}
    (backs : j.Backs S value p m other) (spare : Spare other) (spaceJ : j.space = S)
    (laidJ : j.shares.Laid) (laid : p.shares.Laid) (neat : p.Neat S) (atop : S.Above p.root n) :
    (j.lowered n).Backs S value (p.lowered n) m other := by
  unfold Permission.lowered
  rw [backs.root]
  split
  · exact backs
  · exact backs.reroot grown spare spaceJ space laidJ laid neat atop

end Lowering

theorem Permission.grown_shares (grown : S.Grown) {p : Permission} (space : p.space = S) :
    p.shares.space.Grown := by
  subst space
  exact grown

section Leaving

variable {value : Term → V} {q r : Request} {s : Solution} {p : Permission} {others : Pool}

theorem Pool.splitFound_eq (allowed : (p.kind s).split q.kind ≠ .impossible) :
    Pool.splitFound s q p others = (do
      let rest ← p.shares.combine q.permission.shares splitFraction
      return others ++ (((p.kind s).split q.kind).leave p rest).toList) := by
  unfold Pool.splitFound
  rw [split_eq allowed, bind_assoc]
  refine bind_congr fun rest => ?_
  rw [pure_bind]
  cases ((p.kind s).split q.kind).leave p rest with
  | none => simp
  | some left => rfl

theorem Pool.splitFound_divides (distinct : value (.single .zero) ≠ value (.single .one))
    (s : Solution) (q : Request) (p : Permission) (others : Pool) :
    Reveals value (Pool.splitFound s q p others) fun next =>
      (p.kind s).split q.kind ≠ .impossible ∧
        ∃ rest, Shares.Combined p.shares q.permission.shares (Divided value) rest ∧
          next = others ++ (((p.kind s).split q.kind).leave p rest).toList := by
  by_cases allowed : (p.kind s).split q.kind ≠ .impossible
  · rw [splitFound_eq allowed]
    exact (p.shares.combine_reveals _ (splitFraction_divides distinct)).bind fun rest =>
      .pure fun combined => ⟨allowed, rest, combined, rfl⟩
  · exact (splitFound_reveals distinct s q p others).mono fun _ known => absurd known.1 allowed

variable (grown : S.Grown) {j : Permission} (spaceJ : j.space = S) (spaceP : p.space = S)
  (laidJ : j.shares.Laid) (laidP : p.shares.Laid)
  (distinct : value (.single .zero) ≠ value (.single .one)) {restJ : Shares}
  (divided : Shares.Combined j.shares q.permission.shares (Divided value) restJ)

include grown spaceJ spaceP laidJ laidP divided

theorem Permission.Backs.fitsIn {n : Nat} {other : Term → Option W}
    (backs : j.Backs S value p n other) (allots : q.Allots value r n other) :
    r.FitsIn (Fitting · · n other) p.shares := by
  refine Shares.forall_entries (fun f g => Fitting g f n other) (grown_shares grown spaceP)
    laidP
    fun spot among => ⟨allots.drawn.fractionAt spot, backs.drawn.fractionAt spot, ?_⟩
  have taken := (divided.spot (grown_shares grown spaceJ) laidJ
    (backs.toIsWeaker.spots_eq spaceJ spaceP ▸ among)).taken
  exact (allots.takes spot).fits allots.spare taken (backs.toIsWeaker.spot spaceP among)

include distinct

/-- What is left of one permission is backed by what is left of the other. -/
theorem Permission.Backs.leave {n : Nat} {other : Term → Option W}
    (backs : j.Backs S value p n other) (allots : q.Allots value r n other) {restP : Shares}
    (rests : Shares.Combined p.shares r.permission.shares (Rests · · · n other) restP)
    {granting own : Solution} (allowed : (p.kind own).split r.kind ≠ .impossible) {j' : Permission}
    (left : j' ∈ ((j.kind granting).split q.kind).leave j restJ) :
    ∃ p' ∈ ((p.kind own).split r.kind).leave p restP,
      j'.IsBacked S (Dominated value other) n p' := by
  cases outcome : (j.kind granting).split q.kind with
  | impossible | nothing =>
    rw [outcome] at left
    cases left
  | kind rest =>
    rw [outcome] at left
    cases left
    -- What backs a permission to write with is one itself.
    have writable (strong : (j.kind granting).isReadOnly = false) :
        (p.kind own).isReadOnly = false := by
      rw [isReadOnly_kind] at strong ⊢
      exact backs.writable strong
    have drawn : restP.IsDrawn n := by
      intro f member
      rcases Shares.mem_fractions.mp member with ⟨entry, inside, rfl⟩ | rfl
      · obtain ⟨_, _, _, known⟩ := exists_left_of_forall₂ rests.values inside
        exact known.2.1
      · exact rests.below.2.1
    obtain ⟨kind, same, stays⟩ :=
      Kind.split_writable outcome (allots.kind ▸ allowed) writable
    rw [allots.kind, same]
    refine ⟨_, rfl, isWeaker_of_spots (rests.space.trans spaceP) ?_ stays fun spot among => ?_,
      fun m implied => ?_, drawn⟩
    · exact divided.root.trans (backs.root.trans rests.root.symm)
    · have own : spot ∈ p.shares.spots := rests.spots_eq ▸ among
      have first := divided.spot (grown_shares grown spaceJ) laidJ
        (backs.toIsWeaker.spots_eq spaceJ spaceP ▸ own)
      have second := rests.spot (grown_shares grown spaceP) laidP own
      refine (allots.takes spot).rest allots.spare distinct first
        (backs.toIsWeaker.spot spaceP own) ?_ second.2.2
      exact backs.held _ (Shares.fractionAt_mem (grown_shares grown spaceP) laidP own)
    · rw [j.impliesState_with divided.space divided.root] at implied
      rw [p.impliesState_with rests.space rests.root]
      exact backs.states m implied

theorem Pool.splitFound_backs (granting : Solution) {own : Solution}
    (allowed : (p.kind own).split r.kind ≠ .impossible) :
    Admits (fun n (other : Term → Option W) => j.Backs S value p n other ∧ q.Allots value r n other)
      (Pool.splitFound own r p others) fun next n other => ∃ left : Option Permission,
        next = others ++ left.toList ∧
        ∀ j' ∈ ((j.kind granting).split q.kind).leave j restJ,
          ∃ p' ∈ left, j'.IsBacked S (Dominated value other) n p' := by
  have kept : Lasting fun n (other : Term → Option W) =>
      j.Backs S value p n other ∧ q.Allots value r n other :=
    fun more agree both => ⟨Backs.lasting S value j p more agree both.1,
      Request.Allots.lasting value q r more agree both.2⟩
  rw [splitFound_eq allowed]
  refine ((p.combine_admits r).keeping kept fun n other both => ?_).bind fun rest =>
    .pure fun n other final => ⟨_, rfl, fun j' left => ?_⟩
  · exact both.1.fitsIn grown spaceJ spaceP laidJ laidP divided both.2
  · exact final.2.1.leave grown spaceJ spaceP laidJ laidP distinct divided final.2.2 final.1 allowed
      left

end Leaving

end Splitting

end Typestate
