import Mathlib.Tactic.MkIffOfInductiveProp
import Typestate.Proofs.Holding.Joining

set_option autoImplicit false

/-!
What is granted where two ways meet could have been granted on each of them, provided that the
sides can be compared: a join may know more than a side does, and it may hold parts in place of a
whole.
-/

namespace Typestate

variable {V W X : Type} {S : Space}

/-- One side shares what the other one only reads. -/
def Permission.Mixes (ours theirs : Solution) (p p' : Permission) : Prop :=
  p.kind ours = .share ∧ p'.kind theirs = .immutable ∨
    p.kind ours = .immutable ∧ p'.kind theirs = .share

instance (ours theirs : Solution) (p p' : Permission) : Decidable (p.Mixes ours theirs p') := by
  unfold Permission.Mixes
  infer_instance

namespace Pool

instance (pool : Pool) (state : String) : Decidable (pool.HoldsDimensions S state) := by
  unfold HoldsDimensions
  infer_instance

/-- When one of two lists serves a request that their join grants, as far as its own permissions
go. -/
@[mk_iff]
structure Serves (S : Space) (asking granted : Constraints) (joint own : Solution) (pool : Pool)
    (q : Request) : Prop where
  /-- The first one for less than a request to look on holds something where this asks for it. -/
  lower : q.kind = .pure → ∀ p ∈ (pool.under S q.root).head?, ∀ n ∈ S.ancestors q.root,
    asking.asks (q.permission.shares.get n) = true →
      granted.solution.isZero (p.shares.get n) = false
  /-- If the root has to be put together from parts, this gives a kind that allows the request. -/
  parts : q.kind ≠ .share → q.kind ≠ .pure → pool.HoldsDimensions S q.root →
    (Permission.combinedKind own q.root (pool.parts S q.root)).split q.kind ≠ .impossible
  /-- What both sides' constraints together make one the own ones do. -/
  ones : q.kind ≠ .share → q.kind ≠ .pure → ∀ p ∈ pool, S.covers p.root q.root = true →
    p.readOnly = false →
      (joint.isOne p.shares.below = true → own.isOne p.shares.below = true) ∧
        (q.kind = .unique → joint.isOne (p.shares.get q.root) = true →
          own.isOne (p.shares.get q.root) = true)

/-- When a request that a join of two lists grants can be had from each of them. -/
@[mk_iff]
structure Comparable (S : Space) (asking granted : Constraints) (joint ours theirs : Solution)
    (a b : Pool) (q : Request) : Prop where
  left : a.Serves S asking granted joint ours q
  right : b.Serves S asking granted joint theirs q
  reading : q.kind = .immutable → ∀ p ∈ a, ∀ p' ∈ b, p.root = p'.root →
    S.covers p.root q.root = true → ¬p.Mixes ours theirs p'

instance (asking granted : Constraints) (joint own : Solution) (pool : Pool) (q : Request) :
    Decidable (pool.Serves S asking granted joint own q) :=
  decidable_of_iff' _ (serves_iff S asking granted joint own pool q)

instance (asking granted : Constraints) (joint ours theirs : Solution) (a b : Pool) (q : Request) :
    Decidable (Comparable S asking granted joint ours theirs a b q) :=
  decidable_of_iff' _ (comparable_iff S asking granted joint ours theirs a b q)

theorem Comparable.symm {asking granted : Constraints} {joint ours theirs : Solution} {a b : Pool}
    {q : Request} (comparable : Comparable S asking granted joint ours theirs a b q) :
    Comparable S asking granted joint theirs ours b a q := by
  refine ⟨comparable.right, comparable.left, fun reads p left p' right root atop => ?_⟩
  intro mixes
  refine comparable.reading reads p' right p left root.symm (root ▸ atop) ?_
  exact mixes.symm.imp And.symm And.symm

/-- Assignments that show what is known where a join was split: of what was granted, of what the
join and the requests demand, and one that makes nothing one but what both sides find to be so. -/
structure Shown (n : Nat) (base asking granted : Constraints) (joint : Solution)
    (ours theirs : Constraints) (value : Term → V) (found : Term → W) (least : Term → X) :
    Prop where
  grantedGeneric : granted.Generic value
  foundGeneric : (base ++ asking).Generic found
  oursMet : (ours ++ asking).MetBy found
  theirsMet : (theirs ++ asking).MetBy found
  leastMet : (base ++ asking).MetBy least
  ones : ∀ f : Fraction, f.IsDrawn n → least f = least (.single .one) → joint.isOne f = true

section Sides

variable {frame : Bool} {n : Nat} {base asking granted ours theirs : Constraints} {joint : Solution}
  {value : Term → V} {found : Term → W} {least : Term → X} {q : Request}

theorem Shown.symm
    (shown : Shown n base asking granted joint ours theirs value found least) :
    Shown n base asking granted joint theirs ours value found least :=
  ⟨shown.grantedGeneric, shown.foundGeneric, shown.theirsMet, shown.oursMet, shown.leastMet,
    shown.ones⟩

def FitsAll (value : Term → V) (found : Term → W) (least : Term → X) (f g : Fraction) : Prop :=
  Fits value f g ∧ Fits found f g ∧ Fits least f g

variable (grown : S.Grown) {a b joined : Pool} (orderlyA : a.Orderly S frame)
  (orderlyJ : joined.Orderly S frame) (drawn : ∀ p ∈ a, p.shares.IsDrawn n)
  (shown : Shown n base asking granted joint ours theirs value found least)
  (comparable : Comparable S asking granted joint (ours ++ asking).solution
    (theirs ++ asking).solution a b q)

include shown

theorem Shown.live {cs : Constraints} (met : cs.MetBy found) {j p : Permission}
    (weaker : j.IsWeaker S (FitsAll value found least) p)
    (live : (base ++ asking).solution.isZero j.shares.below = false) :
    cs.solution.isZero p.shares.below = false := by
  rw [Bool.eq_false_iff]
  intro zero
  have nothing : found p.shares.below = found (.single .zero) := met.sound.isZero trivial zero
  rw [shown.foundGeneric.zero _ (weaker.below.2.1.1 nothing)] at live
  cases live

include comparable

theorem Shown.mixed {j p p' : Permission} (left : p ∈ a) (right : p' ∈ b)
    (isJoin : p.IsJoin S (FitsAll value found least) p' j) (atop : S.Above p.root q.root)
    (reads : q.kind = .immutable)
    (live : (base ++ asking).solution.isZero j.shares.below = false) (readOnly : j.readOnly = true)
    (writable : p.readOnly = false) : (ours ++ asking).solution.isOne p.shares.below = true := by
  have other : p'.readOnly = true := by
    have both := isJoin.readOnly
    rwa [readOnly, writable, Bool.false_or, eq_comm] at both
  have immutable : p'.kind (theirs ++ asking).solution = .immutable :=
    (p'.kind_immutable_iff _).mpr ⟨other, shown.live shown.theirsMet isJoin.right live⟩
  have root : p.root = p'.root := isJoin.left.root.symm.trans isJoin.right.root
  -- Otherwise this side would share what the other one only reads.
  by_contra uncertain
  refine comparable.reading reads p left p' right root ((S.covers_iff _ _).mpr atop) ?_
  refine .inl ⟨?_, immutable⟩
  simp [Permission.kind, writable, uncertain]

include grown orderlyA orderlyJ drawn

theorem Shown.settled (shares : q.kind ≠ .share) (looks : q.kind ≠ .pure) {j p p' : Permission}
    (member : j ∈ joined) (left : p ∈ a) (right : p' ∈ b)
    (isJoin : p.IsJoin S (FitsAll value found least) p' j) (atop : S.Above p.root q.root) :
    Settled (base ++ asking).solution (ours ++ asking).solution q j p := by
  have weaker := isJoin.left
  have certain {f g : Fraction} (fits : Fits least f g) (known : g.IsDrawn n)
      (one : (base ++ asking).solution.isOne f = true) : joint.isOne g = true :=
    shown.ones g known (fits.2 (shown.leastMet.sound.isOne trivial one))
  have atRoot : FitsAll value found least (j.shares.get q.root) (p.shares.get q.root) :=
    weaker.get grown (orderlyJ.space j member) (orderlyA.space p left) (orderlyJ.laid j member)
      (orderlyA.laid p left) (.inr atop)
  have ones (writable : j.readOnly = false) := comparable.left.ones shares looks p left
    ((S.covers_iff _ _).mpr atop) (weaker.writable writable)
  refine ⟨weaker.writable, fun writable one => (ones writable).1 ?_,
    fun unique writable one => (ones writable).2 unique ?_, shown.live shown.oursMet weaker,
    shown.mixed comparable left right isJoin atop⟩
  · exact certain weaker.below.2.2 (drawn p left).below one
  · exact certain atRoot.2.2 ((drawn p left).get q.root) one

theorem Shown.supports (isJoin : IsJoin S (FitsAll value found least) a b joined) :
    a.Supports S value asking (base ++ asking).solution (ours ++ asking).solution joined q := by
  refine ⟨fun j member => ?_, fun looks p head m node asks zero => ?_, comparable.left.parts⟩
  · obtain ⟨p, left, p', right, join⟩ := isJoin j member
    refine ⟨p, left, join.left.imp fun _ _ => And.left, fun shares looks atop allowed => ?_⟩
    have settled := shown.settled grown orderlyA orderlyJ drawn comparable shares looks member left
      right join atop
    exact settled.split ((orderlyJ.space j member).symm ▸ grown)
      ((orderlyA.space p left).symm ▸ grown) shares looks allowed
  · have something := comparable.left.lower looks p head m node asks
    rw [shown.grantedGeneric.zero _ zero] at something
    cases something

end Sides

end Pool

namespace Held

variable (grown : S.Grown) {n first last m : Nat} {r : RequestSet} (fresh : r.Fresh S first last)
  (later : n ≤ first) (enough : last ≤ m)

include grown fresh later enough

theorem satisfiable_of_supports {z h : Held} {value : Term → V} {granting : Solution}
    (orderly : z.Orderly S) (drawn : z.IsDrawn n)
    (joinedVirtuals : Pool.Orderly S false h.virtuals)
    (joinedFrames : Pool.Orderly S true h.frames)
    (met : (z.constraints ++ r.constraints).MetBy value)
    (virtuals : ∀ q ∈ r.virtuals, z.virtuals.Supports S value r.constraints granting
      (z.constraints ++ r.constraints).solution h.virtuals q ∧
        h.virtuals.Fulfils S (Fits value) granting q)
    (frames : ∀ q ∈ r.frames, z.frames.Supports S value r.constraints granting
      (z.constraints ++ r.constraints).solution h.frames q ∧
        h.frames.Fulfils S (Fits value) granting q) :
    (((Holding.held z).split r).run ⟨m⟩).1.isUnsatisfiable = false := by
  obtain ⟨own, asked⟩ := Constraints.metBy_append.mp met
  have known : (z.constraints ++ r.constraints).IsDrawn m :=
    (drawn.constraints.mono (later.trans (fresh.order.trans enough))).append
      (fresh.isDrawn.mono enough)
  have fractions {pool : Pool} (all : ∀ p ∈ pool, p.shares.IsDrawn n) :
      ∀ p ∈ pool, p.shares.IsDrawn first :=
    fun p member f inside => (all p member f inside).mono later
  -- The side grants the requests with as little for each as they allow.
  refine split_admits grown orderly.virtuals orderly.frames fresh
    (Constraints.metBy_append.mpr ⟨own.toFrugal (drawn.constraints.mono later),
      fresh.metBy_frugal own⟩) known (fun q member => ?_) fun q member => ?_
  · obtain ⟨supports, granted⟩ := virtuals q member
    exact supports.grants grown joinedVirtuals orderly.virtuals
      (fresh.requests q (List.mem_append_left _ member)) asked (fractions drawn.virtuals)
      fresh.order enough granted
  · obtain ⟨supports, granted⟩ := frames q member
    exact supports.grants grown joinedFrames orderly.frames
      (fresh.requests q (List.mem_append_right _ member)) asked (fractions drawn.frames)
      fresh.order enough granted

theorem IsJoin.split_satisfiable {x y h : Held} (isJoin : Held.IsJoin S n r.constraints x y h)
    (orderlyX : x.Orderly S) (orderlyY : y.Orderly S) (drawnX : x.IsDrawn n)
    (drawnY : y.IsDrawn n) {granted : Holding} {supply : Nat}
    (run : (((Holding.held h).split r).run ⟨supply⟩).1 = granted)
    (satisfiable : granted.isUnsatisfiable = false)
    (virtuals : ∀ q ∈ r.virtuals, Pool.Comparable S r.constraints granted.constraints
      (x.constraints ++ y.constraints).solution (x.constraints ++ r.constraints).solution
      (y.constraints ++ r.constraints).solution x.virtuals y.virtuals q)
    (frames : ∀ q ∈ r.frames, Pool.Comparable S r.constraints granted.constraints
      (x.constraints ++ y.constraints).solution (x.constraints ++ r.constraints).solution
      (y.constraints ++ r.constraints).solution x.frames y.frames q) :
    (((Holding.held x).split r).run ⟨m⟩).1.isUnsatisfiable = false ∧
      (((Holding.held y).split r).run ⟨m⟩).1.isUnsatisfiable = false := by
  subst run
  -- First, an assignment for what was granted.
  obtain ⟨V, value, generic⟩ := Constraints.exists_generic satisfiable
  obtain ⟨met, grantsVirtuals, grantsFrames⟩ :=
    split_reveals grown isJoin.virtuals isJoin.frames fresh generic.met
  obtain ⟨base, asked⟩ := Constraints.metBy_append.mp met
  obtain ⟨sides, joinVirtuals, joinFrames⟩ := isJoin.reveals base
  -- Second, one for the join and the requests, before anything was split.
  obtain ⟨W, found, foundGeneric⟩ := Constraints.exists_generic
    (Constraints.isUnsatisfiable_eq_false_iff.mpr ⟨V, value, met⟩)
  obtain ⟨foundBase, foundAsked⟩ := Constraints.metBy_append.mp foundGeneric.met
  obtain ⟨foundSides, foundVirtuals, foundFrames⟩ := isJoin.reveals foundBase
  -- Third, one for both sides, extended by the join so that it makes no more of theirs one.
  obtain ⟨X₀, start, startGeneric⟩ := Constraints.exists_generic
    (Constraints.isUnsatisfiable_eq_false_iff.mpr ⟨V, value, sides⟩)
  obtain ⟨X, least, leastMet, leastVirtuals, leastFrames, ones⟩ := isJoin.admits startGeneric
  rw [Constraints.metBy_append] at sides foundSides
  have shown : Pool.Shown n h.constraints r.constraints
      (((Holding.held h).split r).run ⟨supply⟩).1.constraints
      (x.constraints ++ y.constraints).solution x.constraints y.constraints value found least :=
    ⟨generic, foundGeneric, Constraints.metBy_append.mpr ⟨foundSides.1, foundAsked⟩,
      Constraints.metBy_append.mpr ⟨foundSides.2, foundAsked⟩, leastMet,
      fun f known one => startGeneric.one f (ones f known one)⟩
  have allVirtuals : Pool.IsJoin S (Pool.FitsAll value found least) x.virtuals y.virtuals
      h.virtuals :=
    joinVirtuals.and grown orderlyX.virtuals orderlyY.virtuals
      (foundVirtuals.and grown orderlyX.virtuals orderlyY.virtuals leastVirtuals)
  have allFrames : Pool.IsJoin S (Pool.FitsAll value found least) x.frames y.frames h.frames :=
    joinFrames.and grown orderlyX.frames orderlyY.frames
      (foundFrames.and grown orderlyX.frames orderlyY.frames leastFrames)
  constructor
  · refine satisfiable_of_supports grown fresh later enough orderlyX drawnX isJoin.virtuals
      isJoin.frames (Constraints.metBy_append.mpr ⟨sides.1, asked⟩)
      (fun q member => ⟨?_, grantsVirtuals q member⟩) fun q member => ⟨?_, grantsFrames q member⟩
    · exact shown.supports grown orderlyX.virtuals isJoin.virtuals drawnX.virtuals
        (virtuals q member) allVirtuals
    · exact shown.supports grown orderlyX.frames isJoin.frames drawnX.frames
        (frames q member) allFrames
  · refine satisfiable_of_supports grown fresh later enough orderlyY drawnY isJoin.virtuals
      isJoin.frames (Constraints.metBy_append.mpr ⟨sides.2, asked⟩)
      (fun q member => ⟨?_, grantsVirtuals q member⟩) fun q member => ⟨?_, grantsFrames q member⟩
    · exact shown.symm.supports grown orderlyY.virtuals isJoin.virtuals
        drawnY.virtuals (virtuals q member).symm allVirtuals.symm
    · exact shown.symm.supports grown orderlyY.frames isJoin.frames drawnY.frames
        (frames q member).symm allFrames.symm

end Held

namespace Holding

theorem join_branch {x y : Held} (packedX : x.unpacked = none) (packedY : y.unpacked = none)
    (satisfiableX : x.isUnsatisfiable = false) (satisfiableY : y.isUnsatisfiable = false) :
    (Holding.held x).join (.held y) .branch =
      if (Holding.held x == .held y) = true then .ok (return .held x)
      else .ok (.held <$> x.joinOn y (x.constraints ++ y.constraints).solution
        (x.constraints ++ y.constraints) true) := by
  rw [join_held satisfiableX satisfiableY]
  simp only [Held.sameUnpacked, packedX, packedY, Held.join]
  split <;> rfl

/-- What both sides and the requests have to be for a join to be about them: all is in order and
packed, the constraints can be met, and the fractions of the requests are fresh. -/
structure Meets (S : Space) (n first last : Nat) (x y : Held) (r : RequestSet) : Prop where
  orderlyX : x.Orderly S
  orderlyY : y.Orderly S
  packedX : x.unpacked = none
  packedY : y.unpacked = none
  satisfiableX : x.isUnsatisfiable = false
  satisfiableY : y.isUnsatisfiable = false
  belowX : (Holding.held x).IsBelow n
  belowY : (Holding.held y).IsBelow n
  asked : r.Asked S first last
  fresh : n ≤ first

/-- Requests that are granted after a join could have been granted on each of the ways that meet, if
what is held on them is comparable. -/
theorem split_satisfiable_of_join_split (built : S.Built) {n first last : Nat} {x y : Held}
    {r : RequestSet} (meets : Meets S n first last x y r) :
    ∃ work, (Holding.held x).join (.held y) .branch = .ok work ∧
      ∀ (start supply m : Nat) (granted : Holding), n ≤ start → last ≤ m →
        ((work.run ⟨start⟩).2.next ≤ first ∨ last ≤ start) →
        ((work.run ⟨start⟩).1.split r |>.run ⟨supply⟩).1 = granted →
        (∀ q ∈ r.virtuals, Pool.Comparable S r.constraints granted.constraints
          (x.constraints ++ y.constraints).solution (x.constraints ++ r.constraints).solution
          (y.constraints ++ r.constraints).solution x.virtuals y.virtuals q) →
        (∀ q ∈ r.frames, Pool.Comparable S r.constraints granted.constraints
          (x.constraints ++ y.constraints).solution (x.constraints ++ r.constraints).solution
          (y.constraints ++ r.constraints).solution x.frames y.frames q) →
        granted.isUnsatisfiable = false →
        (((Holding.held x).split r).run ⟨m⟩).1.isUnsatisfiable = false ∧
          (((Holding.held y).split r).run ⟨m⟩).1.isUnsatisfiable = false := by
  have grown := built.grown
  have fresh := meets.asked.fresh grown
  have drawnX := meets.belowX.isDrawn
  have drawnY := meets.belowY.isDrawn
  rw [join_branch meets.packedX meets.packedY meets.satisfiableX meets.satisfiableY]
  split
  · next same =>
      refine ⟨_, rfl, fun start supply m granted _ enough _ run virtuals frames satisfiable => ?_⟩
      have isJoin := Held.isJoin_self fresh meets.fresh meets.orderlyX meets.orderlyY drawnX same
      exact isJoin.split_satisfiable grown fresh meets.fresh enough meets.orderlyX meets.orderlyY
        drawnX drawnY run satisfiable virtuals frames
  · refine ⟨_, rfl,
      fun start supply m granted past enough apart run virtuals frames satisfiable => ?_⟩
    let out := (x.joinWork y).run ⟨x.constraints ++ y.constraints, ⟨start⟩⟩
    have made : (Holding.held <$> x.joinOn y (x.constraints ++ y.constraints).solution
        (x.constraints ++ y.constraints) true : SupplyM Holding).run ⟨start⟩ =
          (.held ⟨out.1.1, out.1.2, none, out.2.constraints⟩, out.2.supply) :=
      congrArg (fun p : Held × Supply => (Holding.held p.1, p.2))
        (Held.joinOn_run meets.packedX start)
    rw [made] at apart run
    have isJoin := Held.isJoin_joinWork grown fresh meets.fresh meets.orderlyX drawnX drawnY past
      rfl apart
    exact isJoin.split_satisfiable grown fresh meets.fresh enough meets.orderlyX meets.orderlyY
      drawnX drawnY run satisfiable virtuals frames

namespace Crossing

def space : Space :=
  (((Space.Draft.new "Crossing").addDimension (some "a") alive ["x", "y"] false).1.addDimension
    (some "b") alive ["p", "q"] false).1.space

theorem built : space.Built :=
  ⟨_, .addDimension (.addDimension (.new "Crossing") (some "a") alive ["x", "y"] false)
    (some "b") alive ["p", "q"] false, rfl⟩

/-- A permission by its root, the fractions of the nodes above, the one below, and whether it is
read only. -/
def permission : String × List Fraction × Fraction × Bool → Permission
  | (root, above, below, readOnly) =>
      ⟨⟨space, root, (space.ancestors root).zip above, below⟩, readOnly, false, []⟩

def side (entries : List (String × List Fraction × Fraction × Bool))
    (demands : List Constraint) : Held :=
  ⟨entries.map permission, [], none, ⟨demands, none⟩⟩

/-- The numbers of the sides' fractions are below this one, those of the requests are not. -/
def known : Nat := 100

instance (n : Nat) : DecidablePred (Fraction.IsBelow n)
  | .zero | .one => inferInstanceAs (Decidable True)
  | .named id | .unknown id => inferInstanceAs (Decidable (id < n))

instance (s : Shares) : Decidable s.Laid :=
  inferInstanceAs (Decidable (s.values.map Prod.fst = s.space.ancestors s.root))

def Checks (z : Held) : Prop :=
  space.allOrthogonal (z.virtuals.map Permission.root) = true ∧
    (∀ p ∈ z.virtuals, p.shares.Laid) ∧ z.constraints.items.Nodup ∧
    z.isUnsatisfiable = false ∧ ∀ f ∈ (Holding.held z).fractions, f.IsBelow known

instance (z : Held) : Decidable (Checks z) := by
  unfold Checks
  infer_instance

theorem Checks.orderly {entries : List (String × List Fraction × Fraction × Bool)}
    {demands : List Constraint} (checks : Checks (side entries demands)) :
    (side entries demands).Orderly space := by
  obtain ⟨apart, laid, distinct, -, -⟩ := checks
  rw [built.grown.allOrthogonal_iff, List.pairwise_map] at apart
  exact ⟨⟨⟨List.forall_mem_map.mpr fun _ _ => rfl, List.forall_mem_map.mpr fun _ _ => rfl, apart⟩,
    laid⟩, ⟨.nil, nofun⟩, distinct⟩

theorem Checks.meets {entries others : List (String × List Fraction × Fraction × Bool)}
    {demands more : List Constraint} {r : RequestSet} {last : Nat}
    (checksX : Checks (side entries demands)) (checksY : Checks (side others more))
    (asked : r.Asked space known last) :
    Meets space known known last (side entries demands) (side others more) r := by
  obtain ⟨-, -, -, satisfiableX, belowX⟩ := id checksX
  obtain ⟨-, -, -, satisfiableY, belowY⟩ := id checksY
  exact ⟨checksX.orderly, checksY.orderly, rfl, rfl, satisfiableX, satisfiableY, belowX, belowY,
    asked, Nat.le_refl _⟩

/-- Whether requests are granted where two ways meet, but not on both of them. -/
def grantedOnlyJoined (x y : Holding) (r : RequestSet) (supply : Supply) : Bool :=
  match x.join y .branch with
  | .error _ => false
  | .ok work =>
      let joined := work.run supply
      !((joined.1.split r).run joined.2).1.isUnsatisfiable &&
        (((x.split r).run joined.2).1.isUnsatisfiable ||
          ((y.split r).run joined.2).1.isUnsatisfiable)

def Overgrants (x y : Held) (spec : Spec) : Prop :=
  let asked := (RequestSet.ofSpec space spec false).run ⟨known⟩
  Meets space known known asked.2.next x y asked.1 ∧
    grantedOnlyJoined (.held x) (.held y) asked.1 asked.2 = true

theorem Checks.overgrants {entries others : List (String × List Fraction × Fraction × Bool)}
    {demands more : List Constraint} {spec : Spec} (checksX : Checks (side entries demands))
    (checksY : Checks (side others more))
    (only : let asked := (RequestSet.ofSpec space spec false).run ⟨known⟩
      grantedOnlyJoined (.held (side entries demands)) (.held (side others more)) asked.1 asked.2 =
        true) : Overgrants (side entries demands) (side others more) spec :=
  ⟨checksX.meets checksY (.ofSpec spec false known), only⟩

/-- What a join grants may be refused on one of the ways that meet. -/
theorem join_grants_despite_refusal :
    -- Shared and read only are joined to read only, and nothing to read can be had from the former.
    Overgrants (side [(alive, [.named 0], .named 1, false)] [])
      (side [(alive, [.named 2], .named 3, true)] []) ⟨.immutable, alive, [], false⟩ ∧
    -- Only the constraints of the other side make the fraction one.
    Overgrants (side [(alive, [.unknown 50], .unknown 50, false)] [])
      (side [(alive, [.unknown 50], .unknown 50, false)]
        [.equal [.single (.unknown 50), .single .one]]) ⟨.unique, alive, [], false⟩ ∧
    -- The one with nothing to look on is lost in the join, where it does not come first any more.
    Overgrants (side [("a", [.unknown 60, .zero], .unknown 61, false),
        ("b", [.unknown 70, .unknown 71], .unknown 72, false)] [])
      (side [("b", [.unknown 70, .unknown 71], .unknown 72, false)] [])
      ⟨.pure, alive, [], false⟩ ∧
    -- Dimensions that are held by unknown fractions do not combine to a unique whole.
    Overgrants (side [("a", [.one, .one], .one, false), ("b", [.one, .one], .one, false)] [])
      (side [("a", [.one, .one], .unknown 51, false), ("b", [.one, .one], .unknown 52, false)]
        [.equal [.single (.unknown 51), .single .one],
          .equal [.single (.unknown 52), .single .one]]) ⟨.unique, alive, [], false⟩ ∧
    -- Dimensions that combine to a shared whole combine to one to read once one of them is.
    Overgrants (side [("a", [.one, .one], .one, false),
        ("b", [.named 0, .named 1], .named 2, false)] [])
      (side [("a", [.named 3, .named 4], .named 5, true),
        ("b", [.named 6, .named 7], .named 8, false)] []) ⟨.immutable, alive, [], false⟩ := by
  refine ⟨Checks.overgrants ?_ ?_ ?_, Checks.overgrants ?_ ?_ ?_, Checks.overgrants ?_ ?_ ?_,
    Checks.overgrants ?_ ?_ ?_, Checks.overgrants ?_ ?_ ?_⟩
  all_goals decide +kernel

/-- One way holds all of a dimension and may write in a state of the other one. -/
def owner : Held :=
  side [("a", [.one, .one], .one, false), ("p", [.named 0, .named 1, .named 2], .one, false)] []

/-- The other way may read the former and shares the latter. -/
def reader : Held :=
  side [("a", [.named 3, .named 4], .named 5, true),
    ("p", [.named 6, .named 7, .named 8], .named 9, false)] []

/-- To read in a state of the one dimension, below the root that is held for it. -/
def reading : RequestSet × Supply :=
  (RequestSet.ofSpec space ⟨.immutable, "x", [], false⟩ false).run ⟨known⟩

/-- To look on the other dimension, above the root that is held for it. -/
def looking : RequestSet × Supply :=
  (RequestSet.ofSpec space ⟨.pure, "b", [], false⟩ false).run reading.2

def requests : RequestSet := (reading.1.combine looking.1).toOption.getD (.empty space)

theorem requests_asked : requests.Asked space known looking.2.next :=
  .combine (.ofSpec _ false known) (.ofSpec _ false reading.2.next) (Nat.le_refl _) (by rfl)

theorem granted_to_owner_and_reader :
    Meets space known known looking.2.next owner reader requests ∧
      ∃ work, (Holding.held owner).join (.held reader) .branch = .ok work ∧
        (((work.run looking.2).1.split requests).run ⟨200⟩).1.isUnsatisfiable = false ∧
        (((Holding.held owner).split requests).run ⟨200⟩).1.isUnsatisfiable = false ∧
        (((Holding.held reader).split requests).run ⟨200⟩).1.isUnsatisfiable = false := by
  have meets : Meets space known known looking.2.next owner reader requests :=
    Checks.meets (by decide +kernel) (by decide +kernel) requests_asked
  obtain ⟨work, joined, grants⟩ := split_satisfiable_of_join_split built meets
  refine ⟨meets, work, joined, ?_⟩
  rw [join_branch meets.packedX meets.packedY meets.satisfiableX meets.satisfiableY,
    if_neg (by decide +kernel), Except.ok.injEq] at joined
  subst joined
  have granted : ((((Holding.held <$> owner.joinOn reader
      (owner.constraints ++ reader.constraints).solution (owner.constraints ++ reader.constraints)
      true : SupplyM Holding).run looking.2).1.split requests).run ⟨200⟩).1.isUnsatisfiable =
        false := by decide +kernel
  exact ⟨granted, grants looking.2.next 200 200 _ (by decide) (by decide) (.inr (Nat.le_refl _)) rfl
    (by decide +kernel) (by decide +kernel) granted⟩

end Crossing

end Holding

end Typestate
