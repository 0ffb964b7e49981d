import Typestate.Proofs.Permission.Asking
import Typestate.Proofs.Permission.Joining

set_option autoImplicit false

/-!
A request that a joined pool grants, seen from one of the sides. The side holds as much wherever the
joined pool does, so it grants the request too if the kinds of its permissions allow it.
-/

namespace Typestate

open Permission

variable {V : Type} {S : Space} {frame : Bool}

theorem Request.fitsIn_reroot_iff {fits : Fraction → Fraction → Prop} {q : Request} {s : Shares}
    {root : String} :
    q.FitsIn fits (s.reroot root) ↔
      (∀ n ∈ s.space.ancestors root, fits (q.permission.shares.get n) (s.get n)) ∧
        fits q.permission.shares.below s.below := by
  simp [Request.FitsIn, Shares.reroot]

/-- A weaker permission has fractions that fit at every node above or below its root. -/
theorem Permission.IsWeaker.get (grown : S.Grown) {fits : Fraction → Fraction → Prop}
    {j p : Permission} (weaker : j.IsWeaker S fits p) (spaceJ : j.space = S) (spaceP : p.space = S)
    (laidJ : j.shares.Laid) (laidP : p.shares.Laid) {n : String}
    (among : S.Above n p.root ∨ S.Above p.root n) : fits (j.shares.get n) (p.shares.get n) := by
  by_cases higher : S.Above n p.root
  · exact weaker.above n higher
  · have lower := among.resolve_left higher
    have apart : n ≠ p.root := fun same => higher (same ▸ grown.above_refl p.root)
    rw [j.get_of_below grown spaceJ laidJ (weaker.root ▸ lower) (weaker.root ▸ apart),
      p.get_of_below grown spaceP laidP lower apart]
    exact weaker.below

section Asking

variable {cs : Constraints} {first last : Nat} {q : Request} (fresh : q.Fresh S first last cs)

include fresh

theorem Request.Fresh.bounds_get (n : String) :
    ∀ id, q.permission.shares.get n = .unknown id → first ≤ id ∧ id < last := by
  intro id same
  rcases q.permission.shares.get_mem n with member | zero
  · exact fresh.drawn id (same ▸ member)
  · rw [zero] at same
    cases same

theorem Request.Fresh.bounds_below :
    ∀ id, q.permission.shares.below = .unknown id → first ≤ id ∧ id < last :=
  fun id same => fresh.drawn id (by simp [Shares.fractions, same])

theorem Request.Fresh.get_ne_one (grown : S.Grown) (some : q.kind ≠ .unique) {n : String}
    (node : S.Above n q.root) : q.permission.shares.get n ≠ .one :=
  fresh.proper some _ (Permission.mem_values grown fresh.space fresh.laid node)

end Asking

section Kinds

variable (p : Permission) (s : Solution)

theorem Permission.kind_unique_iff :
    p.kind s = .unique ↔
      p.readOnly = false ∧ s.isOne p.shares.below = true ∧ s.isOne p.shares.rootValue = true := by
  unfold kind
  cases p.readOnly with
  | true => cases s.isZero p.shares.below <;> simp
  | false => cases s.isOne p.shares.below <;> cases s.isOne p.shares.rootValue <;> simp

theorem Permission.kind_strong_iff :
    p.kind s = .unique ∨ p.kind s = .full ↔
      p.readOnly = false ∧ s.isOne p.shares.below = true := by
  unfold kind
  cases p.readOnly with
  | true => cases s.isZero p.shares.below <;> simp
  | false => cases s.isOne p.shares.below <;> cases s.isOne p.shares.rootValue <;> simp

theorem Permission.kind_immutable_iff :
    p.kind s = .immutable ↔ p.readOnly = true ∧ s.isZero p.shares.below = false := by
  unfold kind
  cases p.readOnly with
  | true => cases s.isZero p.shares.below <;> simp
  | false => cases s.isOne p.shares.below <;> cases s.isOne p.shares.rootValue <;> simp

theorem Kind.split_unique_iff (k : Kind) : k.split .unique ≠ .impossible ↔ k = .unique := by
  cases k <;> decide

theorem Kind.split_full_iff (k : Kind) :
    k.split .full ≠ .impossible ↔ k = .unique ∨ k = .full := by
  cases k <;> decide

theorem Kind.split_immutable_iff (k : Kind) :
    k.split .immutable ≠ .impossible ↔ (k = .unique ∨ k = .full) ∨ k = .immutable := by
  cases k <;> decide

theorem Permission.kind_reroot_unique {p : Permission} (grown : p.space.Grown) (s : Solution)
    (n : String) :
    (p.reroot n).kind s = .unique ↔ p.readOnly = false ∧ s.isOne p.shares.below = true ∧
      s.isOne (p.shares.get n) = true := by
  have root : (p.reroot n).shares.rootValue = p.shares.get n := Shares.rootValue_reroot grown n
  rw [kind_unique_iff, root]
  rfl

end Kinds

namespace Pool

/-- What makes a pool good for a request that a joined pool grants: the permissions of the joined
pool are weaker than its own and of no better kind, its first permission below the root will do for
looking on, and what its parts are put together to is of a kind that allows the request. -/
structure Supports (S : Space) (value : Term → V) (cs : Constraints) (granting own : Solution)
    (pool joined : Pool) (q : Request) : Prop where
  sources : ∀ j ∈ joined, ∃ p ∈ pool, j.IsWeaker S (Fits value) p ∧
    (q.kind ≠ .share → q.kind ≠ .pure → S.Above p.root q.root →
      ((j.reroot q.root).kind granting).split q.kind ≠ .impossible →
        ((p.reroot q.root).kind own).split q.kind ≠ .impossible)
  lower : q.kind = .pure → ∀ p, (pool.under S q.root).head? = some p → ∀ n ∈ S.ancestors q.root,
    cs.asks (q.permission.shares.get n) = true → value (p.shares.get n) ≠ value (.single .zero)
  parts : q.kind ≠ .share → q.kind ≠ .pure → pool.HoldsDimensions S q.root →
    (combinedKind own q.root (pool.parts S q.root)).split q.kind ≠ .impossible

/-- How what is known of a joined permission bears on what is known of one that it was joined from:
what is one is found to be one there too, what may be positive may be so there, and what was only
joined to one to read with holds everything. -/
structure Settled (granting own : Solution) (q : Request) (j p : Permission) : Prop where
  writable : j.readOnly = false → p.readOnly = false
  below : j.readOnly = false → granting.isOne j.shares.below = true →
    own.isOne p.shares.below = true
  root : q.kind = .unique → j.readOnly = false → granting.isOne (j.shares.get q.root) = true →
    own.isOne (p.shares.get q.root) = true
  live : granting.isZero j.shares.below = false → own.isZero p.shares.below = false
  mixed : q.kind = .immutable → granting.isZero j.shares.below = false → j.readOnly = true →
    p.readOnly = false → own.isOne p.shares.below = true

theorem Settled.split {granting own : Solution} {q : Request} {j p : Permission}
    (settled : Settled granting own q j p) (grownJ : j.space.Grown) (grownP : p.space.Grown)
    (shares : q.kind ≠ .share) (looks : q.kind ≠ .pure)
    (allowed : ((j.reroot q.root).kind granting).split q.kind ≠ .impossible) :
    ((p.reroot q.root).kind own).split q.kind ≠ .impossible := by
  have strong (known : (j.reroot q.root).kind granting = .unique ∨
      (j.reroot q.root).kind granting = .full) :
      (p.reroot q.root).kind own = .unique ∨ (p.reroot q.root).kind own = .full := by
    obtain ⟨writable, certain⟩ := ((j.reroot q.root).kind_strong_iff granting).mp known
    exact ((p.reroot q.root).kind_strong_iff own).mpr
      ⟨settled.writable writable, settled.below writable certain⟩
  -- Each kind of request tells which of the facts about the joined permission allowed it.
  cases kind : q.kind with
  | unique =>
      rw [kind, Kind.split_unique_iff, kind_reroot_unique grownJ] at allowed
      rw [Kind.split_unique_iff, kind_reroot_unique grownP]
      obtain ⟨writable, certain, atRoot⟩ := allowed
      exact ⟨settled.writable writable, settled.below writable certain,
        settled.root kind writable atRoot⟩
  | full =>
      rw [kind, Kind.split_full_iff] at allowed
      rw [Kind.split_full_iff]
      exact strong allowed
  | immutable =>
      rw [kind, Kind.split_immutable_iff] at allowed
      rw [Kind.split_immutable_iff]
      refine allowed.elim (fun known => .inl (strong known)) fun immutable => ?_
      have known : j.readOnly = true ∧ granting.isZero j.shares.below = false :=
        ((j.reroot q.root).kind_immutable_iff granting).mp immutable
      cases writable : p.readOnly with
      | true =>
          exact .inr (((p.reroot q.root).kind_immutable_iff own).mpr
            ⟨writable, settled.live known.2⟩)
      | false =>
          have certain := settled.mixed kind known.2 known.1 writable
          exact .inl (((p.reroot q.root).kind_strong_iff own).mpr ⟨writable, certain⟩)
  | share => exact absurd kind shares
  | pure => exact absurd kind looks

section Supports

variable (grown : S.Grown) {value : Term → V} {cs : Constraints} {granting own : Solution}
  {joined pool : Pool} {q : Request} {first last m : Nat}
  (supports : pool.Supports S value cs granting own joined q)
  (joinedOrderly : joined.Orderly S frame) (orderly : pool.Orderly S frame)
  (fresh : q.Fresh S first last cs) (demanded : cs.MetBy value)
  (drawn : ∀ p ∈ pool, p.shares.IsDrawn first) (order : first ≤ last) (enough : last ≤ m)

section Fitting

variable {f g : Fraction} (bounds : ∀ id, f = .unknown id → first ≤ id ∧ id < last)
  (right : g.IsDrawn first)

include bounds order enough right

theorem fitting_of_frugal (fits : Fits (frugal cs first last value) f g) :
    Fitting f g m (frugal cs first last value) := by
  refine ⟨?_, right.mono (order.trans enough), fits⟩
  cases f with
  | zero | one | named id => trivial
  | unknown id => exact Nat.lt_of_lt_of_le (bounds id rfl).2 enough

include demanded

theorem fitting_of_fits (fits : Fits value f g) : Fitting f g m (frugal cs first last value) :=
  fitting_of_frugal order enough bounds right (fits.toFrugal demanded right)

end Fitting

include grown orderly fresh demanded drawn order enough

theorem Orderly.grants_lower (looks : q.kind = .pure)
    (live : ∀ p, (pool.under S q.root).head? = some p → ∀ n ∈ S.ancestors q.root,
      cs.asks (q.permission.shares.get n) = true → value (p.shares.get n) ≠ value (.single .zero))
    {p : Permission} (inside : p ∈ pool.under S q.root) :
    pool.Grants S (Fitting · · m (frugal cs first last value)) own q := by
  obtain ⟨found, head⟩ : ∃ found, (pool.under S q.root).head? = some found := by
    cases shape : pool.under S q.root with
    | nil =>
        rw [shape] at inside
        cases inside
    | cons found rest => exact ⟨found, rfl⟩
  obtain ⟨here, above, -⟩ := mem_under_iff.mp (List.mem_of_head? head)
  have nothing := fresh.looks looks
  have some : q.kind ≠ .unique := by simp [looks]
  have zero {g : Fraction} (known : g.IsDrawn first) :
      Fitting .zero g m (frugal cs first last value) :=
    fitting_of_fits demanded order enough nofun known (demanded.zero_fits g)
  refine .lower looks found head ⟨fun entry node => ?_, ?_⟩
  · have known : entry.2.IsDrawn first :=
      drawn found here _ (Shares.mem_fractions_of_mem node)
    have reached :=
      found.of_mem_values grown (orderly.space found here) (orderly.laid found here) node
    -- The entries lie on one way up: above the root of the request it asks, below it for nothing.
    by_cases higher : S.Above entry.1 q.root
    · refine fitting_of_frugal order enough (fresh.bounds_get _) known ?_
      refine fits_frugal_of_asks demanded (fresh.get_ne_one grown some higher)
        (fresh.bounds_get _) (fun asks => ?_) known
      rw [← reached.2]
      exact live found head entry.1 higher asks
    · have atop := (grown.above_total reached.1 above).resolve_left higher
      have apart : entry.1 ≠ q.root := fun same => higher (same ▸ grown.above_refl _)
      rw [q.permission.get_of_below grown fresh.space fresh.laid atop apart, nothing]
      exact zero known
  · rw [nothing]
    exact zero ((drawn found here).below)

include supports

theorem Supports.grants_held (joinedOrderly : joined.Orderly S frame) {j : Permission}
    (member : j ∈ joined) (atop : S.Above j.root q.root)
    (allowed : ((j.reroot q.root).kind granting).split q.kind ≠ .impossible)
    (inside : q.FitsIn (Fits value) (j.shares.reroot q.root)) :
    pool.Grants S (Fitting · · m (frugal cs first last value)) own q := by
  obtain ⟨p, among, weaker, strong⟩ := supports.sources j member
  rw [weaker.root] at atop
  have spaceJ := joinedOrderly.space j member
  have spaceP := orderly.space p among
  have fits {n : String} (node : S.Above n q.root) : Fits value (j.shares.get n) (p.shares.get n) :=
    weaker.get grown spaceJ spaceP (joinedOrderly.laid j member) (orderly.laid p among)
      (grown.above_total node atop)
  refine .held p among atop ?_ (Request.fitsIn_reroot_iff.mpr ⟨fun n node => ?_, ?_⟩)
  · -- To share, writing is enough; to look on, anything is; the others need the kind.
    by_cases writes : q.kind = .share
    · rw [writes, Kind.split_share_iff, isReadOnly_kind] at allowed ⊢
      exact weaker.writable allowed
    · by_cases looks : q.kind = .pure
      · rw [looks]
        exact Kind.split_pure _
      · exact strong writes looks atop allowed
  · change n ∈ p.space.ancestors q.root at node
    rw [spaceP] at node
    have asked := (Request.fitsIn_reroot_iff.mp inside).1 n
      (by change n ∈ j.space.ancestors q.root; rwa [spaceJ])
    exact fitting_of_fits demanded order enough (fresh.bounds_get n) ((drawn p among).get n)
      (asked.trans (fits node))
  · exact fitting_of_fits demanded order enough fresh.bounds_below
      (drawn p among).below
      ((Request.fitsIn_reroot_iff.mp inside).2.trans weaker.below)

theorem Supports.grants_combined (looks : q.kind ≠ .pure)
    (combines : joined.Combines S (Fits value) q) :
    pool.Grants S (Fitting · · m (frugal cs first last value)) own q := by
  have source {p : Permission} (part : p ∈ pool.parts S q.root) :
      ∃ j ∈ joined.parts S q.root, j.IsWeaker S (Fits value) p := by
    obtain ⟨member, dimension⟩ := mem_parts_iff.mp part
    obtain ⟨j, inside, root⟩ := combines.holds.2 p.root dimension
    obtain ⟨p', among, weaker, -⟩ := supports.sources j inside
    -- The pool has one permission for the dimension, so the joined one came from it.
    have same : p' = p := by
      refine orderly.eq_of_above grown among member ?_ (grown.above_refl p.root)
      rw [← weaker.root, root]
      exact grown.above_refl p.root
    exact ⟨j, mem_parts_iff.mpr ⟨inside, root ▸ dimension⟩, same ▸ weaker⟩
  have holds : pool.HoldsDimensions S q.root := by
    refine ⟨combines.holds.1, fun d dimension => ?_⟩
    obtain ⟨j, inside, root⟩ := combines.holds.2 d dimension
    obtain ⟨p, among, weaker, -⟩ := supports.sources j inside
    exact ⟨p, among, weaker.root.symm.trans root⟩
  have writable (writes : q.kind = .share) :
      ∀ p ∈ pool.parts S q.root, p.readOnly = false := by
    intro p part
    obtain ⟨j, partJ, weaker⟩ := source part
    exact weaker.writable (combines.writable writes j partJ)
  refine .combined looks ⟨holds, writable, fun n node p part => ?_, fun p part => ?_⟩ ?_
  · obtain ⟨j, partJ, weaker⟩ := source part
    obtain ⟨member, dimension⟩ := mem_parts_iff.mp part
    have higher := grown.above_trans node (grown.lower_of_mem_dimensions dimension).1
    exact fitting_of_fits demanded order enough (fresh.bounds_get n) ((drawn p member).get n)
      ((combines.above n node j partJ).trans (weaker.above n higher))
  · obtain ⟨j, partJ, weaker⟩ := source part
    have member := (mem_parts_iff.mp part).1
    exact fitting_of_fits demanded order enough fresh.bounds_below
      (drawn p member).below
      ((combines.below j partJ).trans weaker.below)
  · by_cases writes : q.kind = .share
    · rw [writes, Kind.split_share_iff, isReadOnly_combinedKind, List.any_eq_false]
      intro p part
      simpa using writable writes p part
    · exact supports.parts writes looks holds

include joinedOrderly

/-- What a side supports it grants whenever the joined pool does. -/
theorem Supports.grants (fulfils : joined.Fulfils S (Fits value) granting q) :
    pool.Grants S (Fitting · · m (frugal cs first last value)) own q := by
  rcases fulfils with grants | ⟨looks, combines⟩
  · cases grants with
    | held j member atop allowed inside =>
        exact supports.grants_held grown orderly fresh demanded drawn order enough joinedOrderly
          member atop allowed inside
    | lower looks j head inside =>
        obtain ⟨member, lower, strict⟩ := mem_under_iff.mp (List.mem_of_head? head)
        obtain ⟨p, among, weaker, -⟩ := supports.sources j member
        rw [weaker.root] at lower strict
        exact orderly.grants_lower grown fresh demanded drawn order enough looks
          (supports.lower looks) (mem_under_iff.mpr ⟨among, lower, strict⟩)
    | combined looks combines allowed =>
        exact supports.grants_combined grown orderly fresh demanded drawn order enough looks
          combines
  · exact supports.grants_combined grown orderly fresh demanded drawn order enough looks combines

end Supports

end Pool

end Typestate
