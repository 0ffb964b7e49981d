import Typestate.Proofs.Holding.JoinedStates
import Typestate.Proofs.Holding.Returning
import Typestate.Proofs.Holding.UpperBound
import Typestate.Proofs.Permission.Lockstep

set_option autoImplicit false

/-!
What is held after a join is backed by what each of the sides holds, and stays so while one
specification after the other is taken away from both.
-/

namespace Typestate

open Permission

variable {V W : Type} {S : Space}

section Shifting

theorem Constraints.asks_rename (ρ : Renaming) (cs : Constraints) (f : Fraction) :
    (cs.rename ρ).asks (f.rename ρ) = cs.asks f := by
  have listed : (cs.rename ρ).contains (.nonZero (.single (f.rename ρ))) =
      cs.contains (.nonZero (.single f)) :=
    contains_map_of_injective (Constraint.rename_injective ρ) cs.items (.nonZero (.single f))
  rw [asks, asks, listed, Fraction.isPositive_rename]

theorem Shares.fractionAt_rename (ρ : Renaming) (s : Shares) (spot : Option String) :
    (s.rename ρ).fractionAt spot = (s.fractionAt spot).rename ρ := by
  cases spot with
  | none => rfl
  | some n => exact s.get_rename ρ n

theorem Shares.fractionAt_mem_or (s : Shares) (spot : Option String) :
    s.fractionAt spot ∈ s.fractions ∨ s.fractionAt spot = .zero := by
  cases spot with
  | none => exact .inl s.below_mem_fractions
  | some n => exact s.get_mem n

theorem Request.Fresh.bounds_at {first last : Nat} {cs : Constraints} {q : Request}
    (fresh : q.Fresh S first last cs) (spot : Option String) {id : Nat}
    (same : q.permission.shares.fractionAt spot = .unknown id) : first ≤ id ∧ id < last := by
  rcases q.permission.shares.fractionAt_mem_or spot with member | zero
  · exact fresh.drawn id (same ▸ member)
  · rw [same] at zero
    cases zero

theorem Spec.request_shifted (spec : Spec) (n : Nat) :
    spec.request S n = (spec.request S 0).rename (.shift 0 n) ∧
      ((RequestSet.ofSpec S spec false).run ⟨n⟩).1.constraints =
        ((RequestSet.ofSpec S spec false).run ⟨0⟩).1.constraints.rename (.shift 0 n) := by
  have moved : Ledger.Moved 0 n ⟨.empty, ⟨0⟩⟩ ⟨.empty, ⟨n⟩⟩ :=
    ⟨rfl, Nat.le_refl 0, (Nat.zero_add n).symm⟩
  obtain ⟨request, after⟩ := Request.create_moved S spec false _ _ moved
  exact ⟨request, after.constraints⟩

theorem Spec.fractionAt_shifted (spec : Spec) (n : Nat) (spot : Option String) :
    (spec.request S n).permission.shares.fractionAt spot =
      ((spec.request S 0).permission.shares.fractionAt spot).rename (.shift 0 n) := by
  rw [(spec.request_shifted n).1]
  exact Shares.fractionAt_rename _ _ spot

theorem Spec.asks_shifted (spec : Spec) (n id : Nat) :
    ((RequestSet.ofSpec S spec false).run ⟨n⟩).1.constraints.asks (.unknown (id + n)) =
      ((RequestSet.ofSpec S spec false).run ⟨0⟩).1.constraints.asks (.unknown id) := by
  rw [(spec.request_shifted n).2]
  exact Constraints.asks_rename (.shift 0 n) _ (.unknown id)

theorem Shares.tabulate_unnamed (S : Space) (root : String) {above : String → LedgerM Fraction}
    {below : LedgerM Fraction} (each : ∀ n, Yields (above n) fun f => ∀ id, f ≠ .named id)
    (last : Yields below fun f => ∀ id, f ≠ .named id) :
    Yields (tabulate S root above below) fun s => ∀ f ∈ s.fractions, ∀ id, f ≠ .named id := by
  have nodes : Yields ((S.ancestors root).mapM fun n => do return (n, ← above n))
      fun values => List.Forall₂ (fun _ entry => ∀ id, entry.2 ≠ .named id) (S.ancestors root)
        values :=
    .mapM _ fun n _ => (each n).bind fun f known => .pure known
  refine nodes.bind fun values paired => last.bind fun f lowest => .pure fun g member => ?_
  rcases List.mem_append.mp member with higher | final
  · obtain ⟨entry, inside, rfl⟩ := List.mem_map.mp higher
    obtain ⟨_, _, known⟩ := exists_left_of_forall₂ paired inside
    exact known
  · rw [List.mem_singleton.mp final]
    exact lowest

theorem Spec.request_unnamed (spec : Spec) (n : Nat) :
    ∀ f ∈ (spec.request S n).permission.shares.fractions, ∀ id, f ≠ .named id := by
  have drawn : Yields (Ledger.freshOf false) fun f => ∀ id, f ≠ .named id := by
    intro l id same
    rw [freshOf_run] at same
    cases same
  have made : Yields (Request.shares S spec.root false spec.kind) fun s =>
      ∀ f ∈ s.fractions, ∀ id, f ≠ .named id := by
    cases spec.kind with
    | unique =>
      refine .pure fun f member id same => ?_
      rw [Shares.eq_of_mem_constant member] at same
      cases same
    | full | pure => exact Shares.tabulate_unnamed S spec.root (fun _ => drawn) (.pure nofun)
    | share | immutable => exact Shares.tabulate_unnamed S spec.root (fun _ => drawn) drawn
  rw [spec.request_eq]
  exact made _

/-- The second request takes the spare value where the first one has to get something, all where it
asks for all, and nothing elsewhere. -/
theorem Spec.request_allots (grown : S.Grown) (spec : Spec) (start first : Nat)
    {value : Term → V} {other : Term → W} {cs : Constraints}
    (met : ((RequestSet.ofSpec S spec false).run ⟨start⟩).1.constraints.MetBy value)
    (own : cs.MetBy other) :
    let asked := (RequestSet.ofSpec S spec false).run ⟨first⟩
    (spec.request S start).Allots value (spec.request S first) asked.2.next
      (frugal asked.1.constraints first asked.2.next other) := by
  intro asked
  have listed : spec.request S first ∈ asked.1.list spec.frame := by
    rw [spec.list_ofSpec, if_pos rfl]
    exact List.mem_cons_self
  have fresh := (ofSpec_fresh grown spec false first).requests _
    (RequestSet.mem_all_of_mem_list listed)
  refine ⟨?_, ?_, ⟨?_, nofun, nofun⟩, spec.request_isDrawn grown first, fun spot => ?_⟩
  · rw [spec.request_kind, spec.request_kind]
  · rw [spec.request_root, spec.request_root]
  · exact fun same => own.zero_ne_one (Option.some.inj same)
  -- Both requests are that for the number zero, with the unknown fractions shifted.
  · let origin := (spec.request S 0).permission.shares
    have left := spec.fractionAt_shifted (S := S) start spot
    have right := spec.fractionAt_shifted (S := S) first spot
    cases shape : origin.fractionAt spot with
    | zero =>
      rw [shape] at left right
      rw [left, right]
      exact .nothing rfl
    | one =>
      rw [shape] at left right
      rw [left, right]
      exact .all rfl rfl
    | named id =>
      rcases origin.fractionAt_mem_or spot with member | zero
      · exact absurd shape (spec.request_unnamed 0 _ member id)
      · rw [shape] at zero
        cases zero
    | unknown id =>
      have bounds : first ≤ id + first ∧ id + first < asked.2.next :=
        fresh.bounds_at spot (by rw [right, shape]; rfl)
      rw [shape] at left right
      have same : asked.1.constraints.asks (.unknown (id + first)) =
          ((RequestSet.ofSpec S spec false).run ⟨start⟩).1.constraints.asks
            (.unknown (id + start)) :=
        (spec.asks_shifted first id).trans (spec.asks_shifted start id).symm
      rw [left, right]
      change Takes value _ (.unknown (id + start)) (.unknown (id + first))
      by_cases asks : asked.1.constraints.asks (.unknown (id + first)) = true
      · refine .part (met.ne_zero (same ▸ asks)) ?_
        rw [frugal_of_inside bounds, if_pos asks]
      · refine .nothing ?_
        rw [frugal_of_inside bounds, if_neg asks]
        rfl

end Shifting

namespace Held

/-- Whatever the constraints of the first allow, those of the second allow something under which its
permissions back those of the first. -/
def Backs (S : Space) (n : Nat) (joined side : Held) : Prop :=
  ∀ (V : Type) (value : Term → V), joined.constraints.MetBy value →
    ∃ (W : Type) (other : Term → W), side.constraints.MetBy other ∧
      side.constraints.IsDrawn n ∧ ∀ inFrame,
        Pool.IsBacked S (Dominated value other) n (joined.pool inFrame) (side.pool inFrame)

/-- One of the lists and the constraints are replaced. -/
def having (h : Held) (inFrame : Bool) (pool : Pool) (constraints : Constraints) : Held :=
  { h.withPool inFrame pool with constraints }

theorem pool_having (h : Held) (inFrame : Bool) (pool : Pool) (constraints : Constraints)
    (which : Bool) :
    (h.having inFrame pool constraints).pool which =
      if which = inFrame then pool else h.pool which := by
  cases which <;> cases inFrame <;> rfl

theorem forall_pool_having (property : Bool → Pool → Prop) {h : Held} {inFrame : Bool}
    {pool : Pool} {constraints : Constraints} (new : property inFrame pool)
    (old : ∀ which, property which (h.pool which)) (which : Bool) :
    property which ((h.having inFrame pool constraints).pool which) := by
  rw [pool_having]
  split
  · next same => exact same ▸ new
  · exact old which

end Held

theorem Spec.split_run (spec : Spec) (h : Held) (start : Nat) (supply : Supply) :
    let cs := h.constraints ++ ((RequestSet.ofSpec S spec false).run ⟨start⟩).1.constraints
    let out := ((h.pool spec.frame).splitOne cs.solution (spec.request S start)).run ⟨cs, supply⟩
    ((Holding.held h).split ((RequestSet.ofSpec S spec false).run ⟨start⟩).1).run supply =
      (.held (h.having spec.frame out.1 out.2.constraints), out.2.supply) := by
  intro cs out
  have virtuals : ((RequestSet.ofSpec S spec false).run ⟨start⟩).1.virtuals = _ :=
    spec.list_ofSpec start false
  have frames : ((RequestSet.ofSpec S spec false).run ⟨start⟩).1.frames = _ :=
    spec.list_ofSpec start true
  -- Of the other list nothing is asked.
  have nothing (s : Solution) (pool : Pool) : pool.split s [] = pure pool := rfl
  have single (s : Solution) (pool : Pool) (q : Request) :
      pool.split s [q] = pool.splitOne s q := by
    rw [Pool.split, List.foldlM_cons]
    exact bind_pure _
  rw [Holding.split_run, Held.splitWork, virtuals, frames]
  change (fun done : (Pool × Pool) × Ledger => (Holding.held
    { h with virtuals := done.1.1, frames := done.1.2, constraints := done.2.constraints },
    done.2.supply)) _ = _
  cases framed : spec.frame with
  | false =>
    simp only [out, framed, if_true, Bool.false_eq_true, if_false, single, nothing, pure_bind]
    rfl
  | true =>
    simp only [out, framed, if_true, Bool.true_eq_false, if_false, single, nothing, pure_bind]
    rfl

section Stepping

variable (grown : S.Grown) {joined side : Held}
  (joinedOrderly : ∀ inFrame, Pool.Orderly S inFrame (joined.pool inFrame))
  (orderly : ∀ inFrame, Pool.Orderly S inFrame (side.pool inFrame))
  (neat : ∀ inFrame, ∀ p ∈ side.pool inFrame, p.Neat S) {n : Nat}

theorem Pool.IsBacked.frugal {value : Term → V} {other : Term → W} {pool backing : Pool}
    (backed : Pool.IsBacked S (Dominated value other) n pool backing) {first : Nat}
    (past : n ≤ first) (cs : Constraints) (last : Nat) (order : first ≤ last) :
    Pool.Backs S value pool backing last (Typestate.frugal cs first last other) := by
  intro j member
  obtain ⟨p, among, known⟩ := backed j member
  have agree := agree_frugal cs first last other
  have old (f : Fraction) (drawn : f.IsDrawn n) {g : Fraction}
      (dominated : Dominated value other g f) :
      Dominated value (Typestate.frugal cs first last other) g f :=
    (dominated.map fun _ _ => Option.some.inj).agree agree (drawn.mono past)
  refine ⟨p, among, ⟨⟨known.root, known.writable, fun m node => ?_, ?_⟩, known.states,
    fun f inside => ?_⟩, fun f inside => ?_⟩
  · exact old _ (known.drawn.get m) (known.above m node)
  · exact old _ (known.drawn.fractionAt none) known.below
  · exact (known.drawn f inside).mono (past.trans order)
  · rw [frugal_of_outside ((known.drawn f inside).mono past).outside]
    exact nofun

include grown joinedOrderly orderly neat

theorem Held.Backs.split (backs : joined.Backs S n side) (spec : Spec) (start : Nat)
    {first : Nat} (past : n ≤ first) :
    let asked := (RequestSet.ofSpec S spec false).run ⟨start⟩
    let own := (RequestSet.ofSpec S spec false).run ⟨first⟩
    let joinedDemands := joined.constraints ++ asked.1.constraints
    let demands := side.constraints ++ own.1.constraints
    let joinedOut := ((joined.pool spec.frame).splitOne joinedDemands.solution
      (spec.request S start)).run ⟨joinedDemands, asked.2⟩
    let out := ((side.pool spec.frame).splitOne demands.solution
      (spec.request S first)).run ⟨demands, own.2⟩
    ¬Pool.Hinders S demands.solution (joined.pool spec.frame) (side.pool spec.frame) spec.kind
      spec.root →
    (joined.having spec.frame joinedOut.1 joinedOut.2.constraints).Backs S out.2.supply.next
      (side.having spec.frame out.1 out.2.constraints) := by
  intro asked own joinedDemands demands joinedOut out free V value met
  have fresh : own.1.Fresh S first own.2.next := ofSpec_fresh grown spec false first
  have distinct := met.zero_ne_one
  -- Before the split the side has an assignment that answers `value`.
  obtain ⟨before, -⟩ := (joinedOrderly spec.frame).splitOne_reveals grown distinct _ _ _ met
  obtain ⟨metJoined, metAsked⟩ := Constraints.metBy_append.mp before
  obtain ⟨W, other, metSide, drawn, backed⟩ := backs V value metJoined
  -- Its own request is made to get as little as it can.
  let spending := frugal own.1.constraints first own.2.next other
  have later (inFrame : Bool) := (backed inFrame).frugal past own.1.constraints own.2.next fresh.order
  have metOwn : demands.MetBy spending :=
    Constraints.metBy_append.mpr ⟨metSide.toFrugal (drawn.mono past), fresh.metBy_frugal metSide⟩
  have known : demands.IsDrawn own.2.next :=
    (drawn.mono (past.trans fresh.order)).append fresh.isDrawn
  have allots := spec.request_allots grown start first metAsked metSide
  obtain ⟨-, admits⟩ := (joinedOrderly spec.frame).splitOne_backs (W := W) grown
    (orderly spec.frame) (neat spec.frame) distinct joinedDemands.solution demands.solution
    (spec.request S start) (spec.request S first) ⟨joinedDemands, asked.2⟩ met
  rw [spec.request_kind, spec.request_root] at admits
  obtain ⟨final, agree, more, ⟨metFinal, drawnFinal⟩, left⟩ := admits free ⟨demands, own.2⟩ spending
    ⟨metOwn, known⟩ ⟨metOwn.silent known, later spec.frame, allots⟩
  refine ⟨Option W, final, metFinal, drawnFinal, fun inFrame => ?_⟩
  rw [pool_having, pool_having]
  split
  · exact left
  -- The other list is not touched.
  · exact (Pool.Backs.lasting value _ _ more agree (later inFrame)).isBacked

end Stepping

section Joining

namespace Held

/-- Held for one space, in order, with clean states, and with fractions that were drawn before the
given number. -/
structure Stocked (S : Space) (n : Nat) (h : Held) : Prop extends h.Orderly S where
  neat : ∀ inFrame, ∀ p ∈ h.pool inFrame, p.Neat S
  drawn : h.IsDrawn n

theorem forall_pool (h : Held) {property : Bool → Pool → Prop} (virtuals : property false h.virtuals)
    (frames : property true h.frames) (inFrame : Bool) : property inFrame (h.pool inFrame) := by
  cases inFrame with
  | false => exact virtuals
  | true => exact frames

variable {x y : Held} {n m : Nat}

theorem Stocked.backs_self (stocked : x.Stocked S n) : x.Backs S n x := by
  intro V value met
  refine ⟨V, value, met, stocked.drawn.constraints, fun inFrame p member => ⟨p, member, ?_⟩⟩
  exact ⟨⟨rfl, id, fun m _ => Fits.refl value _, Fits.refl value _⟩, fun _ => id,
    stocked.drawn.pool member⟩

theorem Backs.of_isUnsatisfiable (never : x.isUnsatisfiable = true) (side : Held) :
    x.Backs S n side := by
  intro V value met
  have possible : x.isUnsatisfiable = false :=
    Constraints.isUnsatisfiable_eq_false_iff.mpr ⟨V, value, met⟩
  rw [never] at possible
  cases possible

theorem Stocked.backs_of_beq (left : x.Stocked S n) (right : y.Stocked S m)
    (same : (Holding.held x == .held y) = true) : x.Backs S m y := by
  obtain ⟨pools, -, constraints⟩ := Held.parts_of_beq same
  obtain ⟨possible, inside⟩ := Constraints.mem_iff_of_same left.distinct constraints
  intro V value met
  refine ⟨V, value, met.congr possible inside, right.drawn.constraints, fun inFrame => ?_⟩
  have equal := Pool.eq_of_beq (left.toOrderly.pool inFrame).space
    (right.toOrderly.pool inFrame).space (pools inFrame)
  rw [equal]
  exact fun p member => ⟨p, member, ⟨rfl, id, fun m _ => Fits.refl value _, Fits.refl value _⟩,
    fun _ => id, right.drawn.pool member⟩

section Meeting

variable (grown : S.Grown) (left : x.Stocked S n) (right : y.Stocked S m)

include grown left right

theorem joinParts_yields (s : Solution) (symmetric : Bool) :
    Yields (x.joinParts y s symmetric) fun h => ∀ inFrame,
      Pool.Orderly S inFrame (h.pool inFrame) ∧
        Pool.HasSources (x.pool inFrame) (y.pool inFrame) (h.pool inFrame) := by
  let joined (inFrame : Bool) (pool : Pool) : Prop :=
    Pool.Orderly S inFrame pool ∧ Pool.HasSources (x.pool inFrame) (y.pool inFrame) pool
  have joins (inFrame : Bool) :
      Yields ((x.pool inFrame).join (y.pool inFrame) s symmetric) (joined inFrame) := fun l =>
    ⟨(left.toOrderly.pool inFrame).join _ s symmetric l,
      Pool.join_sources grown s symmetric (left.toOrderly.pool inFrame).space
        (right.toOrderly.pool inFrame).space l⟩
  refine (joins false).bind fun virtuals first => (joins true).bind fun frames second => ?_
  have both (unpacked : Option Permission) :
      ∀ inFrame, joined inFrame ((Held.mk virtuals frames unpacked .empty).pool inFrame) :=
    forall_pool _ first second
  split
  · exact .after fun unpacked => .pure (both unpacked)
  · exact .pure (both none)

omit right in
theorem joinParts_reveals {value : Term → V}
    (distinct : value (.single .zero) ≠ value (.single .one)) (s : Solution) :
    Reveals value (x.joinParts y s true) fun h => ∀ inFrame,
      Pool.IsJoin S (fun f g => s.Sound (Reading.filled value) → Fits value f g) (x.pool inFrame)
        (y.pool inFrame) (h.pool inFrame) := by
  let joined (inFrame : Bool) : Pool → Prop :=
    Pool.IsJoin S (fun f g => s.Sound (Reading.filled value) → Fits value f g) (x.pool inFrame)
      (y.pool inFrame)
  have joins (inFrame : Bool) :
      Reveals value ((x.pool inFrame).join (y.pool inFrame) s true) (joined inFrame) :=
    (left.toOrderly.pool inFrame).join_reveals grown (y.pool inFrame) distinct s
  refine (joins false).bind fun virtuals => (joins true).bind fun frames => ?_
  have both (unpacked : Option Permission) (second : joined true frames)
      (first : joined false virtuals) :
      ∀ inFrame, joined inFrame ((Held.mk virtuals frames unpacked .empty).pool inFrame) :=
    forall_pool _ first second
  split
  · next u v _ _ =>
    -- Joining the unpacked permissions adds constraints of its own but ends none.
    have opened : Reveals value (some <$> u.join v s true) fun _ => True := by
      rw [map_eq_pure_bind]
      have shares := u.shares.combine_reveals v.shares (joinFraction_reveals (s := s) distinct)
      exact (shares.bind fun _ => .pure fun _ => trivial).bind fun _ => .pure id
    exact opened.bind fun unpacked => .pure fun _ => both unpacked
  · exact .pure (both none)

omit left right in
theorem isBacked_of_sources {frame : Bool} {value : Term → V} {pool : Pool}
    (orderly : pool.Orderly S frame) (drawn : ∀ p ∈ pool, p.shares.IsDrawn n) {j p q : Permission}
    (member : p ∈ pool) (weaker : j.IsWeaker S (Fits value) p) (among : q ∈ pool)
    (root : j.root = q.root)
    (states : ∀ state, j.impliesState state = true → q.impliesState state = true) :
    ∃ p ∈ pool, j.IsBacked S (Dominated value value) n p := by
  have same := orderly.eq_of_root grown member among (root.symm.trans weaker.root)
  exact ⟨p, member, weaker, same ▸ states, drawn p member⟩

theorem joinOn_backs :
    let cs := x.constraints ++ y.constraints
    Yields (x.joinOn y cs.solution cs true) fun h =>
      (∀ inFrame, Pool.Orderly S inFrame (h.pool inFrame)) ∧ h.Backs S n x ∧ h.Backs S m y := by
  rintro cs ⟨start⟩
  rw [joinOn_eq]
  let l : Ledger := ⟨cs, ⟨start⟩⟩
  let out := (x.joinParts y cs.solution true).run l
  have shape (inFrame : Bool) :
      ({ out.1 with constraints := out.2.constraints } : Held).pool inFrame = out.1.pool inFrame := by
    cases inFrame <;> rfl
  have yields := joinParts_yields grown left right cs.solution true l
  have sources {V : Type} {value : Term → V} (met : out.2.constraints.MetBy value) :
      cs.MetBy value ∧ ∀ inFrame, ∀ j ∈ out.1.pool inFrame,
        (∃ p ∈ x.pool inFrame, j.IsBacked S (Dominated value value) n p) ∧
          ∃ q ∈ y.pool inFrame, j.IsBacked S (Dominated value value) m q := by
    obtain ⟨before, joins⟩ := joinParts_reveals (y := y) grown left met.zero_ne_one cs.solution l met
    refine ⟨before, fun inFrame j member => ?_⟩
    -- Shares and states are known of two pairs of sources, which have the same roots.
    obtain ⟨p, first, q, second, join⟩ :=
      (joins inFrame).imp (fun f g fits => fits before.sound) j member
    obtain ⟨p', first', q', second', ⟨rootP, rootQ⟩, states⟩ := (yields inFrame).2 j member
    exact ⟨isBacked_of_sources grown (left.toOrderly.pool inFrame)
        (fun p member => left.drawn.pool member) first join.left first' rootP
        fun state implied => (states state implied).1,
      isBacked_of_sources grown (right.toOrderly.pool inFrame)
        (fun p member => right.drawn.pool member) second join.right second' rootQ
        fun state implied => (states state implied).2⟩
  refine ⟨fun inFrame => shape inFrame ▸ (yields inFrame).1, fun V value met => ?_,
    fun V value met => ?_⟩
  · obtain ⟨before, backed⟩ := sources met
    refine ⟨V, value, (Constraints.metBy_append.mp before).1, left.drawn.constraints,
      fun inFrame j member => ?_⟩
    exact (backed inFrame j (shape inFrame ▸ member)).1
  · obtain ⟨before, backed⟩ := sources met
    refine ⟨V, value, (Constraints.metBy_append.mp before).2, right.drawn.constraints,
      fun inFrame j member => ?_⟩
    exact (backed inFrame j (shape inFrame ▸ member)).2

end Meeting

end Held

namespace Holding

/-- Nothing was reached, or what is held is in order. -/
def Stocked (S : Space) (n : Nat) : Holding → Prop
  | .bottom => True
  | .held h => h.Stocked S n

/-- What is held on one way backs what is held after a join, if the way was reached at all. -/
inductive Tracks (S : Space) (n : Nat) : Holding → Holding → Prop
  | bottom (joined : Holding) : Tracks S n joined .bottom
  | held {joined side : Held}
      (joinedOrderly : ∀ inFrame, Pool.Orderly S inFrame (joined.pool inFrame))
      (orderly : ∀ inFrame, Pool.Orderly S inFrame (side.pool inFrame))
      (neat : ∀ inFrame, ∀ p ∈ side.pool inFrame, p.Neat S) (backs : joined.Backs S n side) :
      Tracks S n (.held joined) (.held side)

variable {x y : Holding} {n m : Nat}

theorem Stocked.tracks_self (stocked : x.Stocked S n) : Tracks S n x x := by
  cases x with
  | bottom => exact .bottom _
  | held h =>
    have orderly := (show h.Stocked S n from stocked).toOrderly.pool
    exact .held orderly orderly stocked.neat stocked.backs_self

/-- Both sides of a join back what comes out of it. -/
theorem join_tracks (grown : S.Grown) (left : x.Stocked S n) (right : y.Stocked S m)
    {work : SupplyM Holding} (done : x.join y .branch = .ok work) :
    Yields work fun joined => Tracks S n joined x ∧ Tracks S m joined y := by
  cases x with
  | bottom =>
    cases done
    exact .pure ⟨.bottom _, right.tracks_self⟩
  | held a =>
    cases y with
    | bottom =>
      cases done
      exact .pure ⟨left.tracks_self, .bottom _⟩
    | held b =>
      have first : a.Stocked S n := left
      have second : b.Stocked S m := right
      have ofLeft {joined : Held}
          (joinedOrderly : ∀ inFrame, Pool.Orderly S inFrame (joined.pool inFrame))
          (backs : joined.Backs S n a) : Tracks S n (.held joined) (.held a) :=
        .held joinedOrderly first.toOrderly.pool first.neat backs
      have ofRight {joined : Held}
          (joinedOrderly : ∀ inFrame, Pool.Orderly S inFrame (joined.pool inFrame))
          (backs : joined.Backs S m b) : Tracks S m (.held joined) (.held b) :=
        .held joinedOrderly second.toOrderly.pool second.neat backs
      rcases join_held_cases done with ⟨chosen, rfl⟩ | ⟨never, rfl⟩ | ⟨-, rfl⟩
      · refine .pure ⟨left.tracks_self, ofRight first.toOrderly.pool ?_⟩
        rcases chosen with same | never
        · exact first.backs_of_beq second same
        · exact Held.Backs.of_isUnsatisfiable never b
      · exact .pure ⟨ofLeft second.toOrderly.pool (Held.Backs.of_isUnsatisfiable never a),
          right.tracks_self⟩
      · intro supply
        obtain ⟨orderly, backsA, backsB⟩ := Held.joinOn_backs grown first second supply
        exact ⟨ofLeft orderly backsA, ofRight orderly backsB⟩

theorem Tracks.mono (tracks : Tracks S n x y) (more : n ≤ m) : Tracks S m x y := by
  cases tracks with
  | bottom => exact .bottom x
  | held joinedOrderly orderly neat backs =>
    refine .held joinedOrderly orderly neat fun V value met => ?_
    obtain ⟨W, other, metSide, drawn, backed⟩ := backs V value met
    refine ⟨W, other, metSide, drawn.mono more, fun inFrame j member => ?_⟩
    obtain ⟨p, among, known⟩ := backed inFrame j member
    exact ⟨p, among, known.toIsWeaker, known.states, fun f inside => (known.drawn f inside).mono more⟩

theorem isInStates_of_backs {joined side : Held} (backs : joined.Backs S n side)
    {value : Term → V} (met : joined.constraints.MetBy value) {states : List String}
    {inFrame : Bool} (known : (held joined).isInStates states inFrame = true) :
    (held side).isInStates states inFrame = true := by
  obtain ⟨W, other, -, -, backed⟩ := backs V value met
  refine List.all_eq_true.mpr fun s member => ?_
  have here := List.all_eq_true.mp known s member
  simp only [isInState, isBottom, Bool.false_or, Bool.or_eq_true, decide_eq_true_eq, pool_held,
    List.any_eq_true] at here ⊢
  refine here.imp_right ?_
  rintro ⟨j, inside, implied⟩
  obtain ⟨p, among, backing⟩ := backed inFrame j inside
  exact ⟨p, among, backing.states s implied⟩

/-- What can be taken away after a join can be taken away on a side that is not hindered, and the
rest is backed again. -/
theorem Tracks.split (grown : S.Grown) (tracks : Tracks S n x y) (spec : Spec) (start : Nat)
    {first : Nat} (past : n ≤ first) :
    let asked := (RequestSet.ofSpec S spec false).run ⟨start⟩
    let own := (RequestSet.ofSpec S spec false).run ⟨first⟩
    let left := ((x.split asked.1).run asked.2).1
    let rest := (y.split own.1).run own.2
    x.isInStates spec.states spec.frame = true → left.isUnsatisfiable = false →
      (y.isInStates spec.states spec.frame = true ∧ rest.1.isUnsatisfiable = false ∧
        Tracks S rest.2.next left rest.1) ∨
      ∃ joined side, x = .held joined ∧ y = .held side ∧
        Pool.Hinders S (side.constraints ++ own.1.constraints).solution (joined.pool spec.frame)
          (side.pool spec.frame) spec.kind spec.root := by
  intro asked own left rest known possible
  cases tracks with
  | bottom =>
    refine .inl ⟨?_, rfl, .bottom _⟩
    simp [isInStates, isInState, isBottom]
  | @held joined side joinedOrderly orderly neat backs =>
    by_cases hindered : Pool.Hinders S (side.constraints ++ own.1.constraints).solution
        (joined.pool spec.frame) (side.pool spec.frame) spec.kind spec.root
    · exact .inr ⟨joined, side, rfl, rfl, hindered⟩
    · refine .inl ?_
      have again := backs.split grown joinedOrderly orderly neat spec start past hindered
      have shapeJoined := spec.split_run (S := S) joined start asked.2
      have shape := spec.split_run (S := S) side first own.2
      change left.isUnsatisfiable = false at possible
      have sameLeft : left = _ := congrArg Prod.fst shapeJoined
      have same : rest = _ := shape
      rw [sameLeft] at possible ⊢
      rw [same]
      -- An assignment for what is left after the join yields one for what is left of the side.
      obtain ⟨V, value, met⟩ := Constraints.isUnsatisfiable_eq_false_iff.mp possible
      obtain ⟨before, -⟩ :=
        (joinedOrderly spec.frame).splitOne_reveals grown met.zero_ne_one _ _ _ met
      obtain ⟨W, other, metSide, -⟩ := again V value met
      refine ⟨isInStates_of_backs backs (Constraints.metBy_append.mp before).1 known, ?_, ?_⟩
      · exact Constraints.isUnsatisfiable_eq_false_iff.mpr ⟨W, other, metSide⟩
      · refine .held (Held.forall_pool_having (Pool.Orderly S) ?_ joinedOrderly)
          (Held.forall_pool_having (Pool.Orderly S) ?_ orderly)
          (Held.forall_pool_having (fun _ pool => ∀ p ∈ pool, p.Neat S) ?_ neat) again
        · exact ((joinedOrderly spec.frame).splitOne grown _ _ _).1
        · exact ((orderly spec.frame).splitOne grown _ _ _).1
        · exact (orderly spec.frame).splitOne_neat grown (neat spec.frame) _ _ _

end Holding

end Joining

end Typestate
