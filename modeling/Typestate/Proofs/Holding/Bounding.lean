import Typestate.Proofs.Holding.JoinSoundness
import Typestate.Proofs.Permission.Bounding

set_option autoImplicit false

/-!
A join grants no more than what it is joined from. At a branch this goes for both sides, in every
valuation that meets the constraints of the result. At a loop only one side counts: its constraints
are kept, and nothing is added to them but bounds of fresh fractions by those of that side.
-/

namespace Typestate

namespace Held

/-- What joining does on top of the constraints it starts from. -/
def joinParts (base other : Held) (s : Solution) (symmetric : Bool) : LedgerM Held := do
  let virtuals ← base.virtuals.join other.virtuals s symmetric
  let frames ← base.frames.join other.frames s symmetric
  let unpacked ← match base.unpacked, other.unpacked with
    | some u, some v => some <$> u.join v s symmetric
    | _, _ => pure none
  return Held.mk virtuals frames unpacked .empty

theorem joinOn_eq (base other : Held) (s : Solution) (cs : Constraints) (symmetric : Bool)
    (start : Nat) :
    (base.joinOn other s cs symmetric).run ⟨start⟩ =
      let out := (base.joinParts other s symmetric).run ⟨cs, ⟨start⟩⟩
      ({ out.1 with constraints := out.2.constraints }, out.2.supply) := rfl

/-- Both lists and the unpacked permission were joined from those of two sides. -/
structure JoinedBy (joins : Permission → Permission → Permission → Prop) (base other h : Held) :
    Prop where
  pools : ∀ inFrame, Pool.JoinedBy joins (base.pool inFrame) (other.pool inFrame) (h.pool inFrame)
  unpacked : ∀ j, h.unpacked = some j →
    ∃ u v, base.unpacked = some u ∧ other.unpacked = some v ∧ joins u v j

section Joining

variable {s : Solution} {symmetric : Bool} {base other : Held}

theorem joinParts_carries {σ : Type} {cargo : Cargo σ} {before : Nat → σ → Prop}
    {joins : Permission → Permission → Permission → Nat → σ → Prop} (lasting : cargo.Keeps before)
    (kept : ∀ p q j, cargo.Keeps (joins p q j))
    (each : ∀ p ∈ (Holding.held base).permissions, ∀ q ∈ (Holding.held other).permissions,
      Carries cargo before (p.join q s symmetric) (joins p q)) :
    Carries cargo before (base.joinParts other s symmetric) fun h n c =>
      base.JoinedBy (fun p q j => joins p q j n c) other h := by
  let pools (a b pool : Pool) (n : Nat) (c : σ) : Prop :=
    Pool.JoinedBy (fun p q j => joins p q j n c) a b pool
  have stays (a b pool : Pool) : cargo.Keeps (pools a b pool) := fun more agree joined =>
    joined.imp fun p q j => kept p q j more agree
  have listed {a b : Pool} (left : ∀ p ∈ a, p ∈ (Holding.held base).permissions)
      (right : ∀ q ∈ b, q ∈ (Holding.held other).permissions) :
      Carries cargo before (a.join b s symmetric) (pools a b) :=
    Pool.join_carries lasting kept fun p first q second _ => each p (left p first) q (right q second)
  -- The lists come one after the other, so what is known of the first has to last to the end.
  refine ((listed (fun p member => by simp [Holding.permissions, member]) fun q member => by
    simp [Holding.permissions, member]).keeping lasting fun _ _ => id).bind fun virtuals => ?_
  have afterVirtuals : cargo.Keeps fun n c =>
      pools base.virtuals other.virtuals virtuals n c ∧ before n c :=
    fun more agree both => ⟨stays _ _ _ more agree both.1, lasting more agree both.2⟩
  refine ((listed (fun p member => by simp [Holding.permissions, member]) fun q member => by
    simp [Holding.permissions, member]).keeping afterVirtuals fun _ _ => And.right).bind
      fun frames => ?_
  have afterFrames : cargo.Keeps fun n c => pools base.frames other.frames frames n c ∧
      pools base.virtuals other.virtuals virtuals n c ∧ before n c :=
    fun more agree all => ⟨stays _ _ _ more agree all.1, afterVirtuals more agree all.2⟩
  have done {unpacked : Option Permission} {n : Nat} {c : σ}
      (first : pools base.virtuals other.virtuals virtuals n c)
      (second : pools base.frames other.frames frames n c)
      (third : ∀ j, unpacked = some j → ∃ u v, base.unpacked = some u ∧ other.unpacked = some v ∧
        joins u v j n c) :
      base.JoinedBy (fun p q j => joins p q j n c) other ⟨virtuals, frames, unpacked, .empty⟩ := by
    refine ⟨fun inFrame => ?_, third⟩
    cases inFrame with
    | false => exact first
    | true => exact second
  have nothing {property : Permission → Prop} : ∀ j, none = some j → property j := by
    rintro j ⟨⟩
  cases left : base.unpacked with
  | none => exact .pure fun n c all => done all.2.1 all.1 nothing
  | some u =>
      cases right : other.unpacked with
      | none => exact .pure fun n c all => done all.2.1 all.1 nothing
      | some v =>
          have unpacked := each u (by simp [Holding.permissions, left]) v
            (by simp [Holding.permissions, right])
          dsimp only
          rw [map_eq_pure_bind, bind_assoc]
          refine (unpacked.keeping afterFrames fun _ _ all => all.2.2).bind fun j => ?_
          rw [pure_bind]
          refine .pure fun n c all => done all.2.2.1 all.2.1 ?_
          rintro j' ⟨⟩
          exact ⟨u, v, left, right, all.1⟩

/-- Nothing is written down but bounds, and the solution decides what is joined to what. -/
theorem joinOn_bounded (base other : Held) (s : Solution) (cs : Constraints) (symmetric : Bool)
    (start : Nat) (caps : Fraction → Prop)
    (wide : symmetric = true → ∀ f : Fraction, s.isZero f = false → caps f)
    (own : ∀ p ∈ (Holding.held base).permissions, ∀ f ∈ p.shares.fractions,
      s.isZero f = false → caps f) :
    let out := (base.joinOn other s cs symmetric).run ⟨start⟩
    Ledger.Bounded caps start ⟨cs, ⟨start⟩⟩ ⟨out.1.constraints, out.2⟩ ∧
      base.JoinedBy
        (Permission.JoinedBy (Fraction.Joined s symmetric out.1.constraints start out.2.next))
        other out.1 := by
  rw [joinOn_eq]
  have lasting : (Cargo.bounds caps start).Keeps fun n _ => start ≤ n :=
    fun more _ past => past.trans more
  obtain ⟨_, bounded, -, rfl, joined⟩ := joinParts_carries lasting Permission.keeps_joinedBy
    (fun p member q _ => Permission.join_carries wide (own p member)) ⟨cs, ⟨start⟩⟩ _ rfl
    (Nat.le_refl start)
  exact ⟨bounded, joined.pools, joined.unpacked⟩

end Joining

end Held

section Counterparts

theorem Permission.Same.grantsAtMost {v : Valuation} {p q : Permission} (same : p.Same q)
    (laid : p.shares.Laid) : p.GrantsAtMost v q := by
  refine ⟨same.root, fun spot among => ?_⟩
  rcases Shares.mem_spots.mp among with ⟨n, node, rfl⟩ | rfl
  · obtain ⟨entry, inside, rfl⟩ := List.mem_map.mp (laid ▸ node)
    -- The node has an entry, so the spaces are not looked at.
    have found : (p.shares.values.find? fun e => e.1 = entry.1).isSome = true := by
      rw [List.find?_isSome]
      exact ⟨entry, inside, by simp⟩
    obtain ⟨first, found⟩ := Option.isSome_iff_exists.mp found
    simp only [Shares.fractionAt, Shares.get, ← same.values, found]
    exact le_refl _
  · exact (congrArg v.number same.below).le

end Counterparts

namespace Holding

/-- Permissions as they are made: over built spaces, with a fraction for every node from the root
up. -/
def Regular (x : Holding) : Prop := ∀ p ∈ x.permissions, p.space.Built ∧ p.shares.Laid

/-- Every permission has one for the same root in the other, in the same place, that holds at least
as much at every spot. -/
structure GrantsAtMost (v : Valuation) (z x : Holding) : Prop where
  listed : ∀ inFrame, ∀ r ∈ z.pool inFrame, ∃ p ∈ x.pool inFrame, r.GrantsAtMost v p
  unpacked : ∀ r, z.unpacked = some r → ∃ p, x.unpacked = some p ∧ r.GrantsAtMost v p

theorem GrantsAtMost.refl (v : Valuation) (x : Holding) : x.GrantsAtMost v x :=
  ⟨fun _ r member => ⟨r, member, .refl r⟩, fun r some => ⟨r, some, .refl r⟩⟩

theorem grantsAtMost_of_beq {v : Valuation} {x y : Held} (regular : (held x).Regular)
    (same : (held x == held y) = true) : (held x).GrantsAtMost v (held y) := by
  obtain ⟨pools, unpacked, -⟩ := Held.parts_of_beq same
  constructor
  · intro inFrame r member
    rw [pool_held] at member ⊢
    obtain ⟨p, inside, alike⟩ := exists_right_of_forall₂ (Pool.same_of_beq (pools inFrame)) member
    exact ⟨p, inside, alike.grantsAtMost (regular r (mem_permissions_of_pool member)).2⟩
  · intro r some
    have laid := (regular r (mem_permissions_of_unpacked some)).2
    change x.unpacked = _ at some
    rw [some] at unpacked
    cases other : y.unpacked with
    | none =>
        rw [other] at unpacked
        cases unpacked
    | some p =>
        rw [other] at unpacked
        exact ⟨p, other, (Permission.same_of_beq unpacked).grantsAtMost laid⟩

end Holding

theorem Held.JoinedBy.grantsAtMost {v : Valuation} {s : Solution} {first last : Nat} {x y z : Held}
    (joined : x.JoinedBy (Permission.JoinedBy (Fraction.Joined s true z.constraints first last)) y z)
    (regular : (Holding.held x).Regular) (alike : x.sameUnpacked y s = true)
    (sound : s.Sound v.reading) (meets : v.Meets z.constraints) :
    (Holding.held z).GrantsAtMost v (.held x) ∧ (Holding.held z).GrantsAtMost v (.held y) := by
  have each {p q j : Permission} (member : p ∈ (Holding.held x).permissions)
      (root : q.root = p.root)
      (join : p.JoinedBy (Fraction.Joined s true z.constraints first last) q j) :
      j.GrantsAtMost v p ∧ j.GrantsAtMost v q :=
    join.grantsAtMost meets sound (regular p member).1.grown (regular p member).2 root
  have listed (inFrame : Bool) (j : Permission) (member : j ∈ z.pool inFrame) :
      ∃ p ∈ x.pool inFrame, ∃ q ∈ y.pool inFrame, j.GrantsAtMost v p ∧ j.GrantsAtMost v q := by
    obtain ⟨p, left, q, right, root, join⟩ := (joined.pools inFrame).sources j member
    exact ⟨p, left, q, right, each (Holding.mem_permissions_of_pool left) root join⟩
  have unpacked (j : Permission) (some : z.unpacked = Option.some j) :
      ∃ u w, x.unpacked = Option.some u ∧ y.unpacked = Option.some w ∧
        j.GrantsAtMost v u ∧ j.GrantsAtMost v w := by
    obtain ⟨u, w, left, right, join⟩ := joined.unpacked j some
    simp only [sameUnpacked, left, right, Bool.and_eq_true] at alike
    -- Unpacked permissions are not paired by their root. That they share it was checked.
    have root := (Permission.root_eq_of_atLeastAsPrecise alike.1).symm
    exact ⟨u, w, left, right, each (Holding.mem_permissions_of_unpacked left) root join⟩
  refine ⟨⟨fun inFrame j member => ?_, fun j some => ?_⟩,
    fun inFrame j member => ?_, fun j some => ?_⟩
  · rw [Holding.pool_held] at member ⊢
    obtain ⟨p, left, -, -, most, -⟩ := listed inFrame j member
    exact ⟨p, left, most⟩
  · obtain ⟨u, -, left, -, most, -⟩ := unpacked j some
    exact ⟨u, left, most⟩
  · rw [Holding.pool_held] at member ⊢
    obtain ⟨-, -, q, right, -, most⟩ := listed inFrame j member
    exact ⟨q, right, most⟩
  · obtain ⟨-, w, -, right, -, most⟩ := unpacked j some
    exact ⟨w, right, most⟩

namespace Holding

/-- Neither a join at a branch nor combining permissions grants more than there was. What was not
reached yet adds nothing to a join. -/
theorem branch_join_and_combineUp_grantAtMost :
    (∀ {x y : Holding} {work : SupplyM Holding}, x.Regular → x.isUnsatisfiable = false →
      y.isUnsatisfiable = false → x.join y .branch = .ok work → ∀ (start : Nat) (v : Valuation),
      let z := (work.run ⟨start⟩).1
      v.Meets z.constraints →
        (x ≠ .bottom → y ≠ .bottom → z.GrantsAtMost v x ∧ z.GrantsAtMost v y) ∧
          (x = .bottom → z = y) ∧ (y = .bottom → z = x)) ∧
    ∀ {root : String} {parts : List Permission} {l next : Ledger} {whole : Permission},
      (∀ p ∈ parts, p.space.Built) →
      (Permission.combineUp root parts).run l = (some whole, next) → ∀ v : Valuation,
      v.Meets next.constraints → ∀ p ∈ parts, ∀ spot ∈ whole.shares.spots,
        v.number (whole.shares.fractionAt spot) ≤ v.number (p.shares.fractionAt spot) := by
  constructor
  · intro x y work regular satisfiableX satisfiableY joins start v z meets
    match x, y with
    | .bottom, y =>
        cases joins
        exact ⟨fun reached => absurd rfl reached, fun _ => rfl, fun same => same⟩
    | .held a, .bottom =>
        cases joins
        exact ⟨fun _ reached => absurd rfl reached, nofun, fun _ => rfl⟩
    | .held a, .held b =>
        refine ⟨fun _ _ => ?_, nofun, nofun⟩
        have liveA : a.isUnsatisfiable = false := satisfiableX
        have liveB : b.isUnsatisfiable = false := satisfiableY
        rw [join_held liveA liveB] at joins
        split at joins
        · next same =>
            cases joins
            exact ⟨.refl v _, grantsAtMost_of_beq regular same⟩
        · split at joins
          · next alike =>
              cases joins
              obtain ⟨bounded, joined⟩ := a.joinOn_bounded b (a.constraints ++ b.constraints).solution
                (a.constraints ++ b.constraints) true start (fun _ => True) (fun _ _ _ => trivial)
                fun _ _ _ _ _ => trivial
              -- The constraints of both sides are kept, so the valuation bears out what they say.
              exact joined.grantsAtMost regular alike (meets.subset bounded.kept).sound meets
          · cases joins
  · intro root parts l next whole built run v meets
    exact Permission.combineUp_le (fun p member => (built p member).grown) run meets

namespace Crossing

/-- One way holds a part of a dimension, the other one another part but nothing below it. Of the
second dimension both have the same, by what the latter demands. -/
def holder : Held :=
  { side [("a", [.named 0, .one], .unknown 50, false)] [] with
    unpacked := some (permission ("b", [.named 2, .one], .zero, true)) }

def partner : Held :=
  { side [("a", [.named 1, .one], .zero, false)]
      [.equal [.single (.unknown 51), .single (.named 2)]] with
    unpacked := some (permission ("b", [.unknown 51, .one], .zero, true)) }

def dimensions : List Permission :=
  [permission ("a", [.named 0, .named 1], .named 2, false),
    permission ("b", [.named 1, .named 0], .one, false)]

theorem holder_regular : (held holder).Regular := by
  intro p member
  have either : p = permission ("a", [.named 0, .one], .unknown 50, false) ∨
      p = permission ("b", [.named 2, .one], .zero, true) := by
    simpa [permissions, holder, side] using member
  rcases either with rfl | rfl
  · exact ⟨built, by decide +kernel⟩
  · exact ⟨built, by decide +kernel⟩

/-- Every unknown fraction is a quarter. -/
def quarters : Valuation :=
  .ofUnknowns (fun _ => 1 / 4) (fun _ => by norm_num) fun _ => by norm_num

theorem grantAtMost_to_holder_and_partner :
    (∃ work, (held holder).join (held partner) .branch = .ok work ∧
      (work.run ⟨known⟩).1.virtuals.map Permission.root = ["a"] ∧
      (work.run ⟨known⟩).1.isUnpacked = true ∧
      quarters.Meets (work.run ⟨known⟩).1.constraints ∧
      (work.run ⟨known⟩).1.GrantsAtMost quarters (held holder) ∧
      (work.run ⟨known⟩).1.GrantsAtMost quarters (held partner)) ∧
    ∃ whole next, (Permission.combineUp alive dimensions).run ⟨.empty, ⟨known⟩⟩ = (some whole, next) ∧
      quarters.Meets next.constraints ∧ ∀ p ∈ dimensions, ∀ spot ∈ whole.shares.spots,
        quarters.number (whole.shares.fractionAt spot) ≤
          quarters.number (p.shares.fractionAt spot) := by
  have meets {cs : Constraints} {items : List Constraint} (same : cs.items = items)
      (satisfied : ∀ c ∈ items, quarters.Satisfies c)
      (bounded : ∀ c ∈ items, ∀ t ∈ c.terms, quarters.value t ≤ 1) : quarters.Meets cs :=
    ⟨same ▸ satisfied, same ▸ bounded⟩
  constructor
  · have liveX : holder.isUnsatisfiable = false := by decide +kernel
    have liveY : partner.isUnsatisfiable = false := by decide +kernel
    have joins : (held holder).join (held partner) .branch = .ok (held <$> holder.join partner .branch
        (holder.constraints ++ partner.constraints).solution) := by
      rw [join_held liveX liveY, if_neg (by decide +kernel), if_pos (by decide +kernel)]
    have items : ((held <$> holder.join partner .branch
        (holder.constraints ++ partner.constraints).solution : SupplyM Holding).run
          ⟨known⟩).1.constraints.items =
        [.equal [.single (.unknown 51), .single (.named 2)],
          .atMost (.single (.unknown 100)) (.single (.named 0)),
          .atMost (.single (.unknown 100)) (.single (.named 1)),
          .nonZero (.single (.unknown 100))] := by decide +kernel
    have met := meets items
      (by simp [Valuation.Satisfies, Valuation.value, quarters, Valuation.ofUnknowns]; norm_num)
      (by simp [Constraint.terms, Valuation.value, quarters, Valuation.ofUnknowns]; norm_num)
    have reached : (held partner).isUnsatisfiable = false := liveY
    have notBottom (h : Held) : held h ≠ bottom := by rintro ⟨⟩
    obtain ⟨both, -⟩ := branch_join_and_combineUp_grantAtMost.1 holder_regular liveX reached joins
      known quarters met
    exact ⟨_, joins, by decide +kernel, by decide +kernel, met,
      both (notBottom _) (notBottom _)⟩
  · have items : ((Permission.combineUp alive dimensions).run ⟨.empty, ⟨known⟩⟩).2.constraints.items =
        [.atMost (.single (.unknown 100)) (.single (.named 1)),
          .atMost (.single (.unknown 100)) (.single (.named 0)),
          .atMost (.single (.unknown 101)) (.single (.named 2)),
          .atMost (.single (.unknown 101)) (.single .one)] := by decide +kernel
    have met := meets items
      (by simp [Valuation.Satisfies, Valuation.value, quarters, Valuation.ofUnknowns]; norm_num)
      (by simp [Constraint.terms, Valuation.value, quarters, Valuation.ofUnknowns]; norm_num)
    have spaces : ∀ p ∈ dimensions, p.space.Built := by
      simp only [dimensions, List.forall_mem_cons]
      exact ⟨built, built, by simp⟩
    have run : (Permission.combineUp alive dimensions).run ⟨.empty, ⟨known⟩⟩ = (some _, _) := rfl
    exact ⟨_, _, run, met, branch_join_and_combineUp_grantAtMost.2 spaces run quarters met⟩

/-- What was not reached yet counts as satisfiable and has no counterpart of what is held. -/
theorem unreached_has_no_counterpart :
    bottom.Regular ∧ bottom.isUnsatisfiable = false ∧ (held holder).isUnsatisfiable = false ∧
      ∃ work, bottom.join (held holder) .branch = .ok work ∧
        quarters.Meets (work.run ⟨known⟩).1.constraints ∧
        ¬(work.run ⟨known⟩).1.GrantsAtMost quarters bottom := by
  refine ⟨nofun, rfl, by decide +kernel, _, rfl, ⟨nofun, nofun⟩, fun most => ?_⟩
  obtain ⟨p, member, -⟩ := most.listed false _ List.mem_cons_self
  cases member

end Crossing

end Holding

section Basing

/-- A permission for the same root whose fractions are zero, those of the other one, or from a
range. -/
structure Permission.DrawsOn (first last : Nat) (r p : Permission) : Prop where
  root : r.root = p.root
  fractions : ∀ f ∈ r.shares.fractions,
    f = .zero ∨ f ∈ p.shares.fractions ∨ f.DrawnIn first last

/-- All of one side's constraints and of its fractions, and nothing else but fresh fractions that
are bounded by these. -/
structure Held.BasedOn (first last : Nat) (z base : Held) : Prop where
  kept : base.constraints.items ⊆ z.constraints.items
  impossible : z.constraints.impossible = base.constraints.impossible
  added : ∀ c ∈ z.constraints.items, c ∈ base.constraints.items ∨
    c.Bounds (fun f => ∃ p ∈ (Holding.held base).permissions, f ∈ p.shares.fractions) first last
  listed : ∀ inFrame, ∀ r ∈ z.pool inFrame, ∃ p ∈ base.pool inFrame, r.DrawsOn first last p
  unpacked : ∀ r, z.unpacked = some r → ∃ p, base.unpacked = some p ∧ r.DrawsOn first last p

theorem Permission.DrawsOn.refl (first last : Nat) (p : Permission) : p.DrawsOn first last p :=
  ⟨rfl, fun _ member => .inr (.inl member)⟩

theorem Held.BasedOn.refl (first last : Nat) (h : Held) : h.BasedOn first last h :=
  ⟨List.Subset.refl _, rfl, fun _ => .inl, fun _ r member => ⟨r, member, .refl first last r⟩,
    fun r some => ⟨r, some, .refl first last r⟩⟩

theorem Shares.Combined.exists_source {s t r : Shares}
    {holds : Fraction → Fraction → Fraction → Prop} (combined : Combined s t holds r) {h : Fraction}
    (member : h ∈ r.fractions) : ∃ f ∈ s.fractions, ∃ g, holds f g h := by
  rcases Shares.mem_fractions.mp member with ⟨entry, inside, rfl⟩ | rfl
  · obtain ⟨old, among, -, known⟩ := exists_left_of_forall₂ combined.values inside
    exact ⟨old.2, mem_fractions_of_mem among, _, known⟩
  · exact ⟨s.below, s.below_mem_fractions, _, combined.below⟩

theorem Permission.JoinedBy.drawsOn {s : Solution} {symmetric : Bool} {cs : Constraints}
    {first last : Nat} {p q j : Permission}
    (joined : p.JoinedBy (Fraction.Joined s symmetric cs first last) q j) :
    j.DrawsOn first last p := by
  refine ⟨joined.shares.root, fun h member => ?_⟩
  obtain ⟨f, among, g, known⟩ := joined.shares.exists_source member
  cases known with
  | same _ => exact .inr (.inl among)
  | nothing _ _ => exact .inl rfl
  | bounded _ _ _ fresh _ => exact .inr (.inr fresh)

/-- A join that is not symmetric and starts from one side's constraints is based on that side. -/
theorem Held.joinOn_basedOn (base other : Held) (s : Solution) (start : Nat) :
    let out := (base.joinOn other s base.constraints false).run ⟨start⟩
    out.1.BasedOn start out.2.next base := by
  obtain ⟨bounded, joined⟩ := base.joinOn_bounded other s base.constraints false start
    (fun f => ∃ p ∈ (Holding.held base).permissions, f ∈ p.shares.fractions) nofun
    fun p member f among _ => ⟨p, member, among⟩
  refine ⟨bounded.kept, bounded.impossible, bounded.added, fun inFrame r member => ?_,
    fun r some => ?_⟩
  · obtain ⟨p, inside, q, -, -, join⟩ := (joined.pools inFrame).sources r member
    exact ⟨p, inside, join.drawsOn⟩
  · obtain ⟨p, q, left, -, join⟩ := joined.unpacked r some
    exact ⟨p, left, join.drawsOn⟩

theorem Constraints.atLeastAsPrecise_of_same {a b : Constraints} (same : a.same b = true)
    (satisfiable : a.isUnsatisfiable = false) : b.atLeastAsPrecise a = true := by
  simp only [Constraints.same, Bool.and_eq_true, List.all_eq_true] at same
  obtain ⟨-, inside⟩ := same
  have possible : a.isImpossible = false := by
    simp only [isUnsatisfiable, isConsistent, Bool.not_eq_false', Bool.and_eq_true,
      Bool.not_eq_true'] at satisfiable
    exact satisfiable.1
  simp only [atLeastAsPrecise, possible, Bool.false_eq_true, if_false]
  split
  · rfl
  · rw [List.all_eq_true]
    intro c member
    rw [inside c member, Bool.true_or]

namespace Holding

/-- Where the way back to the head of a loop comes with constraints that imply those from before,
the join is based on what was held before; the other way round if only that is implied. -/
theorem loop_join_basedOn {x y : Held} (satisfiableX : x.isUnsatisfiable = false)
    (satisfiableY : y.isUnsatisfiable = false) {work : SupplyM Holding}
    (joins : (held x).join (held y) .loop = .ok work) (start : Nat) :
    let out := work.run ⟨start⟩
    (y.constraints.atLeastAsPrecise x.constraints = true →
      ∃ z, out.1 = .held z ∧ z.BasedOn start out.2.next x) ∧
    (y.constraints.atLeastAsPrecise x.constraints = false →
      x.constraints.atLeastAsPrecise y.constraints = true →
      ∃ z, out.1 = .held z ∧ z.BasedOn start out.2.next y) := by
  rw [join_held satisfiableX satisfiableY] at joins
  split at joins
  · next same =>
      cases joins
      refine ⟨fun _ => ⟨x, rfl, .refl _ _ x⟩, fun weaker => ?_⟩
      -- Equal sides imply each other's constraints.
      rw [Constraints.atLeastAsPrecise_of_same (Held.parts_of_beq same).2.2 satisfiableX] at weaker
      cases weaker
  · split at joins
    · cases joins
      constructor
      · intro implied
        simp only [Held.join, implied, decide_true, Bool.and_self, if_true]
        exact ⟨_, rfl, x.joinOn_basedOn y _ start⟩
      · intro weaker implied
        simp only [Held.join, weaker, implied, decide_true, Bool.and_false, Bool.false_eq_true,
          Bool.and_self, if_true, if_false]
        exact ⟨_, rfl, y.joinOn_basedOn x _ start⟩
    · cases joins

namespace Crossing

/-- What is held before a loop. -/
def entering : Held :=
  side [("a", [.unknown 1, .unknown 2], .unknown 3, false), ("b", [.one, .unknown 2], .zero, true)]
    [.nonZero (.single (.unknown 1))]

/-- What is held on the way back to its head, where more is demanded. -/
def returning : Held :=
  side [("b", [.unknown 5, .unknown 2], .zero, true), ("a", [.unknown 4, .unknown 2], .zero, false)]
    [.nonZero (.single (.unknown 4)), .nonZero (.single (.unknown 1)),
      .equal [.single (.unknown 5), .single .one]]

theorem loop_join_basedOn_entering :
    (∃ work z, (held entering).join (held returning) .loop = .ok work ∧
      (work.run ⟨known⟩).1 = held z ∧
      z.constraints.items = [.nonZero (.single (.unknown 1)),
        .atMost (.single (.unknown 100)) (.single (.unknown 1)),
        .nonZero (.single (.unknown 100))] ∧
      z.virtuals.map (·.shares.fractions) =
        [[.unknown 100, .unknown 2, .zero], [.one, .unknown 2, .zero]] ∧
      z.BasedOn known (work.run ⟨known⟩).2.next entering) ∧
    ∃ work z, (held returning).join (held entering) .loop = .ok work ∧
      (work.run ⟨known⟩).1 = held z ∧ z.BasedOn known (work.run ⟨known⟩).2.next entering := by
  have liveX : entering.isUnsatisfiable = false := by decide +kernel
  have liveY : returning.isUnsatisfiable = false := by decide +kernel
  constructor
  · have joins : (held entering).join (held returning) .loop = .ok (held <$>
        entering.join returning .loop (entering.constraints ++ returning.constraints).solution) := by
      rw [join_held liveX liveY, if_neg (by decide +kernel), if_pos (by decide +kernel)]
    obtain ⟨z, run, based⟩ := (loop_join_basedOn liveX liveY joins known).1 (by decide +kernel)
    refine ⟨_, z, joins, run, ?_, ?_, based⟩
    · cases run
      decide +kernel
    · cases run
      decide +kernel
  · have joins : (held returning).join (held entering) .loop = .ok (held <$>
        returning.join entering .loop (returning.constraints ++ entering.constraints).solution) := by
      rw [join_held liveY liveX, if_neg (by decide +kernel), if_pos (by decide +kernel)]
    obtain ⟨z, run, based⟩ := (loop_join_basedOn liveY liveX joins known).2 (by decide +kernel)
      (by decide +kernel)
    exact ⟨_, z, joins, run, based⟩

end Crossing

end Holding

end Basing

end Typestate
