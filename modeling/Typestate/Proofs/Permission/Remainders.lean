import Typestate.Proofs.Permission.Restoring

set_option autoImplicit false

/-!
The kind that is left of a permission when a request is split off it. The table of kinds and the
fractions that are left say the same: what the table promises is found by solving, and solving finds
no more than that, for there are assignments in which the fractions of the request are just
something.
-/

namespace Typestate

open Permission

variable {V : Type}

section Resetting

/-- Some fractions get new values: one of its own if a fraction is to be something, else nothing. -/
def reset (value : Term → V) (drew live : Fraction → Bool) : Term → V ⊕ Fraction
  | .single f =>
      if drew f then
        if live f then .inr f else .inl (value (.single .zero))
      else .inl (value (.single f))
  | .sum fs => .inl (value (.sum fs))

variable {value : Term → V} {drew live : Fraction → Bool} {f : Fraction}

theorem reset_kept (kept : drew f = false) :
    reset value drew live (.single f) = .inl (value (.single f)) := by simp [reset, kept]

theorem reset_live (drawn : drew f = true) (something : live f = true) :
    reset value drew live (.single f) = .inr f := by simp [reset, drawn, something]

theorem reset_idle (drawn : drew f = true) (nothing : live f = false) :
    reset value drew live (.single f) = .inl (value (.single .zero)) := by
  simp [reset, drawn, nothing]

/-- A constant that is reset is a named one, and so it gets a value of its own. -/
theorem reset_literal (zero : drew .zero = false) (one : drew .one = false)
    (positive : ∀ f : Fraction, f.isPositive = true → live f = true) (literal : f.isLiteral = true) :
    reset value drew live f = if drew f then .inr f else .inl (value f) := by
  cases drawn : drew f with
  | false => exact reset_kept drawn
  | true =>
    refine reset_live drawn (positive f ?_)
    cases f with
    | zero => simp [zero] at drawn
    | one => simp [one] at drawn
    | named id => rfl
    | unknown id => cases literal

theorem Reading.Lawful.toReset (lawful : (Reading.filled value).Lawful) (zero : drew .zero = false)
    (one : drew .one = false) (positive : ∀ f : Fraction, f.isPositive = true → live f = true) :
    (Reading.filled (reset value drew live)).Lawful := by
  refine ⟨fun f g first second same => ?_, fun none => none rfl, fun f literal same => ?_⟩
  · change reset value drew live f = reset value drew live g at same
    rw [reset_literal zero one positive first, reset_literal zero one positive second] at same
    split_ifs at same
    · exact Sum.inr.inj same
    · exact lawful.apart f g first second (Sum.inl.inj same)
  · change reset value drew live f = reset value drew live (.single .zero) at same
    have kind : f.isLiteral = true := by
      cases f <;> simp_all [Fraction.isPositive, Fraction.isLiteral]
    rw [reset_literal zero one positive kind, reset_kept zero] at same
    split_ifs at same
    exact lawful.literal_positive f literal (Sum.inl.inj same)

/-- Constraints that ask of the reset fractions at most that they are something are still met. -/
theorem Constraints.MetBy.toReset {cs : Constraints} (met : cs.MetBy value)
    (zero : drew .zero = false) (one : drew .one = false)
    (asked : ∀ f, cs.asks f = true → live f = true)
    (alone : ∀ c ∈ cs.items, ∀ t ∈ c.terms, ∀ f ∈ t.fractions, drew f = true →
      c = .nonZero (.single f)) : cs.MetBy (reset value drew live) := by
  obtain ⟨possible, models⟩ := met.map (g := Sum.inl (β := Fraction)) fun _ _ => Sum.inl.inj
  have lawful := met.2.lawful.toReset zero one fun f literal =>
    asked f (by simp [Constraints.asks, literal])
  refine ⟨possible, lawful, fun c member t among => ?_, fun c member => ?_⟩
  · cases t with
    | single f => trivial
    | sum fs =>
        refine Reading.Bounded.congr (reset_kept zero) (reset_kept one)
          (models.covers c member _ among) rfl fun f inside => ?_
        cases drawn : drew f with
        | false => exact reset_kept drawn
        | true =>
            -- A constraint on a reset fraction has no sum in it.
            rw [alone c member _ among f inside drawn] at among
            simp [Constraint.terms] at among
  · by_cases touched : ∃ t ∈ c.terms, ∃ f ∈ t.fractions, drew f = true
    · obtain ⟨t, among, f, inside, drawn⟩ := touched
      obtain rfl := alone c member t among f inside drawn
      have some : live f = true :=
        asked f (by simp [Constraints.asks, Constraints.contains, member])
      change reset value drew live f ≠ reset value drew live (.single .zero)
      rw [reset_live drawn some, reset_kept zero]
      rintro ⟨⟩
    · refine (models.satisfies c member).congr (reset_kept zero) (reset_kept one) fun t among => ?_
      cases t with
      | sum fs => rfl
      | single f =>
          refine reset_kept (Bool.eq_false_iff.mpr fun drawn => touched ?_)
          exact ⟨_, among, f, List.mem_singleton_self f, drawn⟩

end Resetting

namespace Request

/-- Whether a fraction was drawn for a request. -/
def drew (q : Request) (f : Fraction) : Bool :=
  q.permission.shares.mentions f && (f != .zero && f != .one)

/-- The fractions drawn for a request are its own: a permission has none of them, and no constraint
says more of one than that it is not zero, which is all that comes with a request. -/
structure Apart (q : Request) (p : Permission) (cs : Constraints) : Prop where
  held : ∀ f ∈ p.shares.fractions, q.drew f = false
  demanded : ∀ c ∈ cs.items, ∀ t ∈ c.terms, ∀ f ∈ t.fractions, q.drew f = true →
    c = .nonZero (.single f)

/-- Whether a fraction of a request is to be something: because that is asked, or because it is for
all that is below the root and there is something. -/
def live (q : Request) (p : Permission) (cs : Constraints) (f : Fraction) : Bool :=
  cs.asks f || (f == q.permission.shares.below && !cs.solution.isZero p.shares.below)

/-- A request for a permission with fractions of its own, and where it has which. -/
structure Posed (q : Request) (p : Permission) (cs : Constraints) : Prop extends Apart q p cs where
  above : ∀ n ∈ p.space.ancestors p.root, q.kind ≠ .unique →
    q.drew (q.permission.shares.get n) = true
  looks : q.kind = .pure → q.permission.shares.below = .zero
  owns : q.kind = .full → q.permission.shares.below = .one
  below : q.kind = .share ∨ q.kind = .immutable → q.drew q.permission.shares.below = true
  /-- What is drawn for below the root is not used for a node as well. -/
  once : ∀ n ∈ p.space.ancestors p.root,
    q.permission.shares.get n = q.permission.shares.below →
      q.permission.shares.below.isLiteral = true
  used : cs.asks (q.permission.shares.get p.root) = true
  reads : q.kind = .immutable → cs.asks q.permission.shares.below = true

end Request

section Posing

theorem freshAll_last (S : Space) (root : String) (named : Bool) (l : Ledger) :
    let made := ((Shares.freshAll S root named).run l).1
    ∃ last, made.below = (if named then .named last else .unknown last) ∧
      ∀ entry ∈ made.values, ∀ id, entry.2 = .unknown id → id < last := by
  obtain ⟨-, -, drawn⟩ := mapM_freshOf named (S.ancestors root) l
  exact ⟨_, rfl, fun entry member id same => ((drawn entry member).bounds id same).2⟩

theorem shares_once (S : Space) (root : String) (named : Bool) (kind : Kind) (l : Ledger) :
    let made := ((Request.shares S root named kind).run l).1
    ∀ entry ∈ made.values, entry.2 = made.below → made.below.isLiteral = true := by
  have drawn : let made := ((Shares.freshAll S root named).run l).1
      ∀ entry ∈ made.values, entry.2 = made.below → made.below.isLiteral = true := by
    intro made entry member same
    -- The fraction below is drawn last, when all the others have lower numbers.
    obtain ⟨last, below, earlier⟩ := freshAll_last S root named l
    rw [below] at same ⊢
    cases named with
    | true => rfl
    | false => exact absurd (earlier entry member last same) (Nat.lt_irrefl last)
  cases kind with
  | unique | full | pure => exact fun _ _ _ => rfl
  | share | immutable => exact drawn

theorem shares_root (S : Space) (root : String) (named : Bool) (kind : Kind) (l : Ledger) :
    ((Request.shares S root named kind).run l).1.root = root := by
  cases kind <;> rfl

variable {p : Permission} {cs : Constraints}

theorem Request.posed_of_create (grown : p.space.Grown) {spec : Spec} {named : Bool}
    {start : Supply} (root : spec.root = p.root) {q : Request} {last : Ledger}
    (run : (Request.create p.space spec named).run ⟨.empty, start⟩ = (q, last))
    (inside : last.constraints.items ⊆ cs.items) (apart : q.Apart p cs) : q.Posed p cs := by
  generalize making : (Request.shares p.space spec.root named spec.kind).run ⟨.empty, start⟩ = made
  have started : StartedWith p.space spec.kind ⟨.empty, start⟩ made :=
    making ▸ shares_startedWith _ _ _ _ _
  have sameRoot : made.1.root = p.root := making ▸ (shares_root _ _ _ _ _).trans root
  have once : ∀ entry ∈ made.1.values, entry.2 = made.1.below → made.1.below.isLiteral = true :=
    making ▸ shares_once _ _ _ _ _
  rw [create_run, making] at run
  obtain ⟨rfl, rfl⟩ := Prod.mk.inj run
  -- Every node from the root up has an entry, and nothing but drawn fractions in it.
  have entry {n : String} (node : n ∈ p.space.ancestors p.root) :
      ∃ e ∈ made.1.values, made.1.get n = e.2 := by
    rw [← started.space, ← sameRoot, ← started.laid] at node
    obtain ⟨e, member, rfl⟩ := List.mem_map.mp node
    exact ⟨e, member, Shares.get_of_mem (started.space ▸ grown) started.laid member⟩
  have drawn {f : Fraction} (among : f ∈ made.1.fractions) (some : f ≠ .zero) (part : f ≠ .one) :
      (made.1.mentions f && (f != .zero && f != .one)) = true := by
    simp [Shares.mentions, among, some, part]
  have lowest : made.1.below ∈ made.1.fractions := made.1.below_mem_fractions
  refine ⟨apart, fun n node part => ?_, started.looks, fun full => started.owns.mpr (.inl full),
    fun kind => drawn lowest ?_ ?_, fun n node same => ?_, ?_, fun immutable => ?_⟩
  · obtain ⟨e, member, same⟩ := entry node
    have known := drawn (Shares.mem_fractions_of_mem member)
      (started.live e member) (started.proper part e member)
    rwa [← same] at known
  · change spec.kind = .share ∨ spec.kind = .immutable at kind
    exact started.reads fun looks => by simp [looks] at kind
  · intro one
    change spec.kind = .share ∨ spec.kind = .immutable at kind
    rcases started.owns.mp one with owner | owner <;> simp [owner] at kind
  · obtain ⟨e, member, equal⟩ := entry node
    exact once e member (equal.symm.trans same)
  · have rootValue : made.1.get p.root = made.1.rootValue := by
      rw [← sameRoot]
      exact Permission.get_root (p := ⟨made.1, false, false, []⟩) grown started.space started.laid
    change cs.asks (made.1.get p.root) = true
    rw [rootValue]
    exact Constraints.asks_mono inside (Request.demanded_asks_rootValue spec.kind made)
  · change spec.kind = .immutable at immutable
    exact Constraints.asks_mono inside
      (started.asks_below (by simp [immutable]) (by simp [immutable]))

end Posing

namespace Request.Posed

variable {p : Permission} {q : Request} {cs : Constraints} {value : Term → V}
  (posed : q.Posed p cs) (part : q.kind ≠ .unique) (other : q.kind ≠ .full)

include posed part other

theorem drew_or_zero {spot : Option String} (among : spot ∈ p.shares.spots) :
    q.drew (q.permission.shares.fractionAt spot) = true ∨
      spot = none ∧ q.permission.shares.below = .zero := by
  rcases Shares.mem_spots.mp among with ⟨n, node, rfl⟩ | rfl
  · exact .inl (posed.above n node part)
  · cases kind : q.kind with
    | unique => exact absurd kind part
    | full => exact absurd kind other
    | share => exact .inl (posed.below (.inl kind))
    | immutable => exact .inl (posed.below (.inr kind))
    | pure => exact .inr ⟨rfl, posed.looks kind⟩

omit other in
theorem ne_zero_of_live {V' : Type} {value' : Term → V'} (generic : cs.Generic value)
    (met : cs.MetBy value') {spot : Option String} (among : spot ∈ p.shares.spots)
    (fits : Fits value' (q.permission.shares.fractionAt spot) (p.shares.fractionAt spot))
    (live : q.live p cs (q.permission.shares.fractionAt spot) = true) :
    value (p.shares.fractionAt spot) ≠ value (.single .zero) := by
  intro zero
  have found := generic.zero _ zero
  have asked (asks : cs.asks (q.permission.shares.fractionAt spot) = true) : False :=
    met.ne_zero asks (fits.1 (met.sound.isZero trivial found))
  rcases Bool.or_eq_true_iff.mp live with asks | lowest
  · exact asked asks
  · rw [Bool.and_eq_true, beq_iff_eq, Bool.not_eq_true'] at lowest
    rcases Shares.mem_spots.mp among with ⟨n, node, rfl⟩ | rfl
    · -- A fraction for a node that is also the one below is a constant, and so more than nothing.
      have literal := posed.once n node lowest.1
      have drawn := posed.above n node part
      refine asked ?_
      rw [← lowest.1] at literal
      change cs.asks (q.permission.shares.get n) = true
      change (q.permission.shares.get n).isLiteral = true at literal
      revert literal drawn
      cases q.permission.shares.get n <;>
        simp [Request.drew, Constraints.asks, Fraction.isLiteral, Fraction.isPositive]
    · exact absurd found (by simp [Shares.fractionAt, lowest.2])

variable (grown : p.space.Grown) (laid : p.shares.Laid) {V' : Type} {value' : Term → V'}
  (met : cs.MetBy value') (fits : ∀ spot ∈ p.shares.spots,
    Fits value' (q.permission.shares.fractionAt spot) (p.shares.fractionAt spot))

include grown laid met fits

theorem fits_reset (generic : cs.Generic value) {spot : Option String}
    (among : spot ∈ p.shares.spots) :
    Fits (reset value q.drew (q.live p cs)) (q.permission.shares.fractionAt spot)
      (p.shares.fractionAt spot) := by
  let start := reset value q.drew (q.live p cs)
  have zero : start (.single .zero) = .inl (value (.single .zero)) := reset_kept (by simp [drew])
  have one : start (.single .one) = .inl (value (.single .one)) := reset_kept (by simp [drew])
  have whole : start (p.shares.fractionAt spot) = .inl (value (p.shares.fractionAt spot)) :=
    reset_kept (posed.held _ (Shares.fractionAt_mem grown laid among))
  -- What is reset to nothing fits anywhere.
  have nothing {f : Fraction} (none : start f = .inl (value (.single .zero))) :
      Fits start f (p.shares.fractionAt spot) := by
    refine ⟨fun _ => none.trans zero.symm, fun all => ?_⟩
    rw [none, one] at all
    exact absurd (Sum.inl.inj all) generic.met.zero_ne_one
  change Fits start _ _
  rcases posed.drew_or_zero part other among with drawn | ⟨rfl, none⟩
  · cases live : q.live p cs (q.permission.shares.fractionAt spot) with
    | false => exact nothing (reset_idle drawn live)
    | true =>
        have some := posed.ne_zero_of_live part generic met among (fits spot among) live
        have taken : start (q.permission.shares.fractionAt spot) = .inr _ := reset_live drawn live
        refine ⟨fun empty => ?_, fun all => ?_⟩
        · rw [whole, zero] at empty
          exact absurd (Sum.inl.inj empty) some
        · rw [taken, one] at all
          cases all
  · refine nothing ?_
    change start (.single q.permission.shares.below) = _
    rw [none, zero]

/-- The assignment with the fractions of the request reset can be carried along while the request is
split off. -/
theorem exists_carried (generic : cs.Generic value) {next : Nat} (known : cs.IsDrawn next)
    (held : p.shares.IsDrawn next) (drawn : q.permission.shares.IsDrawn next) :
    let out := (p.shares.combine q.permission.shares splitFraction).run ⟨cs, ⟨next⟩⟩
    ∃ model : Term → V ⊕ Fraction, out.2.constraints.MetBy model ∧
      Agree next (reset value q.drew (q.live p cs)) model ∧
      ∀ spot ∈ p.shares.spots, IsRest model (p.shares.fractionAt spot)
        (q.permission.shares.fractionAt spot) (model (out.1.fractionAt spot)) := by
  have start : cs.MetBy (reset value q.drew (q.live p cs)) := by
    refine generic.met.toReset (by simp [drew]) (by simp [drew]) (fun f asks => ?_) posed.demanded
    simp [live, asks]
  have ready := Shares.forall_entries (t := q.permission.shares)
    (fun f g => Fitting g f next (reset value q.drew (q.live p cs))) grown laid fun spot among =>
      ⟨drawn.fractionAt spot, held.fractionAt spot,
        posed.fits_reset part other grown laid met fits generic among⟩
  obtain ⟨model, agree, -, ⟨met, -⟩, combined⟩ := p.combine_admits q ⟨cs, ⟨next⟩⟩ _ ⟨start, known⟩
    ready
  exact ⟨model, met, agree, fun spot among => (combined.spot grown laid among).2.2⟩

end Request.Posed

/-- An assignment that has the old values for what was held, and for what is left a value of its own
where something was taken, or nothing where nothing was. -/
structure Request.Models (q : Request) (p : Permission) (cs : Constraints) (value : Term → V)
    (rest : Shares) (model : Term → V ⊕ Fraction) : Prop where
  zero : model (.single .zero) = .inl (value (.single .zero))
  one : model (.single .one) = .inl (value (.single .one))
  held : ∀ f ∈ p.shares.fractions, model f = .inl (value f)
  something : ∀ spot ∈ p.shares.spots, q.drew (q.permission.shares.fractionAt spot) = true →
    q.live p cs (q.permission.shares.fractionAt spot) = true →
      model (rest.fractionAt spot) = .inr (q.permission.shares.fractionAt spot)
  nothing : q.drew q.permission.shares.below = true →
    q.live p cs q.permission.shares.below = false →
      model rest.below = .inl (value (.single .zero))

theorem Request.Posed.models {p : Permission} {q : Request} {cs : Constraints} {value : Term → V}
    (posed : q.Posed p cs) (grown : p.space.Grown) (laid : p.shares.Laid)
    (generic : cs.Generic value) {next : Nat} (held : p.shares.IsDrawn next)
    (drawn : q.permission.shares.IsDrawn next) {rest : Shares} {model : Term → V ⊕ Fraction}
    (agree : Agree next (reset value q.drew (q.live p cs)) model)
    (rests : ∀ spot ∈ p.shares.spots, IsRest model (p.shares.fractionAt spot)
      (q.permission.shares.fractionAt spot) (model (rest.fractionAt spot))) :
    q.Models p cs value rest model := by
  have zero : model (.single .zero) = .inl (value (.single .zero)) :=
    agree.zero.trans (reset_kept (by simp [drew]))
  have kept (f : Fraction) (member : f ∈ p.shares.fractions) : model f = .inl (value f) :=
    (agree.fraction (held f member)).trans (reset_kept (posed.held f member))
  refine ⟨zero, agree.one.trans (reset_kept (by simp [drew])), kept, fun spot among drew live => ?_,
    fun drew idle => ?_⟩
  · have taken : model (q.permission.shares.fractionAt spot) = .inr _ :=
      (agree.fraction (drawn.fractionAt spot)).trans (reset_live drew live)
    have rest := rests spot among
    rw [IsRest, taken, kept _ (Shares.fractionAt_mem grown laid among), zero] at rest
    -- A value of its own is neither that of the whole nor nothing.
    rcases rest with ⟨all, -⟩ | ⟨nothing, -⟩ | ⟨-, -, same⟩
    · cases all
    · cases nothing
    · exact same
  · have empty : cs.solution.isZero p.shares.below = true := by
      simp only [Request.live, Bool.or_eq_false_iff, beq_self_eq_true, Bool.true_and,
        Bool.not_eq_false'] at idle
      exact idle.2
    have whole : model p.shares.below = .inl (value (.single .zero)) :=
      (kept _ p.shares.below_mem_fractions).trans
        (congrArg Sum.inl (generic.met.sound.isZero trivial empty))
    have taken : model q.permission.shares.below = .inl (value (.single .zero)) :=
      (agree.fraction (drawn.fractionAt none)).trans (reset_idle drew idle)
    have rest := rests none (Shares.none_mem_spots _)
    simp only [Shares.fractionAt, IsRest, whole, taken, zero] at rest
    simpa using rest

/-- What solving cannot tell after a request was split off: no more of what was held than before,
and little of what is left. -/
structure Request.Leftover (q : Request) (p : Permission) (cs after : Constraints) (rest : Shares) :
    Prop where
  zero : ∀ f ∈ p.shares.fractions, after.solution.isZero f = true → cs.solution.isZero f = true
  one : ∀ f ∈ p.shares.fractions, after.solution.isOne f = true → cs.solution.isOne f = true
  something : ∀ spot ∈ p.shares.spots, q.drew (q.permission.shares.fractionAt spot) = true →
    q.live p cs (q.permission.shares.fractionAt spot) = true →
      after.solution.isZero (rest.fractionAt spot) = false ∧
        after.solution.isOne (rest.fractionAt spot) = false
  part : q.drew q.permission.shares.below = true → after.solution.isOne rest.below = false

theorem Request.Models.leftover {p : Permission} {q : Request} {cs after : Constraints}
    {value : Term → V} {rest : Shares} {model : Term → V ⊕ Fraction}
    (models : q.Models p cs value rest model) (generic : cs.Generic value)
    (met : after.MetBy model) : q.Leftover p cs after rest := by
  -- Solving finds nothing that fails in an assignment.
  have zero {f : Fraction} (found : after.solution.isZero f = true) :
      model f = .inl (value (.single .zero)) :=
    (met.sound.isZero (t := f) trivial found).trans models.zero
  have one {f : Fraction} (found : after.solution.isOne f = true) :
      model f = .inl (value (.single .one)) :=
    (met.sound.isOne (t := f) trivial found).trans models.one
  refine ⟨fun f member found => ?_, fun f member found => ?_, fun spot among drew live => ?_,
    fun drew => Bool.eq_false_iff.mpr fun found => ?_⟩
  · exact generic.zero f (Sum.inl.inj ((models.held f member).symm.trans (zero found)))
  · exact generic.one f (Sum.inl.inj ((models.held f member).symm.trans (one found)))
  · have own := models.something spot among drew live
    refine ⟨Bool.eq_false_iff.mpr fun found => ?_, Bool.eq_false_iff.mpr fun found => ?_⟩
    · cases own.symm.trans (zero found)
    · cases own.symm.trans (one found)
  · cases live : q.live p cs q.permission.shares.below with
    | true =>
        have own := models.something none (Shares.none_mem_spots _) drew live
        cases own.symm.trans (one found)
    | false =>
        have empty := models.nothing drew live
        exact generic.met.zero_ne_one (Sum.inl.inj (empty.symm.trans (one found)))

theorem Constraints.Leaves.eq_of_zero {cs : Constraints} {p r : Fraction}
    (leaves : cs.Leaves p .zero r) : r = p := by
  cases leaves with
  | all _ => rfl
  | nothing all => exact all.symm
  | rest _ some _ => exact absurd rfl some

theorem Request.FitsIn.spot {fits : Fraction → Fraction → Prop} {q : Request} {s : Shares}
    (inside : q.FitsIn fits s) (grown : s.space.Grown) (laid : s.Laid) {spot : Option String}
    (among : spot ∈ s.spots) : fits (q.permission.shares.fractionAt spot) (s.fractionAt spot) := by
  rcases Shares.mem_spots.mp among with ⟨n, node, rfl⟩ | rfl
  · obtain ⟨entry, member, rfl⟩ := List.mem_map.mp (laid ▸ node)
    rw [Shares.fractionAt, Shares.fractionAt, Shares.get_of_mem grown laid member]
    exact inside.1 entry member
  · exact inside.2

/-- What is left is as an outcome says, and of the kind that it says. -/
def Remainder.Describes (outcome : Remainder) (s : Solution) (rest : Option Permission) : Prop :=
  match outcome with
  | .impossible => False
  | .nothing => rest = none
  | .kind k => ∃ r, rest = some r ∧ r.kind s = k

/-- What solving tells of a rest, depending on what was asked for. -/
structure Permission.Told (asked : Kind) (p : Permission) (s : Solution) (r : Permission)
    (after : Solution) : Prop where
  full : asked = .full → after.isZero r.shares.below = true
  share : asked = .share → after.isOne r.shares.below = false
  immutable : asked = .immutable → after.isZero r.shares.below = false
  pure : asked = .pure → after.isZero r.shares.below = s.isZero p.shares.below ∧
    after.isOne r.shares.below = s.isOne p.shares.below ∧ after.isOne r.shares.rootValue = false

theorem Permission.Told.kind_eq {asked k : Kind} {p r : Permission} {s after : Solution}
    (told : p.Told asked s r after) (outcome : (p.kind s).split asked = .kind k)
    (flag : r.readOnly = k.isReadOnly) : r.kind after = k := by
  cases asked with
  | unique =>
      revert outcome
      cases p.kind s <;> exact nofun
  | full =>
      have same : k = .pure := by
        revert outcome
        cases p.kind s <;> cases k <;> decide
      simp [kind, flag, same, Kind.isReadOnly, told.full rfl]
  | share =>
      have same : k = .share := by
        revert outcome
        cases p.kind s <;> cases k <;> decide
      simp [kind, flag, same, Kind.isReadOnly, told.share rfl]
  | immutable =>
      have same : k = .immutable := by
        revert outcome
        cases p.kind s <;> cases k <;> decide
      simp [kind, flag, same, Kind.isReadOnly, told.immutable rfl]
  | pure =>
      -- Looking on takes nothing below the root, and something at it.
      obtain ⟨zero, one, root⟩ := told.pure rfl
      unfold kind at outcome ⊢
      rw [flag, zero, one, root]
      split_ifs at outcome <;> cases outcome <;> simp_all [Kind.isReadOnly]

section Telling

variable {p : Permission} {q : Request} {cs after : Constraints} {rest : Shares}

theorem Request.Leftover.told (leftover : q.Leftover p cs after rest) (posed : q.Posed p cs)
    (grown : p.space.Grown) (laid : p.shares.Laid) (inside : cs.items ⊆ after.items)
    (consistent : after.isConsistent = true)
    (combined : Shares.Combined p.shares q.permission.shares after.Leaves rest) (readOnly : Bool)
    (other : q.kind ≠ .full) :
    p.Told q.kind cs.solution { p with shares := rest, readOnly } after.solution := by
  have lowest : p.shares.below ∈ p.shares.fractions := p.shares.below_mem_fractions
  rw [Constraints.isConsistent, Bool.and_eq_true] at consistent
  refine ⟨fun full => absurd full other, fun share => leftover.part (posed.below (.inl share)),
    fun immutable => ?_, fun pure => ⟨?_, ?_, ?_⟩⟩
  · refine (leftover.something none (Shares.none_mem_spots _) (posed.below (.inr immutable)) ?_).1
    simp [Request.live, Shares.fractionAt, posed.reads immutable]
  all_goals
    have below := combined.below
    rw [posed.looks pure] at below
    -- One who looks on takes nothing below the root, so nothing changes there.
    have same : rest.below = p.shares.below := below.eq_of_zero
  · rw [same, Bool.eq_iff_iff]
    exact ⟨leftover.zero _ lowest, Solution.solve_isZero_mono inside consistent.2⟩
  · rw [same, Bool.eq_iff_iff]
    exact ⟨leftover.one _ lowest, Solution.solve_isOne_mono inside consistent.2⟩
  · have node : p.root ∈ p.space.ancestors p.root := grown.above_refl p.root
    have rootValue : rest.get p.root = rest.rootValue := by
      have spaceR : rest.space = p.space := combined.space
      have rootR : rest.root = p.root := combined.root
      rw [← rootR]
      exact Permission.get_root (p := ⟨rest, false, false, []⟩) grown spaceR (combined.laid laid)
    have something := leftover.something (some p.root)
      (Shares.some_mem_spots node)
      (posed.above _ node (by simp [pure])) (by simp [Request.live, Shares.fractionAt, posed.used])
    rw [← rootValue]
    exact something.2

theorem Request.Posed.told_full (posed : q.Posed p cs) (full : q.kind = .full)
    (combined : Shares.Combined p.shares q.permission.shares after.Leaves rest) (readOnly : Bool) :
    p.Told q.kind cs.solution { p with shares := rest, readOnly } after.solution := by
  have below := combined.below
  rw [posed.owns full] at below
  exact ⟨fun _ => below.isZero_of_one, by simp [full], by simp [full], by simp [full]⟩

end Telling

/-- What is left when a request with fractions of its own is split off has the kind that the table
of kinds says. -/
theorem Permission.split_describes_kind {p : Permission} (built : p.space.Built)
    (laid : p.shares.Laid) {spec : Spec} (root : spec.root = p.root) {named : Bool}
    {start : Supply} {q : Request} {last : Ledger}
    (created : (Request.create p.space spec named).run ⟨.empty, start⟩ = (q, last))
    {cs : Constraints} (inside : last.constraints.items ⊆ cs.items)
    (apart : q.Apart p cs) {next : Nat} (known : cs.IsDrawn next)
    (held : p.shares.IsDrawn next) (drawn : q.permission.shares.IsDrawn next)
    (consistent : ((p.split q cs.solution).run ⟨cs, ⟨next⟩⟩).2.constraints.isConsistent = true) :
    ((p.kind cs.solution).split q.kind).Describes
      ((p.split q cs.solution).run ⟨cs, ⟨next⟩⟩).2.constraints.solution
      ((p.split q cs.solution).run ⟨cs, ⟨next⟩⟩).1 := by
  have posed := Request.posed_of_create built.grown root created inside apart
  have satisfiable :
      ((p.split q cs.solution).run ⟨cs, ⟨next⟩⟩).2.constraints.isUnsatisfiable = false := by
    rw [Constraints.isUnsatisfiable, consistent]
    rfl
  obtain ⟨V, value, metAfter⟩ := Constraints.isUnsatisfiable_eq_false_iff.mp satisfiable
  obtain ⟨met, allowed, fits⟩ := split_reveals metAfter.zero_ne_one p q cs.solution _ metAfter
  obtain ⟨more, combined⟩ := p.shares.combine_leaves q.permission.shares ⟨cs, ⟨next⟩⟩
  rw [split_eq allowed] at consistent ⊢
  cases outcome : (p.kind cs.solution).split q.kind with
  | impossible => exact absurd outcome allowed
  | nothing => rfl
  | kind k =>
      refine ⟨_, rfl, Told.kind_eq ?_ outcome rfl⟩
      by_cases full : q.kind = .full
      · exact posed.told_full full combined _
      · have part : q.kind ≠ .unique := by
          intro unique
          rw [unique] at outcome
          revert outcome
          cases p.kind cs.solution <;> rintro ⟨⟩
        obtain ⟨W, other, generic⟩ := Constraints.exists_generic
          (Constraints.isUnsatisfiable_eq_false_iff.mpr ⟨V, value, met⟩)
        -- In some assignment the request takes just something, and all that was held is as it was.
        obtain ⟨model, metModel, agree, rests⟩ := posed.exists_carried part full built.grown laid
          met (fun _ among => fits.spot built.grown laid among) generic known held drawn
        have models := posed.models built.grown laid generic held drawn agree rests
        have leftover := models.leftover generic metModel
        exact leftover.told posed built.grown laid more consistent combined _ full

/-- Looking on takes something at the root of what was held alone, and nothing below it. -/
theorem Permission.split_describes_kind_door_looked_at :
    let p := Door.permission (.unknown 0) (.named 0) .one (.unknown 1) false
    let asked := (Door.request .pure false).run ⟨.empty, ⟨2⟩⟩
    let cs : Constraints := ⟨[.equal [.single (.unknown 0), .single .one],
      .equal [.single (.unknown 1), .single .one]] ++ asked.2.constraints.items, none⟩
    let rest := (p.split asked.1 cs.solution).run ⟨cs, ⟨5⟩⟩
    p.kind cs.solution = .unique ∧ rest.2.constraints.isConsistent = true ∧
      ∃ r, rest.1 = some r ∧ r.kind rest.2.constraints.solution = .full := by
  intro p asked cs rest
  have alone : p.kind cs.solution = .unique := by decide +kernel
  have consistent : rest.2.constraints.isConsistent = true := by decide +kernel
  have created : (Request.create p.space ⟨.pure, "open", [], false⟩ false).run ⟨.empty, ⟨2⟩⟩ =
    (asked.1, asked.2) := rfl
  have described := split_describes_kind (p := p) Door.built (by decide +kernel) rfl created
    (List.subset_append_right _ _) ⟨by decide +kernel, by decide +kernel⟩ (by decide +kernel)
    (by decide +kernel) (by decide +kernel) consistent
  rw [alone] at described
  exact ⟨alone, consistent, described⟩

/-- The table does not know of a request that constraints leave without anything below its root: all
that was there is left. -/
theorem Permission.split_leaves_full_of_empty_share :
    let p := Door.permission .one .one .one .one false
    let asked := (Door.request .share false).run ⟨.empty, ⟨0⟩⟩
    let cs : Constraints := ⟨asked.2.constraints.items ++
      [.equal [.single asked.1.permission.shares.below, .single .zero]], none⟩
    let rest := (p.split asked.1 cs.solution).run ⟨cs, asked.2.supply⟩
    (∀ f ∈ p.shares.fractions, asked.1.drew f = false) ∧
      rest.2.constraints.isConsistent = true ∧
      (p.kind cs.solution).split asked.1.kind = .kind .share ∧
      rest.1.map (Permission.kind · rest.2.constraints.solution) = some .full := by
  decide +kernel

end Typestate
