import Typestate.Proofs.Holding.Joining
import Typestate.Proofs.Permission.Exclusion
import Typestate.Proofs.Permission.SmallShares

set_option autoImplicit false

/-!
Handing out a unique permission piece by piece. However requests are split off one after the other,
there are numbers for the fractions under which the pieces add up to at most the whole, at every
node where they are counted.
-/

namespace Typestate

variable {V : Type} {S : Space}

namespace Constraints

variable {cs : Constraints} {asked : Nat → Prop} {n : Nat}

theorem append_eq_foldl {other : Constraints} (possible : other.impossible = none) :
    cs ++ other = other.items.foldl add cs := by
  have kept (items : List Constraint) (cs : Constraints) :
      (items.foldl add cs).impossible = cs.impossible := by
    induction items generalizing cs with
    | nil => rfl
    | cons c rest ih => rw [List.foldl_cons, ih, impossible_add]
  change { other.items.foldl add cs with impossible := cs.impossible.or other.impossible } = _
  rw [possible, Option.or_none, ← kept other.items cs]

theorem Stepwise.asks (made : cs.Stepwise asked n) {items : List Constraint}
    (demands : ∀ c ∈ items, ∃ id, c = .nonZero (.single (.unknown id)) ∧ id < n ∧ asked id) :
    (items.foldl add cs).Stepwise asked n := by
  induction items generalizing cs with
  | nil => exact made
  | cons c rest ih =>
      obtain ⟨id, rfl, drawn, request⟩ := demands c List.mem_cons_self
      exact ih (made.ask drawn request) fun d later => demands d (List.mem_cons_of_mem _ later)

end Constraints

theorem Pool.not_fulfils_nil {fits : Fraction → Fraction → Prop} {s : Solution} {q : Request} :
    ¬Pool.Fulfils S fits s [] q := by
  have lacks : ¬Pool.HoldsDimensions S [] q.root := by
    rintro ⟨some, all⟩
    obtain ⟨d, member⟩ := List.exists_mem_of_ne_nil _ some
    obtain ⟨p, inside, -⟩ := all d member
    cases inside
  rintro (grants | combined)
  · cases grants with
    | held p member => cases member
    | lower _ p first => simp [Pool.under] at first
    | combined _ combines => exact lacks combines.holds
  · exact lacks combined.2.holds

def RequestSet.list (r : RequestSet) (inFrame : Bool) : List Request :=
  if inFrame then r.frames else r.virtuals

/-- Permissions in one of the two lists only. -/
structure Held.Alone (S : Space) (inFrame frame : Bool) (h : Held) : Prop where
  orderly : (h.pool inFrame).Orderly S frame
  other : h.pool (!inFrame) = []

namespace Held.Alone

variable {inFrame frame : Bool} {h : Held} {r : RequestSet}

theorem splitWork_reveals (grown : S.Grown) (alone : h.Alone S inFrame frame) {value : Term → V}
    (distinct : value (.single .zero) ≠ value (.single .one)) {first last : Nat}
    (fresh : r.Fresh S first last) :
    Reveals value (h.splitWork r) fun _ => r.list (!inFrame) = [] := by
  -- From a list without permissions no request is fulfilled, so there was none.
  have nothing {requests : List Request} {s : Solution}
      (fulfils : ∀ q ∈ requests, Pool.Fulfils S (Fits value) s [] q) : requests = [] :=
    List.eq_nil_iff_forall_not_mem.mpr fun q member => Pool.not_fulfils_nil (fulfils q member)
  have empty : Pool.Orderly S frame [] := ⟨.nil, nofun⟩
  cases inFrame with
  | false =>
      have other : h.frames = [] := alone.other
      unfold Held.splitWork
      rw [other]
      refine (Pool.Orderly.split_reveals grown alone.orderly distinct _ r.virtuals
        fresh.virtuals).bind fun _ => ?_
      exact (empty.split_reveals grown distinct _ r.frames fresh.frames).bind fun _ =>
        .pure fun fulfils _ => nothing fulfils
  | true =>
      have other : h.virtuals = [] := alone.other
      unfold Held.splitWork
      rw [other]
      refine (empty.split_reveals grown distinct _ r.virtuals fresh.virtuals).bind fun _ => ?_
      exact (Pool.Orderly.split_reveals grown alone.orderly distinct _ r.frames
        fresh.frames).bind fun _ => .pure fun _ fulfils => nothing fulfils

theorem splitWork_run (alone : h.Alone S inFrame frame) (none : r.list (!inFrame) = [])
    (l : Ledger) :
    (h.splitWork r).run l =
      let out := ((h.pool inFrame).split (h.constraints ++ r.constraints).solution
        (r.list inFrame)).run l
      (if inFrame then ([], out.1) else (out.1, []), out.2) := by
  cases inFrame with
  | false =>
      have other : h.frames = [] := alone.other
      have requests : r.frames = [] := none
      simp only [splitWork, other, requests]
      rfl
  | true =>
      have other : h.virtuals = [] := alone.other
      have requests : r.virtuals = [] := none
      simp only [splitWork, other, requests]
      rfl

theorem split (grown : S.Grown) (alone : h.Alone S inFrame frame) {first last : Nat}
    (fresh : r.Fresh S first last) {supply : Supply}
    (satisfiable : (((Holding.held h).split r).run supply).1.isUnsatisfiable = false) :
    let out := ((h.pool inFrame).split (h.constraints ++ r.constraints).solution
      (r.list inFrame)).run ⟨h.constraints ++ r.constraints, supply⟩
    r.all = r.list inFrame ∧ ∃ next : Held, next.Alone S inFrame frame ∧
      next.pool inFrame = out.1 ∧ next.constraints = out.2.constraints ∧
      ((Holding.held h).split r).run supply = (.held next, out.2.supply) := by
  intro out
  obtain ⟨V, value, met⟩ := Constraints.isUnsatisfiable_eq_false_iff.mp satisfiable
  -- A request for the list that holds nothing could not have been granted.
  have none := (alone.splitWork_reveals grown met.zero_ne_one fresh _ met).2
  have ordered : Pool.Orderly S frame out.1 :=
    Yields.foldlM _ (fun _ q _ orderly l => (orderly.splitOne grown _ q l).1) alone.orderly _
  rw [Holding.split_run, alone.splitWork_run none]
  cases inFrame with
  | false =>
      have requests : r.frames = [] := none
      exact ⟨by simp [RequestSet.all, RequestSet.list, requests],
        { h with virtuals := out.1, frames := [], constraints := out.2.constraints },
        ⟨ordered, rfl⟩, rfl, rfl, rfl⟩
  | true =>
      have requests : r.virtuals = [] := none
      exact ⟨by simp [RequestSet.all, RequestSet.list, requests],
        { h with virtuals := [], frames := out.1, constraints := out.2.constraints },
        ⟨ordered, rfl⟩, rfl, rfl, rfl⟩

theorem parted (grown : S.Grown) (alone : h.Alone S inFrame frame) {first last : Nat}
    (fresh : r.Fresh S first last) {supply : Supply}
    (satisfiable : (((Holding.held h).split r).run supply).1.isUnsatisfiable = false) :
    r.all.Pairwise fun p q => S.Parted p.root q.root := by
  rw [(alone.split grown fresh satisfiable).1]
  cases inFrame with
  | false => exact fresh.virtuals
  | true => exact fresh.frames

end Held.Alone

namespace Holding

/-- One unique permission for all of an object. -/
def whole (S : Space) (inFrame frame : Bool) (states : List String) : Holding :=
  .held (Held.empty.withPool inFrame [(Request.orphan S alive frame states).permission])

/-- What is held, and the requests that were handed out, after sets of requests with fresh fractions
were split off one after the other. The number is that of the next fraction to be drawn. -/
inductive Dealt (S : Space) (start : Holding) : Nat → Holding → List Request → Prop
  | start (next : Nat) : Dealt S start next start []
  | split {next first last : Nat} {x : Holding} {handed : List Request} {r : RequestSet}
      {supply : Supply} (dealt : Dealt S start next x handed) (asked : r.Asked S first last)
      (fresh : ∀ id, .unknown id ∈ x.fractions → id < first ∨ last ≤ id)
      (later : next ≤ supply.next) (past : last ≤ supply.next)
      (satisfiable : ((x.split r).run supply).1.isUnsatisfiable = false) :
      Dealt S start ((x.split r).run supply).2.next ((x.split r).run supply).1 (handed ++ r.all)

end Holding

/-- What handing out keeps up: the demands come one after the other, and requests exclude each other
under every assignment that meets them. -/
structure Held.Spent (S : Space) (inFrame frame : Bool) (next : Nat) (h : Held)
    (handed : List Request) : Prop extends h.Alone S inFrame frame where
  satisfiable : h.isUnsatisfiable = false
  fresh : ∀ q ∈ handed, ∃ first last cs, q.Fresh S first last cs ∧
    ∀ {V : Type} {value : Term → V}, h.constraints.MetBy value → cs.MetBy value
  steps : ∃ asked : Nat → Prop, (∀ id, asked id → id < next) ∧
    h.constraints.Stepwise asked next ∧ (h.pool inFrame).IsHeld asked next ∧
      ∀ q ∈ handed, q.IsAsked asked next
  exclusive : ∀ {V : Type} {value : Term → V}, h.constraints.MetBy value →
    ∀ fair : String → Prop, (∀ n, fair n → S.isDimension n = true → Undisturbed S n handed) →
      ∃ charges : List Charge, charges.map Charge.request = handed ∧
        Exclusive S value fair charges (h.pool inFrame)

namespace Held.Spent

variable {inFrame frame : Bool} {next : Nat} {h : Held} {handed : List Request}

theorem start (S : Space) (inFrame frame : Bool) (states : List String) (next : Nat) :
    Held.Spent S inFrame frame next
      (Held.empty.withPool inFrame [(Request.orphan S alive frame states).permission]) [] := by
  let p := (Request.orphan S alive frame states).permission
  have laid : p.shares.Laid := by
    simp [p, Request.orphan, Permission.make, Shares.Laid, Shares.constant, Function.comp_def]
  have ordered : Pool.Orderly S frame [p] :=
    ⟨⟨List.forall_mem_singleton.mpr rfl, List.forall_mem_singleton.mpr rfl,
      List.pairwise_singleton _ _⟩, List.forall_mem_singleton.mpr laid⟩
  have held : Pool.IsHeld (fun _ => False) next [p] := by
    refine List.forall_mem_singleton.mpr fun f member => ?_
    rw [Shares.eq_of_mem_constant member]
    trivial
  have possible : Constraints.empty.isUnsatisfiable = false := by decide +kernel
  have nothing {property : Request → Prop} : ∀ q ∈ ([] : List Request), property q := by
    rintro q ⟨⟩
  cases inFrame with
  | false =>
      exact ⟨⟨ordered, rfl⟩, possible, nothing, ⟨fun _ => False, fun _ => False.elim, .empty next,
        held, nothing⟩,
        fun _ fair _ => ⟨[], rfl, .start S _ fair [p]⟩⟩
  | true =>
      exact ⟨⟨ordered, rfl⟩, possible, nothing, ⟨fun _ => False, fun _ => False.elim, .empty next,
        held, nothing⟩,
        fun _ fair _ => ⟨[], rfl, .start S _ fair [p]⟩⟩

theorem mem_fractions_pool {h : Held} {inFrame : Bool} {p : Permission} (member : p ∈ h.pool inFrame)
    {f : Fraction} (inside : f ∈ p.shares.fractions) : f ∈ (Holding.held h).fractions := by
  refine List.mem_append_left _ (List.mem_flatMap.mpr ⟨p, ?_, inside⟩)
  cases inFrame with
  | false =>
      have among : p ∈ h.virtuals := member
      simp [Holding.permissions, among]
  | true =>
      have among : p ∈ h.frames := member
      simp [Holding.permissions, among]

theorem widen (spent : h.Spent S inFrame frame next handed) {first last : Nat}
    (fresh : ∀ id, .unknown id ∈ (Holding.held h).fractions → id < first ∨ last ≤ id) {m : Nat}
    (later : next ≤ m) (past : last ≤ m) :
    ∃ asked : Nat → Prop, (∀ id, asked id → id < m) ∧ (∀ id, first ≤ id → id < last → asked id) ∧
      h.constraints.Stepwise asked m ∧ (h.pool inFrame).IsHeld asked m ∧
        ∀ q ∈ handed, q.IsAsked asked m := by
  obtain ⟨asked, drawn, steps, held, old⟩ := spent.steps
  let wider (id : Nat) : Prop := asked id ∨ first ≤ id ∧ id < last
  -- Fractions of the new requests do not occur so far: they count as asked for from the start.
  have same {id : Nat} (known : .unknown id ∈ (Holding.held h).fractions) :
      asked id ↔ wider id := by
    have outside := fresh id known
    refine ⟨.inl, fun wide => wide.resolve_right ?_⟩
    omega
  refine ⟨wider, fun id wide => ?_, fun id lower upper => .inr ⟨lower, upper⟩,
    (steps.congr fun id mentioned => same ?_).later later,
    fun p member f inside => (Fraction.IsHeld.congr (held p member f inside) fun id unknown =>
      same (unknown ▸ mem_fractions_pool member inside)).mono later,
    fun q member f inside => (old q member f inside).mono later fun _ _ => .inl⟩
  · rcases wide with known | bounds
    · exact Nat.lt_of_lt_of_le (drawn id known) later
    · exact Nat.lt_of_lt_of_le bounds.2 past
  · obtain ⟨c, inside, t, among, known⟩ := mentioned
    exact List.mem_append_right _ (List.mem_flatMap.mpr ⟨c, inside,
      List.mem_flatMap.mpr ⟨t, among, known⟩⟩)

theorem split (grown : S.Grown) (spent : h.Spent S inFrame frame next handed) {first last : Nat}
    {r : RequestSet} (asked : r.Asked S first last)
    (fresh : ∀ id, .unknown id ∈ (Holding.held h).fractions → id < first ∨ last ≤ id)
    {supply : Supply} (later : next ≤ supply.next) (past : last ≤ supply.next)
    (satisfiable : (((Holding.held h).split r).run supply).1.isUnsatisfiable = false) :
    ∃ h', (((Holding.held h).split r).run supply).1 = .held h' ∧
      h'.Spent S inFrame frame (((Holding.held h).split r).run supply).2.next
        (handed ++ r.all) := by
  have made := asked.fresh grown
  obtain ⟨all, h', alone, pool, constraints, run⟩ := spent.toAlone.split grown made satisfiable
  have requests : ∀ q ∈ r.list inFrame, q.Fresh S first last r.constraints :=
    fun q member => made.requests q (all ▸ member)
  have reveals {V : Type} {value : Term → V} (met : h'.constraints.MetBy value) :=
    spent.orderly.split_exclusive grown met.zero_ne_one
      (h.constraints ++ r.constraints).solution (r.list inFrame) requests _ (constraints ▸ met)
  have earlier {V : Type} {value : Term → V} (met : h'.constraints.MetBy value) :=
    Constraints.metBy_append.mp (reveals met).1
  rw [run] at satisfiable
  refine ⟨h', congrArg Prod.fst run, alone, satisfiable, fun q member => ?_, ?_,
    fun {V value} met fair steady => ?_⟩
  · rcases List.mem_append.mp member with before | now
    · obtain ⟨first, last, cs, fresh, kept⟩ := spent.fresh q before
      exact ⟨first, last, cs, fresh, fun met => kept (earlier met).1⟩
    · exact ⟨first, last, r.constraints, made.requests q now, fun met => (earlier met).2⟩
  -- The numbers of the new requests join those that were asked for.
  · obtain ⟨known, drawn, within, steps, held, old⟩ := spent.widen fresh later past
    have start : (h.constraints ++ r.constraints).Stepwise known supply.next := by
      rw [Constraints.append_eq_foldl made.possible]
      refine steps.asks fun c member => ?_
      obtain ⟨id, same, lower, upper⟩ := made.demands c member
      exact ⟨id, same, Nat.lt_of_lt_of_le upper past, within id lower upper⟩
    have new : ∀ q ∈ r.list inFrame, q.IsAsked known supply.next := by
      intro q member f inside
      cases f with
      | zero | one | named id => trivial
      | unknown id =>
          obtain ⟨lower, upper⟩ := (requests q member).drawn id inside
          exact ⟨Nat.lt_of_lt_of_le upper past, within id lower upper⟩
    obtain ⟨-, -, more, ⟨final, bound⟩, left⟩ := spent.orderly.split_proceeds grown
      (h.constraints ++ r.constraints).solution (r.list inFrame) ⟨_, supply⟩ ()
      ⟨fun _ => start, drawn⟩ ⟨held, new⟩
    obtain ⟨_, _, possible, -⟩ := Constraints.isUnsatisfiable_eq_false_iff.mp satisfiable
    rw [run, pool, all]
    rw [constraints] at possible ⊢
    refine ⟨known, bound, final possible, left, fun q member => ?_⟩
    rcases List.mem_append.mp member with before | now
    · exact fun f inside => (old q before f inside).mono more fun _ _ => id
    · exact fun f inside => (new q now f inside).mono more fun _ _ => id
  · rw [pool]
    rw [all] at steady ⊢
    obtain ⟨charges, same, exclusive⟩ := spent.exclusive (earlier met).1 fair
      fun n isFair dimension => (List.pairwise_append.mp (steady n isFair dimension)).1
    rw [← same] at steady ⊢
    obtain ⟨charged, rest, done⟩ := (reveals met).2 fair charges exclusive steady
    exact ⟨charges ++ charged, by rw [List.map_append, rest], done⟩

end Held.Spent

theorem Holding.Dealt.spent (grown : S.Grown) {inFrame frame : Bool} {states : List String}
    {next : Nat} {x : Holding} {handed : List Request}
    (dealt : Dealt S (whole S inFrame frame states) next x handed) :
    ∃ h, x = .held h ∧ h.Spent S inFrame frame next handed := by
  induction dealt with
  | start next => exact ⟨_, rfl, .start S inFrame frame states next⟩
  | split _ asked fresh later past satisfiable ih =>
      obtain ⟨h, rfl, spent⟩ := ih
      exact spent.split grown asked fresh later past satisfiable

end Typestate
