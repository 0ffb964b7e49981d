import Typestate.Proofs.Session.Outcome
import Typestate.Proofs.Space.Orthogonality
import Typestate.Proofs.Tuple.Packing

set_option autoImplicit false

/-!
What packing takes away. The invariants of the new states are taken from the places of the fields
they name, clause by clause: nothing else changes, and what is left there can be met. A pack that
fails leaves everything as it was.
-/

namespace Typestate

open Analysis

namespace ClassDecl

variable {c : ClassDecl} {root : String} {states : List String}

/-- The clauses of the invariants from a root down to each of the given states. -/
def clausesTo (c : ClassDecl) (root : String) (states : List String) : List Clause :=
  (c.invariantsTo root states).flatMap fun entry => entry.2.parts

/-- The root, or a node between it and one of the states, has an invariant that names the field. -/
def Concerns (c : ClassDecl) (root : String) (states : List String) (field : String) : Prop :=
  ∃ n inv, (n = root ∨ ∃ s ∈ states, c.space.covers root n = true ∧ c.space.covers n s = true) ∧
    c.invariant? n = some inv ∧ ∃ clause ∈ inv.parts, clause.target = field

theorem mem_invariantsTo {entry : String × Predicate} :
    entry ∈ c.invariantsTo root states ↔
      entry.1 ∈ c.nodesTo root states ∧ c.invariant? entry.1 = some entry.2 := by
  obtain ⟨n, inv⟩ := entry
  simp only [invariantsTo, List.mem_filterMap, Option.map_eq_some_iff, Prod.mk.injEq]
  constructor
  · rintro ⟨m, member, other, found, rfl, rfl⟩
    exact ⟨member, found⟩
  · rintro ⟨member, found⟩
    exact ⟨n, member, inv, found, rfl, rfl⟩

theorem exists_of_mem_clausesTo {clause : Clause} (member : clause ∈ c.clausesTo root states) :
    ∃ entry ∈ c.invariants, clause ∈ entry.2.parts := by
  obtain ⟨entry, among, part⟩ := List.mem_flatMap.mp member
  obtain ⟨listed, first, same⟩ := Option.map_eq_some_iff.mp (mem_invariantsTo.mp among).2
  exact ⟨listed, List.mem_of_find?_eq_some first, same ▸ part⟩

variable (grown : c.space.Grown)

include grown

theorem mem_nodesTo {n : String} :
    n ∈ c.nodesTo root states ↔
      n = root ∨ ∃ s ∈ states, c.space.covers root n = true ∧ c.space.covers n s = true := by
  simp only [nodesTo, List.mem_eraseDups, List.mem_cons, List.mem_flatMap, grown.mem_path_iff,
    Space.covers_iff]

theorem mem_nodesTo_statesUnder {n : String} :
    n ∈ c.nodesTo root (c.statesUnder root states) ↔ n ∈ c.nodesTo root states := by
  rw [mem_nodesTo grown, mem_nodesTo grown]
  refine or_congr_right ⟨fun ⟨s, member, between⟩ => ?_, fun ⟨s, member, between⟩ => ?_⟩
  · exact ⟨s, (List.mem_filter.mp member).1, between⟩
  · -- A state with a node between it and the root lies below the root.
    refine ⟨s, List.mem_filter.mpr ⟨member, ?_⟩, between⟩
    simp only [Space.covers_iff] at between ⊢
    exact grown.above_trans between.1 between.2

theorem concerns_iff {field : String} :
    c.Concerns root states field ↔
      ∃ clause ∈ c.clausesTo root (c.statesUnder root states), clause.target = field := by
  constructor
  · rintro ⟨n, inv, between, found, clause, part, named⟩
    refine ⟨clause, List.mem_flatMap.mpr ⟨(n, inv), mem_invariantsTo.mpr ⟨?_, found⟩, part⟩, named⟩
    exact (mem_nodesTo_statesUnder grown).mpr ((mem_nodesTo grown).mpr between)
  · rintro ⟨clause, member, named⟩
    obtain ⟨⟨n, inv⟩, entry, part⟩ := List.mem_flatMap.mp member
    obtain ⟨node, found⟩ := mem_invariantsTo.mp entry
    have between := (mem_nodesTo grown).mp ((mem_nodesTo_statesUnder grown).mp node)
    exact ⟨n, inv, between, found, clause, part, named⟩

end ClassDecl

namespace Tuple

/-- The second tuple is what is left of the first when clauses are taken from the places of their
fields. -/
structure Leaves (t : Tuple) (cs : List Clause) (u : Tuple) : Prop where
  receiver : u.receiver = t.receiver
  fields : u.fields = t.fields
  elsewhere : ∀ l, (∀ c ∈ cs, t.fieldLocation? c.target ≠ some l) →
    u.holdings.get? l = t.holdings.get? l
  there : ∀ c ∈ cs, ∃ l, t.fieldLocation? c.target = some l ∧ (u.get l).isUnsatisfiable = false

variable {t u v : Tuple} {cs ds : List Clause}

theorem Leaves.refl (t : Tuple) : t.Leaves [] t := ⟨rfl, rfl, fun _ _ => rfl, nofun⟩

theorem Leaves.fieldLocation? (leaves : t.Leaves cs u) (field : String) :
    u.fieldLocation? field = t.fieldLocation? field := by
  rw [Tuple.fieldLocation?, leaves.fields]
  rfl

theorem Leaves.trans (first : t.Leaves cs u) (second : u.Leaves ds v) : t.Leaves (cs ++ ds) v := by
  have later (l : Location) : (∃ d ∈ ds, t.fieldLocation? d.target = some l) ∨
      v.holdings.get? l = u.holdings.get? l := by
    by_cases touched : ∃ d ∈ ds, t.fieldLocation? d.target = some l
    · exact .inl touched
    · refine .inr (second.elsewhere l fun d member found => touched ⟨d, member, ?_⟩)
      rw [← first.fieldLocation?, found]
  refine ⟨second.receiver.trans first.receiver, second.fields.trans first.fields,
    fun l free => ?_, fun c member => ?_⟩
  · rw [List.forall_mem_append] at free
    rcases later l with ⟨d, member, found⟩ | same
    · exact absurd found (free.2 d member)
    · exact same.trans (first.elsewhere l free.1)
  · have taken : ∀ d ∈ ds, ∃ l, t.fieldLocation? d.target = some l ∧
        (v.get l).isUnsatisfiable = false := by
      intro d among
      obtain ⟨l, found, satisfiable⟩ := second.there d among
      exact ⟨l, (first.fieldLocation? d.target).symm.trans found, satisfiable⟩
    rcases List.mem_append.mp member with old | new
    · -- What the first leaves is left alone by the second, or taken from once more.
      obtain ⟨l, found, satisfiable⟩ := first.there c old
      rcases later l with ⟨d, among, again⟩ | same
      · obtain ⟨m, place, met⟩ := taken d among
        rw [again] at place
        exact ⟨l, found, Option.some.inj place ▸ met⟩
      · refine ⟨l, found, ?_⟩
        rw [Tuple.get, same]
        exact satisfiable
    · exact taken c new

theorem takeClause_leaves (t : Tuple) (c : Clause) :
    Yields (t.takeClause c) fun left => ∀ u, left = some u → t.Leaves [c] u := by
  unfold takeClause
  split
  · exact .pure nofun
  · next l found =>
    refine .after fun request => .ite (fun _ => .pure nofun) fun _ => .after fun rest => ?_
    refine .ite (fun _ => .pure nofun) fun satisfiable => .pure ?_
    rintro _ ⟨⟩
    refine ⟨rfl, rfl, fun other free => ?_, fun d member => ?_⟩
    · have apart : other ≠ l := fun same => free c List.mem_cons_self (same ▸ found)
      exact SortedMap.get?_insert_of_ne t.holdings rest apart
    · refine ⟨l, List.mem_singleton.mp member ▸ found, ?_⟩
      simpa [Tuple.get, Tuple.set, SortedMap.get?_insert_self] using satisfiable

theorem takeClauses_leaves (t : Tuple) (cs : List Clause) :
    Yields (t.takeClauses cs) fun left => ∀ u, left = some u → t.Leaves cs u := by
  induction cs generalizing t with
  | nil =>
    refine .pure ?_
    rintro _ ⟨⟩
    exact .refl t
  | cons c rest ih =>
    unfold takeClauses
    refine (takeClause_leaves t c).bind fun left known => ?_
    cases left with
    | none =>
      refine .pure ?_
      rintro _ ⟨⟩
    | some next => exact fun supply u ended => (known next rfl).trans (ih next supply u ended)

theorem takeInvariant_leaves (t : Tuple) (inv : Predicate) :
    Yields (t.takeInvariant inv) fun left => ∀ u, left = some u → t.Leaves inv.parts u := by
  cases inv with
  | void => exact .pure nofun
  | clauses cs => exact takeClauses_leaves t cs

theorem takeInvariants_leaves (t : Tuple) (invs : List (String × Predicate)) :
    Yields (t.takeInvariants invs) fun result =>
      (∀ failed, result = .error failed → ∃ entry ∈ invs, failed = ⟨entry.1, entry.2.text⟩) ∧
        ∀ u, result = .ok u → t.Leaves (invs.flatMap fun entry => entry.2.parts) u := by
  induction invs generalizing t with
  | nil =>
    refine .pure ⟨?_, ?_⟩
    · rintro _ ⟨⟩
    · rintro _ ⟨⟩
      exact .refl t
  | cons entry rest ih =>
    unfold takeInvariants
    refine (takeInvariant_leaves t entry.2).bind fun left known => ?_
    cases left with
    | none =>
      -- The first invariant that cannot be taken is the one that is named.
      refine .pure ⟨?_, ?_⟩
      · rintro _ ⟨⟩
        exact ⟨entry, List.mem_cons_self, rfl⟩
      · rintro _ ⟨⟩
    | some next =>
      intro supply
      obtain ⟨fails, leaves⟩ := ih next supply
      refine ⟨fun failed ended => ?_, fun u ended => (known next rfl).trans (leaves u ended)⟩
      obtain ⟨other, later, same⟩ := fails failed ended
      exact ⟨other, List.mem_cons_of_mem entry later, same⟩

section Runs

variable {c : Clause} {supply after : Supply}

theorem takeClause_eq_some_iff :
    (t.takeClause c).run supply = (some u, after) ↔
      ∃ l, t.fieldLocation? c.target = some l ∧
        let asked := (RequestSet.ofSpec c.space c.spec false).run supply
        let rest := ((t.get l).split asked.1).run asked.2
        (t.get l).isInStates c.spec.states c.spec.frame = true ∧
          rest.1.isUnsatisfiable = false ∧ u = t.set l rest.1 ∧ after = rest.2 := by
  cases place : t.fieldLocation? c.target with
  | none =>
    simp only [takeClause, place]
    constructor
    · rintro ⟨⟩
    · rintro ⟨l, ⟨⟩, -⟩
  | some l =>
    let asked := (RequestSet.ofSpec c.space c.spec false).run supply
    let rest := ((t.get l).split asked.1).run asked.2
    -- The states are looked at before anything is taken, but the fractions are drawn in any case.
    have opened : (t.takeClause c).run supply =
        if (t.get l).isInStates c.spec.states c.spec.frame then
          (if rest.1.isUnsatisfiable then none else some (t.set l rest.1), rest.2)
        else (none, asked.2) := by
      cases known : (t.get l).isInStates c.spec.states c.spec.frame with
      | false =>
        simp only [takeClause, place, known]
        rfl
      | true =>
        simp only [takeClause, place, known]
        change (if rest.1.isUnsatisfiable then pure none else pure (some (t.set l rest.1)) :
          SupplyM (Option Tuple)).run rest.2 = _
        cases rest.1.isUnsatisfiable with
        | false => rfl
        | true => rfl
    rw [opened]
    constructor
    · intro ran
      split at ran
      · next known =>
        split at ran
        · cases ran
        · next possible =>
          cases ran
          exact ⟨l, rfl, known, Bool.eq_false_iff.mpr possible, rfl, rfl⟩
      · cases ran
    · rintro ⟨_, ⟨⟩, known, possible, rfl, rfl⟩
      rw [if_pos known, show rest.1.isUnsatisfiable = false from possible]
      rfl

theorem takeClauses_cons_eq_some_iff :
    (t.takeClauses (c :: cs)).run supply = (some v, after) ↔
      ∃ u middle, (t.takeClause c).run supply = (some u, middle) ∧
        (u.takeClauses cs).run middle = (some v, after) := by
  rw [takeClauses, StateT.run_bind]
  rcases (t.takeClause c).run supply with ⟨_ | u, middle⟩
  · constructor
    · rintro ⟨⟩
    · rintro ⟨_, _, ⟨⟩, _⟩
  · constructor
    · intro ran
      exact ⟨u, middle, rfl, ran⟩
    · rintro ⟨_, _, ⟨⟩, ran⟩
      exact ran

theorem takeClauses_append_eq_some_iff :
    (t.takeClauses (cs ++ ds)).run supply = (some v, after) ↔
      ∃ u middle, (t.takeClauses cs).run supply = (some u, middle) ∧
        (u.takeClauses ds).run middle = (some v, after) := by
  induction cs generalizing t supply with
  | nil =>
    constructor
    · intro ran
      exact ⟨t, supply, rfl, ran⟩
    · rintro ⟨_, _, ⟨⟩, ran⟩
      exact ran
  | cons c rest ih =>
    simp only [List.cons_append, takeClauses_cons_eq_some_iff, ih]
    constructor
    · rintro ⟨w, first, took, u, middle, taken, ended⟩
      exact ⟨u, middle, ⟨w, first, took, taken⟩, ended⟩
    · rintro ⟨u, middle, ⟨w, first, took, taken⟩, ended⟩
      exact ⟨w, first, took, u, middle, taken, ended⟩

theorem takeInvariants_eq_ok_iff {invs : List (String × Predicate)} :
    (t.takeInvariants invs).run supply = (.ok v, after) ↔
      (∀ entry ∈ invs, entry.2 ≠ .void) ∧
        (t.takeClauses (invs.flatMap fun entry => entry.2.parts)).run supply = (some v, after) := by
  induction invs generalizing t supply with
  | nil =>
    constructor
    · rintro ⟨⟩
      exact ⟨nofun, rfl⟩
    · rintro ⟨-, ⟨⟩⟩
      rfl
  | cons entry rest ih =>
    obtain ⟨state, inv⟩ := entry
    rw [List.forall_mem_cons, List.flatMap_cons, takeClauses_append_eq_some_iff]
    cases inv with
    | void =>
      constructor
      · rintro ⟨⟩
      · rintro ⟨⟨possible, -⟩, -⟩
        exact absurd rfl possible
    | clauses cs =>
      rw [takeInvariants, takeInvariant, StateT.run_bind]
      change _ ↔ _ ∧ ∃ u middle, (t.takeClauses cs).run supply = (some u, middle) ∧ _
      -- One clause that is not taken ends it all.
      rcases (t.takeClauses cs).run supply with ⟨_ | next, middle⟩
      · constructor
        · rintro ⟨⟩
        · rintro ⟨-, _, _, ⟨⟩, -⟩
      · refine ih.trans ⟨?_, ?_⟩
        · rintro ⟨possible, ran⟩
          exact ⟨⟨nofun, possible⟩, next, middle, rfl, ran⟩
        · rintro ⟨⟨-, possible⟩, _, _, ⟨⟩, ran⟩
          exact ⟨possible, ran⟩

end Runs

end Tuple

namespace Holding

variable {x : Holding} {u : Permission}

theorem exists_pack (unpacked : x.unpacked = some u) (states : List String) :
    ∃ work, x.pack states = .ok work ∧
      Yields work fun y => y.unpacked = none ∧ y.virtuals = x.virtuals := by
  rw [Holding.pack, isUnpacked_of_some unpacked]
  refine ⟨_, rfl, fun supply => ?_⟩
  cases x with
  | bottom => cases unpacked
  | held h =>
    replace unpacked : h.unpacked = some u := unpacked
    simp only [rework, unpacked]
    exact ⟨rfl, rfl⟩

/-- The answer of packing, with the fractions that it needs drawn from a supply. -/
def packedAt (x : Holding) (states : List String) (supply : Supply) : Except Fault Holding :=
  (x.pack states).map fun work => (work.run supply).1

theorem packedAt_virtuals {y : Holding} {states : List String} {supply : Supply}
    (packs : x.packedAt states supply = .ok y) : y.virtuals = x.virtuals := by
  cases unpacked : x.unpacked with
  | none =>
    rw [packedAt, Holding.pack, isUnpacked_of_none unpacked] at packs
    cases packs
  | some u =>
    obtain ⟨work, done, closed⟩ := exists_pack unpacked states
    rw [packedAt, done] at packs
    cases packs
    exact (closed supply).2

end Holding

namespace Tuple

variable {t packed : Tuple} {c : ClassDecl} {r : Location} {u : Permission} {states : List String}
  {session next : Session}

theorem receiverOrFault_of_some (receiver : t.receiver = some r) : t.receiverOrFault = .ok r := by
  rw [receiverOrFault, receiver]

section Packs

variable (receiver : t.receiver = some r) (unpacked : (t.get r).unpacked = some u)

include receiver unpacked

theorem packReceiver_eq :
    t.packReceiver c states = do
      let under := c.statesUnder u.root states
      match ← liftSupply (t.takeInvariants (c.invariantsTo u.root under)) with
      | .error failed =>
          log (.phrase [.atom "pack-failed", .atom failed.state, .ofQuoted failed.invariant])
          return .error failed
      | .ok staged =>
          -- What the receiver held before is packed, not what taking has left of it.
          let x ← liftGuarded ((t.get r).pack under)
          log (.list [.atom "pack", .atom r.text, .list (under.map .atom)])
          return .ok (staged.set r x) := by
  unfold packReceiver
  rw [receiverOrFault_of_some receiver]
  simp only [liftFault, pure_bind]
  rewrite [unpacked]
  rfl

theorem packReceiver_delivers :
    Delivers (t.packReceiver c states) fun result =>
      (∀ failed, result = .error failed →
        ∃ entry ∈ c.invariantsTo u.root (c.statesUnder u.root states),
          failed = ⟨entry.1, entry.2.text⟩) ∧
      ∀ packed, result = .ok packed →
        ∃ staged x, t.Leaves (c.clausesTo u.root (c.statesUnder u.root states)) staged ∧
          x.unpacked = none ∧ packed = staged.set r x := by
  obtain ⟨work, done, closed⟩ := Holding.exists_pack unpacked (c.statesUnder u.root states)
  rw [packReceiver_eq receiver unpacked]
  refine (Delivers.liftSupply (takeInvariants_leaves t _)).bind fun result known => ?_
  cases result with
  | error failed => exact (Delivers.log _).bind fun _ _ => .pure ⟨known.1, nofun⟩
  | ok staged =>
    refine (Delivers.liftGuarded done closed).bind fun x shut => (Delivers.log _).bind fun _ _ =>
      .pure ⟨nofun, ?_⟩
    rintro _ ⟨⟩
    exact ⟨staged, x, known.2 staged rfl, shut.1, rfl⟩

theorem packReceiver_run {work : SupplyM Holding}
    (done : (t.get r).pack (c.statesUnder u.root states) = .ok work) (session : Session) :
    let under := c.statesUnder u.root states
    let taking := (t.takeInvariants (c.invariantsTo u.root under)).run session.supply
    (t.packReceiver c states).run.run session =
      match taking.1 with
      | .error failed => (do
          log (.phrase [.atom "pack-failed", .atom failed.state, .ofQuoted failed.invariant])
          return .error failed : AnalysisM (Except FailedPack Tuple)).run.run
            { session with supply := taking.2 }
      | .ok staged => (do
          log (.list [.atom "pack", .atom r.text, .list (under.map .atom)])
          return .ok (staged.set r (work.run taking.2).1) :
            AnalysisM (Except FailedPack Tuple)).run.run
            { session with supply := (work.run taking.2).2 } := by
  intro under taking
  rw [packReceiver_eq receiver unpacked, liftSupply_bind_run]
  change StateT.run (ExceptT.run (match taking.1 with | .error failed => _ | .ok staged => _)) _ = _
  cases taking.1 with
  | error failed => rfl
  | ok staged =>
    simp only [done]
    rfl

theorem packReceiver_ok {work : SupplyM Holding}
    (done : (t.get r).pack (c.statesUnder u.root states) = .ok work)
    (ran : (t.packReceiver c states).run.run session = (.ok (.ok packed), next)) :
    ∃ staged supply,
      (t.takeInvariants (c.invariantsTo u.root (c.statesUnder u.root states))).run session.supply =
        (.ok staged, supply) ∧ packed = staged.set r (work.run supply).1 := by
  rw [packReceiver_run receiver unpacked done] at ran
  rcases taking : (t.takeInvariants (c.invariantsTo u.root (c.statesUnder u.root states))).run
    session.supply with ⟨_ | staged, supply⟩ <;> rw [taking] at ran
  · obtain ⟨_, _, -, ⟨⟩⟩ := run_bind_eq_ok.mp ran
  · obtain ⟨_, _, -, ⟨⟩⟩ := run_bind_eq_ok.mp ran
    exact ⟨staged, supply, rfl, rfl⟩

/-- The receiver is packed as it was before the invariants were taken. That is the same as packing
what is left of it if none of the fields concerned is the receiver itself. Otherwise the permissions
that were taken from the receiver are still there. -/
theorem packReceiver_packs_what_was_held (built : c.space.Built)
    (ran : (t.packReceiver c states).run.run session = (.ok (.ok packed), next)) :
    let under := c.statesUnder u.root states
    ∃ staged supply,
      (t.takeInvariants (c.invariantsTo u.root under)).run session.supply = (.ok staged, supply) ∧
      (t.get r).packedAt under supply = .ok (packed.get r) ∧
      (packed.get r).virtuals = (t.get r).virtuals ∧
      ((staged.get r).packedAt under supply = .ok (packed.get r) →
        (staged.get r).virtuals = (t.get r).virtuals) ∧
      ((∀ field, c.Concerns u.root states field → t.fieldLocation? field ≠ some r) →
        (staged.get r).packedAt under supply = .ok (packed.get r)) := by
  intro under
  obtain ⟨work, done, -⟩ := Holding.exists_pack unpacked under
  obtain ⟨staged, supply, taking, rfl⟩ := packReceiver_ok receiver unpacked done ran
  have leaves : t.Leaves (c.clausesTo u.root under) staged :=
    (takeInvariants_leaves t _ session.supply).2 staged (congrArg Prod.fst taking)
  have packs : (t.get r).packedAt under supply = .ok (work.run supply).1 := by
    rw [Holding.packedAt, done]
    rfl
  rw [get_set_self]
  have kept := Holding.packedAt_virtuals packs
  refine ⟨staged, supply, taking, packs, kept, fun same => ?_, fun free => ?_⟩
  · exact (Holding.packedAt_virtuals same).symm.trans kept
  · have untouched : staged.holdings.get? r = t.holdings.get? r :=
      leaves.elsewhere r fun clause member =>
        free clause.target ((ClassDecl.concerns_iff built.grown).mpr ⟨clause, member, rfl⟩)
    rw [Tuple.get, untouched]
    exact packs

end Packs

namespace Link

def space : Space :=
  ((Space.Draft.new "Link").addDimension (some "use") alive ["open", "shut"] false).1.space

theorem built : space.Built := ⟨_, .addDimension (.new "Link") .., rfl⟩

def clause (target : Target) (kind : Kind) : Clause := ⟨target, space, ⟨kind, alive, [], false⟩⟩

/-- Links of a chain: each is alone in holding the next one, and an open one has a log as well. -/
def link : ClassDecl :=
  ⟨"Link", space, [(alive, .clauses [clause "next" .unique]),
    ("open", .clauses [clause "log" .share])]⟩

def whole (frame : Bool) : Permission := .make (.constant space alive .one) false frame []

/-- The first link is unpacked; all there is of it is held, as of three others. -/
def chain (next log : Location) : Tuple :=
  let other : Holding := .held ⟨[whole false], [], none, .empty⟩
  { holdings := ⟨[(⟨0⟩, .held ⟨[whole false], [], some (whole true), .empty⟩), (⟨1⟩, other),
      (⟨2⟩, other), (⟨3⟩, other)]⟩
    receiver := some ⟨0⟩
    fields := ⟨[("log", log), ("next", next)]⟩ }

end Link

section Chains

open Link

/-- Here the next link is another one. -/
theorem packReceiver_packs_what_was_held_of_link :
    ∃ packed next staged supply,
      ((chain ⟨1⟩ ⟨2⟩).packReceiver link []).run.run Session.new = (.ok (.ok packed), next) ∧
      ((chain ⟨1⟩ ⟨2⟩).takeInvariants (link.invariantsTo alive [])).run Session.new.supply =
        (.ok staged, supply) ∧
      (staged.get ⟨0⟩).packedAt [] supply = .ok (packed.get ⟨0⟩) := by
  have runs : leadsTo ((chain ⟨1⟩ ⟨2⟩).packReceiver link []) Session.new
      (fun result _ => result.toOption.isSome) = true := by
    decide +kernel
  obtain ⟨result, next, ran, ends⟩ := exists_of_leadsTo runs
  cases result with
  | error failed => cases ends
  | ok packed =>
    obtain ⟨staged, supply, taking, -, -, -, same⟩ :=
      packReceiver_packs_what_was_held (r := ⟨0⟩) (u := whole true) rfl rfl built ran
    refine ⟨packed, next, staged, supply, ran, taking, same fun field _ found => ?_⟩
    have entry := SortedMap.mem_of_get? found
    simp [chain] at entry

/-- Here the link is the next one itself. The permission for it is taken as part of the invariant,
and it is there again afterwards. -/
theorem packReceiver_keeps_what_was_taken :
    ∃ packed next staged supply,
      ((chain ⟨0⟩ ⟨2⟩).packReceiver link []).run.run Session.new = (.ok (.ok packed), next) ∧
      ((chain ⟨0⟩ ⟨2⟩).takeInvariants (link.invariantsTo alive [])).run Session.new.supply =
        (.ok staged, supply) ∧
      (staged.get ⟨0⟩).virtuals = [] ∧ (packed.get ⟨0⟩).virtuals = [whole false] ∧
      (staged.get ⟨0⟩).packedAt [] supply ≠ .ok (packed.get ⟨0⟩) := by
  have runs : leadsTo ((chain ⟨0⟩ ⟨2⟩).packReceiver link []) Session.new
      (fun result _ => result.toOption.isSome) = true := by
    decide +kernel
  have takes : (((chain ⟨0⟩ ⟨2⟩).takeInvariants (link.invariantsTo alive [])).run
      Session.new.supply).1.toOption.all
        (fun staged => (staged.get ⟨0⟩).virtuals.isEmpty) = true := by
    decide +kernel
  obtain ⟨result, next, ran, ends⟩ := exists_of_leadsTo runs
  cases result with
  | error failed => cases ends
  | ok packed =>
    have unpacked : ((chain ⟨0⟩ ⟨2⟩).get ⟨0⟩).unpacked = some (whole true) := rfl
    obtain ⟨work, done, closed⟩ :=
      Holding.exists_pack unpacked (link.statesUnder (whole true).root [])
    obtain ⟨staged, supply, taking, rfl⟩ := packReceiver_ok rfl unpacked done ran
    replace taking : ((chain ⟨0⟩ ⟨2⟩).takeInvariants (link.invariantsTo alive [])).run
        Session.new.supply = (.ok staged, supply) := taking
    have gone : (staged.get ⟨0⟩).virtuals = [] := by
      rw [taking] at takes
      exact List.isEmpty_iff.mp takes
    have back : ((staged.set ⟨0⟩ (work.run supply).1).get ⟨0⟩).virtuals = [whole false] := by
      rw [get_set_self]
      exact (closed supply).2
    refine ⟨_, next, staged, supply, ran, taking, gone, back, fun same => ?_⟩
    rw [Holding.packedAt_virtuals same, gone] at back
    cases back

end Chains

end Tuple

end Typestate
