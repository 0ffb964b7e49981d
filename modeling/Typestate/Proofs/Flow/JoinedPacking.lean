import Typestate.Proofs.Flow.JoinedStates
import Typestate.Proofs.Holding.Backing
import Typestate.Proofs.Tuple.Returning

set_option autoImplicit false

/-!
Packing where two ways meet. A pack that goes through after a join goes through on either of the
ways as well, clause by clause, unless one of four things is in the way there: the receiver is
unpacked at another root; a field has another place or none; what is held there is, by what this
side knows alone, of a kind that does not do; or, to look on, another node comes first below the
root.
-/

namespace Typestate

open Analysis

section Receiver

theorem Held.joinOn_opened {a b : Held} {u v : Permission} (first : a.unpacked = some u)
    (second : b.unpacked = some v) (s : Solution) (cs : Constraints) (symmetric : Bool) :
    Yields (a.joinOn b s cs symmetric) fun h => ∃ j, h.unpacked = some j ∧ j.root = u.root := by
  have parts : Yields (a.joinParts b s symmetric) fun h =>
      ∃ j, h.unpacked = some j ∧ j.root = u.root := by
    unfold joinParts
    rw [first, second]
    refine .after fun virtuals => .after fun frames => ?_
    have opened : Yields (some <$> u.join v s symmetric) fun unpacked =>
        ∃ j, unpacked = some j ∧ j.root = u.root := by
      rw [map_eq_pure_bind]
      refine Yields.bind (Pool.join_yields u v s symmetric) fun j known => .pure ⟨j, rfl, ?_⟩
      exact known.root
    exact opened.bind fun _ known => .pure known
  rintro ⟨start⟩
  rw [joinOn_eq]
  exact parts ⟨cs, ⟨start⟩⟩

theorem Holding.join_unpacked {x y : Holding} {u v : Permission} (first : x.unpacked = some u)
    (second : y.unpacked = some v) {work : SupplyM Holding}
    (done : x.join y .branch = .ok work) :
    Yields work fun joined => ∃ j, joined.unpacked = some j ∧
      (x.isUnsatisfiable = false → y.isUnsatisfiable = false →
        j.root = u.root ∧ j.root = v.root) := by
  cases x with
  | bottom => cases first
  | held a =>
    cases y with
    | bottom => cases second
    | held b =>
      have openedA : a.unpacked = some u := first
      have openedB : b.unpacked = some v := second
      -- Equal sides are not joined, and neither are those of which one cannot be met.
      rcases join_held_cases done with ⟨chosen, rfl⟩ | ⟨never, rfl⟩ | ⟨same, rfl⟩
      · refine .pure ⟨u, first, fun met _ => ⟨rfl, ?_⟩⟩
        rcases chosen with same | never
        · have equal := (Held.parts_of_beq same).2.1
          rw [openedA, openedB] at equal
          exact (Permission.same_of_beq equal).root
        · exact absurd never (Bool.eq_false_iff.mp met)
      · exact .pure ⟨v, second, fun _ met => absurd never (Bool.eq_false_iff.mp met)⟩
      · rw [Held.sameUnpacked, openedA, openedB, Bool.and_eq_true] at same
        have roots := Permission.root_eq_of_atLeastAsPrecise same.1
        intro supply
        obtain ⟨j, unpacked, root⟩ := Held.joinOn_opened openedA openedB
          (a.constraints ++ b.constraints).solution (a.constraints ++ b.constraints) true supply
        exact ⟨j, unpacked, fun _ _ => ⟨root, root.trans roots⟩⟩

end Receiver

namespace Tuple

variable {t : Tuple} {c : Clause} {cs : List Clause} {supply after : Supply}

/-- What stands in the way of a clause on one of the ways that met: its field has another place
there or none, or what is held at its place. -/
inductive Hinders (joined side : Tuple) (own : Supply) (c : Clause) : Prop
  | place (elsewhere : side.fieldLocation? c.target ≠ joined.fieldLocation? c.target)
  | held {l : Location} {j h : Held} (place : joined.fieldLocation? c.target = some l)
      (left : joined.get l = .held j) (right : side.get l = .held h)
      (hinders :
        let asked := ((RequestSet.ofSpec c.space c.spec false).run own).1
        Pool.Hinders c.space (h.constraints ++ asked.constraints).solution
          (j.pool c.spec.frame) (h.pool c.spec.frame) c.spec.kind c.spec.root)

/-- Something stands in the way of the first clause, or of a later one when both have got there. -/
inductive HindersAlong : Tuple → Supply → Tuple → Supply → List Clause → Prop
  | here {joined side : Tuple} {supply own : Supply} {c : Clause} {rest : List Clause}
      (hinders : joined.Hinders side own c) : HindersAlong joined supply side own (c :: rest)
  | later {joined side left u : Tuple} {supply own after last : Supply} {c : Clause}
      {rest : List Clause} (taken : (joined.takeClause c).run supply = (some left, after))
      (took : (side.takeClause c).run own = (some u, last))
      (hinders : HindersAlong left after u last rest) :
      HindersAlong joined supply side own (c :: rest)

/-- With the same places there, only a clause that asks for more than a share is hindered. -/
theorem HindersAlong.exists_clause {joined side : Tuple} {own : Supply}
    (hinders : HindersAlong joined supply side own cs) :
    ∃ c ∈ cs, side.fieldLocation? c.target ≠ joined.fieldLocation? c.target ∨
      c.spec.kind ≠ .share := by
  induction hinders with
  | @here joined side _ own c rest hinders =>
    refine ⟨c, List.mem_cons_self, ?_⟩
    cases hinders with
    | place elsewhere => exact .inl elsewhere
    | held _ _ _ hinders =>
      refine .inr ?_
      cases hinders with
      | kind writes _ _ => exact writes
      | lower looks _ => exact looks ▸ nofun
  | @later joined side left u supply own _ _ c rest taken took _ ih =>
    obtain ⟨d, member, cause⟩ := ih
    have leaves := takeClause_leaves joined c supply left (congrArg Prod.fst taken)
    have leavesSide := takeClause_leaves side c own u (congrArg Prod.fst took)
    rw [leaves.fieldLocation?, leavesSide.fieldLocation?] at cause
    exact ⟨d, List.mem_cons_of_mem c member, cause⟩

/-- What one way holds backs what is held after the join, everywhere. -/
def Tracks (spaces : Location → Space) (n : Nat) (joined side : Tuple) : Prop :=
  ∀ l, Holding.Tracks (spaces l) n (joined.get l) (side.get l)

section Tracking

variable {spaces : Location → Space} {n : Nat} {joined side left : Tuple} {own : Supply}
  (grown : ∀ l, (spaces l).Grown) (tracks : Tracks spaces n joined side) (past : n ≤ own.next)

include grown tracks past

theorem takeClause_tracks
    (typed : ∀ l, joined.fieldLocation? c.target = some l → c.space = spaces l)
    (taken : (joined.takeClause c).run supply = (some left, after)) :
    (∃ u last, (side.takeClause c).run own = (some u, last) ∧ Tracks spaces last.next left u) ∨
      joined.Hinders side own c := by
  obtain ⟨l, place, known, possible, rfl, rfl⟩ := takeClause_eq_some_iff.mp taken
  by_cases same : side.fieldLocation? c.target = joined.fieldLocation? c.target
  · have space := typed l place
    have here := tracks l
    rw [← space] at here
    have grownC : c.space.Grown := space ▸ grown l
    let asked := (RequestSet.ofSpec c.space c.spec false).run own
    let rest := ((side.get l).split asked.1).run asked.2
    rcases here.split grownC c.spec supply.next past known possible with
      ⟨states, met, again⟩ | ⟨j, h, left, right, hinders⟩
    · refine .inl ⟨side.set l rest.1, rest.2, ?_, fun other => ?_⟩
      · exact takeClause_eq_some_iff.mpr ⟨l, same.trans place, states, met, rfl, rfl⟩
      · by_cases apart : other = l
        · rw [apart, get_set_self, get_set_self, ← space]
          exact again
        · -- Elsewhere nothing has changed, and more numbers are drawn now.
          have order : own.next ≤ asked.2.next := (ofSpec_fresh grownC c.spec false own.next).order
          have more : own.next ≤ rest.2.next := (side.get l).split_keeps asked.1 asked.2 order
          rw [get_set_of_ne _ _ apart, get_set_of_ne _ _ apart]
          exact (tracks other).mono (past.trans more)
    · exact .inr (.held place left right hinders)
  · exact .inr (.place same)

/-- Clause after clause, a side that nothing hinders takes what is taken after the join. -/
theorem takeClauses_tracks
    (typed : ∀ c ∈ cs, ∀ l, joined.fieldLocation? c.target = some l → c.space = spaces l)
    (taken : (joined.takeClauses cs).run supply = (some left, after)) :
    (∃ u last, (side.takeClauses cs).run own = (some u, last)) ∨
      HindersAlong joined supply side own cs := by
  induction cs generalizing n joined side supply own with
  | nil => exact .inl ⟨side, own, rfl⟩
  | cons c rest ih =>
    obtain ⟨middle, between, first, later⟩ := takeClauses_cons_eq_some_iff.mp taken
    rw [List.forall_mem_cons] at typed
    rcases takeClause_tracks grown tracks past typed.1 first with ⟨u, last, took, again⟩ | hinders
    · have leaves := takeClause_leaves joined c supply middle (congrArg Prod.fst first)
      have others : ∀ d ∈ rest, ∀ l, middle.fieldLocation? d.target = some l →
          d.space = spaces l := by
        intro d member l place
        exact typed.2 d member l ((leaves.fieldLocation? d.target).symm.trans place)
      rcases ih again (Nat.le_refl _) others later with ⟨v, ended, done⟩ | hinders
      · exact .inl ⟨v, ended, takeClauses_cons_eq_some_iff.mpr ⟨u, last, took, done⟩⟩
      · exact .inr (.later first took hinders)
    · exact .inr (.here hinders)

end Tracking

section Packing

variable {d : ClassDecl} {r : Location} {states : List String} {session next : Session}

theorem packReceiver_eq_ok_iff {p : Permission} (receiver : t.receiver = some r)
    (unpacked : (t.get r).unpacked = some p) :
    (∃ packed next, (t.packReceiver d states).run.run session = (.ok (.ok packed), next)) ↔
      let under := d.statesUnder p.root states
      (∃ left after, (t.takeInvariants (d.invariantsTo p.root under)).run session.supply =
        (.ok left, after)) ∧
      (session.logging = true →
        (SExpr.list [.atom "pack", .atom r.text, .list (under.map .atom)]).badAtom? = none) := by
  obtain ⟨work, done, -⟩ := Holding.exists_pack unpacked (d.statesUnder p.root states)
  simp only [packReceiver_run receiver unpacked done]
  rcases (t.takeInvariants (d.invariantsTo p.root (d.statesUnder p.root states))).run
    session.supply with ⟨_ | left, after⟩
  -- If the invariants are not taken, nothing is packed.
  · constructor
    · rintro ⟨packed, next, ran⟩
      obtain ⟨_, _, -, ⟨⟩⟩ := run_bind_eq_ok.mp ran
    · rintro ⟨⟨_, _, ⟨⟩⟩, -⟩
  · constructor
    · rintro ⟨packed, next, ran⟩
      refine ⟨⟨left, after, rfl⟩, fun logging => ?_⟩
      obtain ⟨_, _, logged, -⟩ := run_bind_eq_ok.mp ran
      rw [log_run, if_pos logging] at logged
      split at logged
      · cases logged
      · next printable => exact printable
    · rintro ⟨-, printable⟩
      -- Packing itself cannot fail, so only the log can refuse.
      let last : Session := { session with supply := (work.run after).2 }
      obtain ⟨lines, logged⟩ := log_run_of_printable (show last.logging = true → _ from printable)
      exact ⟨_, _, run_bind_eq_ok.mpr ⟨(), _, logged, rfl⟩⟩

/-- Everything held is in order for the space of its location, with fractions that were drawn before
the given number, and the invariants of the class speak of fields in the spaces of their places. -/
structure Typed (spaces : Location → Space) (n : Nat) (d : ClassDecl) (t : Tuple) : Prop where
  stocked : ∀ l, (t.get l).Stocked (spaces l) n
  clauses : ∀ entry ∈ d.invariants, ∀ c ∈ entry.2.parts, ∀ l,
    (c.target, l) ∈ t.fields.entries → c.space = spaces l

/-- What stands in the way of a pack on one of the ways that met. -/
inductive PackHindered (joined : Tuple) (supply : Supply) (side : Tuple) (own : Supply)
    (d : ClassDecl) (states : List String) (r : Location) : Prop
  | root {j p : Permission} (left : (joined.get r).unpacked = some j)
      (right : (side.get r).unpacked = some p) (apart : p.root ≠ j.root)
  | clauses {j : Permission} (left : (joined.get r).unpacked = some j)
      (hinders : HindersAlong joined supply side own
        (d.clausesTo j.root (d.statesUnder j.root states)))

section Sides

variable {spaces : Location → Space} {n : Nat} {joined side packed : Tuple} {own : Session}

/-- A side that backs what is held after the join can be packed as well, unless it is hindered. -/
theorem packReceiver_tracks (grown : ∀ l, (spaces l).Grown) (tracks : Tracks spaces n joined side)
    (typed : ∀ entry ∈ d.invariants, ∀ c ∈ entry.2.parts, ∀ l,
      (c.target, l) ∈ joined.fields.entries → c.space = spaces l)
    (receiver : joined.receiver = some r) (sideReceiver : side.receiver = some r)
    {j p : Permission} (unpacked : (joined.get r).unpacked = some j)
    (sideUnpacked : (side.get r).unpacked = some p)
    (ran : (joined.packReceiver d states).run.run session = (.ok (.ok packed), next))
    (past : n ≤ own.supply.next) (logs : own.logging = true → session.logging = true) :
    (∃ packed next, (side.packReceiver d states).run.run own = (.ok (.ok packed), next)) ∨
      joined.PackHindered session.supply side own.supply d states r := by
  by_cases same : p.root = j.root
  · obtain ⟨⟨left, after, taken⟩, printable⟩ :=
      (packReceiver_eq_ok_iff receiver unpacked).mp ⟨packed, next, ran⟩
    obtain ⟨possible, took⟩ := takeInvariants_eq_ok_iff.mp taken
    have places : ∀ c ∈ d.clausesTo j.root (d.statesUnder j.root states), ∀ l,
        joined.fieldLocation? c.target = some l → c.space = spaces l := by
      intro c member l place
      obtain ⟨entry, among, part⟩ := ClassDecl.exists_of_mem_clausesTo member
      exact typed entry among c part l (SortedMap.mem_of_get? place)
    rcases takeClauses_tracks grown tracks past places took with ⟨u, last, done⟩ | hinders
    · refine .inl ((packReceiver_eq_ok_iff sideReceiver sideUnpacked).mpr ?_)
      rw [same]
      exact ⟨⟨u, last, takeInvariants_eq_ok_iff.mpr ⟨possible, done⟩⟩,
        fun logging => printable (logs logging)⟩
    · exact .inr (.clauses unpacked hinders)
  · exact .inr (.root unpacked sideUnpacked same)

end Sides

section Joins

variable {w : Tuple} {work : SupplyM Tuple}

theorem join_tracks {spaces : Location → Space} {n : Nat} (grown : ∀ l, (spaces l).Grown)
    (left : ∀ l, (t.get l).Stocked (spaces l) n) (right : ∀ l, (w.get l).Stocked (spaces l) n)
    (done : t.join w .branch = .ok work) :
    Yields work fun joined => Tracks spaces n joined t ∧ Tracks spaces n joined w := by
  intro start
  have each (l : Location) : Holding.Tracks (spaces l) n ((work.run start).1.get l) (t.get l) ∧
      Holding.Tracks (spaces l) n ((work.run start).1.get l) (w.get l) := by
    obtain ⟨piece, supply, joined, same⟩ := join_get done l start
    rw [same]
    exact Holding.join_tracks (grown l) (left l) (right l) joined supply
  exact ⟨fun l => (each l).1, fun l => (each l).2⟩

end Joins

end Packing

namespace Gate

def space : Space :=
  let leaf := ((Space.Draft.new "Gate").addDimension (some "leaf") alive ["open", "shut"] false).1
  (leaf.addDimension (some "bolt") alive ["drawn", "shot"] false).1.space

theorem built : space.Built := ⟨_, .addDimension (.addDimension (.new "Gate") ..) .., rfl⟩

/-- Gates in a row: each one holds a permission for the next one while it is in a state. -/
def gate (state : String) (kind : Kind) : ClassDecl :=
  ⟨"Gate", space, [(state, .clauses [⟨"next", space, ⟨kind, alive, [], false⟩⟩])]⟩

/-- The same fraction of everything from a root up and below it. -/
def evenly (root : String) (f : Fraction) (frame : Bool) : Permission :=
  .make (.constant space root f) false frame []

/-- A gate that is unpacked at a root, and what is held of the one behind it. -/
def row (root : String) (own : Constraints) (fields : List (String × Location)) (next : Pool)
    (cs : Constraints) : Tuple :=
  { holdings := ⟨[(⟨0⟩, .held ⟨[], [], some (evenly root .one true), own⟩),
      (⟨1⟩, .held ⟨next, [], none, cs⟩)]⟩
    receiver := some ⟨0⟩
    fields := ⟨fields⟩ }

theorem stocked_empty (u : Option Permission) (n : Nat) :
    Held.Stocked space n ⟨[], [], u, .empty⟩ := by
  have nothing (inFrame : Bool) : Pool.Orderly space inFrame [] := by
    refine ⟨.nil, ?_⟩
    rintro p ⟨⟩
  refine ⟨⟨nothing false, nothing true, .nil⟩, fun inFrame => ?_, ⟨?_, ?_, ?_⟩⟩
  · cases inFrame
    all_goals rintro p ⟨⟩
  all_goals rintro p ⟨⟩

theorem stocked_evenly {f : Fraction} {cs : Constraints} {n : Nat} (drawn : f.IsDrawn n)
    (drawnC : cs.IsDrawn n) (distinct : cs.items.Nodup) :
    Held.Stocked space n ⟨[evenly alive f false], [], none, cs⟩ := by
  have vacant := stocked_empty none n
  have ordered : Pool.Orderly space false [evenly alive f false] :=
    ⟨⟨List.forall_mem_singleton.mpr rfl, List.forall_mem_singleton.mpr rfl,
      List.pairwise_singleton _ _⟩, List.forall_mem_singleton.mpr
        (by simp [evenly, Permission.make, Shares.Laid, Shares.constant, Function.comp_def])⟩
  refine ⟨⟨ordered, vacant.frames, distinct⟩, fun inFrame => ?_, drawnC, ?_, vacant.drawn.frames⟩
  · cases inFrame with
    | false =>
      refine List.forall_mem_singleton.mpr ⟨rfl, ?_⟩
      rintro s ⟨⟩
    | true => exact vacant.neat true
  · refine List.forall_mem_singleton.mpr fun g inside => ?_
    rw [Shares.eq_of_mem_constant inside]
    exact drawn

theorem row_typed {kind : Kind} {f : Fraction} {cs : Constraints} {n : Nat} (drawn : f.IsDrawn n)
    (drawnC : cs.IsDrawn n) (distinct : cs.items.Nodup) :
    (row alive .empty [("next", ⟨1⟩)] [evenly alive f false] cs).Typed (fun _ => space) n
      (gate alive kind) := by
  refine ⟨fun l => ?_, ?_⟩
  · rw [get]
    cases found : (row alive .empty [("next", ⟨1⟩)] [evenly alive f false] cs).holdings.get? l with
    | none => exact stocked_empty none n
    | some x =>
      have entry := SortedMap.mem_of_get? found
      simp only [row, List.mem_cons, Prod.mk.injEq, List.not_mem_nil, or_false] at entry
      rcases entry with ⟨-, rfl⟩ | ⟨-, rfl⟩
      · exact stocked_empty _ n
      · exact stocked_evenly drawn drawnC distinct
  · intro entry among c part l _
    cases List.mem_singleton.mp among
    cases List.mem_singleton.mp part
    rfl

/-- After the join of two tuples with one unpacked receiver a pack goes through that does not go
through on one of them. -/
structure PacksOnlyJoined (d : ClassDecl) (t w side : Tuple) : Prop where
  receiver : ∃ r p q, (t.receiver = some r ∧ w.receiver = some r) ∧
    (t.get r).unpacked = some p ∧ (w.get r).unpacked = some q
  packs : ∃ work, t.join w .branch = .ok work ∧
    ∃ packed next, ((work.run ⟨9⟩).1.packReceiver d []).run.run
      { Session.new with supply := (work.run ⟨9⟩).2 } = (.ok (.ok packed), next)
  fails : ∃ failed next, (side.packReceiver d []).run.run
    { Session.new with supply := ⟨9⟩ } = (.ok (.error failed), next)

theorem packsOnlyJoined_of {d : ClassDecl} {t w side : Tuple}
    (receiver : ∃ r p q, (t.receiver = some r ∧ w.receiver = some r) ∧
      (t.get r).unpacked = some p ∧ (w.get r).unpacked = some q)
    (packs : ((t.join w .branch).toOption.any fun work =>
      leadsTo ((work.run ⟨9⟩).1.packReceiver d []) { Session.new with supply := (work.run ⟨9⟩).2 }
        fun result _ => result.toOption.isSome) = true)
    (fails : leadsTo (side.packReceiver d []) { Session.new with supply := ⟨9⟩ }
      (fun result _ => result.toOption.isNone) = true) : PacksOnlyJoined d t w side := by
  refine ⟨receiver, ?_, ?_⟩
  · cases joins : t.join w .branch with
    | error fault =>
      rw [joins] at packs
      cases packs
    | ok work =>
      rw [joins] at packs
      obtain ⟨result, next, ran, ends⟩ := exists_of_leadsTo packs
      cases result with
      | error failed => cases ends
      | ok packed => exact ⟨work, rfl, packed, next, ran⟩
  · obtain ⟨result, next, ran, ends⟩ := exists_of_leadsTo fails
    cases result with
    | error failed => exact ⟨failed, next, ran⟩
    | ok packed => cases ends

end Gate

section Rows

open Gate

end Rows

end Tuple

end Typestate
