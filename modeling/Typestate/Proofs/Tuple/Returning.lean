import Typestate.Proofs.Holding.Returning
import Typestate.Proofs.Tuple.Taking

set_option autoImplicit false

/-!
Unpacking can be undone. The invariants that are handed out when the receiver is unpacked are just
those that packing takes back, and each of them can be split off its own copy.
-/

namespace Typestate

open Analysis

theorem Location.isAtom_text (l : Location) : SExpr.isAtom l.text = true := by
  have digits : ∀ c ∈ (toString l.index).toList, c.isAlphanum = true := by
    intro c member
    have among : c ∈ Nat.toDigits 10 l.index := by simpa [toString, Nat.repr] using member
    have digit := Nat.isDigit_of_mem_toDigits (by decide) (by decide) among
    simp [Char.isAlphanum, digit]
  have plain : ∀ c ∈ l.text.toList, c.isAlphanum = true := by
    rw [Location.text, String.toList_append]
    exact List.forall_mem_append.mpr ⟨by simp, digits⟩
  rw [SExpr.isAtom, SExpr.run_of_isAlphanum plain]
  simp [Location.text]

theorem nodup_eraseDups : ∀ names : List String, names.eraseDups.Nodup
  | [] => .nil
  | n :: rest => by
    rw [List.eraseDups_cons, List.nodup_cons, List.mem_eraseDups]
    exact ⟨by simp, nodup_eraseDups _⟩
  termination_by names => names.length
  decreasing_by exact Nat.lt_succ_of_le (List.length_filter_le _ _)

namespace ClassDecl

variable {c : ClassDecl} {root : String} {states others : List String}

theorem clausesTo_perm (same : ∀ n, n ∈ c.nodesTo root states ↔ n ∈ c.nodesTo root others) :
    (c.clausesTo root states).Perm (c.clausesTo root others) := by
  have nodes : (c.nodesTo root states).Perm (c.nodesTo root others) :=
    (List.perm_ext_iff_of_nodup (nodup_eraseDups _) (nodup_eraseDups _)).mpr same
  exact (nodes.filterMap _).flatMap_right _

theorem clausesTo_stateInfo_perm (grown : c.space.Grown) (p : Permission) :
    (c.clausesTo p.root (c.statesUnder p.root (Pool.stateInfo [p]))).Perm
      (c.clausesTo p.root p.states) := by
  refine clausesTo_perm fun n => ?_
  rw [mem_nodesTo_statesUnder grown, mem_nodesTo grown, mem_nodesTo grown]
  simp only [Pool.stateInfo, List.flatMap_singleton, List.mem_eraseDups, List.mem_cons,
    exists_eq_or_imp]
  constructor
  · -- The root is among what is known as well, but nothing else lies between it and itself.
    rintro (same | (⟨higher, lower⟩ | known))
    · exact .inl same
    · simp only [Space.covers_iff] at higher lower
      exact .inl (grown.above_antisymm lower higher)
    · exact .inr known
  · exact Or.imp_right .inr

end ClassDecl

namespace Clause

/-- The clause is about states of a built space, and not about dimensions. -/
structure OfStates (c : Clause) : Prop where
  built : c.space.Built
  plain : ∀ s ∈ c.spec.states, c.space.isDimension s = false

/-- Held is what the clause grants, with fractions that were drawn before the given number. -/
def GrantedBefore (c : Clause) (n : Nat) (x : Holding) : Prop :=
  ∃ first, ((RequestSet.ofSpec c.space c.spec false).run ⟨first⟩).2.next ≤ n ∧
    x = .held (c.spec.granted c.space first)

end Clause

namespace Tuple

/-- Each clause has a place of its own, and what is held there is as it should be for the clause. -/
structure Placed (t : Tuple) (held : Clause → Holding → Prop) (cs : List Clause) : Prop where
  apart : (cs.map fun c => t.fieldLocation? c.target).Nodup
  there : ∀ c ∈ cs, ∃ l, t.fieldLocation? c.target = some l ∧ held c (t.get l)

variable {t u : Tuple} {c : Clause} {cs ds : List Clause} {n m : Nat} {l : Location}
  {held : Clause → Holding → Prop}

theorem Placed.after (placed : t.Placed held (cs ++ ds)) (leaves : t.Leaves cs u) :
    u.Placed held ds := by
  obtain ⟨apart, there⟩ := placed
  rw [List.map_append, List.nodup_append] at apart
  simp only [List.forall_mem_append] at there
  refine ⟨?_, fun d member => ?_⟩
  · simpa only [leaves.fieldLocation?] using apart.2.1
  · obtain ⟨l, place, kept⟩ := there.2 d member
    -- The places of the clauses that were taken are other ones.
    have untouched : u.get l = t.get l := by
      rw [Tuple.get, leaves.elsewhere l]
      · rfl
      · intro c among found
        exact apart.2.2 _ (List.mem_map_of_mem among) _ (List.mem_map_of_mem member)
          (found.trans place.symm)
    refine ⟨l, (leaves.fieldLocation? d.target).trans place, ?_⟩
    rw [untouched]
    exact kept

theorem Placed.left (placed : t.Placed held (cs ++ ds)) : t.Placed held cs := by
  obtain ⟨apart, there⟩ := placed
  rw [List.map_append] at apart
  exact ⟨apart.of_append_left, fun c member => there c (List.mem_append_left _ member)⟩

theorem Placed.perm (placed : t.Placed held cs) (perm : cs.Perm ds) : t.Placed held ds :=
  ⟨(perm.map _).nodup_iff.mp placed.apart, fun d member =>
    placed.there d (perm.mem_iff.mpr member)⟩

section Taking

theorem takeClause_run (states : c.OfStates) (stocked : t.Placed (·.GrantedBefore n) [c])
    (past : n ≤ m) :
    ∃ u next, (t.takeClause c).run ⟨m⟩ = (some u, next) ∧ m ≤ next.next := by
  -- What was granted at the place of the clause is known to be in its states and can be split.
  obtain ⟨l, place, first, before, held⟩ := stocked.there c List.mem_cons_self
  have grown := states.built.grown
  have known := c.spec.isInStates_granted grown states.plain first
  have met := c.spec.split_granted grown (before.trans past)
  let asked := (RequestSet.ofSpec c.space c.spec false).run ⟨m⟩
  let rest := ((t.get l).split asked.1).run asked.2
  have order : m ≤ asked.2.next := (ofSpec_fresh grown c.spec false m).order
  have more : m ≤ rest.2.next := (t.get l).split_keeps asked.1 asked.2 order
  rw [← held] at known met
  exact ⟨t.set l rest.1, rest.2,
    takeClause_eq_some_iff.mpr ⟨l, place, known, met, rfl, rfl⟩, more⟩

theorem takeClauses_run (states : ∀ c ∈ cs, c.OfStates)
    (stocked : t.Placed (·.GrantedBefore n) cs) (past : n ≤ m) :
    ∃ u next, (t.takeClauses cs).run ⟨m⟩ = (some u, next) ∧ m ≤ next.next := by
  induction cs generalizing t m with
  | nil => exact ⟨t, ⟨m⟩, rfl, Nat.le_refl m⟩
  | cons c rest ih =>
    rw [List.forall_mem_cons] at states
    replace stocked : t.Placed (·.GrantedBefore n) ([c] ++ rest) := stocked
    obtain ⟨u, ⟨middle⟩, took, more⟩ := takeClause_run states.1 stocked.left past
    have leaves := takeClause_leaves t c ⟨m⟩ u (congrArg Prod.fst took)
    obtain ⟨v, next, taken, most⟩ := ih states.2 (stocked.after leaves) (past.trans more)
    exact ⟨v, next, takeClauses_cons_eq_some_iff.mpr ⟨u, _, took, taken⟩, more.trans most⟩

theorem takeInvariants_run {invs : List (String × Predicate)}
    (possible : ∀ entry ∈ invs, entry.2 ≠ .void)
    (states : ∀ c ∈ invs.flatMap fun entry => entry.2.parts, c.OfStates)
    (stocked : t.Placed (·.GrantedBefore n) (invs.flatMap fun entry => entry.2.parts))
    (past : n ≤ m) :
    ∃ u next, (t.takeInvariants invs).run ⟨m⟩ = (.ok u, next) ∧ m ≤ next.next := by
  obtain ⟨u, next, taken, more⟩ := takeClauses_run states stocked past
  exact ⟨u, next, takeInvariants_eq_ok_iff.mpr ⟨possible, taken⟩, more⟩

end Taking

section Granting

theorem grant_run (place : t.fieldLocation? c.target = some l) (nothing : t.get l = .empty) :
    (t.grant c).run ⟨n⟩ = (t.set l (.held (c.spec.granted c.space n)),
      ((RequestSet.ofSpec c.space c.spec false).run ⟨n⟩).2) := by
  let request := (RequestSet.ofSpec c.space c.spec false).run ⟨n⟩
  simp only [grant, place, nothing]
  change (fun merged : Holding × Supply => (t.set l merged.1, merged.2))
    ((Holding.empty.merge request.1).run request.2) = _
  rw [c.spec.merge_empty n]

theorem grants_run (vacant : t.Placed (fun _ x => x = .empty) cs)
    (states : ∀ c ∈ cs, c.OfStates) (n : Nat) :
    ∃ u m, (cs.foldlM grant t).run ⟨n⟩ = (u, ⟨m⟩) ∧ n ≤ m ∧ u.Placed (·.GrantedBefore m) cs ∧
      u.receiver = t.receiver ∧ u.fields = t.fields ∧
      ∀ l, (∀ c ∈ cs, t.fieldLocation? c.target ≠ some l) → u.get l = t.get l := by
  induction cs generalizing t n with
  | nil => exact ⟨t, n, rfl, Nat.le_refl n, ⟨.nil, nofun⟩, rfl, rfl, fun _ _ => rfl⟩
  | cons c rest ih =>
    obtain ⟨l, place, nothing⟩ := vacant.there c List.mem_cons_self
    obtain ⟨own, others⟩ := List.nodup_cons.mp vacant.apart
    rw [List.forall_mem_cons] at states
    -- No other clause has the place that is used now.
    have apart : ∀ d ∈ rest, t.fieldLocation? d.target ≠ some l := fun d member found =>
      own (List.mem_map.mpr ⟨d, member, found.trans place.symm⟩)
    let x : Holding := .held (c.spec.granted c.space n)
    have left : (t.set l x).Placed (fun _ x => x = .empty) rest := by
      refine ⟨others, fun d member => ?_⟩
      obtain ⟨free, there, empty⟩ := vacant.there d (List.mem_cons_of_mem c member)
      have other : free ≠ l := fun same => apart d member (same ▸ there)
      exact ⟨free, there, (get_set_of_ne t x other).trans empty⟩
    let drawn := ((RequestSet.ofSpec c.space c.spec false).run ⟨n⟩).2
    have order : n ≤ drawn.next := (ofSpec_fresh states.1.built.grown c.spec false n).order
    obtain ⟨u, m, ran, more, stocked, receiver, fields, same⟩ := ih left states.2 drawn.next
    have here : u.get l = x := (same l apart).trans (get_set_self t l x)
    have places (field : String) : u.fieldLocation? field = t.fieldLocation? field := by
      rw [fieldLocation?, fields]
      rfl
    refine ⟨u, m, ?_, order.trans more, ⟨?_, ?_⟩, receiver, fields, fun other free => ?_⟩
    · rw [List.foldlM_cons, StateT.run_bind, grant_run place nothing]
      exact ran
    · simpa only [places] using vacant.apart
    · refine List.forall_mem_cons.mpr ⟨⟨l, (places c.target).trans place, ?_⟩, stocked.there⟩
      exact ⟨n, more, here⟩
    · rw [List.forall_mem_cons] at free
      have beside : other ≠ l := fun equal => free.1 (equal ▸ place)
      exact (same other free.2).trans (get_set_of_ne t x beside)

end Granting

section Sessions

variable {d : ClassDecl} {r : Location} (receiver : t.receiver = some r) {work : SupplyM Holding}
  {session : Session}

include receiver

theorem unpackReceiver_run {root : String} (done : (t.get r).unpack d.space root = .ok work)
    (printable : session.logging = true → SExpr.isAtom root = true) :
    let known := d.statesUnder root ((t.get r).stateInfo true)
    let unpacking := work.run session.supply
    let granting := ((d.clausesTo root known).foldlM grant (t.set r unpacking.1)).run unpacking.2
    ∃ lines, (t.unpackReceiver d root).run.run session =
      (.ok granting.1, { session with supply := granting.2, log := lines }) := by
  intro known unpacking granting
  let middle : Session := { session with supply := unpacking.2 }
  have shown : middle.logging = true →
      (SExpr.phrase [.atom "unpack", .atom r.text, .atom root]).badAtom? = none := by
    intro logging
    have atoms : ∀ n ∈ ["unpack", r.text, root], SExpr.isAtom n = true := by
      simp [r.isAtom_text, printable logging]
      decide
    exact SExpr.badAtom?_phrase atoms
  obtain ⟨lines, logged⟩ := log_run_of_printable shown
  refine ⟨lines, ?_⟩
  unfold unpackReceiver
  rw [receiverOrFault_of_some receiver]
  simp only [liftFault, pure_bind, done, liftGuarded]
  rw [liftSupply_bind_run]
  exact run_bind_eq_ok.mpr ⟨(), _, logged, rfl⟩

theorem packReceiver_run_ok {u : Permission} {states : List String} {staged : Tuple}
    {supply : Supply} (unpacked : (t.get r).unpacked = some u)
    (under : d.statesUnder u.root states = states) (done : (t.get r).pack states = .ok work)
    (taking : (t.takeInvariants (d.invariantsTo u.root states)).run session.supply =
      (.ok staged, supply))
    (printable : session.logging = true → ∀ s ∈ states, SExpr.isAtom s = true) :
    ∃ next, (t.packReceiver d states).run.run session =
      (.ok (.ok (staged.set r (work.run supply).1)), next) := by
  let last : Session := { session with supply := (work.run supply).2 }
  have shown : last.logging = true →
      (SExpr.list [.atom "pack", .atom r.text, .list (states.map .atom)]).badAtom? = none := by
    intro logging
    simp [SExpr.badAtom?, SExpr.badAtomIn?, r.isAtom_text,
      SExpr.badAtomIn?_atoms (printable logging)]
    decide
  obtain ⟨lines, logged⟩ := log_run_of_printable shown
  rw [packReceiver_run receiver unpacked (under.symm ▸ done), under, taking]
  exact ⟨_, run_bind_eq_ok.mpr ⟨(), _, logged, rfl⟩⟩

end Sessions

/-- The receiver is packed with one frame permission, for which the invariants of its states can be
handed out: each field that they name has a place of its own, where nothing is held. -/
structure Undoable (t : Tuple) (c : ClassDecl) (r : Location) (p : Permission) : Prop where
  receiver : t.receiver = some r
  packed : (t.get r).isUnpacked = false
  frames : (t.get r).frames = [p]
  class_built : c.space.Built
  space_built : p.space.Built
  made : ∃ known, p = .make p.shares p.readOnly p.frame known
  under : ∀ s ∈ p.states, c.space.covers p.root s = true
  possible : ∀ entry ∈ c.invariantsTo p.root p.states, entry.2 ≠ .void
  states : ∀ clause ∈ c.clausesTo p.root p.states, clause.OfStates
  once : ((c.clausesTo p.root p.states).map Clause.target).Nodup
  mapped : ∀ clause ∈ c.clausesTo p.root p.states, ∃ l,
    t.fieldLocation? clause.target = some l ∧ l ≠ r ∧ t.get l = .empty
  apart : ∀ a ∈ c.clausesTo p.root p.states, ∀ b ∈ c.clausesTo p.root p.states,
    t.fieldLocation? a.target = t.fieldLocation? b.target → a.target = b.target

/-- The receiver is unpacked, and what its invariants grant is held for each field on its own. -/
structure Opened (t : Tuple) (c : ClassDecl) (r : Location) (p : Permission) (n : Nat) : Prop where
  receiver : t.receiver = some r
  unpacked : (t.get r).unpacked = some p
  frames : (t.get r).frames = []
  stocked : t.Placed (·.GrantedBefore n) (c.clausesTo p.root p.states)

section Undoing

variable {d : ClassDecl} {r : Location} {p : Permission} (undoable : t.Undoable d r p)

include undoable

theorem Undoable.withStates_eq : p.withStates p.states = p := by
  obtain ⟨known, made⟩ := undoable.made
  have clean : p.states = p.space.cleanStates known := congrArg Permission.states made
  have again : p.space.cleanStates p.states = p.states := by
    rw [clean]
    exact p.space.cleanStates_cleanStates known
  rw [Permission.withStates, Permission.make,
    show p.shares.space.cleanStates p.states = _ from again]

theorem Undoable.statesUnder_eq : d.statesUnder p.root p.states = p.states :=
  List.filter_eq_self.mpr undoable.under

theorem Undoable.exists_held :
    ∃ h, t.get r = .held h ∧ h.unpacked = none ∧ h.frames = [p] := by
  have packed := undoable.packed
  have frames := undoable.frames
  cases held : t.get r with
  | bottom => rw [held] at frames; cases frames
  | held h =>
    rw [held] at packed frames
    exact ⟨h, rfl, by simpa [Holding.isUnpacked, Holding.unpacked] using packed, frames⟩

theorem Undoable.vacant (x : Holding) :
    (t.set r x).Placed (fun _ y => y = .empty) (d.clausesTo p.root p.states) := by
  refine ⟨?_, fun clause member => ?_⟩
  · have places := undoable.once.of_map
    refine places.map_on fun a first b second same => ?_
    exact List.inj_on_of_nodup_map undoable.once first second
      (undoable.apart a first b second same)
  · obtain ⟨l, place, apart, nothing⟩ := undoable.mapped clause member
    exact ⟨l, place, (get_set_of_ne t x apart).trans nothing⟩

theorem Undoable.unpacks (session : Session)
    (printable : session.logging = true → SExpr.isAtom p.root = true) :
    ∃ opened middle, (t.unpackReceiver d p.root).run.run session = (.ok opened, middle) ∧
      opened.Opened d r p middle.supply.next ∧ middle.logging = session.logging := by
  obtain ⟨h, held, packed, frames⟩ := undoable.exists_held
  obtain ⟨work, done, worked⟩ := Holding.unpack_sole packed frames d.space
  rw [← held] at done
  let x : Holding := .held { h with
    frames := []
    unpacked := some p
    constraints := h.constraints.addNonZero p.shares.rootValue }
  have known : (t.get r).stateInfo true = Pool.stateInfo [p] := by
    rw [held, ← frames]
    rfl
  -- The invariants may come in another order than packing will ask for them.
  have perm := ClassDecl.clausesTo_stateInfo_perm undoable.class_built.grown p
  obtain ⟨opened, m, granting, -, stocked, receiver, -, same⟩ :=
    grants_run ((undoable.vacant x).perm perm.symm)
      (fun clause member => undoable.states clause (perm.mem_iff.mp member)) session.supply.next
  obtain ⟨lines, ran⟩ := unpackReceiver_run undoable.receiver done printable
  rw [known, worked] at ran
  -- No field that gets something is the receiver.
  have here : opened.get r = x := by
    refine (same r fun clause member found => ?_).trans (get_set_self t r x)
    obtain ⟨l, place, apart, -⟩ := undoable.mapped clause (perm.mem_iff.mp member)
    exact apart (Option.some.inj (place.symm.trans found))
  refine ⟨opened, { session with supply := ⟨m⟩, log := lines }, ?_, ?_, rfl⟩
  · exact ran.trans (congrArg (fun left : Tuple × Supply =>
      (Except.ok left.1, { session with supply := left.2, log := lines })) granting)
  · exact ⟨receiver.trans undoable.receiver, by rw [here]; rfl, by rw [here]; rfl,
      stocked.perm perm⟩

theorem Undoable.repacks {session : Session} (opened : u.Opened d r p session.supply.next)
    (printable : session.logging = true → ∀ s ∈ p.states, SExpr.isAtom s = true) :
    ∃ closed last, (u.packReceiver d p.states).run.run session = (.ok (.ok closed), last) ∧
      closed.receiver = some r ∧ (closed.get r).unpacked = none ∧ (closed.get r).frames = [p] := by
  obtain ⟨receiver, unpacked, frames, stocked⟩ := opened
  obtain ⟨staged, next, taking, -⟩ :=
    takeInvariants_run undoable.possible undoable.states stocked (Nat.le_refl _)
  have leaves := (takeInvariants_leaves u _ session.supply).2 staged (congrArg Prod.fst taking)
  cases held : u.get r with
  | bottom => rw [held] at unpacked; cases unpacked
  | held h =>
    rw [held] at unpacked frames
    obtain ⟨work, done, worked⟩ := Holding.pack_sole (h := h) unpacked frames p.states
    rw [← held] at done unpacked
    obtain ⟨last, ran⟩ :=
      packReceiver_run_ok receiver unpacked undoable.statesUnder_eq done taking printable
    rw [worked, undoable.withStates_eq] at ran
    refine ⟨_, last, ran, leaves.receiver.trans receiver, ?_⟩
    rw [get_set_self]
    exact ⟨rfl, rfl⟩

/-- Unpacking is undone by packing to the states that the permission was known to be in. The
receiver then has the frame permission that it had before. -/
theorem unpackReceiver_undone (session : Session)
    (printable : session.logging = true → ∀ n ∈ p.root :: p.states, SExpr.isAtom n = true) :
    ∃ opened middle closed last,
      (t.unpackReceiver d p.root).run.run session = (.ok opened, middle) ∧
      opened.isReceiverUnpacked = true ∧
      (opened.packReceiver d p.states).run.run middle = (.ok (.ok closed), last) ∧
      closed.isReceiverUnpacked = false ∧ (closed.get r).isInStates p.states true = true ∧
      (closed.get r).frames = (t.get r).frames := by
  simp only [List.forall_mem_cons] at printable
  obtain ⟨opened, middle, unpacks, state, logging⟩ :=
    undoable.unpacks session fun logging => (printable logging).1
  rw [← logging] at printable
  obtain ⟨closed, last, repacks, receiver, packed, frames⟩ :=
    undoable.repacks state fun logging => (printable logging).2
  refine ⟨opened, middle, closed, last, unpacks, ?_, repacks, ?_, ?_, ?_⟩
  · simp [isReceiverUnpacked, unpacked?, state.receiver, state.unpacked]
  · simp [isReceiverUnpacked, unpacked?, receiver, packed]
  · rw [Holding.isInStates, List.all_eq_true]
    intro s member
    have implied := Permission.impliesState_of_mem undoable.space_built.grown member
    simp [Holding.isInState, Holding.pool, frames, implied]
  · rw [frames, undoable.frames]

end Undoing

namespace Link

/-- An open link as its methods start with it: nothing is held of the next one and of the log. -/
def start : Tuple :=
  { holdings := ⟨[(⟨0⟩, .held ⟨[], [(whole true).withStates ["open"]], none, .empty⟩),
      (⟨2⟩, .empty)]⟩
    receiver := some ⟨0⟩
    fields := ⟨[("log", ⟨2⟩), ("next", ⟨1⟩)]⟩ }

theorem start_undoable : start.Undoable link ⟨0⟩ ((whole true).withStates ["open"]) where
  receiver := rfl
  packed := rfl
  frames := rfl
  class_built := built
  space_built := built
  made := ⟨["open"], rfl⟩
  under := by decide
  possible := by
    change ∀ entry ∈ link.invariants, _
    simp [link]
  states := by
    change ∀ c ∈ [clause "next" .unique, clause "log" .share], _
    simp only [List.forall_mem_cons]
    exact ⟨⟨built, nofun⟩, ⟨built, nofun⟩, nofun⟩
  once := by decide
  mapped := by
    change ∀ c ∈ [clause "next" .unique, clause "log" .share], _
    simp only [List.forall_mem_cons]
    exact ⟨⟨⟨1⟩, rfl, by decide, rfl⟩, ⟨⟨2⟩, rfl, by decide, rfl⟩, nofun⟩
  apart := by decide

end Link

/-- The next link and the log are handed out and taken back. -/
theorem unpackReceiver_undone_of_link :
    ∃ opened middle closed last,
      (Link.start.unpackReceiver Link.link alive).run.run Session.new = (.ok opened, middle) ∧
      opened.isReceiverUnpacked = true ∧
      (opened.packReceiver Link.link ["open"]).run.run middle = (.ok (.ok closed), last) ∧
      closed.isReceiverUnpacked = false ∧ (closed.get ⟨0⟩).isInStates ["open"] true = true ∧
      (closed.get ⟨0⟩).frames = (Link.start.get ⟨0⟩).frames :=
  unpackReceiver_undone Link.start_undoable Session.new nofun

end Tuple

end Typestate
