import Typestate.Proofs.Holding.Returning
import Typestate.Proofs.Space.Relations

set_option autoImplicit false

/-!
What a predicate asks for one target. The clauses are added one by one, each compared with all that
were added before, so they are accepted exactly if every two of them can be held together. Then each
clause has its own request with fractions that no other one has.
-/

namespace Typestate

namespace Fraction

/-- Zero, one, or a fraction whose number is within bounds. -/
def NumberedIn (first last : Nat) : Fraction → Prop
  | .zero | .one => True
  | .named id | .unknown id => first ≤ id ∧ id < last

theorem NumberedIn.mono {first last start stop : Nat} {f : Fraction}
    (drawn : f.NumberedIn first last) (lower : start ≤ first) (upper : last ≤ stop) :
    f.NumberedIn start stop := by
  cases f with
  | zero => trivial
  | one => trivial
  | named id => exact ⟨lower.trans drawn.1, drawn.2.trans_le upper⟩
  | unknown id => exact ⟨lower.trans drawn.1, drawn.2.trans_le upper⟩

theorem NumberedIn.apart {first middle last : Nat} {f : Fraction}
    (early : f.NumberedIn first middle) (late : f.NumberedIn middle last) :
    f = .zero ∨ f = .one := by
  cases f with
  | zero => exact .inl rfl
  | one => exact .inr rfl
  | named id => exact absurd late.1 (Nat.not_le.mpr early.2)
  | unknown id => exact absurd late.1 (Nat.not_le.mpr early.2)

end Fraction

def Shares.NumberedIn (first last : Nat) (s : Shares) : Prop :=
  ∀ f ∈ s.fractions, f.NumberedIn first last

section Drawing

theorem freshOf_numberedIn (named : Bool) (l : Ledger) :
    ((Ledger.freshOf named).run l).1.NumberedIn l.supply.next (l.supply.next + 1) := by
  rw [freshOf_run]
  cases named with
  | false => exact ⟨Nat.le_refl _, Nat.lt_succ_self _⟩
  | true => exact ⟨Nat.le_refl _, Nat.lt_succ_self _⟩

theorem mapM_freshOf_numberedIn (named : Bool) (nodes : List String) (l : Ledger) :
    let drawn := (nodes.mapM fun n => do return (n, ← Ledger.freshOf named) :
      LedgerM (List (String × Fraction))).run l
    ∀ entry ∈ drawn.1, entry.2.NumberedIn l.supply.next drawn.2.supply.next := by
  induction nodes generalizing l with
  | nil =>
    intro drawn entry member
    cases member
  | cons n rest ih =>
    let middle : Ledger := ⟨l.constraints, ⟨l.supply.next + 1⟩⟩
    obtain ⟨-, more, -⟩ := mapM_freshOf named rest middle
    rw [List.mapM_cons]
    intro drawn entry member
    rcases List.mem_cons.mp member with rfl | later
    · exact (freshOf_numberedIn named l).mono (Nat.le_refl _) more
    · exact (ih middle entry later).mono (Nat.le_succ _) (Nat.le_refl _)

variable (S : Space) (root : String) (named : Bool)

theorem freshAbove_numberedIn {below : Fraction} (literal : below = .zero ∨ below = .one)
    (l : Ledger) :
    let made := (Shares.freshAbove S root named below).run l
    made.1.NumberedIn l.supply.next made.2.supply.next := by
  intro made f member
  rcases Shares.mem_fractions.mp member with ⟨entry, inside, rfl⟩ | same
  · exact mapM_freshOf_numberedIn named (S.ancestors root) l entry inside
  · rw [show f = below from same]
    rcases literal with rfl | rfl
    · trivial
    · trivial

theorem freshAll_numberedIn (l : Ledger) :
    let made := (Shares.freshAll S root named).run l
    made.1.NumberedIn l.supply.next made.2.supply.next := by
  intro made f member
  let middle := ((S.ancestors root).mapM fun n => do return (n, ← Ledger.freshOf named) :
    LedgerM (List (String × Fraction))).run l |>.2
  obtain ⟨-, more, -⟩ := mapM_freshOf named (S.ancestors root) l
  rcases Shares.mem_fractions.mp member with ⟨entry, inside, rfl⟩ | rfl
  · have drawn := mapM_freshOf_numberedIn named (S.ancestors root) l entry inside
    exact drawn.mono (Nat.le_refl _) (Nat.le_succ middle.supply.next)
  · exact (freshOf_numberedIn named middle).mono more (Nat.le_refl _)

theorem shares_numberedIn (kind : Kind) (l : Ledger) :
    let made := (Request.shares S root named kind).run l
    made.1.NumberedIn l.supply.next made.2.supply.next := by
  cases kind with
  | unique =>
    intro made f member
    rw [Shares.eq_of_mem_constant member]
    trivial
  | full => exact freshAbove_numberedIn S root named (.inr rfl) l
  | share => exact freshAll_numberedIn S root named l
  | immutable => exact freshAll_numberedIn S root named l
  | pure => exact freshAbove_numberedIn S root named (.inl rfl) l

end Drawing

/-- The request says what the clause does. -/
structure Clause.AnsweredBy (c : Clause) (q : Request) : Prop where
  kind : q.kind = c.spec.kind
  root : q.root = c.spec.root
  frame : q.isFrame = c.spec.frame
  space : q.permission.space = c.space
  states : q.permission.states = c.space.cleanStates c.spec.states
  readOnly : q.permission.readOnly = c.spec.kind.isReadOnly

/-- Only zero and one are fractions of both. -/
def Request.Unshared (q other : Request) : Prop :=
  ∀ f ∈ q.permission.shares.fractions, f ∈ other.permission.shares.fractions →
    f = .zero ∨ f = .one

/-- The clauses for the frame, or those that are not. -/
def Clause.inList (clauses : List Clause) (inFrame : Bool) : List Clause :=
  clauses.filter fun c => c.spec.frame == inFrame

/-- The permissions of two clauses can be held together if they are in different lists or
orthogonal. -/
def Clause.Coexist (S : Space) (c d : Clause) : Prop :=
  c.spec.frame = d.spec.frame → S.orthogonal c.spec.root d.spec.root = true

theorem Clause.Coexist.symm {S : Space} (grown : S.Grown) {c d : Clause} (coexist : c.Coexist S d) :
    d.Coexist S c := by
  intro same
  have orthogonal := coexist same.symm
  rw [grown.orthogonal_iff] at orthogonal ⊢
  exact orthogonal.symm

theorem Request.create_answers {S : Space} {c : Clause} (space : c.space = S) (named : Bool)
    (l : Ledger) : c.AnsweredBy ((Request.create S c.spec named).run l).1 := by
  have started := shares_startedWith S c.spec.root named c.spec.kind l
  have root : ((Request.shares S c.spec.root named c.spec.kind).run l).1.root = c.spec.root := by
    cases c.spec.kind <;> rfl
  rw [Request.create_run]
  refine ⟨rfl, root, rfl, started.space.trans space.symm, ?_, rfl⟩
  rw [space]
  exact congrArg (·.cleanStates c.spec.states) started.space

namespace RequestSet

/-- A set with one request for each of the clauses, in their order, that has fractions of its
own. -/
structure Answers (S : Space) (first last : Nat) (clauses : List Clause) (r : RequestSet) :
    Prop where
  fresh : r.Fresh S first last
  lists : ∀ inFrame,
    List.Forall₂ Clause.AnsweredBy (Clause.inList clauses inFrame) (r.list inFrame)
  made : ∀ q ∈ r.all, q.Made S
  drawn : ∀ q ∈ r.all, q.permission.shares.NumberedIn first last
  unshared : r.all.Pairwise Request.Unshared

variable {S : Space}

theorem list_ofRequest (q : Request) (cs : Constraints) (inFrame : Bool) :
    { ofRequest S q with constraints := cs }.list inFrame =
      if q.isFrame = inFrame then [q] else [] := by
  unfold ofRequest
  cases q.isFrame <;> cases inFrame <;> rfl

theorem all_ofRequest (q : Request) (cs : Constraints) :
    { ofRequest S q with constraints := cs }.all = [q] := by
  unfold ofRequest
  cases q.isFrame <;> rfl

theorem ofSpec_answers (grown : S.Grown) {c : Clause} (space : c.space = S) (named : Bool)
    (supply : Supply) :
    let asked := (ofSpec c.space c.spec named).run supply
    asked.1.Answers S supply.next asked.2.next [c] := by
  let created := (Request.create S c.spec named).run ⟨.empty, supply⟩
  have run : (ofSpec c.space c.spec named).run supply =
      ({ ofRequest S created.1 with constraints := created.2.constraints },
        created.2.supply) := by
    rw [space]
    rfl
  have answered : c.AnsweredBy created.1 := Request.create_answers space named _
  have drawn : created.1.permission.shares.NumberedIn supply.next created.2.supply.next := by
    have bounds := shares_numberedIn S c.spec.root named c.spec.kind ⟨.empty, supply⟩
    simp only [created, Request.create_run]
    exact bounds
  have fresh := ofSpec_fresh grown c.spec named supply.next
  rw [← space, run, space] at fresh
  rw [run]
  refine ⟨fresh, fun inFrame => ?_, ?_, ?_, ?_⟩
  · rw [list_ofRequest, answered.frame, Clause.inList]
    by_cases same : c.spec.frame = inFrame
    · simpa [same] using answered
    · simp [same]
  · rw [all_ofRequest]
    exact List.forall_mem_singleton.mpr (.create c.spec named _)
  · rw [all_ofRequest]
    exact List.forall_mem_singleton.mpr drawn
  · rw [all_ofRequest]
    exact List.pairwise_singleton _ _

theorem overlap?_eq_none_iff {space : Space} {left right : List Request} :
    overlap? space left right = none ↔
      ∀ p ∈ left, ∀ q ∈ right, space.orthogonal p.root q.root = true := by
  simp only [overlap?, List.find?_eq_none, List.mem_flatMap, List.mem_map, Bool.not_eq_true',
    Bool.not_eq_false]
  constructor
  · intro none p member q among
    exact none ⟨p, q, space⟩ ⟨p, member, q, among, rfl⟩
  · rintro each o ⟨p, member, q, among, rfl⟩
    exact each p member q among

theorem combine_isOk_iff (a b : RequestSet) :
    (a.combine b).isOk = true ↔
      ∀ inFrame, ∀ p ∈ a.list inFrame, ∀ q ∈ b.list inFrame,
        a.space.orthogonal p.root q.root = true := by
  have none : (a.combine b).isOk = true ↔
      (overlap? a.space a.virtuals b.virtuals).or (overlap? a.space a.frames b.frames) = none := by
    unfold combine
    cases (overlap? a.space a.virtuals b.virtuals).or (overlap? a.space a.frames b.frames) with
    | none => simp [Except.isOk, Except.toBool]
    | some overlap => simp [Except.isOk, Except.toBool]
  rw [none, Option.or_eq_none_iff, overlap?_eq_none_iff, overlap?_eq_none_iff, Bool.forall_bool]
  rfl

theorem list_of_combine {a b both : RequestSet} (combined : a.combine b = .ok both)
    (inFrame : Bool) : both.list inFrame = a.list inFrame ++ b.list inFrame := by
  unfold combine at combined
  split at combined
  · cases combined
  · rw [← Except.ok.inj combined]
    cases inFrame <;> rfl

theorem all_of_combine {a b both : RequestSet} (combined : a.combine b = .ok both) :
    both.all.Perm (a.all ++ b.all) := by
  have virtuals : both.virtuals = a.virtuals ++ b.virtuals := list_of_combine combined false
  have frames : both.frames = a.frames ++ b.frames := list_of_combine combined true
  rw [all, all, all, virtuals, frames, List.append_assoc, List.append_assoc]
  refine List.Perm.append_left _ ?_
  rw [← List.append_assoc, ← List.append_assoc]
  exact List.perm_append_comm.append_right _

namespace Answers

variable {first middle last : Nat} {xs ys : List Clause} {a b both : RequestSet}
  (left : a.Answers S first middle xs) (right : b.Answers S middle last ys)

include left right

theorem combine_isOk_iff :
    (a.combine b).isOk = true ↔ ∀ c ∈ xs, ∀ d ∈ ys, c.Coexist S d := by
  rw [RequestSet.combine_isOk_iff, left.fresh.space]
  constructor
  · intro each c member d among same
    have inLeft : c ∈ Clause.inList xs c.spec.frame := by simp [Clause.inList, member]
    have inRight : d ∈ Clause.inList ys c.spec.frame := by simp [Clause.inList, among, same]
    obtain ⟨p, inside, answered⟩ := exists_right_of_forall₂ (left.lists _) inLeft
    obtain ⟨q, inside', answered'⟩ := exists_right_of_forall₂ (right.lists _) inRight
    rw [← answered.root, ← answered'.root]
    exact each c.spec.frame p inside q inside'
  · intro each inFrame p member q among
    obtain ⟨c, inLeft, answered⟩ := exists_left_of_forall₂ (left.lists inFrame) member
    obtain ⟨d, inRight, answered'⟩ := exists_left_of_forall₂ (right.lists inFrame) among
    rw [Clause.inList, List.mem_filter, beq_iff_eq] at inLeft inRight
    rw [answered.root, answered'.root]
    exact each c inLeft.1 d inRight.1 (inLeft.2.trans inRight.2.symm)

theorem combine (grown : S.Grown) (combined : a.combine b = .ok both) :
    both.Answers S first last (xs ++ ys) := by
  have parts := all_of_combine combined
  have lower := left.fresh.order
  have upper := right.fresh.order
  refine ⟨left.fresh.combine grown right.fresh (Nat.le_refl _) combined, fun inFrame => ?_,
    fun q member => ?_, fun q member => ?_, ?_⟩
  · rw [list_of_combine combined, Clause.inList, List.filter_append]
    exact List.rel_append (left.lists inFrame) (right.lists inFrame)
  · rcases List.mem_append.mp (parts.mem_iff.mp member) with inside | inside
    · exact left.made q inside
    · exact right.made q inside
  · intro f among
    rcases List.mem_append.mp (parts.mem_iff.mp member) with inside | inside
    · exact (left.drawn q inside f among).mono (Nat.le_refl _) upper
    · exact (right.drawn q inside f among).mono lower (Nat.le_refl _)
  · -- What was drawn for the second set comes after all that was drawn for the first.
    have symmetric {p q : Request} (unshared : p.Unshared q) : q.Unshared p :=
      fun f among other => unshared f other among
    refine (parts.pairwise_iff symmetric).mpr (List.pairwise_append.mpr
      ⟨left.unshared, right.unshared, fun p member q among f inside inside' => ?_⟩)
    exact (left.drawn p member f inside).apart (right.drawn q among f inside')

end Answers

end RequestSet

namespace Predicate

open RequestSet

variable (named : Bool)

theorem combineClauses_run_ok {set both : RequestSet} {c : Clause} {supply : Supply}
    (combined : set.combine ((ofSpec c.space c.spec named).run supply).1 = .ok both)
    (rest : List Clause) :
    (combineClauses named set (c :: rest)).run supply =
      (combineClauses named both rest).run ((ofSpec c.space c.spec named).run supply).2 := by
  rw [combineClauses, StateT.run_bind]
  simp only [bind, combined]

theorem combineClauses_run_error {set : RequestSet} {c : Clause} {supply : Supply}
    {overlap : RequestOverlap}
    (combined : set.combine ((ofSpec c.space c.spec named).run supply).1 = .error overlap)
    (rest : List Clause) :
    (combineClauses named set (c :: rest)).run supply =
      (.error overlap, ((ofSpec c.space c.spec named).run supply).2) := by
  rw [combineClauses, StateT.run_bind]
  simp only [bind, combined]
  rfl

variable {S : Space} (grown : S.Grown)

include grown

theorem combineClauses_answers {first : Nat} {supply : Supply} {done : List Clause}
    {set : RequestSet} (answers : set.Answers S first supply.next done) (rest : List Clause)
    (spaces : ∀ c ∈ rest, c.space = S) :
    let result := (combineClauses named set rest).run supply
    (result.1.isOk = true ↔
      (∀ c ∈ done, ∀ d ∈ rest, c.Coexist S d) ∧ rest.Pairwise (Clause.Coexist S)) ∧
    ∀ r, result.1 = .ok r → r.Answers S first result.2.next (done ++ rest) := by
  induction rest generalizing supply done set with
  | nil =>
    refine ⟨⟨fun _ => ⟨by simp, .nil⟩, fun _ => rfl⟩, fun r same => ?_⟩
    rw [List.append_nil, ← Except.ok.inj same]
    exact answers
  | cons c rest ih =>
    rw [List.forall_mem_cons] at spaces
    have next := ofSpec_answers grown spaces.1 named supply
    have agrees := answers.combine_isOk_iff next
    simp only [List.forall_mem_singleton] at agrees
    cases combined : set.combine ((ofSpec c.space c.spec named).run supply).1 with
    | error overlap =>
      -- The first clause that clashes with one before it ends the combination.
      have clash : ¬∀ b ∈ done, b.Coexist S c := by
        intro each
        rw [combined] at agrees
        cases agrees.mpr each
      rw [combineClauses_run_error named combined]
      refine ⟨⟨fun ok => ?_, fun coexist => ?_⟩, fun r same => ?_⟩
      · cases ok
      · exact absurd (fun b member => coexist.1 b member c List.mem_cons_self) clash
      · cases same
    | ok both =>
      have each := agrees.mp (by rw [combined]; rfl)
      obtain ⟨accepted, answered⟩ := ih (answers.combine next grown combined) spaces.2
      rw [combineClauses_run_ok named combined]
      rw [List.append_assoc, List.singleton_append] at answered
      refine ⟨accepted.trans ?_, answered⟩
      simp only [List.pairwise_cons, List.forall_mem_append, List.forall_mem_cons]
      constructor
      · rintro ⟨⟨before, own⟩, later⟩
        exact ⟨fun b member => ⟨each b member, before b member⟩, own.1, later⟩
      · rintro ⟨before, own, later⟩
        exact ⟨⟨fun b member => (before b member).2, own, by simp⟩, later⟩

omit grown in
theorem requests_run {p : Predicate} {target : Target} {c : Clause} {rest : List Clause}
    (parts : p.partsFor target = c :: rest) (supply : Supply) :
    (p.requests target named).run supply =
      let first := (ofSpec c.space c.spec named).run supply
      let out := (combineClauses named first.1 rest).run first.2
      (out.1.map some, out.2) := by
  unfold requests
  rw [parts]
  rfl

theorem requests_answers {p : Predicate} {target : Target} (mentioned : p.partsFor target ≠ [])
    (spaces : ∀ c ∈ p.partsFor target, c.space = S) (supply : Supply) :
    let result := (p.requests target named).run supply
    (result.1.isOk = true ↔ (p.partsFor target).Pairwise (Clause.Coexist S)) ∧
    ∀ found, result.1 = .ok found →
      ∃ r, found = some r ∧ r.Answers S supply.next result.2.next (p.partsFor target) := by
  cases parts : p.partsFor target with
  | nil => exact absurd parts mentioned
  | cons c rest =>
    rw [parts, List.forall_mem_cons] at spaces
    have first := ofSpec_answers grown spaces.1 named supply
    obtain ⟨accepted, answered⟩ := combineClauses_answers named grown first rest spaces.2
    simp only [requests_run named parts, List.pairwise_cons]
    simp only [List.forall_mem_singleton] at accepted
    generalize (combineClauses named _ rest).run _ = out at accepted answered ⊢
    obtain ⟨outcome, last⟩ := out
    cases outcome with
    | error overlap => exact ⟨accepted, fun found same => by cases same⟩
    | ok r =>
      refine ⟨accepted, fun found same => ⟨r, ?_, answered r rfl⟩⟩
      cases same
      rfl

end Predicate

section Results

variable {S : Space}

theorem not_pairwise_coexist_iff (grown : S.Grown) (clauses : List Clause) :
    ¬clauses.Pairwise (Clause.Coexist S) ↔
      ∃ (i j : Nat) (c d : Clause), i ≠ j ∧ clauses[i]? = some c ∧ clauses[j]? = some d ∧
        c.spec.frame = d.spec.frame ∧ S.orthogonal c.spec.root d.spec.root = false := by
  rw [List.pairwise_iff_getElem]
  constructor
  · intro clash
    simp only [not_forall] at clash
    obtain ⟨i, j, first, second, order, clash⟩ := clash
    refine ⟨i, j, clauses[i], clauses[j], Nat.ne_of_lt order, List.getElem?_eq_getElem first,
      List.getElem?_eq_getElem second, ?_⟩
    simpa [Clause.Coexist] using clash
  · rintro ⟨i, j, c, d, different, first, second, frame, overlap⟩ each
    obtain ⟨inside, rfl⟩ := List.getElem?_eq_some_iff.mp first
    obtain ⟨inside', rfl⟩ := List.getElem?_eq_some_iff.mp second
    have orthogonal : S.orthogonal clauses[i].spec.root clauses[j].spec.root = true := by
      rcases Nat.lt_or_gt_of_ne different with before | after
      · exact each i j inside inside' before frame
      · exact (each j i inside' inside after).symm grown frame
    rw [overlap] at orthogonal
    cases orthogonal

theorem RequestSet.Fresh.exists_solution {first last : Nat} {r : RequestSet}
    (fresh : r.Fresh S first last) : ∃ v : Valuation, v.Solves r.constraints := by
  refine ⟨.ofUnknowns (fun _ => 1) (fun _ => by norm_num) (fun _ => by norm_num),
    fun c member => ?_⟩
  obtain ⟨id, rfl, -⟩ := fresh.demands c member
  change (0 : ℚ) < 1
  norm_num

theorem Predicate.partsFor_ne_nil {p : Predicate} {target : Target}
    (mentioned : target ∈ p.targets) : p.partsFor target ≠ [] := by
  rw [targets, List.mem_eraseDups, List.mem_map] at mentioned
  obtain ⟨c, inside, same⟩ := mentioned
  exact List.ne_nil_of_mem (List.mem_filter.mpr ⟨inside, decide_eq_true same⟩)

/-- What a predicate asks for a target is refused exactly if two of its clauses are for one list and
not orthogonal, in whatever order they stand. Otherwise each clause has its own request in the list
it is for, of the kind it names, no two requests have a fraction in common that was drawn for them,
and what is demanded of the fractions can be met. -/
theorem Predicate.requests_accepted_iff (built : S.Built) (p : Predicate) {target : Target}
    (mentioned : target ∈ p.targets) (spaces : ∀ c ∈ p.partsFor target, c.space = S)
    (named : Bool) (supply : Supply) :
    let parts := p.partsFor target
    let result := (p.requests target named).run supply
    (result.1.isOk = false ↔
      ∃ (i j : Nat) (c d : Clause), i ≠ j ∧ parts[i]? = some c ∧ parts[j]? = some d ∧
        c.spec.frame = d.spec.frame ∧ S.orthogonal c.spec.root d.spec.root = false) ∧
    (∀ (other : Predicate) (again : Bool) (start : Supply), (other.partsFor target).Perm parts →
      ((other.requests target again).run start).1.isOk = result.1.isOk) ∧
    (result.1.isOk = true → ∃ r, result.1 = .ok (some r) ∧
      List.Forall₂ Clause.AnsweredBy (Clause.inList parts false) r.virtuals ∧
      List.Forall₂ Clause.AnsweredBy (Clause.inList parts true) r.frames ∧
      (∀ q ∈ r.all, q.permission.kind r.constraints.solution = q.kind) ∧
      (∀ q ∈ r.all, q.permission.shares.NumberedIn supply.next result.2.next) ∧
      r.all.Pairwise Request.Unshared ∧
      r.constraints.isUnsatisfiable = false ∧ ∃ v : Valuation, v.Solves r.constraints) := by
  intro parts result
  have grown := built.grown
  have some := partsFor_ne_nil mentioned
  obtain ⟨accepted, answered⟩ := requests_answers named grown some spaces supply
  refine ⟨?_, fun other again start same => ?_, fun ok => ?_⟩
  · rw [← Bool.not_eq_true, accepted]
    exact not_pairwise_coexist_iff grown parts
  · have some' : other.partsFor target ≠ [] := fun none =>
      some (List.nil_perm.mp (none ▸ same))
    have spaces' : ∀ c ∈ other.partsFor target, c.space = S := fun c member =>
      spaces c (same.mem_iff.mp member)
    obtain ⟨accepted', -⟩ := requests_answers again grown some' spaces' start
    rw [Bool.eq_iff_iff, accepted', accepted]
    exact same.pairwise_iff fun coexist => coexist.symm grown
  · cases outcome : result.1 with
    | error overlap =>
      rw [outcome] at ok
      cases ok
    | ok found =>
      obtain ⟨r, rfl, answers⟩ := answered found outcome
      have met := answers.fresh.metBy_id
      exact ⟨r, rfl, answers.lists false, answers.lists true,
        fun q member => Request.Made.kind_eq grown (answers.made q member) met, answers.drawn,
        answers.unshared, Constraints.isUnsatisfiable_eq_false_iff.mpr ⟨_, _, met⟩,
        answers.fresh.exists_solution⟩

namespace Lit

/-- A lamp whose colour others may change while its light is one's own, and something about a
switch. -/
def shared : Predicate :=
  .clauses [⟨Target.receiver, Space.lamp, ⟨.share, "colour", ["red"], false⟩⟩,
    ⟨"switch", Space.lamp, ⟨.pure, alive, [], false⟩⟩,
    ⟨Target.receiver, Space.lamp, ⟨.unique, alive, [], true⟩⟩,
    ⟨Target.receiver, Space.lamp, ⟨.full, "light", [], false⟩⟩]

/-- The same with a look at one of the colours. -/
def watched : Predicate :=
  .clauses (⟨Target.receiver, Space.lamp, ⟨.pure, "white", [], false⟩⟩ :: shared.parts)

theorem shared_spaces : ∀ c ∈ shared.partsFor Target.receiver, c.space = Space.lamp := by
  simp [shared, Predicate.partsFor, Predicate.parts]

theorem watched_spaces : ∀ c ∈ watched.partsFor Target.receiver, c.space = Space.lamp := by
  simp [watched, shared, Predicate.partsFor, Predicate.parts]

end Lit

theorem Predicate.requests_accepted_when_shared :
    (∃ r, ((Lit.shared.requests Target.receiver false).run ⟨7⟩).1 = .ok (some r) ∧
      r.virtuals.map Request.root = ["colour", "light"] ∧
      r.virtuals.map Request.kind = [.share, .full] ∧
      r.frames.map Request.root = [alive] ∧ r.frames.map Request.kind = [.unique] ∧
      r.all.Pairwise Request.Unshared ∧ r.constraints.isUnsatisfiable = false) ∧
    ((Lit.watched.requests Target.receiver false).run ⟨7⟩).1.isOk = false := by
  obtain ⟨-, -, accepted⟩ := requests_accepted_iff Space.lamp_built Lit.shared (by decide)
    Lit.shared_spaces false ⟨7⟩
  obtain ⟨refused, -, -⟩ := requests_accepted_iff Space.lamp_built Lit.watched (by decide)
    Lit.watched_spaces false ⟨7⟩
  obtain ⟨r, outcome, virtuals, frames, -, -, unshared, satisfiable, -⟩ :=
    accepted (by decide +kernel)
  refine ⟨⟨r, outcome, ?_, ?_, ?_, ?_, unshared, satisfiable⟩, ?_⟩
  · exact map_eq_of_forall₂ (·.spec.root) Request.root (virtuals.imp fun _ _ is => is.root)
  · exact map_eq_of_forall₂ (·.spec.kind) Request.kind (virtuals.imp fun _ _ is => is.kind)
  · exact map_eq_of_forall₂ (·.spec.root) Request.root (frames.imp fun _ _ is => is.root)
  · exact map_eq_of_forall₂ (·.spec.kind) Request.kind (frames.imp fun _ _ is => is.kind)
  · -- The look at one colour is below what others share.
    exact refused.mpr ⟨0, 1, _, _, by decide, rfl, rfl, rfl, by decide +kernel⟩

end Results

end Typestate
