import Typestate.Proofs.Session

set_option autoImplicit false

/-!
What steps of an analysis answer in sessions of any kind. A run that gives a result can be taken
apart step by step; a log stands in its way only if it is to print what is no atom.
-/

namespace Typestate

namespace SExpr

theorem AtomMode.run_append (mode : AtomMode) (first second : List Char) :
    mode.run (first ++ second) = (mode.run first).bind fun next => next.run second := by
  induction first generalizing mode with
  | nil => rfl
  | cons c rest ih =>
    rw [List.cons_append, AtomMode.run, AtomMode.run]
    cases mode.step c with
    | none => rfl
    | some next => exact ih next

theorem isAtom_append {first second : String} (left : isAtom first = true)
    (right : isAtom second = true) : isAtom (first ++ second) = true := by
  simp only [isAtom, Bool.and_eq_true, Bool.not_eq_true', List.isEmpty_eq_false_iff,
    beq_iff_eq] at left right ⊢
  rw [String.toList_append, AtomMode.run_append, left.2]
  exact ⟨by simp [left.1], right.2⟩

theorem badAtom?_atom {text : String} : (atom text).badAtom? = none ↔ isAtom text = true := by
  simp [badAtom?]

theorem badAtom?_fuse? {first second both : SExpr} (left : first.badAtom? = none)
    (right : second.badAtom? = none) (fused : fuse? first second = some both) :
    both.badAtom? = none := by
  unfold fuse? at fused
  split at fused
  · rw [badAtom?_atom] at left right
    split at fused
    · cases fused
      exact badAtom?_atom.mpr (isAtom_append left right)
    · cases fused
  · cases fused

theorem badAtomIn?_joinHyphensAfter {item : SExpr} {rest : List SExpr}
    (first : item.badAtom? = none) (others : badAtomIn? rest = none) :
    badAtomIn? (joinHyphensAfter item rest) = none := by
  induction rest generalizing item with
  | nil => simp [joinHyphensAfter, badAtomIn?, first]
  | cons next rest ih =>
    rw [badAtomIn?, Option.or_eq_none_iff] at others
    unfold joinHyphensAfter
    split
    · -- An item that ends in a hyphen is one with the next, and that is an atom as both are.
      next both fused => exact ih (badAtom?_fuse? first others.1 fused) others.2
    · rw [badAtomIn?, first]
      exact ih others.1 others.2

theorem badAtomIn?_atoms {names : List String} (atoms : ∀ n ∈ names, isAtom n = true) :
    badAtomIn? (names.map atom) = none := by
  induction names with
  | nil => rfl
  | cons n rest ih =>
    rw [List.forall_mem_cons] at atoms
    rw [List.map_cons, badAtomIn?, badAtom?_atom.mpr atoms.1]
    exact ih atoms.2

theorem badAtom?_phrase {names : List String} (atoms : ∀ n ∈ names, isAtom n = true) :
    (phrase (names.map atom)).badAtom? = none := by
  cases names with
  | nil => rfl
  | cons n rest =>
    rw [List.forall_mem_cons] at atoms
    exact badAtomIn?_joinHyphensAfter (badAtom?_atom.mpr atoms.1) (badAtomIn?_atoms atoms.2)

theorem run_of_isAlphanum {text : List Char} (plain : ∀ c ∈ text, c.isAlphanum = true) :
    AtomMode.plain.run text = some .plain := by
  induction text with
  | nil => rfl
  | cons c rest ih =>
    rw [List.forall_mem_cons] at plain
    have noQuote : c ≠ '"' := by
      rintro rfl
      exact absurd plain.1 (by decide)
    have step : AtomMode.plain.step c = some .plain := by
      simp [AtomMode.step, noQuote, isAtomChar, plain.1]
    rw [AtomMode.run, step]
    exact ih plain.2

end SExpr

namespace Analysis

variable {α β : Type} {session next : Session}

section Runs

theorem run_bind_eq_ok {work : AnalysisM α} {step : α → AnalysisM β} {b : β} :
    (work >>= step).run.run session = (.ok b, next) ↔
      ∃ a middle, work.run.run session = (.ok a, middle) ∧
        (step a).run.run middle = (.ok b, next) := by
  rw [ExceptT.run_bind, StateT.run_bind]
  rcases work.run.run session with ⟨_ | a, middle⟩
  · constructor
    · nofun
    · rintro ⟨_, _, ⟨⟩, _⟩
  · constructor
    · intro ran
      exact ⟨a, middle, rfl, ran⟩
    · rintro ⟨_, _, ⟨⟩, ran⟩
      exact ran

theorem run_bind_eq_error {work : AnalysisM α} {step : α → AnalysisM β} {fault : Fault} :
    (work >>= step).run.run session = (.error fault, next) ↔
      work.run.run session = (.error fault, next) ∨
        ∃ a middle, work.run.run session = (.ok a, middle) ∧
          (step a).run.run middle = (.error fault, next) := by
  rw [ExceptT.run_bind, StateT.run_bind]
  rcases work.run.run session with ⟨early | a, middle⟩
  · constructor
    · rintro ⟨⟩
      exact .inl rfl
    · rintro (⟨⟨⟩⟩ | ⟨_, _, ⟨⟩, _⟩)
      rfl
  · constructor
    · intro ran
      exact .inr ⟨a, middle, rfl, ran⟩
    · rintro (⟨⟨⟩⟩ | ⟨_, _, ⟨⟩, ran⟩)
      exact ran

theorem liftSupply_bind_run (work : SupplyM α) (step : α → AnalysisM β) (session : Session) :
    (liftSupply work >>= step).run.run session =
      (step (work.run session.supply).1).run.run
        { session with supply := (work.run session.supply).2 } := rfl

theorem log_run (node : SExpr) (session : Session) :
    (log node).run.run session =
      if session.logging then
        match node.badAtom? with
        | some text => (.error (.invalidAtom text), session)
        | none => (.ok (), { session with
            log := session.log ++
              [marginText session.margin ++ node.render (marginText session.margin) ++ "\n"] })
      else (.ok (), session) := by
  have opened : (log node).run.run session =
      (if session.logging then do
        writeLine (← liftFault (node.print (marginText session.margin)))
      else pure () : AnalysisM Unit).run.run session := rfl
  rw [opened]
  by_cases logging : session.logging = true
  · rw [if_pos logging, if_pos logging]
    unfold SExpr.print
    cases node.badAtom? with
    | some text => rfl
    | none => rfl
  · rw [if_neg logging, if_neg logging]
    rfl

theorem log_run_of_printable {node : SExpr}
    (printable : session.logging = true → node.badAtom? = none) :
    ∃ lines, (log node).run.run session = (.ok (), { session with log := lines }) := by
  rw [log_run]
  by_cases logging : session.logging = true
  · rw [if_pos logging, printable logging]
    exact ⟨_, rfl⟩
  · rw [if_neg logging]
    exact ⟨session.log, rfl⟩

end Runs

/-- In every session a result is as described. Without a log there is one, and with a log nothing
but an atom that cannot be printed stands in its way. -/
structure Delivers (work : AnalysisM α) (shown : α → Prop) : Prop where
  result : ∀ {session next : Session} {a : α}, work.run.run session = (.ok a, next) → shown a
  returns : ∀ {session : Session}, session.logging = false →
    ∃ a next, work.run.run session = (.ok a, next) ∧ next.logging = false
  fails : ∀ {session next : Session} {fault : Fault},
    work.run.run session = (.error fault, next) → ∃ text, fault = .invalidAtom text

namespace Delivers

variable {shown : α → Prop}

theorem pure {a : α} (holds : shown a) : Delivers (pure a) shown := by
  refine ⟨?_, fun {session} quiet => ⟨a, session, rfl, quiet⟩, ?_⟩
  · rintro _ _ _ ⟨⟩
    exact holds
  · rintro _ _ _ ⟨⟩

theorem bind {work : AnalysisM α} {step : α → AnalysisM β} {after : β → Prop}
    (first : Delivers work shown) (second : ∀ a, shown a → Delivers (step a) after) :
    Delivers (work >>= step) after := by
  constructor
  · intro session next b ran
    obtain ⟨a, middle, begun, ended⟩ := run_bind_eq_ok.mp ran
    exact (second a (first.result begun)).result ended
  · intro session quiet
    obtain ⟨a, middle, begun, still⟩ := first.returns quiet
    obtain ⟨b, next, ended, last⟩ := (second a (first.result begun)).returns still
    exact ⟨b, next, run_bind_eq_ok.mpr ⟨a, middle, begun, ended⟩, last⟩
  · intro session next fault ran
    rcases run_bind_eq_error.mp ran with begun | ⟨a, middle, begun, ended⟩
    · exact first.fails begun
    · exact (second a (first.result begun)).fails ended

theorem imp {work : AnalysisM α} {other : α → Prop} (delivers : Delivers work shown)
    (implies : ∀ a, shown a → other a) : Delivers work other :=
  ⟨fun ran => implies _ (delivers.result ran), delivers.returns, delivers.fails⟩

theorem ite {condition : Prop} [Decidable condition] {work other : AnalysisM α}
    (holds : condition → Delivers work shown) (fails : ¬condition → Delivers other shown) :
    Delivers (if condition then work else other) shown := by
  split
  · next decided => exact holds decided
  · next decided => exact fails decided

theorem mapM_paired {step : α → AnalysisM β} {after : α → β → Prop} (xs : List α)
    (each : ∀ a ∈ xs, Delivers (step a) (after a)) :
    Delivers (xs.mapM step) (List.Forall₂ after xs) := by
  induction xs with
  | nil => exact pure .nil
  | cons a rest ih =>
    rw [List.mapM_cons]
    have others := ih fun b later => each b (List.mem_cons_of_mem a later)
    refine (each a List.mem_cons_self).bind fun y first => others.bind fun ys known => ?_
    exact pure (.cons first known)

theorem mapM {step : α → AnalysisM β} {after : β → Prop} (xs : List α)
    (each : ∀ a ∈ xs, Delivers (step a) after) :
    Delivers (xs.mapM step) fun ys => ∀ y ∈ ys, after y := by
  refine (mapM_paired xs each).imp fun ys paired y member => ?_
  obtain ⟨_, -, known⟩ := exists_left_of_forall₂ paired member
  exact known

theorem liftSupply {work : SupplyM α} (yields : Yields work shown) :
    Delivers (liftSupply work) shown := by
  refine ⟨?_, fun quiet => ⟨_, _, rfl, quiet⟩, ?_⟩
  · rintro session _ _ ⟨⟩
    exact yields session.supply
  · rintro _ _ _ ⟨⟩

theorem liftGuarded {guarded : Except Fault (SupplyM α)} {work : SupplyM α}
    (done : guarded = .ok work) (yields : Yields work shown) :
    Delivers (liftGuarded guarded) shown := by
  rw [done]
  exact liftSupply yields

theorem log (node : SExpr) : Delivers (log node) fun _ => True := by
  refine ⟨fun _ => trivial, fun {session} quiet => ?_, fun {session next fault} ran => ?_⟩
  · have printable : session.logging = true → node.badAtom? = none := by simp [quiet]
    obtain ⟨lines, ran⟩ := log_run_of_printable printable
    exact ⟨_, _, ran, quiet⟩
  · rw [log_run] at ran
    split at ran
    · split at ran
      · next text _ =>
        cases ran
        exact ⟨text, rfl⟩
      · cases ran
    · cases ran

theorem get : Delivers get fun _ => True := by
  refine ⟨fun _ => trivial, fun {session} quiet => ⟨session, session, rfl, quiet⟩, ?_⟩
  rintro _ _ _ ⟨⟩

theorem modify {change : Session → Session}
    (keeps : ∀ session, (change session).logging = session.logging) :
    Delivers (modify change) fun _ => True := by
  refine ⟨fun _ => trivial, fun {session} quiet => ⟨(), change session, rfl, ?_⟩, ?_⟩
  · rw [keeps session, quiet]
  · rintro _ _ _ ⟨⟩

theorem options : Delivers options fun _ => True := get.bind fun _ _ => pure trivial

theorem indented {work : AnalysisM α} (delivers : Delivers work shown) :
    Delivers (indented work) shown := by
  have restored {restore : AnalysisM Unit} (restores : Delivers restore fun _ => True) :
      Delivers (do let result ← work; restore; return result) shown :=
    delivers.bind fun a holds => restores.bind fun _ _ => pure holds
  refine get.bind fun outer _ => get.bind fun session _ => ?_
  split
  · exact bind (modify fun _ => rfl) fun _ _ => restored (modify fun _ => rfl)
  · exact restored (modify fun _ => rfl)

theorem freshBranch (b : Branch) (purpose : String) :
    Delivers (freshBranch b purpose) fun _ => True := by
  refine ⟨fun _ => trivial, fun quiet => ⟨_, _, rfl, quiet⟩, ?_⟩
  rintro _ _ _ ⟨⟩

theorem remark (text : String) : Delivers (remark text) fun _ => True := by
  have ran (session : Session) :
      ∃ lines, (Analysis.remark text).run.run session = (.ok (), { session with log := lines }) := by
    have opened : (Analysis.remark text).run.run session =
        (if session.logging then writeLine (";; " ++ text) else Pure.pure () :
          AnalysisM Unit).run.run session := rfl
    rw [opened]
    split
    · exact ⟨_, rfl⟩
    · exact ⟨session.log, rfl⟩
  refine ⟨fun _ => trivial, fun {session} quiet => ?_, fun {session next fault} failed => ?_⟩
  · obtain ⟨lines, done⟩ := ran session
    exact ⟨(), _, done, quiet⟩
  · obtain ⟨lines, done⟩ := ran session
    rw [done] at failed
    cases failed

theorem origin {work : AnalysisM α} (delivers : Delivers work shown) :
    Delivers work fun a => shown a ∧ ∃ session next, work.run.run session = (.ok a, next) :=
  ⟨fun ran => ⟨delivers.result ran, _, _, ran⟩, delivers.returns, delivers.fails⟩

end Delivers

end Analysis

end Typestate
