import Mathlib.Data.List.Nodup
import Typestate.Proofs.Context.Blocking
import Typestate.Proofs.Flow.Requirement
import Typestate.Space.Draft

set_option autoImplicit false

/-!
Where a program can go on after a call. A tensor that the check of the call refuses is unreachable
afterwards, and so is every choice it is an element of, whatever the other elements are.
-/

namespace Typestate

open Analysis

namespace Analysis

variable {α β : Type}

/-- Work that breaks no contract and ends as the property says. -/
def Returns (session : Session) (work : AnalysisM α) (after : α → Session → Prop) : Prop :=
  ∃ result next, work.run.run session = (.ok result, next) ∧ after result next

namespace Returns

variable {session : Session}

theorem pure {a : α} {after : α → Session → Prop} (holds : after a session) :
    Returns session (pure a) after :=
  ⟨a, session, rfl, holds⟩

theorem bind {work : AnalysisM α} {next : α → AnalysisM β} {between : α → Session → Prop}
    {after : β → Session → Prop} (first : Returns session work between)
    (second : ∀ a later, between a later → Returns later (next a) after) :
    Returns session (work >>= next) after := by
  obtain ⟨a, middle, ran, holds⟩ := first
  obtain ⟨b, last, ranNext, ended⟩ := second a middle holds
  refine ⟨b, last, ?_, ended⟩
  rw [ExceptT.run_bind, StateT.run_bind, ran]
  exact ranNext

theorem liftSupply {before : Supply → Prop} {work : SupplyM α} {after : α → Supply → Prop}
    (ensures : Ensures before work after) (holds : before session.supply) :
    Returns session (liftSupply work) fun a next => after a next.supply :=
  ⟨_, _, rfl, ensures _ holds⟩

theorem mapM {keeps : Session → Prop} {results : α → β → Prop} {step : α → AnalysisM β}
    (xs : List α)
    (each : ∀ a ∈ xs, ∀ session, keeps session →
      Returns session (step a) fun b next => results a b ∧ keeps next)
    (holds : keeps session) :
    Returns session (xs.mapM step) fun bs next => List.Forall₂ results xs bs ∧ keeps next := by
  induction xs generalizing session with
  | nil => exact pure ⟨.nil, holds⟩
  | cons a rest ih =>
      rw [List.mapM_cons]
      refine (each a (by simp) session holds).bind fun b later first =>
        (ih (fun other member => each other (List.mem_cons_of_mem _ member)) first.2).bind
          fun bs last others => pure ⟨.cons first.1 others.1, others.2⟩

end Returns

end Analysis

namespace Flow

variable {n : Nat}

/-- Whether the permissions that a case of a method needs are there. -/
def fits (n : Nat) (call : Call) (t : Tuple) (case : MethodCase) : Bool :=
  allMet n case.pre call.resolve t case.pre.targets

/-- What a caller has to see to: the specification can be met, and no two targets of a
precondition stand for one location. -/
structure Proper (call : Call) : Prop where
  pre : ∀ case ∈ call.method.cases, case.pre.Coherent
  post : ∀ case ∈ call.method.cases, case.post.Coherent
  distinct : ∀ case ∈ call.method.cases, (case.pre.targets.filterMap call.resolve).Nodup

/-- Once the permissions of the precondition are taken away, nothing stops the call. -/
theorem ensured_goes_on (call : Call) {case : MethodCase} (post : case.post.Coherent)
    (taken : Tuple) (b : Branch) :
    Ensures (Supply.Reached n) (do
        match ← ensureTargets call case taken case.post.targets with
        | none => return Context.stuck b
        | some given => return Context.tensor given b)
      fun c s => c.isStuck = false ∧ c.isUnreachable = false ∧ s.Reached n := by
  refine (ensureTargets_succeeds call post taken _).bind fun given => ?_
  intro s added
  cases given with
  | none => simp at added
  | some given => exact ⟨rfl, rfl, added.2⟩

theorem applyCase_decides {call : Call} (proper : Proper call) {case : MethodCase}
    (member : case ∈ call.method.cases) {t : Tuple} (below : t.IsBelow n) (b : Branch) :
    Ensures (Supply.Reached n) (applyCase call case t b)
      fun c s => c.isStuck = !fits n call t case ∧ c.isUnreachable = false ∧ s.Reached n := by
  have pre := (proper.pre case member).notVoid
  have post := (proper.post case member).notVoid
  simp only [applyCase, pre, post, Bool.false_eq_true, if_false]
  refine (requireTargets_decides call case below case.pre.targets (proper.distinct case member)
    fun _ _ => rfl).bind fun taken => ?_
  intro s decided
  rw [fits, ← decided.1]
  cases taken with
  | none => exact ⟨rfl, rfl, decided.2⟩
  | some taken =>
      exact ensured_goes_on call (proper.post case member) taken b s decided.2

theorem checkCases_decides {call : Call} (proper : Proper call) {t : Tuple}
    (below : t.IsBelow n) (cases : List MethodCase)
    (members : ∀ case ∈ cases, case ∈ call.method.cases) :
    Ensures (Supply.Reached n) (checkCases call t cases)
      fun result s => result.isNone = cases.any (fits n call t) ∧
        (result = some [] → cases = []) ∧ s.Reached n := by
  induction cases with
  | nil => exact .pure fun s reached => ⟨rfl, fun _ => rfl, reached⟩
  | cons case rest ih =>
      have coherent := proper.pre case (members case (by simp))
      refine (checkTargets_decides coherent call.resolve false call.span below
        case.pre.targets).bind fun result => ?_
      intro s decided
      rw [List.any_cons, fits, ← decided.1]
      cases result with
      | ok done => exact ⟨rfl, nofun, decided.2⟩
      | error d =>
          -- A case that does not fit adds its diagnostic only if none of the later ones fits.
          obtain ⟨some, -, reached⟩ := ih
            (fun other member => members other (List.mem_cons_of_mem _ member)) s decided.2
          refine ⟨?_, ?_, reached⟩
          · rw [← some]
            exact Option.isNone_map
          · intro empty
            obtain ⟨ds, -, shape⟩ := Option.map_eq_some_iff.mp empty
            cases shape

def accepts (call : Call) (supply : Supply) (t : Tuple) : Bool :=
  ((checkCall call (.tensor t .root)).run supply).1.isOk

/-- The check of one tensor, as part of the check of a context. -/
def checkTensor (call : Call) (t : Tuple) (_ : Branch) : SupplyM CheckResult := do
  match ← checkCases call t call.method.cases with
  | some (first :: rest) => return .error (.anyOf first rest)
  | _ => return .ok ()

theorem checkTensor_decides {call : Call} (proper : Proper call) {t : Tuple}
    (below : t.IsBelow n) :
    Context.DecidesBy n (fun t => call.method.cases.any (fits n call t)) (checkTensor call) t := by
  intro b
  refine (checkCases_decides proper below call.method.cases fun _ member => member).bind
    fun result => ?_
  intro s decided
  match result, decided with
  | none, decided => exact ⟨decided.1, decided.2.2⟩
  | some [], decided => cases decided.2.1 rfl
  | some (_ :: _), decided => exact ⟨decided.1, decided.2.2⟩

theorem accepts_eq {call : Call} (proper : Proper call) {t : Tuple} (below : t.IsBelow n)
    {supply : Supply} (reached : supply.Reached n) :
    accepts call supply t = call.method.cases.any (fits n call t) :=
  (checkTensor_decides proper below .root supply reached).1

theorem finishCall_agrees (b : Branch) (c : Context) :
    (finishCall b c).isUnreachable = (c.isStuck || c.isUnreachable) ∧
      (finishCall b c).isStuck = false := by
  obtain ⟨stuck, unreachable⟩ := c.compact_agrees
  simp only [finishCall, stuck]
  cases shape : c.isStuck with
  | true => exact ⟨rfl, rfl⟩
  | false => simp [stuck, unreachable, shape]

theorem choice_of_cases {holds : MethodCase → Bool} {cases : List MethodCase}
    {es : List Context}
    (each : List.Forall₂ (fun case e => e.isStuck = !holds case ∧ e.isUnreachable = false)
      cases es) :
    (Context.choice es).isStuck = !cases.any holds ∧
      (Context.choice es).isUnreachable = false := by
  rw [Context.isStuck, Context.isUnreachable]
  induction each with
  | nil => exact ⟨rfl, rfl⟩
  | cons first _ ih =>
      rw [Context.allStuck, Context.anyUnreachable, first.1, first.2, ih.1, ih.2, List.any_cons,
        Bool.not_or]
      exact ⟨rfl, rfl⟩

theorem applyCases_decides {call : Call} (proper : Proper call) {t : Tuple} (below : t.IsBelow n)
    (b : Branch) {session : Session} (reached : session.supply.Reached n) :
    Returns session (applyCases call t b) fun c next =>
      (c.isStuck = !call.method.cases.any (fits n call t) ∧ c.isUnreachable = false) ∧
        next.supply.Reached n := by
  have one (case : MethodCase) (member : case ∈ call.method.cases) (b : Branch)
      {session : Session} (reached : session.supply.Reached n) :
      Returns session (liftSupply (applyCase call case t b)) fun c next =>
        (c.isStuck = !fits n call t case ∧ c.isUnreachable = false) ∧ next.supply.Reached n := by
    obtain ⟨c, next, ran, stuck, possible, kept⟩ :=
      Returns.liftSupply (applyCase_decides proper member below b) reached
    exact ⟨c, next, ran, ⟨stuck, possible⟩, kept⟩
  have branched (case : MethodCase) (member : case ∈ call.method.cases) (session : Session)
      (reached : session.supply.Reached n) :
      Returns session (do
          let branch ← freshBranch b "case"
          liftSupply (applyCase call case t branch)) fun c next =>
        (c.isStuck = !fits n call t case ∧ c.isUnreachable = false) ∧ next.supply.Reached n :=
    Returns.bind ⟨_, _, rfl, reached⟩ fun branch later reached => one case member branch reached
  unfold applyCases
  -- A method with one case opens no branch.
  cases single : call.method.otherCases with
  | nil =>
      have whole : call.method.cases = [call.method.firstCase] := by simp [Method.cases, single]
      rw [whole]
      simpa using one call.method.firstCase (by simp [whole]) b reached
  | cons second rest =>
      exact (Returns.mapM call.method.cases branched reached).bind fun es later decided =>
        .pure ⟨choice_of_cases decided.1, decided.2⟩

/-- What a call makes of one tensor. -/
def callTensor (call : Call) (t : Tuple) (b : Branch) : AnalysisM Context := do
  let prepared ← prepareReceiver none call t b
  return finishCall b (← prepared.mapTensors (applyCases call))

theorem callTensor_decides {call : Call} (proper : Proper call) {t : Tuple} (below : t.IsBelow n)
    (b : Branch) {session : Session} (reached : session.supply.Reached n) :
    Returns session (callTensor call t b) fun c next =>
      c.isUnreachable = !call.method.cases.any (fits n call t) ∧ next.supply.Reached n := by
  have prepared : prepareReceiver none call t b = pure (.tensor t b) := by
    simp [prepareReceiver]
  simp only [callTensor, prepared, pure_bind, Context.mapTensors]
  refine (applyCases_decides proper below b reached).bind fun c later decided =>
    .pure ⟨?_, decided.2⟩
  rw [(finishCall_agrees b c).1, decided.1.1, decided.1.2, Bool.or_false]

end Flow

namespace Context

variable {n : Nat} {accepts : Tuple → Bool} {f : Tuple → Branch → AnalysisM Context}

/-- Work on one tensor that leaves the tensor unreachable if a test refuses it. -/
def BlocksBy (n : Nat) (accepts : Tuple → Bool) (f : Tuple → Branch → AnalysisM Context)
    (t : Tuple) : Prop :=
  ∀ b session, session.supply.Reached n →
    Returns session (f t b) fun c next => c.isUnreachable = !accepts t ∧ next.supply.Reached n

mutual

theorem mapTensors_blocks : ∀ (c : Context) (session : Session),
    (∀ t ∈ c.tuples, BlocksBy n accepts f t) → session.supply.Reached n →
      Returns session (c.mapTensors f) fun d next =>
        d.isUnreachable = c.blocked accepts ∧ next.supply.Reached n
  | .stuck _, _, _, reached | .packFailed _ _, _, _, reached | .unreachable _, _, _, reached =>
      .pure ⟨rfl, reached⟩
  | .tensor t b, session, each, reached => each t (by simp [tuples]) b session reached
  | .choice es, session, each, reached =>
      (mapTensorsList_blocks es session each reached).bind fun ds later decided =>
        .pure ⟨decided.1, decided.2.2⟩
  | .all es, session, each, reached =>
      (mapTensorsList_blocks es session each reached).bind fun ds later decided =>
        .pure ⟨decided.2.1, decided.2.2⟩

theorem mapTensorsList_blocks : ∀ (es : List Context) (session : Session),
    (∀ t ∈ tuplesIn es, BlocksBy n accepts f t) → session.supply.Reached n →
      Returns session (mapTensorsList f es) fun ds next =>
        anyUnreachable ds = anyBlocked accepts es ∧
          allUnreachable ds = allBlocked accepts es ∧ next.supply.Reached n
  | [], _, _, reached => .pure ⟨rfl, rfl, reached⟩
  | e :: es, session, each, reached => by
      refine (mapTensors_blocks e session (fun t member => each t (List.mem_append_left _ member))
        reached).bind fun d later first => ?_
      refine (mapTensorsList_blocks es later
        (fun t member => each t (List.mem_append_right _ member)) first.2).bind
        fun ds last others => .pure ⟨?_, ?_, others.2.2⟩
      · rw [anyUnreachable, anyBlocked, first.1, others.1]
      · rw [allUnreachable, allBlocked, first.1, others.2.1]

end

end Context

namespace Flow

theorem log_supply (node : SExpr) (session : Session) :
    ((log node).run.run session).2.supply = session.supply := by
  change ((if session.logging then
    liftFault (node.print (marginText session.margin)) >>= writeLine else pure () :
      AnalysisM Unit).run.run session).2.supply = _
  split
  · cases node.print (marginText session.margin) <;> rfl
  · rfl

theorem indented_returns {α : Type} {work : AnalysisM α} {result : α → Prop}
    {ended : Supply → Prop} {session : Session}
    (returns : ∀ later, later.supply = session.supply →
      Returns later work fun a next => result a ∧ ended next.supply) :
    Returns session (indented work) fun a next => result a ∧ ended next.supply := by
  have worked (margin : Nat) (later : Session) (same : later.supply = session.supply) :
      Returns later (do
          let result ← work
          modify fun session => { session with margin }
          return result) fun a next => result a ∧ ended next.supply :=
    (returns later same).bind fun a next holds => ⟨a, _, rfl, holds⟩
  refine Returns.bind (⟨session, session, rfl, rfl, rfl⟩ :
    Returns session get fun a next => a = session ∧ next = session) fun a next same => ?_
  rw [same.1, same.2]
  refine Returns.bind (⟨session, session, rfl, rfl, rfl⟩ :
    Returns session get fun a next => a = session ∧ next = session) fun a next same => ?_
  rw [same.1, same.2]
  -- The margin moves only while a log is written.
  split
  · exact Returns.bind ⟨(), _, rfl, rfl⟩ fun _ later moved =>
      worked session.margin later moved
  · exact worked session.margin session rfl

theorem methodCall_blocks {n : Nat} {call : Call} {c : Context} {accepts : Tuple → Bool}
    (blocks : ∀ t ∈ c.tuples, Context.BlocksBy n accepts (callTensor call) t)
    {session : Session} (reached : session.supply.Reached n)
    (logged : ((logCall call).run.run session).1 = .ok ()) :
    Returns session (methodCall none call c) fun d _ => d.isUnreachable = c.blocked accepts := by
  have entered : Returns session (logCall call) fun _ next => next.supply = session.supply :=
    ⟨(), _, Prod.ext logged rfl, log_supply _ session⟩
  refine entered.bind fun _ later same => ?_
  have mapped : Returns later (indented (c.mapTensors (callTensor call))) fun d next =>
      d.isUnreachable = c.blocked accepts ∧ next.supply.Reached n :=
    indented_returns fun moved kept =>
      c.mapTensors_blocks moved blocks (by rw [kept, same]; exact reached)
  refine mapped.bind fun d last decided => .pure ?_
  rw [d.compact_agrees.2]
  exact decided.1

/-- For a call whose check passes: what follows it is unreachable exactly if it is so once the
tensors that the check refuses are. A choice passes with one element that is accepted, so a way
on is sure only if every element of every choice passes. -/
theorem methodCall_unreachable_iff_blocked {n : Nat} {call : Call} (proper : Proper call)
    {c : Context} (below : ∀ t ∈ c.tuples, t.IsBelow n) {supply : Supply}
    (checked : supply.Reached n) {session : Session} (reached : session.supply.Reached n)
    (logged : ((logCall call).run.run session).1 = .ok ())
    (possible : c.isUnreachable = false)
    (passed : ((checkCall call c).run supply).1.isOk = true) :
    ∃ d next, (methodCall none call c).run.run session = (.ok d, next) ∧
      (d.isUnreachable = true ↔ c.blocked (accepts call supply) = true) ∧
      (c.everyChoice (fun e => ((checkCall call e).run supply).1.isOk) = true →
        d.isUnreachable = false) := by
  -- The check and the call decide each tensor alike, though their supplies differ.
  have decides (t : Tuple) (inside : t.IsBelow n) :
      Context.DecidesBy n (accepts call supply) (checkTensor call) t := by
    intro b
    rw [accepts_eq proper inside checked]
    exact checkTensor_decides proper inside b
  have blocks (t : Tuple) (inside : t.IsBelow n) :
      Context.BlocksBy n (accepts call supply) (callTensor call) t := by
    intro b later kept
    rw [accepts_eq proper inside checked]
    exact callTensor_decides proper inside b kept
  have passes (e : Context) (inside : ∀ t ∈ e.tuples, t.IsBelow n) :
      ((checkCall call e).run supply).1.isOk = e.passes (accepts call supply) :=
    (e.check_decides (fun t member => decides t (inside t member)) supply checked).1
  have returned : Returns session (methodCall none call c) fun d _ =>
      d.isUnreachable = c.blocked (accepts call supply) :=
    methodCall_blocks (fun t member => blocks t (below t member)) reached logged
  obtain ⟨d, next, ran, unreachable⟩ := returned
  refine ⟨d, next, ran, by rw [unreachable], fun uniform => ?_⟩
  rw [unreachable]
  refine c.blocked_eq_false_of_passes ?_ ?_ possible
  · rw [← passes c below, passed]
  · exact c.everyChoice_mono (fun e inside => passes e inside ▸ id) below uniform

end Flow

theorem Predicate.coherent_of_distinct {clauses : List Clause}
    (distinct : (clauses.map Clause.target).Nodup) : (Predicate.clauses clauses).Coherent := by
  refine ⟨rfl, fun target supply => ?_⟩
  have alone : ((Predicate.clauses clauses).partsFor target).length ≤ 1 := by
    rw [partsFor, Predicate.parts, ← List.countP_eq_length_filter]
    have counted := List.nodup_iff_count_le_one.mp distinct target
    rw [List.count, List.countP_map] at counted
    refine Nat.le_trans (List.countP_mono_left fun c _ same => ?_) counted
    simpa using same
  unfold requests
  cases parts : (Predicate.clauses clauses).partsFor target with
  | nil => rfl
  | cons clause rest =>
    cases rest with
    | nil => rfl
    | cons other others => simp [parts] at alone

namespace Flow.Socket

def space : Space :=
  ((Space.Draft.new "Socket").addDimension (some "s") alive
    ["connected", "disconnected"] false).1.space

/-- Asks for a full permission for the first argument. -/
def clause : Clause := ⟨Target.argument 0, space, ⟨.full, alive, [], false⟩⟩

/-- Needs a full permission for its argument and gives it back. -/
def call : Call :=
  { (default : Call) with
    method := ⟨"send", ⟨.clauses [clause], .clauses [clause], false⟩, []⟩
    arguments := [⟨0⟩] }

def owned : Tuple :=
  Tuple.empty.set ⟨0⟩
    (.held ⟨[.make (.constant space alive .one) false false []], [], none, .empty⟩)

theorem proper : Proper call := by
  have only (case : MethodCase) (member : case ∈ call.method.cases) :
      case = ⟨.clauses [clause], .clauses [clause], false⟩ := List.mem_singleton.mp member
  refine ⟨fun case member => ?_, fun case member => ?_, fun case member => ?_⟩
  · rw [only case member]
    exact Predicate.coherent_of_distinct (List.nodup_singleton _)
  · rw [only case member]
    exact Predicate.coherent_of_distinct (List.nodup_singleton _)
  · rw [only case member]
    decide

theorem owned_below : owned.IsBelow 0 := by
  intro l
  by_cases here : l = ⟨0⟩
  · rw [here]
    have fractions : (owned.get ⟨0⟩).fractions = [.one, .one] := by decide
    intro f member
    rw [fractions] at member
    have one : f = .one := by simpa using member
    rw [one]
    trivial
  · rw [owned, Tuple.get_set_of_ne _ _ here]
    exact fun f member => nomatch member

end Flow.Socket

namespace Flow

/-- The check passes because of the first element, and the second one, where nothing is held, makes
all of the choice unreachable. -/
theorem methodCall_unreachable_despite_check :
    let c : Context := .choice [.tensor Socket.owned ⟨0, 1⟩, .tensor .empty ⟨0, 2⟩]
    Proper Socket.call ∧ c.isUnreachable = false ∧
      ((checkCall Socket.call c).run ⟨0⟩).1.isOk = true ∧
      ((methodCall none Socket.call c).run.run Session.new).1.toOption.map
        Context.isUnreachable = some true :=
  ⟨Socket.proper, by decide +kernel, by decide +kernel, by decide +kernel⟩

/-- Both elements pass here, and there is a way on. -/
theorem methodCall_reachable_from_owned :
    let c : Context := .choice [.tensor Socket.owned ⟨0, 1⟩,
      .all [.tensor Socket.owned ⟨0, 2⟩, .unreachable ⟨0, 3⟩]]
    (∀ t ∈ c.tuples, t.IsBelow 0) ∧ c.isUnreachable = false ∧
      ((checkCall Socket.call c).run ⟨4⟩).1.isOk = true ∧
      ∃ d next, (methodCall none Socket.call c).run.run Session.new = (.ok d, next) ∧
        d.isUnreachable = false := by
  intro c
  have below : ∀ t ∈ c.tuples, t.IsBelow 0 := by
    intro t member
    have same : t = Socket.owned := by
      simpa [c, Context.tuples, Context.tuplesIn] using member
    rw [same]
    exact Socket.owned_below
  have possible : c.isUnreachable = false := by decide
  have passed : ((checkCall Socket.call c).run ⟨4⟩).1.isOk = true := by decide +kernel
  have uniform :
      c.everyChoice (fun e => ((checkCall Socket.call e).run ⟨4⟩).1.isOk) = true := by
    decide +kernel
  have reached : Session.new.supply.Reached 0 := Nat.zero_le 0
  obtain ⟨d, next, ran, -, reachable⟩ := methodCall_unreachable_iff_blocked Socket.proper below
    (Nat.zero_le 4) reached rfl possible passed
  exact ⟨below, possible, passed, d, next, ran, reachable uniform⟩

end Flow

end Typestate
