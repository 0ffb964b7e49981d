import Typestate.Proofs.Work
import Typestate.Session

set_option autoImplicit false

/-!
Reasoning about steps of an analysis that keeps no log: they end with a result, or in a broken
contract that is allowed for.
-/

namespace Typestate

namespace Analysis

variable {α β : Type} {allowed : Fault → Prop}

/-- Without a log, the work ends with a result as described, or in one of the allowed faults. -/
def Ends (allowed : Fault → Prop) (work : AnalysisM α) (shown : α → Prop) : Prop :=
  ∀ session : Session, session.logging = false →
    (∃ a next, work.run.run session = (.ok a, next) ∧ next.logging = false ∧ shown a) ∨
      ∃ fault next, work.run.run session = (.error fault, next) ∧ allowed fault

namespace Ends

variable {shown : α → Prop}

theorem pure {a : α} (holds : shown a) : Ends allowed (pure a) shown :=
  fun session quiet => .inl ⟨a, session, rfl, quiet, holds⟩

theorem bind {work : AnalysisM α} {next : α → AnalysisM β} {after : β → Prop}
    (first : Ends allowed work shown) (second : ∀ a, shown a → Ends allowed (next a) after) :
    Ends allowed (work >>= next) after := by
  intro session quiet
  rcases first session quiet with ⟨a, later, ran, still, holds⟩ | ⟨fault, later, ran, fine⟩
  · have goesOn : (work >>= next).run.run session = (next a).run.run later := by
      rw [ExceptT.run_bind, StateT.run_bind, ran]
      rfl
    rw [goesOn]
    exact second a holds later still
  · refine .inr ⟨fault, later, ?_, fine⟩
    rw [ExceptT.run_bind, StateT.run_bind, ran]
    rfl

theorem imp {work : AnalysisM α} {other : α → Prop} (ends : Ends allowed work shown)
    (implies : ∀ a, shown a → other a) : Ends allowed work other := by
  intro session quiet
  rcases ends session quiet with ⟨a, next, ran, still, holds⟩ | fault
  · exact .inl ⟨a, next, ran, still, implies a holds⟩
  · exact .inr fault

theorem result {work : AnalysisM α} {session next : Session} {a : α}
    (ends : Ends allowed work shown) (quiet : session.logging = false)
    (ran : work.run.run session = (.ok a, next)) : shown a := by
  rcases ends session quiet with ⟨b, later, same, -, holds⟩ | ⟨fault, later, same, -⟩
  · rw [ran] at same
    obtain ⟨⟨⟩, -⟩ := Prod.mk.inj same
    exact holds
  · rw [ran] at same
    cases same

theorem mapM {step : α → AnalysisM β} {after : β → Prop} (xs : List α)
    (each : ∀ a ∈ xs, Ends allowed (step a) after) :
    Ends allowed (xs.mapM step) fun ys => ∀ y ∈ ys, after y := by
  induction xs with
  | nil => exact pure nofun
  | cons a rest ih =>
      rw [List.mapM_cons]
      refine (each a List.mem_cons_self).bind fun y first =>
        (ih fun a' later => each a' (List.mem_cons_of_mem _ later)).bind fun ys others => ?_
      exact pure (List.forall_mem_cons.mpr ⟨first, others⟩)

theorem liftSupply {work : SupplyM α} (yields : Yields work shown) :
    Ends allowed (liftSupply work) shown :=
  fun session quiet => .inl ⟨_, _, rfl, quiet, yields session.supply⟩

theorem liftGuarded {guarded : Except Fault (SupplyM α)} {work : SupplyM α}
    (done : guarded = .ok work) (yields : Yields work shown) :
    Ends allowed (liftGuarded guarded) shown := by
  rw [done]
  exact liftSupply yields

theorem liftGuarded_error {guarded : Except Fault (SupplyM α)} {fault : Fault}
    (broken : guarded = .error fault) (fine : allowed fault) :
    Ends allowed (Analysis.liftGuarded guarded) shown := by
  intro session _
  rw [broken]
  exact .inr ⟨fault, session, rfl, fine⟩

theorem get : Ends allowed get fun session => session.logging = false :=
  fun session quiet => .inl ⟨session, session, rfl, quiet, quiet⟩

theorem modify {change : Session → Session}
    (keeps : ∀ session, (change session).logging = session.logging) :
    Ends allowed (modify change) fun _ => True :=
  fun session quiet => .inl ⟨(), change session, rfl, (keeps session).trans quiet, trivial⟩

theorem options : Ends allowed options fun _ => True := get.bind fun _ _ => pure trivial

theorem log (node : SExpr) : Ends allowed (log node) fun _ => True := by
  refine get.bind fun session quiet => ?_
  rw [quiet]
  exact pure trivial

theorem remark (text : String) : Ends allowed (remark text) fun _ => True := by
  refine get.bind fun session quiet => ?_
  rw [quiet]
  exact pure trivial

theorem indented {work : AnalysisM α} (ends : Ends allowed work shown) :
    Ends allowed (indented work) shown := by
  refine get.bind fun outer _ => get.bind fun session quiet => ?_
  rw [quiet]
  refine ends.bind fun a holds => bind (modify ?_) fun _ _ => pure holds
  exact fun _ => rfl

theorem mint (parent : Nat) (purpose : String) :
    Ends allowed (mint parent purpose) fun _ => True :=
  fun _ quiet => .inl ⟨_, _, rfl, quiet, trivial⟩

theorem freshBranch (b : Branch) (purpose : String) :
    Ends allowed (freshBranch b purpose) fun _ => True :=
  (mint b.choice purpose).bind fun _ _ => pure trivial

end Ends

/-- Whether the work goes through and ends as a test has it. -/
def leadsTo (work : AnalysisM α) (session : Session) (test : α → Session → Bool) : Bool :=
  match work.run.run session with
  | (.ok a, next) => test a next
  | (.error _, _) => false

theorem exists_of_leadsTo {work : AnalysisM α} {session : Session} {test : α → Session → Bool}
    (leads : leadsTo work session test = true) :
    ∃ a next, work.run.run session = (.ok a, next) ∧ test a next = true := by
  unfold leadsTo at leads
  split at leads
  · next a next ran => exact ⟨a, next, ran, leads⟩
  · cases leads

end Analysis

end Typestate
