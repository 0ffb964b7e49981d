import Typestate.Context.Check
import Typestate.Tuple.Packing

set_option autoImplicit false

/-!
Checks of what is required at calls, at returns and of states.
-/

namespace Typestate

namespace Flow

open Analysis

/-- Whose states are wrong, in words. -/
def stateReport (who verb : String) (states known : List String) (span : Span) : Diagnostic :=
  (Diagnostic.error (who ++ " must " ++ verb ++ " state " ++ String.intercalate "," states ++
    " but is in " ++ String.intercalate "," known)).withSpan span

/-- The first kind of state information, of the object or of its frame, that is not as required. -/
def checkTargetStates (p : Predicate) (target : Target) (returning : Bool) (span : Span)
    (x : Holding) : CheckResult := do
  let who := target.describe returning
  let verb := if returning then "return in" else "be in"
  let states := p.requiredStates target false
  if !x.isInStates states false then
    throw (stateReport who verb states (x.stateInfo false) span)
  let states := p.requiredStates target true
  if !x.isInStates states true then
    throw (stateReport (who ++ " frame") verb states (x.stateInfo true) span)

/-- The states and permissions a predicate requires of what is held for one target. -/
def checkTarget (p : Predicate) (target : Target) (returning : Bool) (span : Span) (x : Holding) :
    SupplyM CheckResult := do
  match checkTargetStates p target returning span x with
  | .error d => return .error d
  | .ok () =>
      match ← p.requests target false with
      | .error overlap => return .error overlap.diagnostic
      | .ok none => return .ok ()
      | .ok (some request) =>
          if (← x.split request).isUnsatisfiable then
            let verb := if returning then "return" else "have"
            return .error ((Diagnostic.error (target.describe returning ++ " must " ++ verb ++
              " permissions " ++ request.text ++ " but it has " ++ x.describe)).withSpan span)
          else return .ok ()

/-- The targets of a predicate in order, up to the first that fails. -/
def checkTargets (p : Predicate) (resolve : Target → Option Location) (returning : Bool)
    (span : Span) (t : Tuple) : List Target → SupplyM CheckResult
  | [] => return .ok ()
  | target :: rest => do
      match resolve target with
      | none => checkTargets p resolve returning span t rest
      | some l =>
          if (t.get l).isBottom then checkTargets p resolve returning span t rest
          else
            match ← checkTarget p target returning span (t.get l) with
            | .ok () => checkTargets p resolve returning span t rest
            | .error d => return .error d

def checkPredicate (p : Predicate) (resolve : Target → Option Location) (returning : Bool)
    (span : Span) (t : Tuple) : SupplyM CheckResult :=
  checkTargets p resolve returning span t p.targets

/-- The failures of all cases of a method, or none if one of them can be met. -/
def checkCases (call : Call) (t : Tuple) : List MethodCase → SupplyM (Option (List Diagnostic))
  | [] => return some []
  | case :: rest => do
      match ← checkPredicate case.pre call.resolve false call.span t with
      | .ok () => return none
      | .error d => return (← checkCases call t rest).map (d :: ·)

/-- Whether some case of a method can be met in every tensor. -/
def checkCall (call : Call) (context : Context) : SupplyM CheckResult :=
  context.check fun t _ => do
    match ← checkCases call t call.method.cases with
    | some (first :: rest) => return .error (.anyOf first rest)
    | _ => return .ok ()

/-- The location that a target of the specification of the method under analysis stands for. -/
def resolveReturn (env : MethodEnv) (t : Tuple) (target : Target) : Option Location :=
  if target = Target.receiver then t.receiver
  else if target = Target.result then env.result
  else (Target.argument? target).bind fun i => env.params[i]?

def mentionsFailedPack (d : Diagnostic) : Bool :=
  Text.occursIn "Previously attempted to pack".toList d.note.toList

/-- Whether every tensor meets the postcondition of the method under analysis, after the receiver
was packed to the states that it asks for. -/
def checkReturn (env : MethodEnv) (span : Span) (context : Context) : AnalysisM CheckResult := do
  let needed := env.post.requiredStates Target.receiver true
  let wrangled ← match env.classDecl with
    | some c => context.mapTensors fun t b => t.wrangle c b needed false
    | none => pure context
  let result ← liftSupply <| wrangled.check fun t _ =>
    checkPredicate env.post (resolveReturn env t) true span t
  match result with
  | .ok () => return .ok ()
  | .error d =>
      if mentionsFailedPack d then
        return .error (d.withHelp ("Could not pack receiver to states " ++
          String.intercalate "," needed ++ " due to insufficient field permissions for return"))
      else return .error d

/-- Whether what is held at a location is in all of the states in every tensor. -/
def checkStates (l : Location) (states : List String) (inFrame : Bool) (span : Span)
    (context : Context) : CheckResult :=
  Id.run <| context.check fun t _ =>
    let x := t.get l
    if x.isInStates states inFrame then return .ok ()
    else return .error (stateReport l.text "be in" states (x.stateInfo inFrame) span)

end Flow

end Typestate
