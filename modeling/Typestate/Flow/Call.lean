import Typestate.Context.Compact
import Typestate.Tuple.Packing

set_option autoImplicit false

/-!
What calls do. A call takes the permissions of the precondition away from the locations it is given
and adds those of the postcondition. Several cases make a choice; one that cannot be met drops out
of it.
-/

namespace Typestate

namespace Flow

open Analysis

/-- Takes the permissions for one target of the precondition away. There is no result if the target
is not in the required states or its permissions are not enough. -/
def requireTarget (call : Call) (case : MethodCase) (t : Tuple) (target : Target) :
    SupplyM (Option Tuple) := do
  match call.resolve target with
  | none => return some t
  | some l =>
      let x := t.get l
      if !x.isInStates (case.pre.requiredStates target false) false ||
          !x.isInStates (case.pre.requiredStates target true) true then
        return none
      else
        match ← case.pre.requests target false with
        | .error _ => return none
        | .ok none => return some t
        | .ok (some request) =>
            let rest ← x.split request
            if rest.isUnsatisfiable then return none
            else return some (t.set l (if case.effectFree then rest else rest.forget))

def requireTargets (call : Call) (case : MethodCase) (t : Tuple) :
    List Target → SupplyM (Option Tuple)
  | [] => return some t
  | target :: rest => do
      match ← requireTarget call case t target with
      | some next => requireTargets call case next rest
      | none => return none

/-- Adds the permissions for one target of the postcondition, if they can be held together. -/
def ensureTarget (call : Call) (case : MethodCase) (t : Tuple) (target : Target) :
    SupplyM (Option Tuple) := do
  match call.resolve target with
  | none => return some t
  | some l =>
      match ← case.post.requests target false with
      | .error _ => return none
      | .ok none => return some t
      | .ok (some request) => return some (t.set l (← (t.get l).merge request))

def ensureTargets (call : Call) (case : MethodCase) (t : Tuple) :
    List Target → SupplyM (Option Tuple)
  | [] => return some t
  | target :: rest => do
      match ← ensureTarget call case t target with
      | some next => ensureTargets call case next rest
      | none => return none

/-- One case of a method applied to one tuple. -/
def applyCase (call : Call) (case : MethodCase) (t : Tuple) (b : Branch) : SupplyM Context := do
  if case.pre.isVoid then return .stuck b
  else
    match ← requireTargets call case t case.pre.targets with
    | none => return .stuck b
    | some taken =>
        if case.post.isVoid then return .unreachable b
        else
          match ← ensureTargets call case taken case.post.targets with
          | none => return .stuck b
          | some given => return .tensor given b

/-- All cases of a method, each on a new branch if there are several. -/
def applyCases (call : Call) (t : Tuple) (b : Branch) : AnalysisM Context := do
  match call.method.otherCases with
  | [] => liftSupply (applyCase call call.method.firstCase t b)
  | _ =>
      return .choice (← call.method.cases.mapM fun case => do
        let branch ← freshBranch b "case"
        liftSupply (applyCase call case t branch))

/-- The frame states that some case needs a target to be in. -/
def neededStates (call : Call) (target : Target) : List String :=
  (call.method.cases.flatMap fun case => case.pre.requiredStates target true).eraseDups

/-- Gets the receiver of the method under analysis ready to be passed to a call. -/
def prepareReceiver (c : Option ClassDecl) (call : Call) (t : Tuple) (b : Branch) :
    AnalysisM Context := do
  match c, t.receiver with
  | some c, some receiver =>
      if call.isSuper then
        if t.isReceiverUnpacked then return .tensor t b
        else t.unpackToReach c b alive true
      else
        match call.targetOf? receiver with
        | none => return .tensor t b
        | some target =>
            if !(← options).packBeforeCall || !t.isReceiverUnpacked then return .tensor t b
            else t.wrangle c b (neededStates call target) false
  | _, _ => return .tensor t b

/-- A call that cannot go through makes what follows unreachable, so that the failure is reported
only once. -/
def finishCall (b : Branch) (result : Context) : Context :=
  let result := result.compact false
  if result.isStuck then .unreachable b else result

def logCall (call : Call) : AnalysisM Unit :=
  log (.phrase
    [.atom "call", .atom call.method.name, .atom (toString call.method.cases.length)])

/-- A method call. -/
def methodCall (c : Option ClassDecl) (call : Call) (context : Context) : AnalysisM Context := do
  logCall call
  let result ← indented <| context.mapTensors fun t b => do
    let prepared ← prepareReceiver c call t b
    return finishCall b (← prepared.mapTensors (applyCases call))
  return result.compact false

/-- The creation of an object, which is both the receiver and the result of the call. -/
def newObject (call : Call) (context : Context) : AnalysisM Context := do
  let call := { call with receiver := call.target }
  logCall call
  let result ← context.mapTensors fun t b => return finishCall b (← applyCases call t b)
  return result.compact false

/-- A call of another constructor for the object under construction, which is neither packed nor
unpacked for it. -/
def constructorCall (call : Call) (context : Context) : AnalysisM Context := do
  logCall call
  let result ← context.mapTensors fun t b =>
    return finishCall b (← applyCases { call with receiver := t.receiver } t b)
  return result.compact false

end Flow

end Typestate
