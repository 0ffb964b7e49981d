import Typestate.Tuple.Packing

set_option autoImplicit false

/-!
What is known where methods and constructors begin.
-/

namespace Typestate

namespace Flow

open Analysis

/-- Nothing is held for the receiver and the parameters at first, and the fields have their
places. -/
def emptyEntry (env : MethodEnv) : Tuple :=
  let start := match env.receiver with
    | some l => (Tuple.empty.withReceiver l).set l .empty
    | none => Tuple.empty
  let withParams := env.params.foldl (fun t l => t.set l .empty) start
  env.fields.foldl (fun t (field, l) => t.mapField field l) withParams

def resolveEntry (env : MethodEnv) (target : Target) : Option Location :=
  if target = Target.receiver then env.receiver
  else (Target.argument? target).bind fun i => env.params[i]?

/-- Adds the permissions of the precondition for each of the targets. -/
def grantTargets (env : MethodEnv) (named : Bool) (t : Tuple) :
    List Target → SupplyM (Except RequestOverlap Tuple)
  | [] => return .ok t
  | target :: rest => do
      match resolveEntry env target with
      | none => grantTargets env named t rest
      | some l =>
          match ← env.pre.requests target named with
          | .error overlap => return .error overlap
          | .ok none => grantTargets env named t rest
          | .ok (some request) =>
              grantTargets env named (t.set l (← (t.get l).merge request)) rest

def entryTuple (env : MethodEnv) : AnalysisM (Except RequestOverlap Tuple) := do
  let named := (← options).namedFractions
  liftSupply (grantTargets env named (emptyEntry env) env.pre.targets)

def entered (t : Tuple) : AnalysisM (Except RequestOverlap Context) := do
  let context := Context.tensor t .root
  log context.toSExpr
  return .ok context

/-- The context in which the body of a method begins. -/
def methodEntry (env : MethodEnv) : AnalysisM (Except RequestOverlap Context) := do
  if env.pre.isVoid then return .ok (.unreachable (← freshBranch .root "method"))
  else
    match ← entryTuple env with
    | .error overlap => return .error overlap
    | .ok t => entered t

/-- The context in which the body of a constructor begins: the object is unpacked, with a frame
permission that nobody else can hold. -/
def constructorEntry (env : MethodEnv) : AnalysisM (Except RequestOverlap Context) := do
  if env.pre.isVoid then return .ok (.unreachable (← freshBranch .root "constructor"))
  else
    match ← entryTuple env with
    | .error overlap => return .error overlap
    | .ok t =>
        match env.receiver, env.classDecl with
        | some receiver, some c =>
            let orphan := RequestSet.ofRequest c.space (.orphan c.space alive true [])
            let x ← liftSupply ((t.get receiver).merge orphan)
            entered (← (t.set receiver x).unpackReceiver c alive)
        | _, _ => entered t

end Flow

end Typestate
