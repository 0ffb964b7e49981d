import Typestate.Context.Join
import Typestate.Flow.Call
import Typestate.Flow.Check
import Typestate.Flow.Entry
import Typestate.Flow.Field

set_option autoImplicit false

/-!
The values a flow analysis computes with: a context for each point of a program that was reached.
-/

namespace Typestate

inductive FlowState where
  /-- Not reached yet. -/
  | bottom
  | reached (context : Context)
  deriving BEq, Inhabited, Repr

namespace FlowState

open Analysis

def context? : FlowState → Option Context
  | .bottom => none
  | .reached c => some c

def isImpossible : FlowState → Bool
  | .bottom => false
  | .reached c => c.isImpossible

def atLeastAsPrecise : FlowState → FlowState → Bool
  | .bottom, _ => true
  | _, .bottom => false
  | .reached a, .reached b => a.atLeastAsPrecise b

/-- Logs a context when debugging. -/
def logResult (c : Context) : AnalysisM Unit := do
  if (← options).debug then log c.toSExpr

def join (a b : FlowState) (point : MergePoint) : AnalysisM FlowState := do
  match a, b with
  | .bottom, _ => return b
  | _, .bottom => return a
  | .reached c, .reached d =>
      log (.list [.atom (if point = .loop then "join-loop" else "join")])
      let joined := (← c.join point d).freeze
      logResult joined
      return .reached joined

def freeze : FlowState → FlowState
  | .bottom => .bottom
  | .reached c => .reached c.freeze

/-- What is not reached stays so. -/
def apply (x : FlowState) (step : Context → AnalysisM Context) : AnalysisM FlowState := do
  match x with
  | .bottom => return .bottom
  | .reached c =>
      let result ← step c
      logResult result
      return .reached result

def methodCall (x : FlowState) (env : MethodEnv) (call : Call) : AnalysisM FlowState :=
  x.apply (Flow.methodCall env.classDecl call)

def newObject (x : FlowState) (call : Call) : AnalysisM FlowState := x.apply (Flow.newObject call)

def constructorCall (x : FlowState) (call : Call) : AnalysisM FlowState :=
  x.apply (Flow.constructorCall call)

def fieldRead (x : FlowState) (env : MethodEnv) (access : FieldAccess) : AnalysisM FlowState :=
  x.apply (Flow.fieldAccess env.classDecl access false)

def fieldWrite (x : FlowState) (env : MethodEnv) (access : FieldAccess) : AnalysisM FlowState :=
  x.apply (Flow.fieldAccess env.classDecl access true)

/-- Forgets the states of what others may have changed. -/
def forgetShared (x : FlowState) : AnalysisM FlowState :=
  x.apply fun c => c.mapTensors fun t b => return .tensor t.forgetShared b

/-- Every check succeeds where the program was not reached. -/
def check {m : Type → Type} [Monad m] (x : FlowState) (f : Context → m CheckResult) :
    m CheckResult :=
  match x with
  | .bottom => return .ok ()
  | .reached c => f c

def checkCall (x : FlowState) (call : Call) : AnalysisM CheckResult :=
  x.check fun c => liftSupply (Flow.checkCall call c)

def checkReturn (x : FlowState) (env : MethodEnv) (span : Span) : AnalysisM CheckResult :=
  x.check (Flow.checkReturn env span)

def checkStates (x : FlowState) (l : Location) (states : List String) (inFrame : Bool)
    (span : Span) : CheckResult :=
  Id.run (x.check fun c => return Flow.checkStates l states inFrame span c)

end FlowState

end Typestate
