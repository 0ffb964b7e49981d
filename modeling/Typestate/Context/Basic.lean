import Typestate.BranchTree
import Typestate.Tuple.Basic

set_option autoImplicit false

/-!
Contexts: what an analysis knows at one point of a program, as a tree. In a choice the analysis may
go on with whichever element it likes, so the most precise one counts; an obligation needs every
element to be good enough, so the least precise one counts.
-/

namespace Typestate

/-- Why packing an object failed. -/
structure FailedPack where
  state : String
  /-- The invariant that could not be met, in words. -/
  invariant : String
  deriving DecidableEq, Inhabited, Repr

inductive Context where
  /-- Nothing usable is left after an earlier failure. -/
  | stuck (branch : Branch)
  /-- Nothing usable is left because packing failed. -/
  | packFailed (failed : FailedPack) (branch : Branch)
  /-- This point of the program is never reached. -/
  | unreachable (branch : Branch)
  | tensor (tuple : Tuple) (branch : Branch)
  | choice (elements : List Context)
  | all (elements : List Context)
  deriving Inhabited, Repr

namespace Context

mutual

def beq : Context → Context → Bool
  | .stuck a, .stuck b => a == b
  | .packFailed f a, .packFailed g b => f == g && a == b
  | .unreachable a, .unreachable b => a == b
  | .tensor t a, .tensor u b => t == u && a == b
  | .choice xs, .choice ys => beqList xs ys
  | .all xs, .all ys => beqList xs ys
  | _, _ => false

def beqList : List Context → List Context → Bool
  | [], [] => true
  | x :: xs, y :: ys => beq x y && beqList xs ys
  | _, _ => false

end

instance : BEq Context := ⟨beq⟩

def branch? : Context → Option Branch
  | .stuck b | .packFailed _ b | .unreachable b | .tensor _ b => some b
  | .choice _ | .all _ => none

mutual

/-- Whether nothing usable is left. -/
def isStuck : Context → Bool
  | .stuck _ | .packFailed _ _ => true
  | .unreachable _ | .tensor _ _ => false
  | .choice es => allStuck es
  | .all es => anyStuck es

def allStuck : List Context → Bool
  | [] => true
  | e :: es => e.isStuck && allStuck es

def anyStuck : List Context → Bool
  | [] => false
  | e :: es => e.isStuck || anyStuck es

end

mutual

/-- Whether the point is never reached. -/
def isUnreachable : Context → Bool
  | .unreachable _ => true
  | .stuck _ | .packFailed _ _ | .tensor _ _ => false
  | .choice es => anyUnreachable es
  | .all es => allUnreachable es

def allUnreachable : List Context → Bool
  | [] => true
  | e :: es => e.isUnreachable && allUnreachable es

def anyUnreachable : List Context → Bool
  | [] => false
  | e :: es => e.isUnreachable || anyUnreachable es

end

mutual

/-- Whether there is no way on that was not declared impossible, which needs no solving. -/
def isImpossible : Context → Bool
  | .stuck _ | .packFailed _ _ => true
  | .unreachable _ => false
  | .tensor t _ => t.isImpossible
  | .choice es => allImpossible es
  | .all es => anyImpossible es

def allImpossible : List Context → Bool
  | [] => true
  | e :: es => e.isImpossible && allImpossible es

def anyImpossible : List Context → Bool
  | [] => false
  | e :: es => e.isImpossible || anyImpossible es

end

/-- Whether there is exactly one leaf. -/
def isSingle : Context → Bool
  | .choice [e] | .all [e] => e.isSingle
  | .choice _ | .all _ => false
  | _ => true

mutual

/-- Every tensor replaced by what a function makes of it, from left to right. -/
def mapTensors {m : Type → Type} [Monad m] (f : Tuple → Branch → m Context) :
    Context → m Context
  | .tensor t b => f t b
  | .choice es => do return .choice (← mapTensorsList f es)
  | .all es => do return .all (← mapTensorsList f es)
  | leaf => return leaf

def mapTensorsList {m : Type → Type} [Monad m] (f : Tuple → Branch → m Context) :
    List Context → m (List Context)
  | [] => return []
  | e :: es => do
      let first ← mapTensors f e
      return first :: (← mapTensorsList f es)

end

mutual

def toSExpr : Context → SExpr
  | .stuck b => .list [.atom "true", .atom b.text]
  | .packFailed failed b =>
      .phrase [.atom "failed-pack", .atom b.text, .atom failed.state, .ofQuoted failed.invariant]
  | .unreachable b => .list [.atom "false", .atom b.text]
  | .tensor t b => .list [.atom "tensor", .atom b.text, t.toSExpr]
  | .choice es => .list (.atom "choice" :: toSExprList es)
  | .all es => .list (.atom "all" :: toSExprList es)

def toSExprList : List Context → List SExpr
  | [] => []
  | e :: es => e.toSExpr :: toSExprList es

end

end Context

end Typestate
