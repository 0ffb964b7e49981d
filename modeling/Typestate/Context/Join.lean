import Typestate.Context.Basic
import Typestate.Session

set_option autoImplicit false

/-!
Joining contexts where two ways through a program meet.
-/

namespace Typestate

namespace Context

/-- The branch of a join is new unless both sides are on one branch. -/
def joinBranch (a b : Branch) : AnalysisM Branch := do
  if a = b then return a
  else
    let parent := (← get).branches.commonAncestor a.choice b.choice
    return ⟨parent, ← Analysis.mint parent "join"⟩

mutual

def joinTensor (point : MergePoint) (t : Tuple) (b : Branch) : Context → AnalysisM Context
  | .stuck c => return .stuck c
  | .packFailed failed c => return .packFailed failed c
  | .unreachable _ => return .tensor t b
  | .choice es => return .choice (← joinTensorList point t b es)
  | .all es => return .all (← joinTensorList point t b es)
  | .tensor u c => do
      let joined ← Analysis.liftGuarded (t.join u point)
      return .tensor joined (← joinBranch b c)

def joinTensorList (point : MergePoint) (t : Tuple) (b : Branch) :
    List Context → AnalysisM (List Context)
  | [] => return []
  | e :: es => do
      let first ← joinTensor point t b e
      return first :: (← joinTensorList point t b es)

end

mutual

/-- A failure on either side stays a failure, and a side that is never reached adds nothing. -/
def join (point : MergePoint) (c other : Context) : AnalysisM Context :=
  match c with
  | .stuck b => return .stuck b
  | .packFailed failed b => return .packFailed failed b
  | .unreachable _ => return other
  | .tensor t b => joinTensor point t b other
  | .choice es =>
      match other with
      | .stuck _ | .packFailed _ _ => return other
      | .unreachable _ => return .choice es
      | _ => do return .choice (← joinList point es other)
  | .all es =>
      match other with
      | .stuck _ | .packFailed _ _ => return other
      | .unreachable _ => return .all es
      | _ => do return .all (← joinList point es other)

def joinList (point : MergePoint) (es : List Context) (other : Context) :
    AnalysisM (List Context) :=
  match es with
  | [] => return []
  | e :: rest => do
      let first ← join point e other
      return first :: (← joinList point rest other)

end

end Context

end Typestate
