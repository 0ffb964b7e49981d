import Typestate.Context.Basic
import Typestate.Diagnostic

set_option autoImplicit false

/-!
Checking contexts: a choice passes if one of its elements does, an obligation if all of them do.
-/

namespace Typestate

/-- Nothing, or why a check failed. -/
abbrev CheckResult := Except Diagnostic Unit

namespace Context

def noContext : Diagnostic :=
  .error
    "No available context--usually due to a previous failure or error during packing/unpacking"

end Context

namespace FailedPack

def diagnostic (f : FailedPack) : Diagnostic :=
  .error ("Previously attempted to pack to " ++ f.state ++
    " but could not because the following invariant was unsatisfiable: " ++ f.invariant)

end FailedPack

namespace Context

mutual

/-- Runs a check on the tensors from left to right, in a choice up to the first that passes. -/
def check {m : Type → Type} [Monad m] (f : Tuple → Branch → m CheckResult) :
    Context → m CheckResult
  | .stuck _ => return .error noContext
  | .packFailed failed _ => return .error failed.diagnostic
  | .unreachable _ => return .ok ()
  | .tensor t b => f t b
  | .choice es => do
      match ← checkAny f es with
      | some [] => return .error noContext
      | some (first :: rest) => return .error (.anyOf first rest)
      | none => return .ok ()
  | .all es => do
      match ← checkAll f es with
      | [] => return .ok ()
      | first :: rest => return .error (.allOf first rest)

/-- The failures of all elements, or none if one passes. -/
def checkAny {m : Type → Type} [Monad m] (f : Tuple → Branch → m CheckResult) :
    List Context → m (Option (List Diagnostic))
  | [] => return some []
  | e :: es => do
      match ← check f e with
      | .ok () => return none
      | .error d => return (← checkAny f es).map (d :: ·)

/-- The failures among the elements. -/
def checkAll {m : Type → Type} [Monad m] (f : Tuple → Branch → m CheckResult) :
    List Context → m (List Diagnostic)
  | [] => return []
  | e :: es => do
      match ← check f e with
      | .ok () => checkAll f es
      | .error d => return d :: (← checkAll f es)

end

end Context

end Typestate
