import Typestate.Context.Basic

set_option autoImplicit false

/-!
Which of two contexts knows more.
-/

namespace Typestate

namespace Context

mutual

/-- Whether a context knows at least as much as one tuple. -/
def covers (t : Tuple) : Context → Bool
  | .stuck _ | .packFailed _ _ => false
  | .unreachable _ => true
  | .tensor u _ => u.atLeastAsPrecise t
  | .choice es => anyCovers t es
  | .all es => allCover t es

def anyCovers (t : Tuple) : List Context → Bool
  | [] => false
  | e :: es => e.covers t || anyCovers t es

def allCover (t : Tuple) : List Context → Bool
  | [] => true
  | e :: es => e.covers t && allCover t es

end

/-- What is never reached, and what has no element to meet, proves anything. -/
def provesAnything : Context → Bool
  | .unreachable _ | .all [] => true
  | _ => false

mutual

def precise (c : Context) : Context → Bool
  | .stuck _ | .packFailed _ _ | .unreachable _ => true
  | .tensor t _ => c.covers t
  | .choice es => preciseAll c es
  | .all es => es.isEmpty || preciseAny c es

def preciseAll (c : Context) : List Context → Bool
  | [] => true
  | e :: es => precise c e && preciseAll c es

def preciseAny (c : Context) : List Context → Bool
  | [] => false
  | e :: es => precise c e || preciseAny c es

end

/-- Whether the first context carries at least as much information as the second. -/
def atLeastAsPrecise (c other : Context) : Bool := c.provesAnything || precise c other

end Context

end Typestate
