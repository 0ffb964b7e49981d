import Typestate.Location
import Typestate.Specification.Predicate

set_option autoImplicit false

/-!
Specified methods and classes, and the instructions that use them.
-/

namespace Typestate

structure MethodCase where
  pre : Predicate
  post : Predicate
  /-- The method changes the state of nothing it touches. -/
  effectFree : Bool
  deriving Inhabited, Repr

/-- A method has at least one case. -/
structure Method where
  name : String
  firstCase : MethodCase
  otherCases : List MethodCase
  deriving Inhabited, Repr

namespace Method

def ofCases (name : String) : List MethodCase → Except Fault Method
  | [] => .error (.methodWithoutCases name)
  | first :: others => .ok ⟨name, first, others⟩

def cases (m : Method) : List MethodCase := m.firstCase :: m.otherCases

end Method

/-- A class with a protocol: its state space and the invariants of its states. -/
structure ClassDecl where
  name : String
  space : Space
  invariants : List (String × Predicate)
  deriving Inhabited, Repr

namespace ClassDecl

def invariant? (c : ClassDecl) (state : String) : Option Predicate :=
  (c.invariants.find? fun entry => entry.1 = state).map Prod.snd

end ClassDecl

structure Call where
  span : Span
  method : Method
  receiver : Option Location
  arguments : List Location
  /-- Where the result goes; for a new object, the object. -/
  target : Option Location
  isSuper : Bool
  deriving Inhabited, Repr

namespace Call

/-- The location a target of the method's specification stands for. -/
def resolve (c : Call) (target : Target) : Option Location :=
  if target = Target.receiver then c.receiver
  else if target = Target.result then c.target
  else (Target.argument? target).bind fun i => c.arguments[i]?

/-- What the method's specification calls a location, if it is passed to the call. -/
def targetOf? (c : Call) (l : Location) : Option Target :=
  if c.receiver = some l then some Target.receiver
  else (c.arguments.findIdx? (· = l)).map Target.argument

end Call

structure FieldAccess where
  object : Location
  field : String
  /-- The value written, or the place it is read into. -/
  source : Option Location
  deriving Inhabited, Repr

/-- What is known of the method under analysis. -/
structure MethodEnv where
  /-- The class of the receiver, if it has a protocol. -/
  classDecl : Option ClassDecl
  receiver : Option Location
  params : List Location
  result : Option Location
  /-- Where the fields of the receiver live. -/
  fields : List (String × Location)
  pre : Predicate
  post : Predicate
  deriving Inhabited, Repr

end Typestate
