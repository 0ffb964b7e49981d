set_option autoImplicit false

/-!
The five kinds of permission, and permissions as they are written in specifications.
-/

namespace Typestate

inductive Kind where
  | unique
  | full
  | share
  | immutable
  | pure
  deriving DecidableEq, Inhabited, Repr

/-- What is left of a permission after another was split off it. -/
inductive Remainder where
  | impossible
  | nothing
  | kind (kind : Kind)
  deriving DecidableEq, Inhabited, Repr

namespace Kind

def isReadOnly : Kind → Bool
  | .immutable | .pure => true
  | _ => false

def text : Kind → String
  | .unique => "unique"
  | .full => "full"
  | .share => "share"
  | .immutable => "immutable"
  | .pure => "pure"

def all : List Kind := [.unique, .full, .share, .immutable, .pure]

def ofText? (name : String) : Option Kind := all.find? fun k => k.text = name

/-- What a permission of the first kind becomes when one of the second is split off. -/
def split : Kind → Kind → Remainder
  | .unique, .unique => .nothing
  | .unique, .full | .full, .full => .kind .pure
  | .unique, .share | .full, .share | .share, .share | .share, .pure => .kind .share
  | .unique, .immutable | .full, .immutable => .kind .immutable
  | .immutable, .immutable | .immutable, .pure => .kind .immutable
  | .unique, .pure | .full, .pure => .kind .full
  | .pure, .pure => .kind .pure
  | _, _ => .impossible

end Kind

/-- A permission in words: its kind, root and states, and whether it is for the frame. -/
def describePermission (kind : Kind) (root : String) (states : List String) (frame : Bool) :
    String :=
  kind.text ++ "(" ++ root ++ ")" ++
    (if states.isEmpty then "" else " in " ++ String.intercalate "," states) ++
    (if frame then " frame" else "")

/-- A permission as it is written, before fractions are chosen. -/
structure Spec where
  kind : Kind
  root : String
  states : List String
  frame : Bool
  deriving DecidableEq, Inhabited, Repr

namespace Spec

def text (s : Spec) : String := describePermission s.kind s.root s.states s.frame

end Spec

end Typestate
