import Typestate.Space.Draft

set_option autoImplicit false

/-!
The state spaces of a session by type name.
-/

namespace Typestate

/-- The space of types without a protocol: only the root. -/
def Space.top : Space := (Space.Draft.new "java.lang.Object").space

structure Registry where
  spaces : SortedMap String Space
  deriving Inhabited, Repr

namespace Registry

def empty : Registry := ⟨.empty⟩

/-- A space takes the place of an earlier one of the same name. -/
def register (r : Registry) (space : Space) : Registry :=
  ⟨r.spaces.insert space.name space⟩

def get? (r : Registry) (name : String) : Option Space := r.spaces.get? name

def getOrTop (r : Registry) (name : String) : Space := (r.get? name).getD Space.top

/-- The space under a name, or the given one, which is then kept under that name. -/
def getOrInsert (r : Registry) (name : String) (space : Space) : Registry × Space :=
  match r.get? name with
  | some found => (r, found)
  | none => (⟨r.spaces.insert name space⟩, space)

end Registry

end Typestate
