import Typestate.SExpr.Basic
import Typestate.Space.Draft

set_option autoImplicit false

/-!
The written form of a state space: its dimensions in order, then its mapped fields.
-/

namespace Typestate

namespace Space

/-- A dimension is declared as a marker if one of its states is. -/
def dimensionSExpr (s : Space) (dimension : String) : SExpr :=
  let states := s.children dimension
  let head := if states.any s.isMarker then "marker" else "dimension"
  let name := if isAnonymous dimension then "_" else dimension
  .list [.atom head, .atom ((s.parent? dimension).getD alive), .atom name,
    .list (states.map .atom)]

def fieldSExpr (field node : String) : SExpr :=
  .phrase [.atom "field", .atom field, .atom node]

def toSExpr (s : Space) : SExpr :=
  .list ([.atom "space", .atom s.name] ++
    (s.nodes.filter s.isDimension).map s.dimensionSExpr ++
    s.fields.map fun (field, node) => fieldSExpr field node)

end Space

end Typestate
