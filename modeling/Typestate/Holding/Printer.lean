import Typestate.Holding.Basic
import Typestate.Permission.Printer

set_option autoImplicit false

/-!
The written form of what is held for an object.
-/

namespace Typestate

namespace Holding

def poolSExpr (head : String) (pool : Pool) : SExpr :=
  .list (.atom head :: pool.map Permission.toSExpr)

def toSExpr : Holding → SExpr
  | .bottom => .atom "bottom"
  | .held h =>
      .list ([.atom "permissions", poolSExpr "virtual" h.virtuals, poolSExpr "frame" h.frames] ++
        h.unpacked.toList.map (fun u => .list [.atom "unpacked", u.toSExpr]) ++
        [h.constraints.toSExpr])

end Holding

end Typestate
