import Typestate.Permission.Basic
import Typestate.SExpr.Basic

set_option autoImplicit false

/-!
The written forms of fractions, constraints and permissions.
-/

namespace Typestate

namespace SExpr

/-- A text of its own, put between quotes as it is. -/
def ofQuoted (text : String) : SExpr := .atom ("\"" ++ text ++ "\"")

end SExpr

namespace Fraction

def toSExpr (f : Fraction) : SExpr := .atom f.text

end Fraction

namespace Term

def toSExpr : Term → SExpr
  | .single f => f.toSExpr
  | .sum fs => .list (.atom "+" :: fs.map Fraction.toSExpr)

end Term

namespace Constraint

def toSExpr : Constraint → SExpr
  | .equal ts => .list (.atom "=" :: ts.map Term.toSExpr)
  | .atMost a b => .list [.atom "<=", a.toSExpr, b.toSExpr]
  | .less a b => .list [.atom "<", a.toSExpr, b.toSExpr]
  | .nonZero t => .list [.atom ">", t.toSExpr, .atom "0"]

end Constraint

namespace Constraints

def toSExpr (cs : Constraints) : SExpr :=
  let reason := cs.impossible.toList.map fun reason =>
    SExpr.list [.atom "impossible", .ofQuoted reason]
  .list (.atom "constraints" :: reason ++ cs.items.map Constraint.toSExpr)

end Constraints

namespace Permission

def sharesSExpr (s : Shares) : SExpr :=
  .list (s.values.map (fun (n, f) => .list [.atom n, f.toSExpr]) ++
    [.list [.atom "below", s.below.toSExpr]])

def toSExpr (p : Permission) : SExpr :=
  .list ([.atom "perm", .atom p.root, sharesSExpr p.shares] ++
    (if p.readOnly then [.atom "read-only"] else []) ++
    (if p.frame then [.atom "frame"] else []) ++
    (if p.states.isEmpty then [] else [.list (.atom "states" :: p.states.map .atom)]))

end Permission

end Typestate
