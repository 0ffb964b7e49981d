import Typestate.Fraction.Basic

set_option autoImplicit false

/-!
Relations between terms.
-/

namespace Typestate

inductive Constraint where
  /-- All of the terms are equal. -/
  | equal (terms : List Term)
  | atMost (lower upper : Term)
  | less (lower upper : Term)
  | nonZero (term : Term)
  deriving DecidableEq, Inhabited, Repr

namespace Constraint

def terms : Constraint → List Term
  | .equal ts => ts
  | .atMost a b => [a, b]
  | .less a b => [a, b]
  | .nonZero t => [t]

def mentions (c : Constraint) (f : Fraction) : Bool :=
  c.terms.any fun t => t.fractions.contains f

def text : Constraint → String
  | .equal ts => String.intercalate " = " (ts.map Term.text)
  | .atMost a b => a.text ++ " <= " ++ b.text
  | .less a b => a.text ++ " < " ++ b.text
  | .nonZero t => t.text ++ " > 0"

end Constraint

end Typestate
