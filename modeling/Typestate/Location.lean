set_option autoImplicit false

/-!
What the outside world hands to the analysis.
-/

namespace Typestate

/-- A place that may hold an object, as told by an alias analysis. -/
structure Location where
  index : Nat
  deriving DecidableEq, Inhabited, Repr

namespace Location

instance : LT Location := ⟨fun a b => a.index < b.index⟩

instance : DecidableLT Location := fun a b => inferInstanceAs (Decidable (a.index < b.index))

def text (l : Location) : String := "l" ++ toString l.index

end Location

/-- Where two ways through a program meet. -/
inductive MergePoint where
  /-- After the branches of a conditional. -/
  | branch
  /-- At the head of a loop, where the way back must not weaken what was known before. -/
  | loop
  deriving DecidableEq, Inhabited, Repr

end Typestate
