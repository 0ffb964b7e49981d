import Typestate.Text

set_option autoImplicit false

/-!
Symbolic fractions and terms. A fraction says how much of a permission is held at one node. It never
changes; what it stands for is up to the constraints it occurs in. The sum of a term is at most one.
-/

namespace Typestate

inductive Fraction where
  | zero
  | one
  /-- A constant strictly between zero and one, different from every other constant. -/
  | named (id : Nat)
  /-- An unknown, settled by the constraints it occurs in. -/
  | unknown (id : Nat)
  deriving DecidableEq, Inhabited, Repr

namespace Fraction

def isLiteral : Fraction → Bool
  | .unknown _ => false
  | _ => true

/-- Whether a fraction on its own is known to be more than zero. -/
def isPositive : Fraction → Bool
  | .one | .named _ => true
  | _ => false

def text : Fraction → String
  | .zero => "0"
  | .one => "1"
  | .named id => "k" ++ toString id
  | .unknown id => "v" ++ toString id

def ofText? (name : String) : Option Fraction :=
  match name.toList with
  | ['0'] => some .zero
  | ['1'] => some .one
  | 'k' :: digits => (Text.decimal? digits).map .named
  | 'v' :: digits => (Text.decimal? digits).map .unknown
  | _ => none

/-- Zero, one, constants and unknowns, the last two by number. -/
def rank : Fraction → Nat × Nat
  | .zero => (0, 0)
  | .one => (1, 0)
  | .named id => (2, id)
  | .unknown id => (3, id)

def before (a b : Fraction) : Bool :=
  a.rank.1 < b.rank.1 || (a.rank.1 == b.rank.1 && a.rank.2 < b.rank.2)

end Fraction

/-- A fraction or a sum of fractions. -/
inductive Term where
  | single (fraction : Fraction)
  | sum (summands : List Fraction)
  deriving DecidableEq, Inhabited, Repr

namespace Term

/-- Places a fraction in front of the first one that it comes before. -/
def insertFraction (f : Fraction) : List Fraction → List Fraction
  | [] => [f]
  | g :: rest => if f.before g then f :: g :: rest else g :: insertFraction f rest

def sortFractions (fs : List Fraction) : List Fraction :=
  fs.foldl (fun sorted f => insertFraction f sorted) []

/-- The sum of fractions in its normal form: sorted, without zeros, and no sum at all if fewer
than two summands are left. -/
def ofSum (fs : List Fraction) : Term :=
  match sortFractions (fs.filter (· != .zero)) with
  | [] => .single .zero
  | [f] => .single f
  | summands => .sum summands

def fractions : Term → List Fraction
  | .single f => [f]
  | .sum summands => summands

def fraction? : Term → Option Fraction
  | .single f => some f
  | .sum _ => none

def text : Term → String
  | .single f => f.text
  | .sum summands => "(" ++ String.intercalate " + " (summands.map Fraction.text) ++ ")"

/-- The order of words over fractions. -/
def listBefore : List Fraction → List Fraction → Bool
  | _, [] => false
  | [], _ :: _ => true
  | f :: fs, g :: gs => f.before g || (f == g && listBefore fs gs)

/-- Single fractions come before sums. -/
def before : Term → Term → Bool
  | .single f, .single g => f.before g
  | .single _, .sum _ => true
  | .sum _, .single _ => false
  | .sum fs, .sum gs => listBefore fs gs

/-- Places a term in an ascending list unless it is there already. -/
def insertSorted (t : Term) : List Term → List Term
  | [] => [t]
  | u :: rest =>
      if t = u then u :: rest
      else if t.before u then t :: u :: rest
      else u :: insertSorted t rest

/-- The terms in ascending order, each of them once. -/
def sort (ts : List Term) : List Term := ts.foldl (fun sorted t => insertSorted t sorted) []

end Term

instance : Coe Fraction Term := ⟨.single⟩

end Typestate
