import Typestate.Holding.Join
import Typestate.Holding.Printer
import Typestate.Holding.Transfer

set_option autoImplicit false

/-!
What is held at every location, with the receiver of the method under analysis and the places of its
fields.
-/

namespace Typestate

structure Tuple where
  holdings : SortedMap Location Holding
  receiver : Option Location
  fields : SortedMap String Location
  deriving BEq, Inhabited, Repr

namespace Tuple

def empty : Tuple := ⟨.empty, none, .empty⟩

/-- Nothing is held at a location that is not listed. -/
def get (t : Tuple) (l : Location) : Holding := (t.holdings.get? l).getD .empty

def set (t : Tuple) (l : Location) (x : Holding) : Tuple :=
  { t with holdings := t.holdings.insert l x }

def withReceiver (t : Tuple) (l : Location) : Tuple := { t with receiver := some l }

def mapField (t : Tuple) (field : String) (l : Location) : Tuple :=
  { t with fields := t.fields.insert field l }

def locations (t : Tuple) : List Location := t.holdings.keys

def fieldLocation? (t : Tuple) (field : String) : Option Location := t.fields.get? field

/-- The unpacked permission of the receiver. -/
def unpacked? (t : Tuple) : Option Permission := t.receiver.bind fun l => (t.get l).unpacked

def isReceiverUnpacked (t : Tuple) : Bool := t.unpacked?.isSome

/-- Whether something was declared impossible, which needs no solving. -/
def isImpossible (t : Tuple) : Bool := t.holdings.entries.any fun (_, x) => x.isImpossible

def isUnsatisfiable (t : Tuple) : Bool := t.holdings.entries.any fun (_, x) => x.isUnsatisfiable

/-- The locations of both, those of the first in front. -/
def allLocations (a b : Tuple) : List Location :=
  a.locations ++ b.locations.filter fun l => !a.locations.contains l

/-- Runs pieces of work for locations in order and notes what each of them answers. -/
def fill : List (Location × SupplyM Holding) → SupplyM (SortedMap Location Holding)
  | [] => return .empty
  | (l, work) :: rest => do
      let x ← work
      return (← fill rest).insert l x

/-- Joins what is held at each location. Where both map a field, the tuple with more fields
decides. -/
def join (a b : Tuple) (point : MergePoint) : Except Fault (SupplyM Tuple) := do
  let work ← (allLocations a b).mapM fun l => return (l, ← (a.get l).join (b.get l) point)
  return do
    let holdings ← fill work
    return ⟨holdings, a.receiver.or b.receiver, a.fields.union b.fields⟩

def atLeastAsPrecise (a b : Tuple) : Bool :=
  a == b || (allLocations a b).all fun l => (a.get l).atLeastAsPrecise (b.get l)

/-- Forgets the states of what others may have changed, everywhere. -/
def forgetShared (t : Tuple) : Tuple :=
  { t with holdings := ⟨t.holdings.entries.map fun (l, x) => (l, x.forgetShared)⟩ }

def entrySExpr (t : Tuple) (l : Location) (x : Holding) : SExpr :=
  .list (.atom l.text :: (if t.receiver = some l then [.atom "this"] else []) ++ [x.toSExpr])

def toSExpr (t : Tuple) : SExpr :=
  .list (.atom "tuple" :: t.holdings.entries.map fun (l, x) => t.entrySExpr l x)

end Tuple

end Typestate
