import Typestate.Holding.Basic

set_option autoImplicit false

/-!
Comparing what is held on two ways through a program, and joining it where they meet.
-/

namespace Typestate

namespace Held

/-- Whether two unpacked permissions are equally precise, or both are missing. -/
def sameUnpacked (a b : Held) (s : Solution) : Bool :=
  match a.unpacked, b.unpacked with
  | none, none => true
  | some u, some v => u.atLeastAsPrecise v s && v.atLeastAsPrecise u s
  | _, _ => false

/-- Joins the lists of two sides on top of the given constraints. -/
def joinOn (base other : Held) (s : Solution) (constraints : Constraints) (symmetric : Bool) :
    SupplyM Held := do
  let (joined, constraints) ← Ledger.within constraints do
    let virtuals ← base.virtuals.join other.virtuals s symmetric
    let frames ← base.frames.join other.frames s symmetric
    let unpacked ← match base.unpacked, other.unpacked with
      | some u, some v => some <$> u.join v s symmetric
      | _, _ => pure none
    return Held.mk virtuals frames unpacked .empty
  return { joined with constraints }

/-- At the head of a loop, if one side's constraints imply the other's, only the more general side's
constraints survive. -/
def join (a b : Held) (point : MergePoint) (s : Solution) : SupplyM Held :=
  if point = .loop && b.constraints.atLeastAsPrecise a.constraints then
    a.joinOn b s a.constraints false
  else if point = .loop && a.constraints.atLeastAsPrecise b.constraints then
    b.joinOn a s b.constraints false
  else a.joinOn b s (a.constraints ++ b.constraints) true

end Held

namespace Holding

/-- What two ways have in common. Constraints that cannot be met are above everything. -/
def join (x y : Holding) (point : MergePoint) : Except Fault (SupplyM Holding) :=
  match x, y with
  | .bottom, _ => .ok (return y)
  | _, .bottom => .ok (return x)
  | .held a, .held b =>
      if x == y || a.isUnsatisfiable then .ok (return x)
      else if b.isUnsatisfiable then .ok (return y)
      else
        let s := (a.constraints ++ b.constraints).solution
        if a.sameUnpacked b s then .ok (.held <$> a.join b point s)
        else .error .joiningDifferentUnpacked

def atLeastAsPrecise (x y : Holding) : Bool :=
  match x, y with
  | .bottom, _ => true
  | _, .bottom => false
  | .held a, .held b =>
      if x == y || b.isUnsatisfiable then true
      else if a.isUnsatisfiable then false
      else
        let s := (a.constraints ++ b.constraints).solution
        let unpackedPrecise := match a.unpacked, b.unpacked with
          | none, none => true
          | some u, some v => u.atLeastAsPrecise v s
          | _, _ => false
        unpackedPrecise && a.virtuals.atLeastAsPrecise b.virtuals s &&
          a.frames.atLeastAsPrecise b.frames s

end Holding

end Typestate
