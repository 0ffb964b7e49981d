import Typestate.Holding.Basic

set_option autoImplicit false

/-!
Taking permissions away from what is held and adding to it, packing and unpacking.
-/

namespace Typestate

namespace Holding

/-- Works on what is held with its constraints; an object that was not reached stays so. -/
def rework (x : Holding) (work : Held → LedgerM Held) : SupplyM Holding := do
  match x with
  | .bottom => return .bottom
  | .held h =>
      let (next, constraints) ← Ledger.within h.constraints (work h)
      return .held { next with constraints }

/-- Takes the requested permissions away. What cannot be taken makes the rest impossible. -/
def split (x : Holding) (r : RequestSet) : SupplyM Holding :=
  x.rework fun h => do
    Ledger.demand (· ++ r.constraints)
    let s ← Ledger.solution
    let virtuals ← h.virtuals.split s r.virtuals
    let frames ← h.frames.split s r.frames
    return { h with virtuals, frames }

/-- Adds the given permissions. -/
def merge (x : Holding) (r : RequestSet) : SupplyM Holding :=
  x.rework fun h => do
    Ledger.demand (· ++ r.constraints)
    let s ← Ledger.solution
    let virtuals ← (r.virtuals.map Request.permission).foldlM (Pool.merge s) h.virtuals
    let frames ← (r.frames.map Request.permission).foldlM (Pool.merge s) h.frames
    return { h with virtuals, frames }

/-- Makes the permission for a node good for writing. -/
def makeModifiable (x : Holding) (root : String) (inFrame : Bool) : SupplyM Holding :=
  x.rework fun h => do
    match (h.pool inFrame).take? root false with
    | none =>
        Ledger.demand (·.declareImpossible ("No permission available for root " ++ root))
        return h
    | some (p, others) => return h.withPool inFrame (others ++ [← p.makeModifiable])

/-- Makes the unpacked permission good for writing if it is not so yet. -/
def makeUnpackedModifiable (x : Holding) : Except Fault (SupplyM Holding) :=
  if !x.isUnpacked then .error .noUnpackedToModify
  else .ok <| x.rework fun h => do
    match h.unpacked with
    | none => return h
    | some u =>
        if u.readOnly then return { h with unpacked := some (← u.makeModifiable) } else return h

/-- Takes the frame permission for a node out and holds it as unpacked. Without one the result is
impossible and holds a made-up permission. -/
def unpack (x : Holding) (space : Space) (root : String) : Except Fault (SupplyM Holding) :=
  if x.isUnpacked then .error (.unpackingWhileUnpacked root)
  else
    let reached := if x.isBottom then empty else x
    .ok <| reached.rework fun h => do
      match h.frames.take? root false with
      | some (p, others) =>
          p.demandUsed
          return { h with frames := others, unpacked := some p }
      | none =>
          Ledger.demand (·.declareImpossible ("No permission available to unpack to " ++ root))
          let shares ← Shares.freshAll space root false
          return { h with unpacked := some (.make shares false true []) }

/-- Puts the unpacked permission back into the frame, now in the given states. -/
def pack (x : Holding) (states : List String) : Except Fault (SupplyM Holding) :=
  if !x.isUnpacked then .error .packingWhilePacked
  else .ok <| x.rework fun h => do
    match h.unpacked with
    | none => return h
    | some u =>
        let s ← Ledger.solution
        let frames ← h.frames.merge s (u.withStates states)
        return { h with frames, unpacked := none }

/-- Gives up on packing: packed, but impossible. -/
def invalidPack (x : Holding) : Holding :=
  x.map fun h =>
    { h with constraints := h.constraints.declareImpossible "Couldn't pack", unpacked := none }

end Holding

end Typestate
