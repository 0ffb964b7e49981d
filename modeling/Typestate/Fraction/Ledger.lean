import Typestate.Fraction.Constraints

set_option autoImplicit false

/-!
Work that draws fresh fractions and collects constraints on them.
-/

namespace Typestate

/-- Fresh fractions are numbered in the order they are asked for. -/
structure Supply where
  next : Nat
  deriving DecidableEq, Inhabited, Repr

abbrev SupplyM := StateM Supply

/-- The constraints so far, next to the supply. -/
structure Ledger where
  constraints : Constraints
  supply : Supply
  deriving Inhabited, Repr

abbrev LedgerM := StateM Ledger

namespace Ledger

def nextId : LedgerM Nat := do
  let ledger ← get
  set { ledger with supply := ⟨ledger.supply.next + 1⟩ }
  return ledger.supply.next

/-- A fraction nothing is known about. -/
def fresh : LedgerM Fraction := return .unknown (← nextId)

/-- A fresh constant or a fresh unknown. -/
def freshOf (named : Bool) : LedgerM Fraction := do
  let id ← nextId
  return if named then .named id else .unknown id

def freshList (named : Bool) : Nat → LedgerM (List Fraction)
  | 0 => return []
  | n + 1 => do
      let f ← freshOf named
      return f :: (← freshList named n)

/-- Changes the constraints. -/
def demand (change : Constraints → Constraints) : LedgerM Unit :=
  modify fun ledger => { ledger with constraints := change ledger.constraints }

def solution : LedgerM Solution := return (← get).constraints.solution

/-- Does the work on top of the given constraints and answers them as they are afterwards. -/
def within {α : Type} (constraints : Constraints) (work : LedgerM α) :
    SupplyM (α × Constraints) := do
  let (result, ledger) := work.run ⟨constraints, ← get⟩
  set ledger.supply
  return (result, ledger.constraints)

end Ledger

end Typestate
