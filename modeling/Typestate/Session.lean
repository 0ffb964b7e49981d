import Typestate.BranchTree
import Typestate.Fault
import Typestate.Fraction.Ledger
import Typestate.SExpr.Printer

set_option autoImplicit false

/-!
An analysis session: where fresh fractions and choices come from, its options, and its log.
-/

namespace Typestate

structure Options where
  /-- Permissions a method starts with have named fractions. -/
  namedFractions : Bool
  /-- An unpacked receiver is packed before it is passed to a call. -/
  packBeforeCall : Bool
  /-- Whole contexts are logged after each operation. -/
  debug : Bool
  deriving DecidableEq, Inhabited, Repr

structure Session where
  supply : Supply
  branches : BranchTree
  options : Options
  logging : Bool
  /-- How far the log is moved right. -/
  margin : Nat
  /-- The entries of the log, each ending its line. -/
  log : List String
  deriving Inhabited, Repr

namespace Session

def new : Session := ⟨⟨0⟩, .new, ⟨true, true, false⟩, false, 0, []⟩

def logText (s : Session) : String := String.join s.log

end Session

/-- Steps of an analysis. A broken contract ends it, and what was drawn and logged stays. -/
abbrev AnalysisM := ExceptT Fault (StateM Session)

namespace Analysis

def liftSupply {α : Type} (work : SupplyM α) : AnalysisM α := do
  let session ← get
  let (result, supply) := work.run session.supply
  set { session with supply }
  return result

def liftFault {α : Type} : Except Fault α → AnalysisM α
  | .ok result => return result
  | .error fault => throw fault

/-- Work that is ruled out by a broken contract or else draws fresh fractions. -/
def liftGuarded {α : Type} (work : Except Fault (SupplyM α)) : AnalysisM α := do
  liftSupply (← liftFault work)

def mint (parent : Nat) (purpose : String) : AnalysisM Nat := do
  let session ← get
  let (branches, choice) := session.branches.mint parent purpose
  set { session with branches }
  return choice

/-- A new choice under that of the given branch. -/
def freshBranch (b : Branch) (purpose : String) : AnalysisM Branch := do
  return ⟨b.choice, ← mint b.choice purpose⟩

def options : AnalysisM Options := return (← get).options

def marginText (width : Nat) : String := String.ofList (List.replicate width ' ')

def writeLine (text : String) : AnalysisM Unit :=
  modify fun session =>
    { session with log := session.log ++ [marginText session.margin ++ text ++ "\n"] }

/-- Logs a node if there is a log. -/
def log (node : SExpr) : AnalysisM Unit := do
  let session ← get
  if session.logging then
    writeLine (← liftFault (node.print (marginText session.margin)))

/-- Logs a remark if there is a log. -/
def remark (text : String) : AnalysisM Unit := do
  if (← get).logging then writeLine (";; " ++ text)

/-- What is logged meanwhile stands one column further right. -/
def indented {α : Type} (work : AnalysisM α) : AnalysisM α := do
  let margin := (← get).margin
  if (← get).logging then modify fun session => { session with margin := margin + 1 }
  let result ← work
  modify fun session => { session with margin }
  return result

end Analysis

end Typestate
