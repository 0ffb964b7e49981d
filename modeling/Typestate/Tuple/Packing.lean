import Typestate.Context.Basic
import Typestate.Session
import Typestate.Specification.Method

set_option autoImplicit false

/-!
Packing and unpacking the receiver. Unpacking it to a node hands out the invariants of the states it
is known to be in as permissions for its fields. Packing takes the invariants of the new states back
out of the permissions for the fields, and fails if one of them cannot be met.
-/

namespace Typestate

namespace ClassDecl

/-- The nodes from a root down to each of the given states, the root first. -/
def nodesTo (c : ClassDecl) (root : String) (states : List String) : List String :=
  (root :: states.flatMap (c.space.path root)).eraseDups

/-- The invariants of the nodes from a root down to each of the given states. -/
def invariantsTo (c : ClassDecl) (root : String) (states : List String) :
    List (String × Predicate) :=
  (c.nodesTo root states).filterMap fun n => (c.invariant? n).map fun inv => (n, inv)

/-- Those of the states that lie below a root. -/
def statesUnder (c : ClassDecl) (root : String) (states : List String) : List String :=
  states.filter (c.space.covers root)

end ClassDecl

namespace Tuple

open Analysis

def receiverOrFault (t : Tuple) : Except Fault Location :=
  match t.receiver with
  | some l => .ok l
  | none => .error .tupleWithoutReceiver

/-- Adds the permission of one clause of an invariant at the place of its field. -/
def grant (t : Tuple) (c : Clause) : SupplyM Tuple := do
  match t.fieldLocation? c.target with
  | none => return t
  | some l =>
      let request ← RequestSet.ofSpec c.space c.spec false
      return t.set l (← (t.get l).merge request)

/-- Unpacks the receiver to a root. -/
def unpackReceiver (t : Tuple) (c : ClassDecl) (root : String) : AnalysisM Tuple := do
  let receiver ← liftFault t.receiverOrFault
  let known := c.statesUnder root ((t.get receiver).stateInfo true)
  let unpacked ← liftGuarded ((t.get receiver).unpack c.space root)
  log (.phrase [.atom "unpack", .atom receiver.text, .atom root])
  let clauses := (c.invariantsTo root known).flatMap fun (_, inv) => inv.parts
  liftSupply (clauses.foldlM grant (t.set receiver unpacked))

/-- Takes the permission of one clause away from the place of its field, if it is there. -/
def takeClause (t : Tuple) (c : Clause) : SupplyM (Option Tuple) := do
  match t.fieldLocation? c.target with
  | none => return none
  | some l =>
      let request ← RequestSet.ofSpec c.space c.spec false
      if !(t.get l).isInStates c.spec.states c.spec.frame then return none
      else
        let rest ← (t.get l).split request
        if rest.isUnsatisfiable then return none else return some (t.set l rest)

def takeClauses (t : Tuple) : List Clause → SupplyM (Option Tuple)
  | [] => return some t
  | c :: rest => do
      match ← t.takeClause c with
      | some next => next.takeClauses rest
      | none => return none

/-- Takes the permissions of an invariant away from the fields, if all are there. -/
def takeInvariant (t : Tuple) (inv : Predicate) : SupplyM (Option Tuple) :=
  match inv with
  | .void => return none
  | .clauses cs => t.takeClauses cs

/-- Takes one invariant after the other, up to the first that cannot be met. -/
def takeInvariants (t : Tuple) : List (String × Predicate) → SupplyM (Except FailedPack Tuple)
  | [] => return .ok t
  | (state, inv) :: rest => do
      match ← t.takeInvariant inv with
      | some next => next.takeInvariants rest
      | none => return .error ⟨state, inv.text⟩

/-- Packs the receiver to those of the given states that lie below the unpacked root. -/
def packReceiver (t : Tuple) (c : ClassDecl) (states : List String) :
    AnalysisM (Except FailedPack Tuple) := do
  let receiver ← liftFault t.receiverOrFault
  match (t.get receiver).unpacked with
  | none => throw .packingWhilePacked
  | some u =>
      let states := c.statesUnder u.root states
      match ← liftSupply (t.takeInvariants (c.invariantsTo u.root states)) with
      | .error failed =>
          log (.phrase [.atom "pack-failed", .atom failed.state, .ofQuoted failed.invariant])
          return .error failed
      | .ok taken =>
          let packed ← liftGuarded ((t.get receiver).pack states)
          log (.list [.atom "pack", .atom receiver.text, .list (states.map .atom)])
          return .ok (taken.set receiver packed)

/-- Gives up on packing the receiver. -/
def invalidPackReceiver (t : Tuple) : Except Fault Tuple := do
  let receiver ← t.receiverOrFault
  return t.set receiver (t.get receiver).invalidPack

end Tuple

namespace Context

open Analysis

/-- A tensor, or a choice of several on new branches. -/
def ofTuples (b : Branch) (purpose : String) : List Tuple → AnalysisM Context
  | [t] => return .tensor t b
  | ts => do return .choice (← ts.mapM fun t => return .tensor t (← freshBranch b purpose))

end Context

namespace Tuple

open Analysis

/-- The nodes to which a packed receiver can be unpacked so that a root is accessible: each frame
permission above or below the root gives one. -/
def unpackCandidates (space : Space) (frameRoots : List String) (root : String) : List String :=
  let candidates := frameRoots.filterMap fun r =>
    if space.covers r root then some root else if space.covers root r then some r else none
  if candidates.isEmpty then [root] else candidates.eraseDups

/-- Unpacks a packed receiver in every way that makes a root accessible. -/
def unpackPacked (t : Tuple) (c : ClassDecl) (receiver : Location) (b : Branch) (root : String)
    (keepPacked : Bool) : AnalysisM Context := do
  let candidates := unpackCandidates c.space (t.get receiver).frameRoots root
  let unpacked ← candidates.mapM fun r => t.unpackReceiver c r
  Context.ofTuples b "unpack" ((if keepPacked then [t] else []) ++ unpacked)

/-- The tuples that result from packing to one of several single states, and the first failure. -/
def packToEach (t : Tuple) (c : ClassDecl) (failure : Option FailedPack) :
    List String → AnalysisM (List Tuple × Option FailedPack)
  | [] => return ([], failure)
  | state :: rest => do
      match ← t.packReceiver c [state] with
      | .ok packed =>
          let (others, failure) ← t.packToEach c failure rest
          return (packed :: others, failure)
      | .error failed => t.packToEach c (failure.or (some failed)) rest

/-- The states below the root of an unpacked permission. -/
def guesses (space : Space) (u : Permission) : List String :=
  space.nodes.filter fun n => n != u.root && u.covers n && !space.isDimension n

/-- Packs the receiver to whatever single states its fields allow, or else to its root. -/
def packToGuesses (t : Tuple) (c : ClassDecl) (u : Permission) (failure : Option FailedPack)
    (b : Branch) : AnalysisM Context := do
  let (packed, failure) ← t.packToEach c failure (guesses c.space u)
  if packed.isEmpty then
    match ← t.packReceiver c [] with
    | .ok toRoot => return .tensor toRoot b
    | .error failed => return .packFailed (failure.getD failed) b
  else Context.ofTuples b "pack" packed

/-- Packs an unpacked receiver: to the states it was known to be in if that works, else to each
single state that works, else to its root. -/
def packToBestGuess (t : Tuple) (c : ClassDecl) (b : Branch) : AnalysisM Context := do
  match t.unpacked? with
  | none => return .tensor t b
  | some u =>
      if u.states.isEmpty then t.packToGuesses c u none b
      else
        match ← t.packReceiver c u.states with
        | .ok packed => return .tensor packed b
        | .error failed => t.packToGuesses c u (some failed) b

/-- Unpacks the receiver so that a root is accessible. A receiver that is unpacked elsewhere is
packed first; one that is packed may stay so as an alternative. -/
def unpackToReach (t : Tuple) (c : ClassDecl) (b : Branch) (root : String) (keepPacked : Bool) :
    AnalysisM Context := do
  match t.receiver with
  | none => return .tensor t b
  | some receiver =>
      if (t.get receiver).isBottom then return .tensor t b
      else
        match (t.get receiver).unpacked with
        | none => t.unpackPacked c receiver b root keepPacked
        | some u =>
            if u.covers root then return .tensor t b
            else
              -- Packing leaves the receiver packed in every tensor.
              let packed ← t.packToBestGuess c b
              packed.mapTensors fun t b => t.unpackPacked c receiver b root keepPacked

/-- Repacks an unpacked receiver to those of the needed states below its root, and makes sure that
all of them hold then. -/
def repack (t : Tuple) (c : ClassDecl) (receiver : Location) (needed : List String) (b : Branch) :
    AnalysisM Context := do
  match (t.get receiver).unpacked with
  | none => return .tensor t b
  | some u =>
      match ← t.packReceiver c (c.statesUnder u.root needed) with
      | .error failed => return .packFailed failed b
      | .ok packed =>
          if (packed.get receiver).isInStates needed true then return .tensor packed b
          else return .stuck b

/-- The frame roots above one of the states. -/
def rootsAbove (space : Space) (frameRoots states : List String) : List String :=
  (states.flatMap fun s => frameRoots.filter fun r => space.covers r s).eraseDups

/-- Unpacks a packed receiver and packs it again, to bring it into the needed states. -/
def wranglePacked (t : Tuple) (c : ClassDecl) (receiver : Location) (b : Branch)
    (needed : List String) : AnalysisM Context := do
  let x := t.get receiver
  let missing := needed.filter fun s => !x.isInState s true
  if missing.isEmpty then return .tensor t b
  else
    match rootsAbove c.space x.frameRoots missing with
    | [] => return .stuck b
    | [root] =>
        (← t.unpackToReach c b root false).mapTensors fun t b => t.repack c receiver needed b
    | _ =>
        (← t.unpackToReach c b alive false).mapTensors fun t b => t.repack c receiver needed b

/-- Brings the receiver into the needed states of its frame. One that is unpacked is packed first,
unless nothing is needed and it may stay as it is. -/
def wrangle (t : Tuple) (c : ClassDecl) (b : Branch) (needed : List String) (needNotPack : Bool) :
    AnalysisM Context := do
  match t.receiver with
  | none => return .tensor t b
  | some receiver =>
      let x := t.get receiver
      if x.isBottom then return .tensor t b
      else if needed.isEmpty then
        if !x.isUnpacked || needNotPack then return .tensor t b else t.packToBestGuess c b
      else
        match x.unpacked with
        | none => t.wranglePacked c receiver b needed
        | some u =>
            let under := c.statesUnder u.root needed
            match ← t.packReceiver c (if under.isEmpty then u.states else under) with
            | .error failed => return .packFailed failed b
            | .ok packed => packed.wranglePacked c receiver b needed

end Tuple

end Typestate
