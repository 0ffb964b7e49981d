import Typestate.Context.Compact
import Typestate.Tuple.Packing

set_option autoImplicit false

/-!
Field accesses. A field is reached by unpacking the object to a root that has to do with the node of
the field.
-/

namespace Typestate

namespace Flow

open Analysis

/-- A write to a field of the unpacked object, whose root has to cover the field. -/
def writeUnpacked (c : ClassDecl) (access : FieldAccess) (node : String) (t : Tuple)
    (b : Branch) : AnalysisM Context := do
  match (t.get access.object).unpacked with
  | none => return .stuck b
  | some u =>
      if !c.space.covers u.root node then return .stuck b
      else
        let writable ← liftGuarded (t.get access.object).makeUnpackedModifiable
        let t := t.set access.object writable
        return .tensor ((access.source.map (t.mapField access.field)).getD t) b

/-- A read of a field of the unpacked object, whose root must not be independent of the field. The
place it is read into is the field's place if it had none. -/
def readUnpacked (c : ClassDecl) (access : FieldAccess) (node : String) (t : Tuple)
    (b : Branch) : Context :=
  match (t.get access.object).unpacked with
  | none => .stuck b
  | some u =>
      if c.space.orthogonal u.root node then .stuck b
      else
        match access.source, t.fieldLocation? access.field with
        | some source, none => .tensor (t.mapField access.field source) b
        | _, _ => .tensor t b

def accessUnpacked (c : ClassDecl) (access : FieldAccess) (write : Bool) (node : String)
    (t : Tuple) (b : Branch) : AnalysisM Context :=
  if write then writeUnpacked c access node t b else return readUnpacked c access node t b

/-- Whether an access can go to an unpacked object as it is. -/
def isAccessible (c : ClassDecl) (write : Bool) (node : String) (t : Tuple) : Bool :=
  match t.unpacked? with
  | none => false
  | some u => !write || c.space.covers u.root node

def accessTuple (c : ClassDecl) (access : FieldAccess) (write : Bool) (node : String) (t : Tuple)
    (b : Branch) : AnalysisM Context := do
  if t.receiver ≠ some access.object then
    remark ("access to " ++ access.field ++ " of another object: no-op")
    return .tensor t b
  else if (t.get access.object).isBottom then return .tensor t b
  else if isAccessible c write node t then accessUnpacked c access write node t b
  else
    (← t.unpackToReach c b node false).mapTensors (accessUnpacked c access write node)

/-- A field access. Fields of classes without a protocol, and fields that are not mapped to a node,
need nothing. -/
def fieldAccess (c : Option ClassDecl) (access : FieldAccess) (write : Bool) (context : Context) :
    AnalysisM Context := do
  log (.list [.atom (if write then "field-write" else "field-read"), .atom access.field])
  match c with
  | none => return context
  | some c =>
      match c.space.fieldNode? access.field with
      | none => return context
      | some node =>
          let result ← context.mapTensors (accessTuple c access write node)
          return result.compact false

end Flow

end Typestate
