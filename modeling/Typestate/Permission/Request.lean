import Typestate.Permission.Basic

set_option autoImplicit false

/-!
Permissions made from what a specification asks for, with fractions of their own.
-/

namespace Typestate

structure Request where
  permission : Permission
  kind : Kind
  deriving BEq, Inhabited, Repr

namespace Request

/-- The fractions a kind of permission starts with. -/
def shares (space : Space) (root : String) (named : Bool) : Kind → LedgerM Shares
  | .unique => return .constant space root .one
  | .full => Shares.freshAbove space root named .one
  | .share | .immutable => Shares.freshAll space root named
  | .pure => Shares.freshAbove space root named .zero

/-- Named fractions are for permissions a method starts with, unknown ones for permissions that a
caller has to provide. -/
def create (space : Space) (spec : Spec) (named : Bool) : LedgerM Request := do
  let shares ← shares space spec.root named spec.kind
  let permission := Permission.make shares spec.kind.isReadOnly spec.frame spec.states
  permission.demandUsed
  if spec.kind = .immutable then
    Ledger.demand (·.addNonZero permission.shares.below)
  return ⟨permission, spec.kind⟩

/-- The whole of an object that nobody else has seen yet. -/
def orphan (space : Space) (root : String) (frame : Bool) (states : List String) : Request :=
  ⟨.make (.constant space root .one) false frame states, .unique⟩

def root (q : Request) : String := q.permission.root

def isFrame (q : Request) : Bool := q.permission.frame

def isReadOnly (q : Request) : Bool := q.kind.isReadOnly

/-- Looking on is possible with less than was asked for. -/
def toleratesSmallerRoot (q : Request) : Bool := q.kind = .pure

def text (q : Request) : String :=
  describePermission q.kind q.root q.permission.states q.isFrame

end Request

end Typestate
