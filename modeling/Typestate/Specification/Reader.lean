import Typestate.SExpr.Printer
import Typestate.SExpr.Reader
import Typestate.Space.Registry
import Typestate.Specification.Method

set_option autoImplicit false

/-!
Reading spaces, permissions, predicates and classes from their written forms.
-/

namespace Typestate

/-- Why a text does not describe what it should. -/
inductive FormError where
  | unreadable (text : String) (error : SExpr.ReadError)
  | expected (what : String) (found : SExpr)
  | unexpected (what : String) (found : SExpr)
  | unknownKind (name : String)
  | unknownSpace (name : String)
  | badSpace (error : SpaceError)
  deriving Inhabited, Repr

namespace FormError

def message : FormError → String
  | .unreadable text error => "could not parse " ++ text ++ ": " ++ error.describe
  | .expected what found => "expected " ++ what ++ ", found: " ++ found.render ""
  | .unexpected what found => "unexpected " ++ what ++ ": " ++ found.render ""
  | .unknownKind name => "unknown permission kind " ++ name
  | .unknownSpace name => "unknown state space " ++ name
  | .badSpace error => error.message

end FormError

namespace SExpr

def ofText (text : String) : Except FormError SExpr :=
  (read text).mapError (.unreadable text)

def toIdentifier : SExpr → Except FormError String
  | .atom name => .ok name
  | node => .error (.expected "identifier" node)

end SExpr

namespace Space

namespace Draft

/-- Adds what one declaration of a written space says. -/
def declare (d : Draft) (node : SExpr) : Except FormError Draft :=
  match node with
  | .list [.atom head, .atom refined, .atom name, .list states] =>
      if head = "dimension" || head = "marker" then do
        let states ← states.mapM SExpr.toIdentifier
        let name := if name = "_" then none else some name
        match d.addDimension name refined states (head = "marker") with
        | (next, .ok _) => .ok next
        | (_, .error e) => .error (.badSpace e)
      else .error (.unexpected "declaration" node)
  | .list [.atom head, .atom first, .atom second] =>
      if head = "state" then
        match d.addState first second with
        | (next, .ok _) => .ok next
        | (_, .error e) => .error (.badSpace e)
      else if head = "field" then (d.mapField first second).mapError .badSpace
      else .error (.unexpected "declaration" node)
  | _ => .error (.unexpected "declaration" node)

end Draft

def ofSExpr (node : SExpr) : Except FormError Space :=
  match node with
  | .list (.atom head :: .atom name :: declarations) =>
      if head = "space" then do
        let draft ← declarations.foldlM Draft.declare (Draft.new name)
        return draft.space
      else .error (.expected "state space" node)
  | _ => .error (.expected "state space" node)

def ofText (text : String) : Except FormError Space := (SExpr.ofText text).bind ofSExpr

end Space

namespace Registry

/-- Registers written spaces in order, up to the first that is no space. -/
def ofTexts (texts : List String) : Except FormError Registry :=
  texts.foldlM (fun r text => return r.register (← Space.ofText text)) empty

end Registry

namespace Spec

/-- Takes one option of a written permission into account. -/
def withOption (s : Spec) (node : SExpr) : Except FormError Spec :=
  match node with
  | .atom name =>
      if name = "frame" then .ok { s with frame := true } else .error (.unexpected "option" node)
  | .list (.atom head :: rest) =>
      if head = "states" then do
        return { s with states := ← rest.mapM SExpr.toIdentifier }
      else .error (.unexpected "option" node)
  | _ => .error (.unexpected "option" node)

def ofItems (items : List SExpr) : Except FormError Spec :=
  match items with
  | .atom kind :: .atom root :: options =>
      match Kind.ofText? kind with
      | some kind => options.foldlM withOption ⟨kind, root, [], false⟩
      | none => .error (.unknownKind kind)
  | _ => .error (.expected "permission" (.list items))

def ofSExpr : SExpr → Except FormError Spec
  | .list items => ofItems items
  | node => .error (.expected "permission" node)

def ofText (text : String) : Except FormError Spec := (SExpr.ofText text).bind ofSExpr

end Spec

namespace Clause

def ofSExpr (spaces : Registry) (node : SExpr) : Except FormError Clause :=
  match node with
  | .list (.atom target :: .atom space :: spec) =>
      match spaces.get? space with
      | some space => do return ⟨target, space, ← Spec.ofItems spec⟩
      | none => .error (.unknownSpace space)
  | _ => .error (.expected "permission atom" node)

end Clause

namespace Predicate

def ofSExpr (spaces : Registry) (node : SExpr) : Except FormError Predicate :=
  match node with
  | .atom name => if name = "void" then .ok .void else .error (.expected "predicate" node)
  | .list (.atom head :: atoms) =>
      if head = "pred" then do return .clauses (← atoms.mapM (Clause.ofSExpr spaces))
      else .error (.expected "predicate" node)
  | _ => .error (.expected "predicate" node)

def ofText (spaces : Registry) (text : String) : Except FormError Predicate :=
  (SExpr.ofText text).bind (ofSExpr spaces)

end Predicate

namespace ClassDecl

def invariantOfSExpr (spaces : Registry) (node : SExpr) : Except FormError (String × Predicate) :=
  match node with
  | .list [.atom head, .atom state, predicate] =>
      if head = "inv" then do return (state, ← Predicate.ofSExpr spaces predicate)
      else .error (.expected "invariant" node)
  | _ => .error (.expected "invariant" node)

def ofSExpr (spaces : Registry) (node : SExpr) : Except FormError ClassDecl :=
  match node with
  | .list (.atom head :: .atom name :: invariants) =>
      if head = "class" then
        match spaces.get? name with
        | some space => do
            return ⟨name, space, ← invariants.mapM (invariantOfSExpr spaces)⟩
        | none => .error (.unknownSpace name)
      else .error (.expected "class" node)
  | _ => .error (.expected "class" node)

def ofText (spaces : Registry) (text : String) : Except FormError ClassDecl :=
  (SExpr.ofText text).bind (ofSExpr spaces)

end ClassDecl

end Typestate
