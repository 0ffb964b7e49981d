set_option autoImplicit false

/-!
Nested lists of atoms, the written form of spaces, predicates and analysis results.
-/

namespace Typestate

inductive SExpr where
  | atom (text : String)
  | list (items : List SExpr)
  deriving Inhabited, Repr

namespace SExpr

mutual

def beq : SExpr → SExpr → Bool
  | .atom a, .atom b => a == b
  | .list xs, .list ys => beqList xs ys
  | _, _ => false

def beqList : List SExpr → List SExpr → Bool
  | [], [] => true
  | x :: xs, y :: ys => beq x y && beqList xs ys
  | _, _ => false

end

instance : BEq SExpr := ⟨beq⟩

/-- The characters an atom may hold outside of quotes. -/
def isAtomChar (c : Char) : Bool :=
  c.isAlphanum || "!#$%&*+-./:<=>?@_~".toList.contains c

/-- The characters that stand for themselves between quotes. -/
def isQuotedChar (c : Char) : Bool :=
  (32 ≤ c.toNat && c.toNat < 127) && c != '"' && c != '\\'

/-- Where the next character of an atom stands. -/
inductive AtomMode where
  | plain
  | quoted
  | escaped
  deriving DecidableEq, Inhabited, Repr

namespace AtomMode

/-- The mode after one more character of the atom, or none if the character cannot stand here. -/
def step : AtomMode → Char → Option AtomMode
  | .plain, c =>
      if c = '"' then some .quoted else if isAtomChar c then some .plain else none
  | .quoted, c =>
      if c = '"' then some .plain
      else if c = '\\' then some .escaped
      else if isQuotedChar c then some .quoted
      else none
  | .escaped, c =>
      if c = '"' || c = '\\' || isQuotedChar c then some .quoted else none

/-- The mode after all of the characters. -/
def run : AtomMode → List Char → Option AtomMode
  | mode, [] => some mode
  | mode, c :: cs => (mode.step c).bind fun next => next.run cs

end AtomMode

/-- An atom is not empty, and every quote in it is closed. -/
def isAtom (text : String) : Bool :=
  !text.toList.isEmpty && AtomMode.plain.run text.toList == some .plain

mutual

/-- The first text in reading order that is no atom. -/
def badAtom? : SExpr → Option String
  | .atom text => if isAtom text then none else some text
  | .list items => badAtomIn? items

def badAtomIn? : List SExpr → Option String
  | [] => none
  | item :: rest => (badAtom? item).or (badAtomIn? rest)

end

/-- Whether a hyphen binds the second atom to the first. -/
def fuses (first second : String) : Bool :=
  second == "-" || (first != "-" && first.toList.getLast? == some '-')

/-- The one atom two neighbours become, if a hyphen binds them. -/
def fuse? : SExpr → SExpr → Option SExpr
  | .atom first, .atom second =>
      if fuses first second then some (.atom (first ++ second)) else none
  | _, _ => none

/-- Joins the atoms that follow an item to it as long as hyphens bind them. -/
def joinHyphensAfter (item : SExpr) : List SExpr → List SExpr
  | [] => [item]
  | next :: rest =>
      match fuse? item next with
      | some both => joinHyphensAfter both rest
      | none => item :: joinHyphensAfter next rest

/-- Items from left to right, where a hyphen joins the atoms on its two sides. -/
def joinHyphens : List SExpr → List SExpr
  | [] => []
  | item :: rest => joinHyphensAfter item rest

/-- A list of a head and operands in which hyphens join neighbouring atoms. -/
def phrase (items : List SExpr) : SExpr :=
  .list (joinHyphens items)

end SExpr

end Typestate
