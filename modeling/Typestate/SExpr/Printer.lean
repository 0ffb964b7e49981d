import Typestate.Fault
import Typestate.SExpr.Basic

set_option autoImplicit false

/-!
Printing nested lists. An item goes to a new line when the current line has reached its limit, or
when the head of its list asks for one item per line. Lines that hold nothing but a closing
parenthesis are drawn together.
-/

namespace Typestate

namespace SExpr

/-- A line of output: how far it is indented, and its characters. -/
structure Line where
  indent : Nat
  text : List Char
  deriving DecidableEq, Inhabited, Repr

namespace Line

def width (line : Line) : Nat := line.indent + line.text.length

end Line

/-- The output so far: complete lines, latest first, and the line being written. -/
structure Page where
  above : List Line
  line : Line
  /-- Nothing was written since the last opening parenthesis. -/
  opened : Bool
  /-- The innermost open list had a line break. -/
  broken : Bool
  deriving Inhabited, Repr

namespace Page

def blank : Page := ⟨[], ⟨0, []⟩, true, false⟩

def append (page : Page) (text : List Char) : Page :=
  { page with line := { page.line with text := page.line.text ++ text } }

def breakLine (page : Page) (indent : Nat) : Page :=
  { page with above := page.line :: page.above, line := ⟨indent, []⟩, broken := true }

/-- Writes an item of a list at the given depth, on a new line if the current one has reached the
limit. -/
def put (page : Page) (depth limit : Nat) (text : List Char) : Page :=
  if page.line.width < limit then
    if page.opened then page.append text else page.append (' ' :: text)
  else (page.breakLine (depth + 1)).append text

/-- Closes a list whose items stand at the given depth and returns to the list around it. -/
def close (page : Page) (depth : Nat) (outerBroken : Bool) : Page :=
  let page := if page.broken then page.breakLine depth else page
  { page.append [')'] with opened := false, broken := page.broken || outerBroken }

end Page

/-- The heads that are followed by one item per line. -/
def breaksAfter : SExpr → Bool
  | .atom text => ["choice", "all", "tuple", "permissions", "constraints"].contains text
  | .list _ => false

/-- Deeper lists may go a little further to the right. -/
def lineLimit (depth : Nat) : Nat := 81 + depth

mutual

/-- Writes a node as an item of a list at the given depth. -/
def layItem (depth limit : Nat) : SExpr → Page → Page
  | .atom text, page => { page.put depth limit text.toList with opened := false }
  | .list items, page =>
      let page := page.put depth limit ['(']
      (layItems (depth + 1) false items { page with opened := true, broken := false }).close
        (depth + 1) page.broken

/-- Writes the items of a list at the given depth, one per line if asked to. -/
def layItems (depth : Nat) (perLine : Bool) : List SExpr → Page → Page
  | [], page => page
  | item :: rest, page =>
      layItems depth (perLine || breaksAfter item) rest
        (layItem depth (if perLine then 0 else lineLimit depth) item page)

end

def layOut : SExpr → Page
  | .atom text => Page.blank.append text.toList
  | .list items => (layItems 0 false items (Page.blank.append ['('])).close 0 false

/-- Whether a line holds closing parentheses and nothing else. -/
def Line.closes (line : Line) : Bool := !line.text.isEmpty && line.text.all (· == ')')

/-- Draws each run of lines that only close lists together into the last of them. -/
def mergeClosers : List Line → List Line
  | [] => []
  | line :: rest =>
      match mergeClosers rest with
      | [] => [line]
      | next :: others =>
          if line.closes && next.closes then
            { next with text := next.text ++ line.text } :: others
          else line :: next :: others

def Page.lines (page : Page) : List Line := (page.line :: page.above).reverse

/-- Lines one below the other, every one but the first moved right by the same margin. -/
def stack (margin : String) : List Line → String
  | [] => ""
  | [line] => String.ofList (List.replicate line.indent ' ' ++ line.text)
  | line :: rest =>
      String.ofList (List.replicate line.indent ' ' ++ line.text) ++ "\n" ++ margin ++
        stack margin rest

def render (node : SExpr) (margin : String) : String :=
  stack margin (mergeClosers (layOut node).lines)

/-- Only atoms can be printed. -/
def print (node : SExpr) (margin : String) : Except Fault String :=
  match node.badAtom? with
  | some text => .error (.invalidAtom text)
  | none => .ok (node.render margin)

end SExpr

end Typestate
