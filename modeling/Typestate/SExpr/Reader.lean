import Typestate.SExpr.Basic

set_option autoImplicit false

/-!
Reading one nested list from text. A scan turns characters into tokens with positions, and ends
in the end of the text or in the first character that cannot stand where it does. The reader takes
tokens only until one node is complete, so what follows that node is never looked at.
-/

namespace Typestate

namespace SExpr

/-- Lines and columns count from zero. -/
structure Position where
  line : Nat
  column : Nat
  deriving DecidableEq, Inhabited, Repr

namespace Position

def start : Position := ⟨0, 0⟩

def next (p : Position) : Position := { p with column := p.column + 1 }

def nextLine (p : Position) : Position := ⟨p.line + 1, 0⟩

end Position

inductive Token where
  | leftParen
  | rightParen
  | atom (text : String)
  deriving DecidableEq, Inhabited, Repr

/-- What a character was read as when it turned out to be illegal. -/
inductive Place where
  | bare
  | quoted
  | comment
  deriving DecidableEq, Inhabited, Repr

inductive ReadError where
  | illegal (place : Place) (position : Position) (byte : Nat)
  | unfinishedString (position : Position)
  | unexpectedEnd (position : Position)
  | unexpectedClose (position : Position)
  deriving DecidableEq, Inhabited, Repr

/-- The tokens of a text with the place where each starts. -/
inductive Scan where
  | done (position : Position)
  | failed (error : ReadError)
  | token (position : Position) (token : Token) (rest : Scan)
  deriving Inhabited, Repr

/-- The first byte of a character's encoding. -/
def leadByte (c : Char) : Nat :=
  let code := c.toNat
  if code < 128 then code
  else if code < 2048 then 192 + code / 64
  else if code < 65536 then 224 + code / 4096
  else 240 + code / 262144

/-- What the characters before the current one belong to. -/
inductive ScanMode where
  | between
  /-- Just after a carriage return, with which a line feed makes one line end. -/
  | returned
  | comment
  | atom (start : Position) (mode : AtomMode) (reversed : List Char)
  deriving Inhabited, Repr

def isBlank (c : Char) : Bool := c == ' ' || c == '\t'

/-- The characters a comment may hold. -/
def isCommentChar (c : Char) : Bool := (32 ≤ c.toNat && c.toNat < 127) || c == '\t'

/-- What one character brings: the tokens it completes, and where scanning goes on unless the
character is illegal there. -/
structure ScanStep where
  tokens : List (Position × Token)
  next : Except ReadError (ScanMode × Position)

namespace ScanStep

def silent (mode : ScanMode) (position : Position) : ScanStep := ⟨[], .ok (mode, position)⟩

def illegal (place : Place) (here : Position) (c : Char) : ScanStep :=
  ⟨[], .error (.illegal place here (leadByte c))⟩

end ScanStep

def atomToken (start : Position) (reversed : List Char) : Position × Token :=
  (start, .atom (String.ofList reversed.reverse))

/-- The step of a character outside of atoms and comments. -/
def bareStep (here : Position) (c : Char) : ScanStep :=
  if c = '\n' then .silent .between here.nextLine
  else if c = '\r' then .silent .returned here.nextLine
  else if isBlank c then .silent .between here.next
  else if c = ';' then .silent .comment here.next
  else if c = '(' then ⟨[(here, .leftParen)], .ok (.between, here.next)⟩
  else if c = ')' then ⟨[(here, .rightParen)], .ok (.between, here.next)⟩
  else
    match AtomMode.plain.step c with
    | some mode => .silent (.atom here mode [c]) here.next
    | none => .illegal .bare here c

namespace ScanMode

/-- Every accepted character is one byte, so columns count the characters of the line. An atom that
an illegal character ends is complete all the same. -/
def step (here : Position) (c : Char) : ScanMode → ScanStep
  | .between => bareStep here c
  | .returned => if c = '\n' then .silent .between here else bareStep here c
  | .comment =>
      if c = '\n' || c = '\r' then bareStep here c
      else if isCommentChar c then .silent .comment here.next
      else .illegal .comment here c
  | .atom start mode reversed =>
      match mode.step c with
      | some after => .silent (.atom start after (c :: reversed)) here.next
      | none =>
          if mode = .plain then
            let after := bareStep here c
            { after with tokens := atomToken start reversed :: after.tokens }
          else .illegal .quoted here c

end ScanMode

namespace Scan

def prepend (tokens : List (Position × Token)) (rest : Scan) : Scan :=
  tokens.foldr (fun item after => .token item.1 item.2 after) rest

end Scan

def scanFrom : ScanMode → Position → List Char → Scan
  | .atom start .plain reversed, here, [] => .prepend [atomToken start reversed] (.done here)
  | .atom _ _ _, here, [] => .failed (.unfinishedString here)
  | _, here, [] => .done here
  | mode, here, c :: cs =>
      let found := mode.step here c
      .prepend found.tokens (match found.next with
        | .ok (after, position) => scanFrom after position cs
        | .error error => .failed error)

def scan (text : List Char) : Scan := scanFrom .between .start text

namespace Scan

/-- Reads the rest of a node, given the items so far of each list that is still open, innermost
first and each list's items latest first. -/
def readIn : List SExpr → List (List SExpr) → Scan → Except ReadError SExpr
  | _, _, .failed error => .error error
  | _, _, .done position => .error (.unexpectedEnd position)
  | items, outer, .token _ (.atom text) rest => readIn (.atom text :: items) outer rest
  | items, outer, .token _ .leftParen rest => readIn [] (items :: outer) rest
  | items, [], .token _ .rightParen _ => .ok (.list items.reverse)
  | items, above :: outer, .token _ .rightParen rest =>
      readIn (.list items.reverse :: above) outer rest

def read : Scan → Except ReadError SExpr
  | .failed error => .error error
  | .done position => .error (.unexpectedEnd position)
  | .token _ (.atom text) _ => .ok (.atom text)
  | .token _ .leftParen rest => readIn [] [] rest
  | .token position .rightParen _ => .error (.unexpectedClose position)

end Scan

namespace Position

def describe (p : Position) : String :=
  "Pos \x7b line: " ++ toString p.line ++ ", column: " ++ toString p.column ++ " \x7d"

end Position

namespace ReadError

def describe : ReadError → String
  | .illegal place position byte =>
      let name := match place with
        | .bare => "IllegalChr"
        | .quoted => "IllegalChrInString"
        | .comment => "IllegalChrInComment"
      name ++ " \x7b pos: " ++ position.describe ++ ", chr: " ++ toString byte ++ " \x7d"
  | .unfinishedString position => "UnfinishedString \x7b pos: " ++ position.describe ++ " \x7d"
  | .unexpectedEnd position =>
      "UnexpectedToken \x7b pos: " ++ position.describe ++ ", token: Eof \x7d"
  | .unexpectedClose position =>
      "UnexpectedToken \x7b pos: " ++ position.describe ++ ", token: RightParen \x7d"

end ReadError

/-- Reads the first node of a text. -/
def read (text : String) : Except ReadError SExpr := (scan text.toList).read

end SExpr

end Typestate
