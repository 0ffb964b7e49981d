import Typestate.Text.Shapeless

set_option autoImplicit false

/-!
Text shown between quotes, and the reading of plain decimal numbers.
-/

namespace Typestate

namespace Text

/-- A code point in hexadecimal between braces, the form for characters that cannot be shown. -/
def escapedCode (c : Char) : List Char :=
  ['\\', 'u', '\x7b'] ++ Nat.toDigits 16 c.toNat ++ ['\x7d']

def escapedChar (c : Char) : List Char :=
  if c = '"' then ['\\', '"']
  else if c = '\\' then ['\\', '\\']
  else if c = '\n' then ['\\', 'n']
  else if c = '\t' then ['\\', 't']
  else if c = '\r' then ['\\', 'r']
  else if c = '\x00' then ['\\', '0']
  else if isShapeless c then escapedCode c
  else [c]

/-- The text between quotes on one line, with its own quotes and backslashes marked. -/
def quoted (text : String) : String :=
  String.ofList ('"' :: text.toList.flatMap escapedChar ++ ['"'])

def digitValue (c : Char) : Nat := c.toNat - 48

/-- The number a nonempty run of decimal digits stands for. -/
def decimal? (digits : List Char) : Option Nat :=
  if !digits.isEmpty && digits.all Char.isDigit then
    some (digits.foldl (fun total c => total * 10 + digitValue c) 0)
  else none

/-- An index is decimal, may carry a plus sign and fits in 64 bits. -/
def index? (text : List Char) : Option Nat :=
  let digits := match text with
    | '+' :: rest => rest
    | plain => plain
  (decimal? digits).filter (· < UInt64.size)

/-- Whether a text occurs somewhere in another. -/
def occursIn (part : List Char) : List Char → Bool
  | [] => part.isEmpty
  | c :: rest => part.isPrefixOf (c :: rest) || occursIn part rest

end Text

end Typestate
