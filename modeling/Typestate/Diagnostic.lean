set_option autoImplicit false

/-!
Reports about the program under analysis.
-/

namespace Typestate

/-- A position in the program, in the words of whoever reads the program. -/
abbrev Span := String

inductive Level where
  | error
  | warning
  | note
  deriving DecidableEq, Inhabited, Repr

/-- A further position with a remark of its own. -/
structure Label where
  span : Span
  note : String
  deriving DecidableEq, Inhabited, Repr

structure Diagnostic where
  level : Level
  note : String
  /-- The positions the report is about. -/
  spans : List Span
  labels : List Label
  /-- Lines of detail. -/
  help : List String
  deriving DecidableEq, Inhabited, Repr

namespace Diagnostic

def bare (level : Level) (note : String) : Diagnostic := ⟨level, note, [], [], []⟩

def error (note : String) : Diagnostic := bare .error note

def withSpan (d : Diagnostic) (span : Span) : Diagnostic := { d with spans := d.spans ++ [span] }

def withLabel (d : Diagnostic) (span : Span) (note : String) : Diagnostic :=
  { d with labels := d.labels ++ [⟨span, note⟩] }

def withHelp (d : Diagnostic) (line : String) : Diagnostic := { d with help := d.help ++ [line] }

/-- Several reports as one: the notes stand between brackets with a separator, the rest is
collected in order. A single report stays as it is. -/
def join (separator left right : String) (first : Diagnostic) :
    List Diagnostic → Diagnostic
  | [] => first
  | rest =>
      let notes := (first :: rest).map Diagnostic.note
      { first with
        note := left ++ String.intercalate separator notes ++ right
        spans := first.spans ++ rest.flatMap Diagnostic.spans
        labels := first.labels ++ rest.flatMap Diagnostic.labels
        help := first.help ++ rest.flatMap Diagnostic.help }

/-- One of the alternatives had to succeed. -/
def anyOf : Diagnostic → List Diagnostic → Diagnostic := join " OR " "[" "]"

/-- All of the obligations had to succeed. -/
def allOf : Diagnostic → List Diagnostic → Diagnostic := join " AND " "\x7b" "\x7d"

/-- The bold, coloured word that opens a report. -/
def heading : Level → String
  | .error => "\x1b[1;31merror\x1b[0m"
  | .warning => "\x1b[1;33mwarning\x1b[0m"
  | .note => "\x1b[1;34mnote\x1b[0m"

/-- The report as text, under the heading of the given level. -/
def render (d : Diagnostic) (level : Level) : String :=
  heading level ++ ": " ++ d.note ++
    String.join (d.spans.map fun span => "\n  --> " ++ span) ++
    String.join (d.labels.map fun label => "\n   - " ++ label.span ++ ": " ++ label.note) ++
    String.join (d.help.map fun line => "\n   = " ++ line)

end Diagnostic

end Typestate
