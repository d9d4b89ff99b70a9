import Scriptlet.Diagnostic.Basic
import Scriptlet.Text.Blank
import Scriptlet.Text.Line

/-! A diagnostic shown against the source: a heading, the file, and the line with a caret. -/
namespace Scriptlet

namespace Text

def isIndent (c : Char) : Bool :=
  c == ' ' || c == '\t'

/-- The line as it is shown: without its indentation and without blanks at its end. -/
def Line.row (l : Line) : List Char :=
  trimEnd (l.text.dropWhile isIndent)

/-- How many shown characters come before the place. It is zero inside the indentation, and where
the place splits a character. -/
def Line.column (l : Line) : Nat :=
  let indent := byteSize (l.text.takeWhile isIndent)
  if l.offset < indent then 0
  else
    ((takeBytes? (l.offset - indent) (l.text.dropWhile isIndent)).map List.length).getD 0

/-- A row and, below it, a caret behind `column` characters. The bars line up behind the line
number. -/
def Line.layout (number : Nat) (row : List Char) (column : Nat) : String :=
  let margin := String.ofList (List.replicate (number.repr.length + 1) ' ')
  let dashes := String.ofList (List.replicate column '-')
  margin ++ "|\n" ++ number.repr ++ " | " ++ String.ofList row ++ "\n" ++
    margin ++ "| " ++ dashes ++ "^\n"

/-- The row of a line with a caret under the place. -/
def Line.excerpt (l : Line) : String :=
  layout l.number l.row l.column

end Text

namespace Diagnostic

/-- The first line of a report. -/
def heading (d : Diagnostic) : String :=
  match d.cause.tip? with
  | none => "Error: " ++ d.cause.name ++ "\n"
  | some tip => "Error: " ++ d.cause.name ++ " (" ++ tip ++ ")\n"

/-- The report of a diagnostic against any source. If the source has no such position, the message
stands in for the line. -/
def render (source : String) (d : Diagnostic) : String :=
  d.heading ++ "-> " ++ d.position.file ++ "\n" ++
    match Text.lineAt? source.toList d.position.offset with
    | none => "   " ++ d.message ++ "\n"
    | some line => line.excerpt

end Diagnostic

end Scriptlet
