import Scriptlet.Text.Bytes

/-! Lines of a text, each with the newline that ends it, and the line that holds a byte offset. -/
namespace Scriptlet.Text

/-- The lines of a text. All but the last end with a newline, and no other newline occurs. -/
def lines : List Char → List (List Char)
  | [] => []
  | c :: cs =>
    if c = '\n' then [c] :: lines cs
    else match lines cs with
      | [] => [[c]]
      | l :: ls => (c :: l) :: ls

@[simp] theorem flatten_lines (cs : List Char) : (lines cs).flatten = cs := by
  induction cs with
  | nil => rfl
  | cons c cs ih =>
    rw [lines]
    split
    · simp [ih]
    · split <;> simp_all

/-- A place in a text: the number of its line, from one on, that line, and how many bytes of the
line come before the place. -/
structure Line where
  number : Nat
  text : List Char
  offset : Nat
  deriving DecidableEq, Repr

/-- Finds the line that holds an offset, where `number` is the number of the first line. The last
line also holds the offset at which it ends. -/
def Line.find (number offset : Nat) : List (List Char) → Line
  | [] => ⟨number, [], offset⟩
  | [line] => ⟨number, line, offset⟩
  | line :: next :: rest =>
    if offset < byteSize line then ⟨number, line, offset⟩
    else find (number + 1) (offset - byteSize line) (next :: rest)

/-- The line of a byte offset, if the offset is not past the end of the text. -/
def lineAt? (cs : List Char) (offset : Nat) : Option Line :=
  if offset ≤ byteSize cs then some (Line.find 1 offset (lines cs)) else none

theorem lineAt?_eq_none_iff {cs : List Char} {offset : Nat} :
    lineAt? cs offset = none ↔ byteSize cs < offset := by
  simp [lineAt?]

end Scriptlet.Text
