import Scriptlet.Lexing.Tokenize

/-! A scanner reads a source from any byte position. A position that splits a character is
allowed, but there is nothing to read at it. -/
namespace Scriptlet

structure Scanner where
  file : String
  source : String
  position : Nat
  deriving DecidableEq, Repr

namespace Scanner

def ofSource (file source : String) : Scanner :=
  ⟨file, source, 0⟩

/-- Moves by `n` bytes, wherever that leads. -/
def skip (n : Nat) (s : Scanner) : Scanner :=
  { s with position := s.position + n }

def atEnd (s : Scanner) : Bool :=
  Text.byteSize s.source.toList ≤ s.position

/-- The characters from the position on; nothing past the end or inside a character. -/
def rest? (s : Scanner) : Option (List Char) :=
  Text.dropBytes? s.position s.source.toList

/-- The span of the next `n` bytes. -/
def spanOf (n : Nat) (s : Scanner) : Span :=
  .ofSize s.file s.position n

/-- Reads the next token. At the end and past it that is the token that ends the source; inside a
character there is none. -/
def next? (s : Scanner) : Option (Token × Scanner) :=
  if s.atEnd then some (.atEnd s.file s.position, s)
  else s.rest?.map fun rest =>
    let (token, after) := Cursor.next s.file ⟨s.position, rest⟩
    (token, { s with position := after.offset })

end Scanner

end Scriptlet
