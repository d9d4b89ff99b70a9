import Scriptlet.Lexing.Tokenize
import Scriptlet.Parsing.Statement

/-! Whole programs. Parsing a program never fails: it yields the statements that could be read and
the diagnostics of the others. -/
namespace Scriptlet

/-- Statements up to the end of the source. -/
def Reader.program {ε : Type} : Reader ε Program :=
  atDepth fun layer => do
    let statements ← layer.stmts fun s => s.current.kind ≠ .endOfInput
    return ⟨statements⟩

/-- What parsing a source yields. The program is complete only if there are no errors. -/
structure Parsed where
  program : Program
  errors : List Diagnostic
  trace : List Event

def State.ofSource (file source : String) : State :=
  .ofStream (.ofSource file source)

def parse (file source : String) : Parsed :=
  let (program, s) := Reader.run Reader.program (.ofSource file source)
  ⟨program, s.errors.toList, s.trace.toList⟩

end Scriptlet
