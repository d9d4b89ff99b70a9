import Scriptlet.Parsing.Reader

/-! Steps of a parser that can fail, and nesting. -/
namespace Scriptlet

namespace Parser

open Reader

variable {α : Type}

/-- Fails at a token. -/
def refuse (cause : Cause) (token : Token) : Parser α := fun s =>
  let d : Diagnostic := ⟨cause, token.position⟩
  .error d (s.note (.refused s.depth d))

/-- Steps onto a token of the given kind, which has to come next. -/
def expect (kind : Kind) : Parser Unit := do
  let next ← peek
  if next.kind = kind then advance
  else refuse (.tokenMismatch kind next.kind next.text) next

theorem expect_of_eq {kind : Kind} {s : State} (h : s.peek.kind = kind) :
    expect kind s = .ok () s.advance := by
  change (if s.peek.kind = kind then _ else _ : Parser Unit) s = _
  rw [if_pos h]
  rfl

theorem expect_of_ne {kind : Kind} {s : State} (h : s.peek.kind ≠ kind) :
    expect kind s = refuse (.tokenMismatch kind s.peek.kind s.peek.text) s.peek s := by
  change (if s.peek.kind = kind then _ else _ : Parser Unit) s = _
  rw [if_neg h]

/-- Runs a parser and notes the event if it fails. -/
def noting (e : Event) (p : Parser α) : Parser α := fun s =>
  match p s with
  | .ok a t => .ok a t
  | .error d t => .error d (t.note e)

/-- Runs a parser one level deeper. The level is left again if the parser fails. -/
def nest (p : Parser α) : Parser α := fun s =>
  match p s.enter with
  | .ok a t => .ok a t.leave
  | .error d t => .error d t.leave

end Parser

end Scriptlet
