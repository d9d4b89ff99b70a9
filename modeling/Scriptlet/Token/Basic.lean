import Scriptlet.Text.Quoted
import Scriptlet.Token.Kind

/-! Tokens and where they stand in a named source. -/
namespace Scriptlet

/-- The largest offset that a position records. -/
def maxOffset : Nat := 4294967295

/-- Offsets past the largest one are recorded as the largest one. -/
def clampOffset (n : Nat) : Nat :=
  min n maxOffset

theorem clampOffset_of_le {n : Nat} (h : n ≤ maxOffset) : clampOffset n = n :=
  Nat.min_eq_left h

/-- A byte offset into a named source. -/
structure Position where
  offset : Nat
  file : String
  deriving DecidableEq, Repr, Inhabited

/-- The bytes from `start` up to, but not including, `stop`. -/
structure Span where
  start : Nat
  stop : Nat
  file : String
  deriving DecidableEq, Repr, Inhabited

/-- The span of `size` bytes from an offset. -/
def Span.ofSize (file : String) (offset size : Nat) : Span :=
  ⟨clampOffset offset, clampOffset (offset + size), file⟩

/-- A token carries the text that it stands for: of a string literal, the value. -/
structure Token where
  kind : Kind
  text : String
  span : Span
  deriving DecidableEq, Repr, Inhabited

namespace Token

/-- Where the token starts. -/
def position (t : Token) : Position :=
  ⟨t.span.start, t.span.file⟩

/-- Two tokens are alike if they differ at most in where they stand. -/
def alike (t u : Token) : Bool :=
  t.kind == u.kind && t.text == u.text

theorem alike_iff {t u : Token} : t.alike u = true ↔ t.kind = u.kind ∧ t.text = u.text := by
  simp [alike]

def describe (t : Token) : String :=
  t.kind.label ++ " (" ++ Text.quoted t.text ++ ")"

/-- The token that ends every source. -/
def atEnd (file : String) (offset : Nat) : Token :=
  ⟨.endOfInput, "", .ofSize file offset 0⟩

end Token

end Scriptlet
