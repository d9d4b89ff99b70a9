import Scriptlet.Lexing.Piece
import Scriptlet.Text.Bytes
import Scriptlet.Token.Stream

/-! Tokens read from a text: one at a time, or the whole source as a stream. Offsets count bytes
from the start of the source. -/
namespace Scriptlet

open Text (byteSize)

/-- The token that a piece at an offset stands for. -/
def Piece.token? (file : String) (offset : Nat) (p : Piece) : Option Token :=
  p.meaning?.map fun (kind, text) => ⟨kind, text, .ofSize file offset (byteSize p.lexeme)⟩

/-- A place in a source: its offset and the text from there on. -/
structure Cursor where
  offset : Nat
  rest : List Char
  deriving DecidableEq, Repr

namespace Cursor

/-- Skips the gap at the cursor and reads the token behind it. -/
def next (file : String) : Cursor → Token × Cursor
  | ⟨offset, []⟩ => (.atEnd file offset, ⟨offset, []⟩)
  | ⟨offset, c :: cs⟩ =>
    let cut := Piece.cut c cs
    let after : Cursor := ⟨offset + byteSize cut.1.lexeme, cut.2⟩
    match cut.1.token? file offset with
    | some token => (token, after)
    | none => next file after
termination_by c => c.rest.length
decreasing_by exact Piece.length_cut_lt c cs

/-- All tokens from the cursor on. -/
def tokens (file : String) : Cursor → TokenStream
  | ⟨offset, []⟩ => .ended (.atEnd file offset)
  | ⟨offset, c :: cs⟩ =>
    let cut := Piece.cut c cs
    let after := tokens file ⟨offset + byteSize cut.1.lexeme, cut.2⟩
    match cut.1.token? file offset with
    | some token => after.push token
    | none => after
termination_by c => c.rest.length
decreasing_by exact Piece.length_cut_lt c cs

theorem tokens_eq_next (file : String) (c : Cursor) :
    (c.next file).1.kind = .endOfInput ∧ c.tokens file = .ended (c.next file).1 ∨
      (c.next file).1.kind ≠ .endOfInput ∧
        c.tokens file = ((c.next file).2.tokens file).push (c.next file).1 := by
  fun_induction next file c with
  | case1 offset =>
    exact .inl ⟨rfl, by rw [tokens]⟩
  | case2 offset c cs cut after token h =>
    refine .inr ⟨?_, by rw [tokens]; simp only [cut, after, h]⟩
    obtain ⟨⟨kind, text⟩, hm, rfl⟩ := Option.map_eq_some_iff.1 h
    exact Piece.kind_cut_ne_endOfInput hm
  | case3 offset c cs cut after h ih =>
    have heq : tokens file ⟨offset, c :: cs⟩ = after.tokens file := by
      rw [tokens]
      simp only [cut, after, h]
    rwa [heq]

end Cursor

/-- The name of a source that was given none. -/
def defaultFile : String := "shell"

def TokenStream.ofSource (file source : String) : TokenStream :=
  Cursor.tokens file ⟨0, source.toList⟩

/-- The tokens of a source, the one that ends it included. -/
def tokenize (file source : String) : List Token :=
  (TokenStream.ofSource file source).toList

end Scriptlet
