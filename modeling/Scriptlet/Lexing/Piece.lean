import Scriptlet.Lexing.Rule

/-! A source is read piece by piece, and every text that is not empty starts with a piece. -/
namespace Scriptlet

structure Piece where
  /-- The characters of the piece, as they stand in the source. -/
  lexeme : List Char
  /-- The kind and text of the token that the piece is; none for a gap between tokens. -/
  meaning? : Option (Kind × String)
  deriving DecidableEq, Repr

namespace Rule

/-- The first rule of the table that reads at the head of `cs`, with the split that it makes. -/
def first? (cs : List Char) : Option (Rule × List Char × List Char) :=
  table.findSome? fun rule => (rule.split? cs).map (rule, ·)

theorem first?_eq_some {cs l r : List Char} {rule : Rule} (h : first? cs = some (rule, l, r)) :
    rule ∈ table ∧ rule.split? cs = some (l, r) := by
  obtain ⟨found, hmem, hfound⟩ := List.exists_of_findSome?_eq_some h
  obtain ⟨split, hsplit, heq⟩ := Option.map_eq_some_iff.1 hfound
  cases heq
  exact ⟨hmem, hsplit⟩

end Rule

namespace Piece

/-- Cuts the first piece off a text that starts with `c`. A character that no rule can read is a
piece of its own, and illegal. -/
def cut (c : Char) (cs : List Char) : Piece × List Char :=
  match Rule.first? (c :: cs) with
  | some (rule, lexeme, rest) => (⟨lexeme, rule.meaning? lexeme⟩, rest)
  | none => (⟨[c], some (.illegal, String.singleton c)⟩, cs)

theorem cut_append (c : Char) (cs : List Char) :
    c :: cs = (cut c cs).1.lexeme ++ (cut c cs).2 ∧ (cut c cs).1.lexeme ≠ [] := by
  unfold cut
  split
  next h =>
    obtain ⟨hmem, hsplit⟩ := Rule.first?_eq_some h
    exact Rule.split?_append hmem hsplit
  next => exact ⟨rfl, by simp⟩

theorem length_cut_lt (c : Char) (cs : List Char) : (cut c cs).2.length < (c :: cs).length := by
  obtain ⟨happ, hne⟩ := cut_append c cs
  have := List.length_pos_iff.2 hne
  rw [happ, List.length_append]
  omega

theorem kind_cut_ne_endOfInput {c : Char} {cs : List Char} {kind : Kind} {text : String}
    (h : (cut c cs).1.meaning? = some (kind, text)) : kind ≠ .endOfInput := by
  unfold cut at h
  split at h
  next hf => exact Rule.kind_ne_endOfInput (Rule.first?_eq_some hf).1 h
  next => cases h; simp

end Piece

end Scriptlet
