import Scriptlet.Proofs.Window
import Scriptlet.Tree.Printer

/-! String literals in any surroundings. A value that is printed as a literal is read back from
wherever the literal stands, as one token that ends at its closing quote, whatever follows. -/
namespace Scriptlet

open Text (byteSize)

theorem Piece.reads_literal (value : String) (rest : List Char) :
    Reads ⟨(Text.literal value).toList, some (.text, value)⟩ rest := by
  have hreads : Reads ⟨'"' :: (Text.escape value.toList ++ ['"']),
      some (.text, String.ofList value.toList)⟩ rest := .literal (Text.denotes_escape _)
  simpa [Text.literal] using hreads

section

variable {l rest : List Char} {kind : Kind} {text : String}

theorem Cursor.next_of_reads (hp : Piece.Reads ⟨l, some (kind, text)⟩ rest) (hne : l ≠ [])
    (file : String) (offset : Nat) :
    Cursor.next file ⟨offset, l ++ rest⟩ =
      (⟨kind, text, .ofSize file offset (byteSize l)⟩, ⟨offset + byteSize l, rest⟩) := by
  cases hcs : l ++ rest with
  | nil => exact absurd (List.append_eq_nil_iff.mp hcs).1 hne
  | cons c cs =>
    rw [Cursor.next, hp.cut_eq hcs.symm]
    rfl

/-- A scanner that stands at such a piece yields the token and stops behind the piece. -/
theorem Scanner.At.next?_of_reads {s : Scanner} {offset : Nat} (h : s.At ⟨offset, l ++ rest⟩)
    (hp : Piece.Reads ⟨l, some (kind, text)⟩ rest) (hne : l ≠ []) :
    ∃ after, s.next? = some (⟨kind, text, .ofSize s.file offset (byteSize l)⟩, after) ∧
      after.At ⟨offset + byteSize l, rest⟩ := by
  have hnext := Cursor.next_of_reads hp hne s.file offset
  have hread := h.next?
  have hafter := h.after
  rw [hnext] at hread hafter
  exact ⟨_, hread, hafter⟩

end

/-- A printed string literal is read back, whatever text follows it: as one token that has the value
for its text and the bytes of the literal for its span, with the text behind it left to read. -/
theorem printed_literal_reads_back (file : String) (t : Token) (value rest : String) :
    ∃ token after,
      (Scanner.ofSource file ((Expr.text t value).print ++ rest)).next? = some (token, after) ∧
      token.kind = .text ∧ token.text = value ∧
      (byteSize (Expr.text t value).print.toList ≤ maxOffset →
        token.span = ⟨0, byteSize (Expr.text t value).print.toList, file⟩) ∧
      after.rest? = some rest.toList := by
  rw [Expr.print]
  have hne : (Text.literal value).toList ≠ [] := by simp [Text.literal]
  have hat := Scanner.at_ofSource file (Text.literal value ++ rest)
  rw [String.toList_append] at hat
  obtain ⟨after, hnext, hafter⟩ := hat.next?_of_reads (Piece.reads_literal value rest.toList) hne
  refine ⟨_, after, hnext, rfl, rfl, ?_, hafter.rest⟩
  intro hsize
  rw [Span.ofSize, Nat.zero_add, clampOffset_of_le hsize]
  rfl

end Scriptlet
