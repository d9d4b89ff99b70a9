import Mathlib.Data.List.DropRight
import Scriptlet.Diagnostic.Render
import Scriptlet.Proofs.Diagnosis
import Scriptlet.Proofs.LineLookup
import Scriptlet.Proofs.Pieces

/-! Where the caret of a report stands. A diagnostic stands at the start of a token, which is a
visible character or the end of the source; so neither the indentation of its line nor the blanks at
the end of the line can hide it, and the column, counted in characters, is its place in the row that
is shown. -/
namespace Scriptlet

open Text (byteSize isBlank)

/-- The character stands at a byte offset of the text. -/
def Text.StandsAt (cs : List Char) (offset : Nat) (c : Char) : Prop :=
  ∃ before after, cs = before ++ c :: after ∧ byteSize before = offset

theorem Text.StandsAt.lt {cs : List Char} {offset : Nat} {c : Char} (h : StandsAt cs offset c) :
    offset < byteSize cs := by
  obtain ⟨before, after, rfl, rfl⟩ := h
  have hpos := c.utf8Size_pos
  rw [byteSize_append, byteSize_cons]
  omega

theorem isBlank_of_isWordPart {c : Char} (h : Rule.isWordPart c = true) : isBlank c = false := by
  by_contra hb
  rw [isWordPart_of_isBlank (Bool.of_not_eq_false hb)] at h
  cases h

theorem Piece.Reads.exists_visible {p : Piece} {rest : List Char} (hp : p.Reads rest)
    {word : Kind × String} (hm : p.meaning? = some word) :
    ∃ c l, p.lexeme = c :: l ∧ isBlank c = false := by
  cases hp with
  | @word l rest hs hall _ =>
    cases l with
    | nil => cases hs
    | cons c l =>
      rw [List.all_cons, Bool.and_eq_true] at hall
      exact ⟨c, l, rfl, isBlank_of_isWordPart hall.1⟩
  | @number l rest hne hd _ =>
    cases l with
    | nil => exact absurd rfl hne
    | cons c l =>
      rw [List.all_cons, Bool.and_eq_true] at hd
      have hpart : Rule.isWordPart c = true := by simp [Rule.isWordPart, Char.isAlphanum, hd.1]
      exact ⟨c, l, rfl, isBlank_of_isWordPart hpart⟩
  | literal => exact ⟨_, _, rfl, rfl⟩
  | @mark kind text _ hspell => cases kind <;> cases hspell <;> exact ⟨_, _, rfl, rfl⟩
  | @illegal c _ _ _ hb => exact ⟨c, [], rfl, hb⟩
  | blanks | comment => cases hm

theorem Cursor.start_of_mem_tokens (file : String) (c : Cursor) (before : List Char)
    (hb : byteSize before = c.offset) (hsize : byteSize (before ++ c.rest) ≤ maxOffset) :
    ∀ t ∈ (c.tokens file).toList, t.span.start = byteSize (before ++ c.rest) ∨
      ∃ d, Text.StandsAt (before ++ c.rest) t.span.start d ∧ isBlank d = false := by
  fun_induction Cursor.tokens file c generalizing before with
  | case1 offset =>
    subst hb
    rw [List.append_nil] at hsize ⊢
    intro t ht
    rw [List.mem_singleton.mp ht]
    exact .inl (clampOffset_of_le hsize)
  | case2 offset c cs cut after token htoken ih =>
    subst hb
    obtain ⟨word, hm, rfl⟩ := Option.map_eq_some_iff.mp htoken
    have happ : c :: cs = cut.1.lexeme ++ cut.2 := (Piece.cut_append c cs).1
    have hrest := ih (before ++ cut.1.lexeme) (Text.byteSize_append _ _)
    simp only [List.append_assoc, ← happ] at hrest
    intro t ht
    rcases List.mem_cons.mp ht with rfl | ht
    · obtain ⟨d, l, hlexeme, hd⟩ := (Piece.reads_cut c cs).exists_visible hm
      obtain ⟨rfl, -⟩ := List.cons.inj (happ.trans (congrArg (· ++ cut.2) hlexeme))
      have hle : byteSize before ≤ maxOffset := by
        rw [Text.byteSize_append] at hsize
        omega
      exact .inr ⟨c, ⟨before, cs, rfl, (clampOffset_of_le hle).symm⟩, hd⟩
    · exact hrest hsize t ht
  | case3 offset c cs cut after hgap ih =>
    subst hb
    have happ : c :: cs = cut.1.lexeme ++ cut.2 := (Piece.cut_append c cs).1
    have hrest := ih (before ++ cut.1.lexeme) (Text.byteSize_append _ _)
    simp only [List.append_assoc, ← happ] at hrest
    exact hrest hsize

/-- A diagnostic stands at a visible character or at the end of the source. -/
theorem place_of_mem_errors {file source : String} (h : byteSize source.toList ≤ maxOffset) :
    ∀ d ∈ (parse file source).errors, d.position.offset = byteSize source.toList ∨
      ∃ c, Text.StandsAt source.toList d.position.offset c ∧ isBlank c = false := by
  obtain ⟨ts, hts⟩ := Invariant.parse (I := Describing (tokenize file source)) file source
    ⟨List.Subset.refl _, by simp⟩
  intro d hd
  obtain ⟨t, ht, hposition, -⟩ := hts.describe d hd
  rw [hposition]
  exact Cursor.start_of_mem_tokens file ⟨0, source.toList⟩ [] rfl h t ht

namespace Text

/-- The text is shown as the row: without `indent`, the spaces and tabs before it, and without
`tail`, the blanks behind it. -/
structure Shows (text indent row tail : List Char) : Prop where
  split : text = indent ++ (row ++ tail)
  indent : ∀ c ∈ indent, c = ' ' ∨ c = '\t'
  starts : ∀ c ∈ (row ++ tail).head?, c ≠ ' ' ∧ c ≠ '\t'
  tail : ∀ c ∈ tail, isBlank c = true
  ends : ∀ c ∈ row.getLast?, isBlank c = false

theorem isIndent_iff {c : Char} : isIndent c = true ↔ c = ' ' ∨ c = '\t' := by
  simp [isIndent]

theorem isIndent_of_isBlank {c : Char} (h : isBlank c = false) : isIndent c = false := by
  rw [Bool.eq_false_iff, ne_eq, isIndent_iff]
  rintro (rfl | rfl) <;> cases h

/-- A run of characters at the head of a text ends before a character that is not of their class. -/
theorem runs_append_cons {p : Char → Bool} {c : Char} (hc : p c = false)
    (before after : List Char) :
    (before ++ c :: after).takeWhile p = before.takeWhile p ∧
      (before ++ c :: after).dropWhile p = before.dropWhile p ++ c :: after := by
  induction before with
  | nil => simp [hc]
  | cons d before ih => by_cases hd : p d = true <;> simp [hd, ih]

theorem trimEnd_append_cons {c : Char} (hc : isBlank c = false) (before after : List Char) :
    trimEnd (before ++ c :: after) = before ++ c :: trimEnd after := by
  have hdrop := (runs_append_cons hc after.reverse before.reverse).2
  simp [trimEnd, hdrop]

theorem length_trimEnd_le (cs : List Char) : (trimEnd cs).length ≤ cs.length :=
  (List.rdropWhile_prefix isBlank cs).length_le

namespace Line

variable {l : Line}

theorem shows_row (l : Line) :
    Shows l.text (l.text.takeWhile isIndent) l.row
      ((l.text.dropWhile isIndent).rtakeWhile isBlank) := by
  have hrow : l.row ++ (l.text.dropWhile isIndent).rtakeWhile isBlank =
      l.text.dropWhile isIndent := List.rdropWhile_append_rtakeWhile
  constructor
  case split => rw [hrow, List.takeWhile_append_dropWhile]
  case indent =>
    intro c hc
    exact isIndent_iff.mp (List.mem_takeWhile_imp hc)
  case starts =>
    rw [hrow]
    intro c hc
    have hfirst := List.head?_dropWhile_not isIndent l.text
    rw [Option.mem_def.mp hc] at hfirst
    simpa [isIndent] using hfirst
  case tail =>
    intro c hc
    exact List.mem_rtakeWhile_imp hc
  case ends =>
    intro c hc
    rw [row, trimEnd, List.getLast?_reverse] at hc
    have hfirst := List.head?_dropWhile_not isBlank (l.text.dropWhile isIndent).reverse
    rw [Option.mem_def.mp hc] at hfirst
    simpa using hfirst

/-- The column counts the characters between the indentation and the place. -/
theorem column_of_append {shown behind : List Char}
    (h : l.text.dropWhile isIndent = shown ++ behind)
    (hoffset : l.offset = byteSize (l.text.takeWhile isIndent) + byteSize shown) :
    l.column = shown.length := by
  unfold column
  rw [h, hoffset, if_neg (by omega), Nat.add_sub_cancel_left, takeBytes?_of_append]
  rfl

/-- A visible character of the line is shown, and the caret is under it. -/
theorem column_visible {c : Char} (h : StandsAt l.text l.offset c) (hc : isBlank c = false) :
    l.row[l.column]? = some c ∧
      l.offset = byteSize (l.text.takeWhile isIndent) + byteSize (l.row.take l.column) := by
  obtain ⟨before, after, htext, hsize⟩ := h
  obtain ⟨htake, hdrop⟩ := runs_append_cons (isIndent_of_isBlank hc) before after
  rw [← htext] at htake hdrop
  have hoffset : l.offset =
      byteSize (l.text.takeWhile isIndent) + byteSize (before.dropWhile isIndent) := by
    rw [htake, ← byteSize_append, List.takeWhile_append_dropWhile, hsize]
  have hcolumn := column_of_append hdrop hoffset
  have hrow : l.row = before.dropWhile isIndent ++ c :: trimEnd after := by
    rw [row, hdrop, trimEnd_append_cons hc]
  constructor
  · simp [hrow, hcolumn]
  · rw [hrow, hcolumn, List.take_left, hoffset]

theorem length_row_le_column (h : l.offset = byteSize l.text) : l.row.length ≤ l.column := by
  have hsize : byteSize l.text =
      byteSize (l.text.takeWhile isIndent) + byteSize (l.text.dropWhile isIndent) := by
    rw [← byteSize_append, List.takeWhile_append_dropWhile]
  rw [column_of_append (List.append_nil _).symm (h.trans hsize)]
  exact length_trimEnd_le _

end Line

/-- Of two cuts of one text the one with fewer bytes before it comes first. -/
theorem exists_append_of_byteSize_le {p q r s : List Char} (h : p ++ r = q ++ s)
    (hle : byteSize p ≤ byteSize q) : ∃ m, q = p ++ m ∧ r = m ++ s := by
  rcases List.append_eq_append_iff.mp h with ⟨m, hq, hr⟩ | ⟨m, rfl, rfl⟩
  · exact ⟨m, hq, hr⟩
  · cases m with
    | nil => exact ⟨[], by simp, rfl⟩
    | cons c m =>
      have hpos := c.utf8Size_pos
      rw [byteSize_append, byteSize_cons] at hle
      omega

theorem Line.Locates.standsAt {cs : List Char} {offset : Nat} {l : Line} {c : Char}
    (h : l.Locates cs offset) (hc : StandsAt cs offset c) : StandsAt l.text l.offset c := by
  have hinside := h.inside hc.lt
  obtain ⟨before, after, rfl, rfl⟩ := hc
  obtain ⟨earlier, later, hsplit, hplace⟩ := h.split (by simp)
  obtain ⟨inner, rfl, hinner⟩ := exists_append_of_byteSize_le hsplit.symm (Nat.le.intro hplace)
  have hoffset : byteSize inner = l.offset := by
    rw [byteSize_append] at hplace
    omega
  obtain ⟨outer, htext, houter⟩ := exists_append_of_byteSize_le hinner.symm (by omega)
  cases outer with
  | nil =>
    rw [htext, List.append_nil] at hinside
    omega
  | cons d outer =>
    obtain ⟨rfl, -⟩ := List.cons.inj houter
    exact ⟨inner, outer, htext, hoffset⟩

end Text

/-- The last two rows of a report: what is shown of the line behind its number, and below it the
caret behind dashes. -/
def Text.markedRows (number : Nat) (row : List Char) (column : Nat) : String :=
  number.repr ++ " | " ++ String.ofList row ++ "\n" ++
    (String.ofList (List.replicate (number.repr.length + 1) ' ') ++ "| " ++
      String.ofList (List.replicate column '-') ++ "^\n")

/-- A report shows the line of its diagnostic, and under it a caret. -/
structure Diagnostic.Marks (source : String) (d : Diagnostic) (l : Text.Line)
    (indent row tail : List Char) (column : Nat) : Prop where
  found : Text.lineAt? source.toList d.position.offset = some l
  shows : Text.Shows l.text indent row tail
  ends : ∃ front, d.render source = front ++ "\n" ++ Text.markedRows l.number row column
  /-- Before the end of the source the caret is under the character that stands there. -/
  under : d.position.offset < byteSize source.toList →
    ∃ c, Text.StandsAt source.toList d.position.offset c ∧ row[column]? = some c ∧
      l.offset = byteSize indent + byteSize (row.take column)
  /-- At the end of the source it is behind the row. -/
  behind : d.position.offset = byteSize source.toList → row.length ≤ column

theorem Diagnostic.ends_render {source : String} {d : Diagnostic} {l : Text.Line}
    (h : Text.lineAt? source.toList d.position.offset = some l) :
    ∃ front, d.render source = front ++ "\n" ++ Text.markedRows l.number l.row l.column := by
  refine ⟨d.heading ++ "-> " ++ d.position.file ++ "\n" ++
    String.ofList (List.replicate (l.number.repr.length + 1) ' ') ++ "|", ?_⟩
  have hbar : "|\n" = "|" ++ "\n" := rfl
  rw [render, h]
  -- The equations of these two are slow to derive, so they are unfolded as they stand.
  delta Text.Line.excerpt Text.Line.layout
  simp only [hbar, Text.markedRows, String.append_assoc]

/-- The caret is under the offending character. The report of a diagnostic of a source shows the
line of its position without the blanks around it, and there is a caret under the character that
stands at the position, or behind the line if the position is the end of the source. -/
theorem caret_marks_position (file source : String) (h : byteSize source.toList ≤ maxOffset) :
    ∀ d ∈ (parse file source).errors,
      ∃ l indent row tail column, d.Marks source l indent row tail column := by
  intro d hd
  have hplace := place_of_mem_errors h d hd
  have hle : d.position.offset ≤ byteSize source.toList := by
    rcases hplace with heq | ⟨c, hc, -⟩
    · exact Nat.le_of_eq heq
    · exact Nat.le_of_lt hc.lt
  have hfound : Text.lineAt? source.toList d.position.offset = some _ := if_pos hle
  have hlocates := Text.Line.find_locates hle
  refine ⟨_, _, _, _, _, hfound, Text.Line.shows_row _, Diagnostic.ends_render hfound, ?_, ?_⟩
  · intro hlt
    obtain ⟨c, hc, hvisible⟩ := hplace.resolve_left (Nat.ne_of_lt hlt)
    exact ⟨c, hc, Text.Line.column_visible (hlocates.standsAt hc) hvisible⟩
  · intro heq
    exact Text.Line.length_row_le_column (hlocates.atEnd heq)

/-- An illegal character on an indented line, behind characters of two bytes, and a value that is
missing at the end of the source, behind blanks and a newline. -/
theorem caret_marks_position_indented :
    let source := "x;\n\t \"éé\" @;\n let y =  \n"
    let d : Diagnostic := ⟨.unexpectedToken .illegal "@", ⟨12, "f"⟩⟩
    let e : Diagnostic := ⟨.unexpectedToken .endOfInput "", ⟨26, "f"⟩⟩
    byteSize source.toList ≤ maxOffset ∧ (parse "f" source).errors = [d, e] ∧
      (∃ l indent row tail column, d.Marks source l indent row tail column) ∧
      ∃ l indent row tail column, e.Marks source l indent row tail column := by
  intro source d e
  have hsize : byteSize source.toList ≤ maxOffset := by decide
  have herrors : (parse "f" source).errors = [d, e] := by decide +kernel
  have hmarks := caret_marks_position "f" source hsize
  exact ⟨hsize, herrors, hmarks d (by simp [herrors]), hmarks e (by simp [herrors])⟩

end Scriptlet
