import Scriptlet.Proofs.Tiling
import Scriptlet.Proofs.Words

/-! A source may be laid out anew. Its lexemes, with any blanks and comments put before them, between
them and behind them, are read as the same words: a blank behind a lexeme ends it, and no lexeme
reaches into what separates it from the next one. -/
namespace Scriptlet

open Text (byteSize)

/-- The lexemes that stand for tokens, as they are written in the text. -/
def spellings : List Char → List (List Char)
  | [] => []
  | c :: cs =>
    let cut := Piece.cut c cs
    match cut.1.meaning? with
    | some _ => cut.1.lexeme :: spellings cut.2
    | none => spellings cut.2
termination_by cs => cs.length
decreasing_by all_goals exact Piece.length_cut_lt c cs

/-- The token is written as `l` in the source, at the place of its span. -/
structure Token.Spans (source : List Char) (t : Token) (l : List Char) : Prop where
  place : ∃ offset, t.span = .ofSize t.span.file offset (byteSize l) ∧
    Text.slice? offset (offset + byteSize l) source = some l
  /-- Where no offset is too large to be recorded, the span itself holds the text. -/
  held : byteSize source ≤ maxOffset → Text.slice? t.span.start t.span.stop source = some l

theorem Token.spans_of_append (file : String) (word : Kind × String) (before l rest : List Char) :
    Spans (before ++ (l ++ rest))
      ⟨word.1, word.2, .ofSize file (byteSize before) (byteSize l)⟩ l := by
  constructor
  · exact ⟨byteSize before, rfl, Text.slice?_of_append before l rest⟩
  · intro hsize
    simp only [Text.byteSize_append] at hsize
    simp only [Span.ofSize]
    rw [clampOffset_of_le (by omega), clampOffset_of_le (by omega)]
    exact Text.slice?_of_append before l rest

theorem Cursor.tokens_span (file : String) (c : Cursor) (before : List Char)
    (h : byteSize before = c.offset) :
    List.Forall₂ (Token.Spans (before ++ c.rest)) (c.tokens file).ahead (spellings c.rest) := by
  fun_induction Cursor.tokens file c generalizing before with
  | case1 offset =>
    rw [spellings]
    exact .nil
  | case2 offset c cs cut after token htoken ih =>
    subst h
    obtain ⟨word, hm, rfl⟩ := Option.map_eq_some_iff.mp htoken
    have happ : c :: cs = cut.1.lexeme ++ cut.2 := (Piece.cut_append c cs).1
    have hrest := ih (before ++ cut.1.lexeme) (Text.byteSize_append _ _)
    simp only [List.append_assoc, ← happ] at hrest
    have hfirst := Token.spans_of_append file word before cut.1.lexeme cut.2
    rw [← happ] at hfirst
    rw [spellings]
    simp only [cut] at hm ⊢
    rw [hm]
    exact .cons hfirst hrest
  | case3 offset c cs cut after hgap ih =>
    subst h
    have hm : cut.1.meaning? = none := Option.map_eq_none_iff.mp hgap
    have happ : c :: cs = cut.1.lexeme ++ cut.2 := (Piece.cut_append c cs).1
    have hrest := ih (before ++ cut.1.lexeme) (Text.byteSize_append _ _)
    simp only [List.append_assoc, ← happ] at hrest
    rw [spellings]
    simp only [cut] at hm ⊢
    rw [hm]
    exact hrest

/-- The text is made of blanks and of comments that end with a newline. -/
inductive Spacing : List Char → Prop
  | nil : Spacing []
  | blank {c : Char} {w : List Char} (hc : Text.isBlank c = true) (h : Spacing w) :
      Spacing (c :: w)
  | comment {body w : List Char} (hb : ∀ c ∈ body, c ≠ '\n') (h : Spacing w) :
      Spacing ('/' :: '/' :: (body ++ '\n' :: w))

/-- What separates `n` lexemes: a text before each of them and one behind the last. -/
structure Separators (n : Nat) where
  before : List (List Char)
  last : List Char
  length_before : before.length = n
  spacing : ∀ w ∈ before, Spacing w
  /-- Between two lexemes the first character is a blank. -/
  apart : ∀ w ∈ before.tail, w.head?.any Text.isBlank = true
  /-- Behind the last lexeme a comment may run to the end of the source. -/
  gap : Gap last []
  ends : last = [] ∨ last.head?.any Text.isBlank = true

theorem Spacing.gap {w : List Char} (h : Spacing w) (rest : List Char) : Gap w rest := by
  induction h with
  | nil => exact .nil
  | blank hc _ ih => exact .blank hc ih
  | comment hb _ ih => exact .comment hb (by simp) (.blank rfl ih)

/-- The text is empty or starts with a blank: every lexeme before it is at its end. -/
def Breaks (rest : List Char) : Prop :=
  ∀ c ∈ rest.head?, Text.isBlank c = true

theorem breaks_append {w : List Char} (h : w.head?.any Text.isBlank = true) (rest : List Char) :
    Breaks (w ++ rest) := by
  cases w with
  | nil => cases h
  | cons c w =>
    rintro _ ⟨⟩
    simpa using h

namespace Separators

variable {n : Nat}

/-- The lexemes, each behind what separates it from the one before. -/
def layOut (ws : Separators n) (ls : List (List Char)) : List Char :=
  (List.zipWith (· ++ ·) ws.before ls).flatten ++ ws.last

def tail (ws : Separators (n + 1)) : Separators n where
  before := ws.before.tail
  last := ws.last
  length_before := by rw [List.length_tail, ws.length_before, Nat.add_sub_cancel]
  spacing w hw := ws.spacing w (List.mem_of_mem_tail hw)
  apart w hw := ws.apart w (List.mem_of_mem_tail hw)
  gap := ws.gap
  ends := ws.ends

@[simp] theorem before_tail (ws : Separators (n + 1)) : ws.tail.before = ws.before.tail := rfl

@[simp] theorem last_tail (ws : Separators (n + 1)) : ws.tail.last = ws.last := rfl

theorem layOut_cons (ws : Separators (n + 1)) (l : List Char) (ls : List (List Char)) :
    ∃ w, Spacing w ∧ ws.layOut (l :: ls) = w ++ (l ++ ws.tail.layOut ls) := by
  obtain ⟨w, before, hbefore⟩ := List.exists_cons_of_length_eq_add_one ws.length_before
  refine ⟨w, ws.spacing w (by simp [hbefore]), ?_⟩
  simp [layOut, hbefore]

theorem breaks_tail (ws : Separators (n + 1)) (ls : List (List Char)) :
    Breaks (ws.tail.layOut ls) := by
  have hlast : Breaks ws.last := by
    rcases ws.ends with hnil | hblank
    · simp [Breaks, hnil]
    · simpa using breaks_append hblank []
  rw [layOut, before_tail, last_tail]
  cases hbefore : ws.before.tail with
  | nil => simpa using hlast
  | cons w before =>
    cases ls with
    | nil => simpa using hlast
    | cons l ls =>
      have hw := ws.apart w (by simp [hbefore])
      simpa using breaks_append hw _

end Separators

theorem lexemes_of_reads {p : Piece} {rest : List Char} (hne : p.lexeme ≠ [])
    (hp : p.Reads rest) : lexemes (p.lexeme ++ rest) = p.meaning?.toList ++ lexemes rest := by
  cases hcs : p.lexeme ++ rest with
  | nil => exact absurd (List.append_eq_nil_iff.mp hcs).1 hne
  | cons c cs => rw [lexemes, hp.cut_eq hcs.symm]

theorem lexemes_gap {gap rest : List Char} (h : Gap gap rest) :
    lexemes (gap ++ rest) = lexemes rest := by
  induction h with
  | nil => rfl
  | blank hc _ ih => rw [List.cons_append, lexemes_blank hc, ih]
  | @comment body gap rest hb hstop _ ih =>
    have hp : Piece.Reads ⟨'/' :: '/' :: body, none⟩ (gap ++ rest) := .comment hb hstop
    rw [← ih]
    simpa using lexemes_of_reads (List.cons_ne_nil _ _) hp

theorem Kind.endsAt_of_breaks (kind : Kind) {rest : List Char} (h : Breaks rest) :
    kind.EndsAt rest := by
  have hne {c : Char} (hc : Text.isBlank c = false) : rest.head? ≠ some c := by
    intro hhead
    rw [h c hhead] at hc
    cases hc
  cases kind
  case bang | assign | slash => exact hne rfl
  case letWord | fnWord | returnWord | ifWord | elseWord | trueWord | falseWord =>
    exact fun c hc => isWordPart_of_isBlank (h c hc)
  all_goals trivial

/-- A blank ends every lexeme that stands for a token, whatever stood behind it before. What is
illegal may be the start of a literal that is closed now. -/
theorem Piece.Reads.breaks {p : Piece} {rest rest' : List Char} (hp : p.Reads rest) {kind : Kind}
    {text : String} (hm : p.meaning? = some (kind, text)) (hk : kind ≠ .illegal)
    (h : Breaks rest') : p.Reads rest' := by
  have hpart (c : Char) (hc : c ∈ rest'.head?) : Rule.isWordPart c = false :=
    isWordPart_of_isBlank (h c hc)
  cases hp with
  | word hs hall _ => exact .word hs hall hpart
  | number hne hd _ => exact .number hne hd fun c hc => (of_isWordPart (hpart c hc)).2
  | literal hd => exact .literal hd
  | mark hspell hfree _ => exact .mark hspell hfree (Kind.endsAt_of_breaks _ h)
  | illegal =>
    cases hm
    exact absurd rfl hk
  | blanks | comment => cases hm

/-- Laid out anew, the lexemes of a text are read as its words. -/
theorem lexemes_layOut {cs : List Char} (hlegal : ∀ word ∈ lexemes cs, word.1 ≠ .illegal)
    (ws : Separators (spellings cs).length) :
    lexemes (ws.layOut (spellings cs)) = lexemes cs := by
  fun_induction spellings cs with
  | case1 =>
    have hlast := lexemes_gap ws.gap
    simpa [Separators.layOut] using hlast
  | case2 c cs cut word hm ih =>
    have hwords : lexemes (c :: cs) = word :: lexemes cut.2 := by
      rw [lexemes, hm]
      rfl
    rw [hwords, List.forall_mem_cons] at hlegal
    obtain ⟨w, hw, hlayOut⟩ := ws.layOut_cons cut.1.lexeme (spellings cut.2)
    -- What follows the lexeme now is empty or starts with a blank.
    have hp : cut.1.Reads (ws.tail.layOut (spellings cut.2)) :=
      (Piece.reads_cut c cs).breaks hm hlegal.1 (ws.breaks_tail _)
    rw [hlayOut, lexemes_gap (hw.gap _), lexemes_of_reads (Piece.cut_append c cs).2 hp, hm,
      ih hlegal.2 ws.tail, hwords]
    rfl
  | case3 c cs cut hm ih =>
    have hwords : lexemes (c :: cs) = lexemes cut.2 := by
      rw [lexemes, hm]
      rfl
    rw [hwords] at hlegal ⊢
    exact ih hlegal ws

theorem Cursor.word_stop_tokens (file : String) (c : Cursor) :
    (c.tokens file).stop.word = (.endOfInput, "") := by
  fun_induction Cursor.tokens file c with
  | case1 offset => rfl
  | case2 offset c cs cut after token htoken ih => exact ih
  | case3 offset c cs cut after hgap ih => exact ih

theorem tokenize_words (file source : String) :
    (tokenize file source).map Token.word = lexemes source.toList ++ [(.endOfInput, "")] := by
  have hahead := Cursor.map_word_tokens file ⟨0, source.toList⟩
  have hstop := Cursor.word_stop_tokens file ⟨0, source.toList⟩
  rw [tokenize, TokenStream.toList, List.map_append]
  exact congrArg₂ _ hahead (congrArg (fun word => [word]) hstop)

/-- A source without illegal tokens may be laid out anew. What the tokens before the end are written
as, put together with any blanks and comments that keep the lexemes apart, has tokens of the same
kinds and texts. -/
theorem tokenize_layOut (file source : String)
    (hlegal : ∀ t ∈ tokenize file source, t.kind ≠ .illegal) :
    List.Forall₂ (Token.Spans source.toList) (tokenize file source).dropLast
      (spellings source.toList) ∧
    ∀ (ws : Separators (spellings source.toList).length) (file' : String),
      (tokenize file' (String.ofList (ws.layOut (spellings source.toList)))).map Token.word =
        (tokenize file source).map Token.word := by
  constructor
  · have hspans := Cursor.tokens_span file ⟨0, source.toList⟩ [] rfl
    rwa [tokenize, TokenStream.toList, List.dropLast_concat]
  · intro ws file'
    have hwords : ∀ word ∈ lexemes source.toList, word.1 ≠ .illegal := by
      intro word hword
      have hmem : word ∈ (tokenize file source).map Token.word := by
        simp [tokenize_words, hword]
      obtain ⟨t, ht, rfl⟩ := List.mem_map.mp hmem
      exact hlegal t ht
    rw [tokenize_words, tokenize_words, String.toList_ofList, lexemes_layOut hwords]

/-- A literal that looks like a comment, and comments that look like literals, before the first token,
between two tokens and up to the end of the source. -/
theorem tokenize_layOut_commented :
    let source := "let s=\"//\n\"+1;"
    let source' := "//\"\nlet\ts =\n//\"=\n\"//\n\" + 1\n; //\""
    (∀ t ∈ tokenize "f" source, t.kind ≠ .illegal) ∧
      (tokenize "g" source').map Token.word = (tokenize "f" source).map Token.word := by
  intro source source'
  have hlegal : ∀ t ∈ tokenize "f" source, t.kind ≠ .illegal := by decide +kernel
  have hcomment : Spacing ['/', '/', '"', '\n'] := @Spacing.comment ['"'] [] (by simp) .nil
  have hlined : Spacing ['\n', '/', '/', '"', '=', '\n'] :=
    .blank rfl (@Spacing.comment ['"', '='] [] (by simp) .nil)
  have hblank (c : Char) (hc : Text.isBlank c = true) : Spacing [c] := .blank hc .nil
  let ws : Separators (spellings source.toList).length :=
    { before := [['/', '/', '"', '\n'], ['\t'], [' '], ['\n', '/', '/', '"', '=', '\n'],
        [' '], [' '], ['\n']]
      last := [' ', '/', '/', '"']
      length_before := by decide +kernel
      spacing := by simp [hcomment, hlined, hblank, Text.isBlank]
      apart := by decide
      gap := .blank rfl (@Gap.comment ['"'] [] [] (by simp) nofun .nil)
      ends := .inr rfl }
  have hsource' : String.ofList (ws.layOut (spellings source.toList)) = source' := by
    dsimp only [Separators.layOut, ws]
    decide +kernel
  have hwords := (tokenize_layOut "f" source hlegal).2 ws "g"
  rw [hsource'] at hwords
  exact ⟨hlegal, hwords⟩

end Scriptlet
