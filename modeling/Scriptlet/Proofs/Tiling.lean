import Scriptlet.Proofs.Pieces

/-! The tokens of a source tile it: every byte belongs to exactly one token or to a gap between two
of them, and the text of a token is what stands in its span. The tiling is first stated along the
text, tile by tile, and then read off in offsets. -/
namespace Scriptlet

open Text (byteSize)

/-- The text from one offset up to another; nothing if a character straddles one of them. -/
def Text.slice? (start stop : Nat) (cs : List Char) : Option (List Char) :=
  (dropBytes? start cs).bind (takeBytes? (stop - start))

theorem Text.slice?_of_append (before l after : List Char) :
    slice? (byteSize before) (byteSize before + byteSize l) (before ++ (l ++ after)) = some l := by
  have hdrop : dropBytes? (byteSize before) (before ++ (l ++ after)) = some (l ++ after) :=
    dropBytes?_eq_some_iff.mpr ⟨before, rfl, rfl⟩
  rw [slice?, hdrop, Option.bind_some, Nat.add_sub_cancel_left, takeBytes?_of_append]

/-- `Gap gap rest`: the text is made of blanks and comments, and a comment runs to just before a
newline or to the end of the source. What follows the gap is `rest`. -/
inductive Gap : List Char → List Char → Prop
  | nil {rest : List Char} : Gap [] rest
  | blank {c : Char} {gap rest : List Char} (hc : Text.isBlank c = true) (h : Gap gap rest) :
      Gap (c :: gap) rest
  | comment {body gap rest : List Char} (hb : ∀ c ∈ body, c ≠ '\n')
      (hstop : ∀ c ∈ (gap ++ rest).head?, c = '\n') (h : Gap gap rest) :
      Gap ('/' :: '/' :: (body ++ gap)) rest

/-- The token is written as `l` in the source: a literal by its quotes and a body that denotes its
text, everything else by its text. What is illegal is a single character. -/
def Token.WrittenAs (t : Token) (l : List Char) : Prop :=
  if t.kind = .text then ∃ body, l = '"' :: (body ++ ['"']) ∧ Text.Denotes body t.text.toList
  else l = t.text.toList ∧ (t.kind = .illegal → l.length = 1)

structure Tiling (file : String) (source : List Char) (ts : List Token) : Prop where
  /-- Exactly the last token ends the source, at its end. -/
  last : ∃ us, ts = us ++ [⟨.endOfInput, "", ⟨byteSize source, byteSize source, file⟩⟩] ∧
    ∀ t ∈ us, t.kind ≠ .endOfInput
  /-- The span of every other token holds what the token is written as. -/
  written : ∀ t ∈ ts, t.kind ≠ .endOfInput → t.span.file = file ∧ t.span.start < t.span.stop ∧
    ∃ l, Text.slice? t.span.start t.span.stop source = some l ∧ t.WrittenAs l
  /-- The tokens are in the order of the source, and no two of them overlap. -/
  increasing : ts.Pairwise fun t u => t.span.start < u.span.start ∧ t.span.stop ≤ u.span.start
  /-- Before the first token, and between two tokens that follow each other, there is a gap. -/
  gaps : ∀ p ∈ List.zip (0 :: ts.map (·.span.stop)) (ts.map (·.span.start)),
    ∃ gap rest, Text.slice? p.1 p.2 source = some gap ∧
      Text.dropBytes? p.2 source = some rest ∧ Gap gap rest

/-- The tokens from an offset on, each with the gap before it. -/
inductive Tiled (file : String) : Nat → List Char → List Token → Prop
  | done {offset start : Nat} {gap : List Char} (hstart : start = offset + byteSize gap)
      (hg : Gap gap []) : Tiled file offset gap [⟨.endOfInput, "", ⟨start, start, file⟩⟩]
  | token {offset start : Nat} {gap l rest : List Char} {kind : Kind} {text : String}
      {ts : List Token} (hstart : start = offset + byteSize gap) (hg : Gap gap (l ++ rest))
      (hl : l ≠ []) (hk : kind ≠ .endOfInput)
      (hw : Token.WrittenAs ⟨kind, text, ⟨start, start + byteSize l, file⟩⟩ l)
      (h : Tiled file (start + byteSize l) rest ts) :
      Tiled file offset (gap ++ (l ++ rest)) (⟨kind, text, ⟨start, start + byteSize l, file⟩⟩ :: ts)

theorem Text.byteSize_pos {l : List Char} (h : l ≠ []) : 0 < byteSize l := by
  cases l with
  | nil => exact absurd rfl h
  | cons c cs =>
    have hc := c.utf8Size_pos
    rw [byteSize_cons]
    omega

theorem Gap.append_blanks {l gap rest : List Char} (hl : l.all Text.isBlank = true)
    (h : Gap gap rest) : Gap (l ++ gap) rest := by
  induction l with
  | nil => exact h
  | cons c l ih =>
    rw [List.all_cons, Bool.and_eq_true] at hl
    exact .blank hl.1 (ih hl.2)

theorem Piece.Reads.gap {p : Piece} {gap rest : List Char} (hp : p.Reads (gap ++ rest))
    (hm : p.meaning? = none) (h : Gap gap rest) : Gap (p.lexeme ++ gap) rest := by
  cases hp with
  | blanks _ hb _ => exact h.append_blanks hb
  | comment hb hstop => exact .comment hb hstop h
  | word | number | literal | mark | illegal => cases hm

theorem Kind.ofWord_ne {kind : Kind} (word : String) (h : kind.spelling? = none)
    (hname : kind ≠ .name) : ofWord word ≠ kind := by
  intro he
  rcases ofWord_cases word with hs | ⟨hn, -⟩
  · rw [he, h] at hs
    cases hs
  · exact hname (he.symm.trans hn)

theorem Piece.Reads.writtenAs {p : Piece} {rest : List Char} (hp : p.Reads rest) {kind : Kind}
    {text : String} (hm : p.meaning? = some (kind, text)) (span : Span) :
    Token.WrittenAs ⟨kind, text, span⟩ p.lexeme := by
  cases hp <;> cases hm
  case literal body value hd =>
    rw [Token.WrittenAs, if_pos rfl]
    exact ⟨body, rfl, by rwa [String.toList_ofList]⟩
  case word l _ _ _ =>
    rw [Token.WrittenAs, if_neg (Kind.ofWord_ne _ rfl (by decide))]
    refine ⟨String.toList_ofList.symm, fun hk => ?_⟩
    exact absurd hk (Kind.ofWord_ne _ rfl (by decide))
  case number => exact ⟨String.toList_ofList.symm, nofun⟩
  case illegal => exact ⟨by simp, fun _ => rfl⟩
  case mark hfree hrest hspell =>
    have hne {other : Kind} (h : other.spelling? = none) : kind ≠ other := by
      rintro rfl
      rw [h] at hspell
      cases hspell
    rw [Token.WrittenAs, if_neg (hne rfl)]
    exact ⟨rfl, fun hk => absurd hk (hne rfl)⟩

theorem Tiled.append_gap {file : String} {offset : Nat} {p : Piece} {cs : List Char}
    {ts : List Token} (h : Tiled file (offset + byteSize p.lexeme) cs ts) (hp : p.Reads cs)
    (hm : p.meaning? = none) : Tiled file offset (p.lexeme ++ cs) ts := by
  cases h with
  | done hstart hg =>
    rw [← List.append_nil cs] at hp
    refine .done ?_ (hp.gap hm hg)
    rw [Text.byteSize_append]
    omega
  | token hstart hg hl hk hw h =>
    rw [← List.append_assoc]
    refine .token ?_ (hp.gap hm hg) hl hk hw h
    rw [Text.byteSize_append]
    omega

theorem Cursor.tiled_tokens (file : String) (c : Cursor)
    (h : c.offset + byteSize c.rest ≤ maxOffset) :
    Tiled file c.offset c.rest (c.tokens file).toList := by
  fun_induction Cursor.tokens file c with
  | case1 offset =>
    have hclamp : clampOffset offset = offset := clampOffset_of_le (by simpa using h)
    have hdone : Tiled file offset [] [⟨.endOfInput, "", ⟨offset, offset, file⟩⟩] :=
      .done rfl .nil
    simpa [TokenStream.ended, TokenStream.toList, Token.atEnd, Span.ofSize, hclamp] using hdone
  | case2 offset c cs cut after token htoken ih =>
    obtain ⟨happ, hne⟩ := Piece.cut_append c cs
    have hp := Piece.reads_cut c cs
    dsimp only at h ih
    obtain ⟨⟨kind, text⟩, hm, rfl⟩ := Option.map_eq_some_iff.1 htoken
    have hsize : byteSize (c :: cs) = byteSize cut.1.lexeme + byteSize cut.2 := by
      rw [happ, Text.byteSize_append]
    have hspan : Span.ofSize file offset (byteSize cut.1.lexeme) =
        ⟨offset, offset + byteSize cut.1.lexeme, file⟩ := by
      rw [Span.ofSize, clampOffset_of_le (by omega), clampOffset_of_le (by omega)]
    have hafter := ih (by omega)
    rw [TokenStream.toList_push, hspan]
    dsimp only
    rw [happ]
    exact .token rfl .nil hne (Piece.kind_cut_ne_endOfInput hm) (hp.writtenAs hm _) hafter
  | case3 offset c cs cut after hgap ih =>
    obtain ⟨happ, -⟩ := Piece.cut_append c cs
    have hp := Piece.reads_cut c cs
    dsimp only at h ih
    have hm : cut.1.meaning? = none := Option.map_eq_none_iff.1 hgap
    have hsize : byteSize (c :: cs) = byteSize cut.1.lexeme + byteSize cut.2 := by
      rw [happ, Text.byteSize_append]
    have hafter := ih (by omega)
    dsimp only
    rw [happ]
    exact hafter.append_gap hp hm

namespace Tiled

variable {file : String} {offset : Nat} {cs : List Char} {ts : List Token}

theorem le_start (h : Tiled file offset cs ts) : ∀ t ∈ ts, offset ≤ t.span.start := by
  induction h with
  | done hstart _ =>
    intro t ht
    rw [List.mem_singleton.mp ht]
    dsimp only
    omega
  | token hstart _ _ _ _ _ ih =>
    intro t ht
    rcases List.mem_cons.mp ht with rfl | ht
    · dsimp only
      omega
    · have hle := ih t ht
      omega

theorem last (h : Tiled file offset cs ts) :
    ∃ us, ts = us ++ [⟨.endOfInput, "", ⟨offset + byteSize cs, offset + byteSize cs, file⟩⟩] ∧
      ∀ t ∈ us, t.kind ≠ .endOfInput := by
  induction h with
  | done hstart _ => exact ⟨[], by rw [hstart]; rfl, nofun⟩
  | @token offset start gap l rest kind text ts hstart _ _ hk _ _ ih =>
    obtain ⟨us, rfl, hus⟩ := ih
    have hsize : start + byteSize l + byteSize rest = offset + byteSize (gap ++ (l ++ rest)) := by
      rw [Text.byteSize_append, Text.byteSize_append]
      omega
    refine ⟨_ :: us, by rw [hsize]; rfl, ?_⟩
    intro t ht
    rcases List.mem_cons.mp ht with rfl | ht
    · exact hk
    · exact hus t ht

theorem increasing (h : Tiled file offset cs ts) :
    ts.Pairwise fun t u => t.span.start < u.span.start ∧ t.span.stop ≤ u.span.start := by
  induction h with
  | done _ _ => exact List.pairwise_singleton _ _
  | token _ _ hl _ _ h ih =>
    refine List.pairwise_cons.mpr ⟨fun u hu => ?_, ih⟩
    have hle := h.le_start u hu
    have hpos := Text.byteSize_pos hl
    dsimp only
    omega

theorem written (h : Tiled file offset cs ts) {before : List Char}
    (hb : byteSize before = offset) :
    ∀ t ∈ ts, t.kind ≠ .endOfInput → t.span.file = file ∧ t.span.start < t.span.stop ∧
      ∃ l, Text.slice? t.span.start t.span.stop (before ++ cs) = some l ∧ t.WrittenAs l := by
  induction h generalizing before with
  | done _ _ =>
    intro t ht hk
    rw [List.mem_singleton.mp ht] at hk
    exact absurd rfl hk
  | @token offset start gap l rest kind text ts hstart _ hl _ hw _ ih =>
    have hsize : byteSize (before ++ gap) = start := by
      rw [Text.byteSize_append]
      omega
    intro t ht hk
    rcases List.mem_cons.mp ht with rfl | ht
    · have hpos := Text.byteSize_pos hl
      refine ⟨rfl, by dsimp only; omega, l, ?_, hw⟩
      rw [← hsize, ← List.append_assoc]
      exact Text.slice?_of_append _ _ _
    · have hnext : byteSize (before ++ gap ++ l) = start + byteSize l := by
        rw [Text.byteSize_append, hsize]
      have hrest := ih hnext t ht hk
      rwa [List.append_assoc, List.append_assoc] at hrest

theorem gaps (h : Tiled file offset cs ts) {before : List Char} (hb : byteSize before = offset) :
    ∀ p ∈ List.zip (offset :: ts.map (·.span.stop)) (ts.map (·.span.start)),
      ∃ gap rest, Text.slice? p.1 p.2 (before ++ cs) = some gap ∧
        Text.dropBytes? p.2 (before ++ cs) = some rest ∧ Gap gap rest := by
  have hfirst {offset start : Nat} {before gap rest : List Char} (hb : byteSize before = offset)
      (hstart : start = offset + byteSize gap) (hg : Gap gap rest) :
      ∃ gap' rest', Text.slice? offset start (before ++ (gap ++ rest)) = some gap' ∧
        Text.dropBytes? start (before ++ (gap ++ rest)) = some rest' ∧ Gap gap' rest' := by
    refine ⟨gap, rest, ?_, ?_, hg⟩
    · rw [hstart, ← hb]
      exact Text.slice?_of_append _ _ _
    · refine Text.dropBytes?_eq_some_iff.mpr ⟨before ++ gap, by simp, ?_⟩
      rw [Text.byteSize_append]
      omega
  induction h generalizing before with
  | done hstart hg =>
    intro p hp
    rw [List.map_singleton, List.map_singleton, List.zip_cons_cons, List.zip_nil_right,
      List.mem_singleton] at hp
    subst hp
    simpa using hfirst hb hstart hg
  | @token offset start gap l rest kind text ts hstart hg _ _ _ _ ih =>
    intro p hp
    rw [List.map_cons, List.map_cons, List.zip_cons_cons, List.mem_cons] at hp
    rcases hp with rfl | hp
    · exact hfirst hb hstart hg
    · have hnext : byteSize (before ++ gap ++ l) = start + byteSize l := by
        rw [Text.byteSize_append, Text.byteSize_append]
        omega
      have hrest := ih hnext p hp
      rwa [List.append_assoc, List.append_assoc] at hrest

end Tiled

theorem Tiled.tiling {file : String} {cs : List Char} {ts : List Token}
    (h : Tiled file 0 cs ts) : Tiling file cs ts where
  last := by simpa using h.last
  written := h.written Text.byteSize_nil
  increasing := h.increasing
  gaps := h.gaps Text.byteSize_nil

/-- The tokens of a source tile it, as far as offsets reach. -/
theorem tokenize_tiles (file source : String) (h : byteSize source.toList ≤ maxOffset) :
    Tiling file source.toList (tokenize file source) := by
  have htiled := Cursor.tiled_tokens file ⟨0, source.toList⟩ (by simpa using h)
  exact htiled.tiling

/-- Two bytes for one character, an unknown escape beside a known one, and a comment that the end
of the source ends. -/
theorem tokenize_tiles_literal :
    byteSize "é + \"a\\q\\n\"; // z".toList ≤ maxOffset ∧
      Tiling "f" "é + \"a\\q\\n\"; // z".toList (tokenize "f" "é + \"a\\q\\n\"; // z") := by
  have hsize : byteSize "é + \"a\\q\\n\"; // z".toList ≤ maxOffset := by decide
  exact ⟨hsize, tokenize_tiles _ _ hsize⟩

end Scriptlet
