import Scriptlet.Proofs.Pieces

/-! Where a text may be cut without a change to its tokens. The tokens before a seam depend on what
follows it only through the next character, and a newline there ends every piece. Only a quote that
opens no literal looks further. -/
namespace Scriptlet

open Text (byteSize)

/-- A quote that opens no literal. -/
def Token.IsLoneQuote (t : Token) : Prop :=
  t.kind = .illegal ∧ t.text = "\""

instance (t : Token) : Decidable t.IsLoneQuote :=
  inferInstanceAs (Decidable (_ ∧ _))

namespace TokenStream

def prepend (ts : List Token) (s : TokenStream) : TokenStream :=
  ts.foldr push s

@[simp] theorem ahead_prepend (ts : List Token) (s : TokenStream) :
    (s.prepend ts).ahead = ts ++ s.ahead := by
  induction ts with
  | nil => rfl
  | cons t ts ih => exact congrArg (t :: ·) ih

@[simp] theorem stop_prepend (ts : List Token) (s : TokenStream) :
    (s.prepend ts).stop = s.stop := by
  induction ts with
  | nil => rfl
  | cons t ts ih => exact ih

theorem prepend_append (ts us : List Token) (s : TokenStream) :
    s.prepend (ts ++ us) = (s.prepend us).prepend ts :=
  List.foldr_append

end TokenStream

namespace Cursor

variable {file : String} {offset : Nat}

theorem tokens_of_reads {p : Piece} {rest : List Char} (hne : p.lexeme ≠ [])
    (hp : p.Reads rest) :
    tokens file ⟨offset, p.lexeme ++ rest⟩ =
      (tokens file ⟨offset + byteSize p.lexeme, rest⟩).prepend (p.token? file offset).toList := by
  cases hcs : p.lexeme ++ rest with
  | nil => exact absurd (List.append_eq_nil_iff.mp hcs).1 hne
  | cons c cs =>
    rw [tokens, hp.cut_eq hcs.symm]
    cases p.token? file offset <;> rfl

theorem tokens_blank {c : Char} (hc : Text.isBlank c = true) (cs : List Char) :
    tokens file ⟨offset, c :: cs⟩ = tokens file ⟨offset + c.utf8Size, cs⟩ := by
  have hrun {c : Char} {offset : Nat} (hc : Text.isBlank c = true) (cs : List Char) :
      tokens file ⟨offset, c :: cs⟩ =
        tokens file ⟨offset + byteSize (c :: cs.takeWhile Text.isBlank),
          cs.dropWhile Text.isBlank⟩ := by
    have hp : Piece.Reads ⟨c :: cs.takeWhile Text.isBlank, none⟩ (cs.dropWhile Text.isBlank) := by
      refine .blanks (by simp) (by simp [hc]) fun d hd => ?_
      have hfirst := List.head?_dropWhile_not Text.isBlank cs
      rw [Option.mem_def.mp hd] at hfirst
      simpa using hfirst
    have htokens : tokens file ⟨offset, _⟩ = _ := tokens_of_reads (by simp) hp
    simpa [Piece.token?, TokenStream.prepend, List.takeWhile_append_dropWhile] using htokens
  rw [hrun hc cs]
  cases cs with
  | nil => simp
  | cons d cs =>
    by_cases hd : Text.isBlank d = true
    · rw [hrun hd cs]
      simp [hd, Nat.add_assoc]
    · simp [hd]

theorem tokens_blanks {l : List Char} (hl : l.all Text.isBlank = true) (cs : List Char) :
    tokens file ⟨offset, l ++ cs⟩ = tokens file ⟨offset + byteSize l, cs⟩ := by
  induction l generalizing offset with
  | nil => rfl
  | cons c l ih =>
    rw [List.all_cons, Bool.and_eq_true] at hl
    rw [List.cons_append, tokens_blank hl.1, ih hl.2, Text.byteSize_cons, Nat.add_assoc]

end Cursor

/-- What follows a seam in two texts: the same character, or a newline in the second one. -/
def Seam (rest rest' : List Char) : Prop :=
  rest'.head? = rest.head? ∨ rest'.head? = some '\n'

theorem Seam.append {rest rest' : List Char} (h : Seam rest rest') (cs : List Char) :
    Seam (cs ++ rest) (cs ++ rest') := by
  cases cs with
  | nil => exact h
  | cons c cs => exact .inl rfl

/-- A condition on the next character that a newline meets holds on both sides of a seam. -/
theorem Seam.forall_head {rest rest' : List Char} (h : Seam rest rest') {P : Char → Prop}
    (hn : P '\n') (hrest : ∀ c ∈ rest.head?, P c) : ∀ c ∈ rest'.head?, P c := by
  intro c hc
  rcases h with h | h
  · rw [h] at hc
    exact hrest c hc
  · rw [h] at hc
    cases hc
    exact hn

theorem Kind.EndsAt.seam {kind : Kind} {rest rest' : List Char} (hrest : kind.EndsAt rest)
    (h : Seam rest rest') : kind.EndsAt rest' := by
  have hne {c : Char} (hc : c ≠ '\n') (hrest : rest.head? ≠ some c) : rest'.head? ≠ some c := by
    rcases h with h | h
    · rwa [h]
    · rw [h]
      intro he
      exact hc (Option.some.inj he).symm
  cases kind
  case bang | assign | slash => exact hne (by decide) hrest
  case letWord | fnWord | returnWord | ifWord | elseWord | trueWord | falseWord =>
    exact h.forall_head (P := fun c => Rule.isWordPart c = false) rfl hrest
  all_goals trivial

/-- A piece is read before a seam as it was, unless it is a run of blanks, which the newline
would lengthen. -/
theorem Piece.Reads.seam {p : Piece} {rest rest' : List Char} (hp : p.Reads rest)
    (hquote : p.meaning? ≠ some (.illegal, "\"")) (h : Seam rest rest') :
    p.Reads rest' ∨ p.lexeme.all Text.isBlank = true ∧ p.meaning? = none := by
  cases hp with
  | word hs hp hrest =>
    exact .inl (.word hs hp (h.forall_head (P := fun c => Rule.isWordPart c = false) rfl hrest))
  | number hne hd hrest =>
    exact .inl (.number hne hd (h.forall_head (P := fun c => c.isDigit = false) rfl hrest))
  | blanks hne hb hrest => exact .inr ⟨hb, rfl⟩
  | literal hd => exact .inl (.literal hd)
  | comment hb hrest => exact .inl (.comment hb (h.forall_head rfl hrest))
  | mark hspell hfree hrest => exact .inl (.mark hspell hfree (hrest.seam h))
  | illegal hw hd hb hm hq =>
    refine .inl (.illegal hw hd hb hm ?_)
    rintro rfl
    exact absurd rfl hquote

/-- `Scans file offset cs ts rest`: at the offset the text `cs` is read piece by piece, with `rest`
behind it, and its pieces stand for the tokens. -/
inductive Scans (file : String) : Nat → List Char → List Token → List Char → Prop
  | done {offset : Nat} {rest : List Char} : Scans file offset [] [] rest
  | piece {offset : Nat} {p : Piece} {cs rest : List Char} {ts : List Token}
      (hne : p.lexeme ≠ []) (hp : p.Reads (cs ++ rest))
      (h : Scans file (offset + byteSize p.lexeme) cs ts rest) :
      Scans file offset (p.lexeme ++ cs) ((p.token? file offset).toList ++ ts) rest

/-- What was read before a seam is read before it whatever comes behind. -/
theorem Scans.tokens_eq {file : String} {offset : Nat} {cs rest rest' : List Char}
    {ts : List Token} (h : Scans file offset cs ts rest) (hquote : ∀ t ∈ ts, ¬ t.IsLoneQuote)
    (hseam : Seam rest rest') :
    Cursor.tokens file ⟨offset, cs ++ rest'⟩ =
      (Cursor.tokens file ⟨offset + byteSize cs, rest'⟩).prepend ts := by
  induction h with
  | done => rfl
  | @piece offset p cs rest ts hne hp _ ih =>
    rw [List.forall_mem_append] at hquote
    have hrest := ih hquote.2 hseam
    have hlegal : p.meaning? ≠ some (.illegal, "\"") := by
      intro hm
      have hmem : (⟨.illegal, "\"", .ofSize file offset (byteSize p.lexeme)⟩ : Token) ∈
          (p.token? file offset).toList := by
        rw [Piece.token?, hm]
        exact List.mem_singleton_self _
      exact hquote.1 _ hmem ⟨rfl, rfl⟩
    rw [TokenStream.prepend_append, Text.byteSize_append, ← Nat.add_assoc, List.append_assoc,
      ← hrest]
    rcases hp.seam hlegal (hseam.append cs) with hp' | ⟨hb, hm⟩
    · exact Cursor.tokens_of_reads hne hp'
    · rw [Cursor.tokens_blanks hb, Piece.token?, hm]
      rfl

/-- A newline behind the seam, and more text behind it. -/
theorem Scans.tokens_newline {file : String} {offset : Nat} {cs rest : List Char}
    {ts : List Token} (h : Scans file offset cs ts rest) (hquote : ∀ t ∈ ts, ¬ t.IsLoneQuote)
    (more : List Char) :
    Cursor.tokens file ⟨offset, cs ++ '\n' :: more⟩ =
      (Cursor.tokens file ⟨offset + byteSize cs + 1, more⟩).prepend ts := by
  rw [h.tokens_eq hquote (.inr rfl), Cursor.tokens_blank rfl]
  rfl

theorem Scans.ofSource_newline {file : String} {cs rest : List Char} {ts : List Token}
    (h : Scans file 0 cs ts rest) (hquote : ∀ t ∈ ts, ¬ t.IsLoneQuote) (more : String) :
    TokenStream.ofSource file (String.ofList cs ++ "\n" ++ more) =
      (Cursor.tokens file ⟨byteSize cs + 1, more.toList⟩).prepend ts := by
  have htokens := h.tokens_newline hquote more.toList
  rw [Nat.zero_add] at htokens
  rw [← htokens]
  simp [TokenStream.ofSource]

/-- The text before a token of a source is read to the tokens before that token. -/
theorem Cursor.scans_tokens (file : String) (c : Cursor) :
    ∀ i t, (c.tokens file).toList[i]? = some t →
    ∃ cs rest, c.rest = cs ++ rest ∧ Scans file c.offset cs ((c.tokens file).ahead.take i) rest ∧
      t.span.start = clampOffset (c.offset + byteSize cs) ∧
      (i = (c.tokens file).ahead.length → rest = []) := by
  fun_induction Cursor.tokens file c with
  | case1 offset =>
    intro i t h
    cases i with
    | succ i => cases h
    | zero =>
      cases h
      exact ⟨[], [], rfl, .done, rfl, fun _ => rfl⟩
  | case2 offset c cs cut after token htoken ih =>
    intro i t h
    cases i with
    | zero =>
      cases h
      obtain ⟨⟨kind, text⟩, hm, rfl⟩ := Option.map_eq_some_iff.1 htoken
      exact ⟨[], c :: cs, rfl, .done, rfl, fun hend => by cases hend⟩
    | succ i =>
      obtain ⟨cs', rest, hrest, hscans, hstart, hlast⟩ := ih i t h
      dsimp only at hrest hscans hstart
      obtain ⟨happ, hne⟩ := Piece.cut_append c cs
      have hp := Piece.reads_cut c cs
      refine ⟨cut.1.lexeme ++ cs', rest, ?_, ?_, ?_, fun hi => hlast (Nat.succ.inj hi)⟩
      · rw [List.append_assoc, ← hrest]
        exact happ
      · have hpiece := Scans.piece hne (hrest ▸ hp) hscans
        rwa [htoken] at hpiece
      · rw [hstart, Text.byteSize_append, Nat.add_assoc]
  | case3 offset c cs cut after hgap ih =>
    intro i t h
    obtain ⟨cs', rest, hrest, hscans, hstart, hlast⟩ := ih i t h
    dsimp only at hrest hscans hstart
    obtain ⟨happ, hne⟩ := Piece.cut_append c cs
    have hp := Piece.reads_cut c cs
    refine ⟨cut.1.lexeme ++ cs', rest, ?_, ?_, ?_, hlast⟩
    · rw [List.append_assoc, ← hrest]
      exact happ
    · have hpiece := Scans.piece hne (hrest ▸ hp) hscans
      rwa [hgap] at hpiece
    · rw [hstart, Text.byteSize_append, Nat.add_assoc]

def Token.moved (k : Nat) (t : Token) : Token :=
  { t with span := ⟨clampOffset (t.span.start + k), clampOffset (t.span.stop + k), t.span.file⟩ }

theorem clampOffset_add (n k : Nat) : clampOffset (clampOffset n + k) = clampOffset (n + k) := by
  unfold clampOffset
  omega

theorem Span.ofSize_moved (file : String) (offset size k : Nat) :
    Span.ofSize file (offset + k) size =
      ⟨clampOffset ((Span.ofSize file offset size).start + k),
        clampOffset ((Span.ofSize file offset size).stop + k), file⟩ := by
  simp only [Span.ofSize, clampOffset_add, Nat.add_right_comm]

/-- A text that stands `k` bytes later has the same tokens, `k` bytes later. -/
theorem Cursor.tokens_moved (file : String) (k : Nat) (c : Cursor) :
    (tokens file ⟨c.offset + k, c.rest⟩).ahead = (tokens file c).ahead.map (Token.moved k) ∧
      (tokens file ⟨c.offset + k, c.rest⟩).stop = (tokens file c).stop.moved k := by
  fun_induction Cursor.tokens file c with
  | case1 offset =>
    rw [tokens]
    refine ⟨rfl, ?_⟩
    simp only [TokenStream.ended, Token.atEnd, Token.moved, Span.ofSize_moved file offset 0 k]
    rfl
  | case2 offset c cs cut after token htoken ih =>
    obtain ⟨⟨kind, text⟩, hm, rfl⟩ := Option.map_eq_some_iff.1 htoken
    dsimp only at ih ⊢
    rw [Nat.add_right_comm] at ih
    have htoken' : cut.1.token? file (offset + k) =
        some (Token.moved k ⟨kind, text, .ofSize file offset (byteSize cut.1.lexeme)⟩) := by
      rw [Piece.token?, hm, Option.map_some, Span.ofSize_moved]
      rfl
    rw [tokens]
    simp only [cut] at ih htoken' ⊢
    rw [htoken']
    exact ⟨congrArg (_ :: ·) ih.1, ih.2⟩
  | case3 offset c cs cut after hgap ih =>
    dsimp only at ih ⊢
    rw [Nat.add_right_comm] at ih
    have hgap' : cut.1.token? file (offset + k) = none := by
      rw [Piece.token?, Option.map_eq_none_iff.1 hgap]
      rfl
    rw [tokens]
    simp only [cut] at ih hgap' ⊢
    rw [hgap']
    exact ih

end Scriptlet
