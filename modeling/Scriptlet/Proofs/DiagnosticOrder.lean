import Scriptlet.Proofs.Budget
import Scriptlet.Proofs.Refusals
import Scriptlet.Proofs.Tiling

/-! Diagnostics come in the order of the source and cannot flood it. A parser that misses a token
stands before the one that it finds, and recovery steps onto that one; every other diagnostic is
about the token that the parser stands on, and recovery steps over it. So before the end of the
source a token is reported at most twice, the first time for not being another. -/
namespace Scriptlet

open Text (byteSize)

/-- The first diagnostic may be recorded before the second one: it stands earlier, or both stand at
the end of the source, or the token that is found in place of another is refused itself. -/
def Diagnostic.Precedes (last : Nat) (d e : Diagnostic) : Prop :=
  d.position.offset < e.position.offset ∨
    d.position.offset = e.position.offset ∧
      (d.position.offset = last ∨ d.cause.standsOn = false ∧ e.cause.standsOn = true)

/-- The diagnostic has been recorded before the parser stands on the current token. -/
def Diagnostic.Trails (last : Nat) (d : Diagnostic) (ts : TokenStream) : Prop :=
  d.position.offset < ts.current.span.start ∨
    d.position.offset = ts.current.span.start ∧
      (d.position.offset = last ∨ d.cause.standsOn = false)

/-- A diagnostic is about the token that the parser stands on or about the next one. -/
theorem Refusal.place {d : Diagnostic} {ts : TokenStream} (h : Refusal d ts) :
    d.cause.standsOn = true ∧ d.position.offset = ts.current.span.start ∨
      d.cause.standsOn = false ∧ d.position.offset = ts.peek.span.start := by
  cases h with
  | mismatch _ _ => exact .inr ⟨rfl, rfl⟩
  | unclosed _ hend =>
    have hpeek : ts.peek = ts.current := by simp [TokenStream.peek, TokenStream.current, hend]
    exact .inr ⟨rfl, by rw [hpeek]; rfl⟩
  | unexpected _ => exact .inl ⟨rfl, rfl⟩
  | outOfRange _ _ _ => exact .inl ⟨rfl, rfl⟩
  | nesting => exact .inl ⟨rfl, rfl⟩

/-- Tokens and diagnostics are in the order of the source, which ends at `last`. -/
structure InOrder (last : Nat) (ts : TokenStream) (ds : List Diagnostic) : Prop where
  tokens : ts.toList.Pairwise fun t u => t.span.start < u.span.start
  stop : ts.stop.span.start = last
  trail : ∀ d ∈ ds, d.Trails last ts
  diagnostics : ds.Pairwise fun d e => d.Precedes last e

namespace InOrder

variable {last : Nat} {ts : TokenStream} {ds : List Diagnostic} {d : Diagnostic}

theorem current_le_peek (h : InOrder last ts ds) :
    ts.current.span.start < ts.peek.span.start ∨
      ts.current.span.start = ts.peek.span.start ∧ ts.current.span.start = last := by
  have htokens := h.tokens
  unfold TokenStream.toList at htokens
  unfold TokenStream.current TokenStream.peek
  cases hahead : ts.ahead with
  | nil => exact .inr ⟨rfl, h.stop⟩
  | cons t rest =>
    rw [hahead] at htokens
    have hnext := (List.pairwise_cons.mp htokens).1
    left
    cases rest with
    | nil => exact hnext ts.stop (by simp)
    | cons u rest => exact hnext u (by simp)

theorem trails_advance (h : InOrder last ts ds) (hd : d.Trails last ts) :
    d.Trails last ts.advance := by
  have hle := h.current_le_peek
  unfold Diagnostic.Trails at hd ⊢
  rw [TokenStream.current_advance]
  omega

theorem precedes_of_refusal (h : InOrder last ts ds) (hd : Refusal d ts) {e : Diagnostic}
    (he : e ∈ ds) : e.Precedes last d := by
  have hle := h.current_le_peek
  have htrail := h.trail e he
  unfold Diagnostic.Trails at htrail
  unfold Diagnostic.Precedes
  -- At the current token an earlier diagnostic is one of a missed token; at the next one there is
  -- none yet, unless both are the end of the source.
  rcases hd.place with ⟨hon, hoffset⟩ | ⟨-, hoffset⟩
  · rw [hoffset]
    exact htrail.imp_right fun ⟨heq, hwhy⟩ => ⟨heq, hwhy.imp_right fun hbefore => ⟨hbefore, hon⟩⟩
  · omega

theorem trails_of_refusal (h : InOrder last ts ds) (hd : Refusal d ts) :
    d.Trails last ts.advance := by
  have hle := h.current_le_peek
  unfold Diagnostic.Trails
  rw [TokenStream.current_advance]
  rcases hd.place with ⟨-, hoffset⟩ | ⟨hbefore, hoffset⟩
  · omega
  · exact .inr ⟨hoffset, .inr hbefore⟩

theorem advance (h : InOrder last ts ds) : InOrder last ts.advance ds where
  tokens := by
    apply List.Pairwise.sublist _ h.tokens
    exact (List.tail_sublist _).append_right _
  stop := h.stop
  trail d hd := h.trails_advance (h.trail d hd)
  diagnostics := h.diagnostics

instance : Invariant (InOrder last) where
  advance h := h.advance
  recover {ts ds d} h hd := by
    obtain ⟨htokens, hstop, htrails, hdiagnostics⟩ := h.advance
    constructor
    · exact htokens
    · exact hstop
    · intro e he
      rcases List.mem_append.mp he with he | he
      · exact htrails e he
      · rw [List.mem_singleton.mp he]
        exact h.trails_of_refusal hd
    · apply List.pairwise_append.mpr
      refine ⟨hdiagnostics, List.pairwise_singleton _ _, ?_⟩
      intro e he f hf
      rw [List.mem_singleton.mp hf]
      exact h.precedes_of_refusal hd he

end InOrder

/-- The diagnostics that stand at an offset. -/
def Parsed.errorsAt (p : Parsed) (offset : Nat) : List Diagnostic :=
  p.errors.filter (·.position.offset = offset)

/-- Before the end of the source, what is recorded at one place is at most a missed token and then
a refused one. -/
theorem standsOn_of_pairwise {last offset : Nat} {ds : List Diagnostic}
    (h : ds.Pairwise fun d e => d.Precedes last e) (hne : offset ≠ last) :
    (ds.filter (·.position.offset = offset)).Pairwise fun d e =>
      d.cause.standsOn = false ∧ e.cause.standsOn = true := by
  have hfilter := h.filter (·.position.offset = offset)
  apply hfilter.imp_of_mem
  intro d e hd he hprec
  have hdo : d.position.offset = offset := by simpa using (List.mem_filter.mp hd).2
  have heo : e.position.offset = offset := by simpa using (List.mem_filter.mp he).2
  rcases hprec with hlt | ⟨-, hlast | hstands⟩
  · omega
  · omega
  · exact hstands

theorem length_le_two_of_pairwise {ds : List Diagnostic}
    (h : ds.Pairwise fun d e => d.cause.standsOn = false ∧ e.cause.standsOn = true) :
    ds.length ≤ 2 := by
  rcases ds with _ | ⟨d, _ | ⟨e, _ | ⟨f, ds⟩⟩⟩
  · simp
  · simp
  · simp
  · obtain ⟨hd, htail⟩ := List.pairwise_cons.mp h
    have hon := (hd e (by simp)).2
    have hbefore := ((List.pairwise_cons.mp htail).1 f (by simp)).1
    rw [hon] at hbefore
    cases hbefore

theorem Cause.exists_of_standsOn {cause : Cause} (h : cause.standsOn = false) :
    ∃ expected found text, cause = .tokenMismatch expected found text := by
  cases cause with
  | tokenMismatch expected found text => exact ⟨expected, found, text, rfl⟩
  | _ => cases h

theorem precedes_parse (file source : String) (h : byteSize source.toList ≤ maxOffset) :
    (parse file source).errors.Pairwise fun d e =>
      d.Precedes (byteSize source.toList) e := by
  have htiled : Tiling file source.toList (TokenStream.ofSource file source).toList :=
    (Cursor.tiled_tokens file ⟨0, source.toList⟩ (by simpa using h)).tiling
  obtain ⟨us, hus, -⟩ := htiled.last
  have hstop := (List.append_inj' hus rfl).2
  obtain ⟨ts, hts⟩ := Invariant.parse (I := InOrder (byteSize source.toList)) file source
    { tokens := htiled.increasing.imp fun h => h.1
      stop := by rw [List.singleton_inj.mp hstop]
      trail := by simp
      diagnostics := .nil }
  exact hts.diagnostics

/-- Diagnostics come in the order of the source. Before its end at most two of them stand at one
place, and of two the first says that another token was expected. Together with the statements that
are read, those in blocks included, they are no more than the tokens of the source. -/
theorem diagnostics_in_order (file source : String) (h : byteSize source.toList ≤ maxOffset) :
    ((parse file source).errors.Pairwise fun d e => d.position.offset ≤ e.position.offset) ∧
    (∀ offset, offset ≠ byteSize source.toList →
      ((parse file source).errorsAt offset).length ≤ 2 ∧
      ∀ d e, (parse file source).errorsAt offset = [d, e] →
        ∃ expected found text, d.cause = .tokenMismatch expected found text) ∧
    (parse file source).errors.length + (parse file source).program.stmtCount ≤
      (tokenize file source).countP (·.kind ≠ .endOfInput) := by
  have horder := precedes_parse file source h
  refine ⟨?_, ?_, errors_add_stmtCount_le file source⟩
  · apply horder.imp
    intro d e hprec
    unfold Diagnostic.Precedes at hprec
    omega
  · intro offset hne
    have hpairs := standsOn_of_pairwise horder hne
    unfold Parsed.errorsAt
    constructor
    · exact length_le_two_of_pairwise hpairs
    · intro d e hde
      rw [hde] at hpairs
      exact Cause.exists_of_standsOn (List.pairwise_pair.mp hpairs).1

/-- A sign in place of a name is reported as such and then for itself, also within a block. -/
theorem diagnostics_in_order_repeated :
    byteSize "let = 3; fn(x) \x7b let == y; x \x7d".toList ≤ maxOffset ∧
    ((parse "f" "let = 3; fn(x) \x7b let == y; x \x7d").errors.Pairwise
      fun d e => d.position.offset ≤ e.position.offset) ∧
    (∃ d e, (parse "f" "let = 3; fn(x) \x7b let == y; x \x7d").errorsAt 21 = [d, e] ∧
      ∃ expected found text, d.cause = .tokenMismatch expected found text) ∧
    (parse "f" "let = 3; fn(x) \x7b let == y; x \x7d").errors.length +
        (parse "f" "let = 3; fn(x) \x7b let == y; x \x7d").program.stmtCount ≤
      (tokenize "f" "let = 3; fn(x) \x7b let == y; x \x7d").countP (·.kind ≠ .endOfInput) := by
  have hsize : byteSize "let = 3; fn(x) \x7b let == y; x \x7d".toList ≤ maxOffset := by decide
  obtain ⟨horder, hplace, hcount⟩ := diagnostics_in_order "f" _ hsize
  have hne : 21 ≠ byteSize "let = 3; fn(x) \x7b let == y; x \x7d".toList := by decide
  have hat : (parse "f" "let = 3; fn(x) \x7b let == y; x \x7d").errorsAt 21 =
      [⟨.tokenMismatch .name .equal "==", ⟨21, "f"⟩⟩,
        ⟨.unexpectedToken .equal "==", ⟨21, "f"⟩⟩] := by
    decide +kernel
  exact ⟨hsize, horder, ⟨_, _, hat, (hplace 21 hne).2 _ _ hat⟩, hcount⟩

end Scriptlet
