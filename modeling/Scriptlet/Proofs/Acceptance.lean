import Scriptlet.Proofs.Deriving

/-! What parsing a source comes to. A source parses without a diagnostic if and only if the grammar
derives a program from its tokens and the nesting of the derivation stays within the limit. -/
namespace Scriptlet

open Reader Layer

/-- The source is read to its end, and nothing is left that would end it twice. -/
theorem State.ofSource_sealed (file source : String) : (State.ofSource file source).Sealed := by
  obtain ⟨hstop, hahead⟩ := Cursor.tokens_wellSpelled file ⟨0, source.toList⟩
  exact ⟨hstop, hahead⟩

theorem dropLast_tokenize (file source : String) :
    (tokenize file source).dropLast = (State.ofSource file source).ahead :=
  List.dropLast_concat

abbrev Reader.wholeStmts : Reader Empty (List Stmt) :=
  (ofRoom maxNesting).stmts fun s => s.current.kind ≠ .endOfInput

theorem parse_eq {file source : String} {ss : List Stmt} {t : State}
    (h : wholeStmts (.ofSource file source) = .ok ss t) :
    parse file source = ⟨⟨ss⟩, t.errors.toList, t.trace.toList⟩ := by
  have hp : (Reader.program : Reader Empty Program) (.ofSource file source) = .ok ⟨ss⟩ t :=
    bind_of_ok h
  rw [parse, Reader.run, hp]

theorem exists_wholeStmts (s : State) : ∃ ss t, wholeStmts s = .ok ss t := by
  cases h : wholeStmts s with
  | ok ss t => exact ⟨ss, t, rfl⟩
  | error e t => exact e.elim

/-- Statements that the grammar derives from all tokens ahead are read to the end, if there is room
for their levels. -/
theorem Derives.settles {k : Nat} {ts : List Token} {ss : List Stmt} (h : Derives .stmts k ts ss)
    (n : Nat) {s : State} (hs : s.ahead = ts) (hstop : s.input.stop.kind = .endOfInput) :
    Settles (k ≤ n) ((ofRoom n).stmts (fun s => s.current.kind ≠ .endOfInput) : Reader Empty _)
      s [] ss := by
  refine Phrase.Read.settles_stmts (h.read _ n (fun kind => kind ≠ .endOfInput) _ [] ?_ ?_ ?_ ?_ ?_)
  · intro kind
    unfold Kind.StartsStmt
    cases kind <;> decide
  · simp [hstop]
  · rw [List.headD_nil, hstop]
    decide
  · rw [List.headD_nil, hstop]
    decide
  · rw [hs, List.append_nil]

theorem settles_wholeStmts {file source : String} {k : Nat} {ss : List Stmt}
    (h : Derives .stmts k (tokenize file source).dropLast ss) :
    Settles (k ≤ maxNesting) wholeStmts (.ofSource file source) [] ss :=
  h.settles maxNesting (dropLast_tokenize file source).symm (State.ofSource_sealed file source).stop

theorem parse_of_derives {file source : String} {k : Nat} {ss : List Stmt}
    (h : Derives .stmts k (tokenize file source).dropLast ss) (hk : k ≤ maxNesting) :
    (parse file source).errors = [] ∧ (parse file source).program = ⟨ss⟩ := by
  obtain ⟨t, ht, -, -, herr⟩ := (settles_wholeStmts h).reads hk
  rw [parse_eq ht, herr]
  exact ⟨rfl, rfl⟩

theorem nestingTooDeep_of_derives {file source : String} {k : Nat} {ss : List Stmt}
    (h : Derives .stmts k (tokenize file source).dropLast ss) (hk : maxNesting < k) :
    ∃ d ds, (parse file source).errors = d :: ds ∧ d.cause = .nestingTooDeep maxNesting := by
  obtain ⟨ss', t, ht⟩ := exists_wholeStmts (.ofSource file source)
  obtain ⟨d, hd, hfirst⟩ := (settles_wholeStmts h).overruns (Nat.not_le_of_lt hk)
  rw [ht] at hfirst
  obtain ⟨ds, hds⟩ := hfirst
  refine ⟨d, ds, ?_, hd⟩
  rw [parse_eq ht]
  exact hds.symm

theorem derives_of_parse {file source : String} (h : (parse file source).errors = []) :
    ∃ k, k ≤ maxNesting ∧
      Derives .stmts k (tokenize file source).dropLast (parse file source).program.statements := by
  obtain ⟨ss, t, ht⟩ := exists_wholeStmts (.ofSource file source)
  rw [parse_eq ht] at h ⊢
  have hs := State.ofSource_sealed file source
  have hclean : Clean wholeStmts (.ofSource file source) ss t := ⟨ht, Array.toList_inj.mp h⟩
  obtain ⟨k, ts, hk, hd, hahead, hgo⟩ := (Layer.sound maxNesting).stmts hs hclean
  have ht : t.Sealed := hs.clean hclean
  have hend : t.ahead = [] := ht.ahead_eq_nil (by simpa using hgo)
  rw [hend, List.append_nil] at hahead
  rw [dropLast_tokenize, hahead]
  exact ⟨k, hk, hd⟩

/-- The parser accepts exactly what the grammar derives within the limit of nesting, and returns
the tree of the derivation. A derivation that goes beyond the limit is refused for that. -/
theorem parse_accepts_iff (file source : String) :
    (∀ p : Program, (parse file source).errors = [] ∧ (parse file source).program = p ↔
      ∃ k, k ≤ maxNesting ∧ Derives .stmts k (tokenize file source).dropLast p.statements) ∧
    ∀ k ss, maxNesting < k → Derives .stmts k (tokenize file source).dropLast ss →
      ∃ d ds, (parse file source).errors = d :: ds ∧ d.cause = .nestingTooDeep maxNesting := by
  refine ⟨fun p => ⟨?_, ?_⟩, fun k ss hk h => nestingTooDeep_of_derives h hk⟩
  · rintro ⟨herr, rfl⟩
    exact derives_of_parse herr
  · rintro ⟨k, hk, h⟩
    exact parse_of_derives h hk

end Scriptlet
