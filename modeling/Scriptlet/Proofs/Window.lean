import Scriptlet.Lexing.Scanner
import Scriptlet.Proofs.Lockstep
import Scriptlet.Proofs.Tiling

/-! A parser is a window on the tokens of its source. Whatever is done with it, in any order and at
any token, the current token and the next one are neighbours among the tokens that a scanner yields
one by one; the window never moves back, and diagnostics are only added. -/
namespace Scriptlet

open Reader
open Text (byteSize)

namespace TokenStream

theorem nth_zero (ts : TokenStream) : ts.nth 0 = ts.current := by
  cases h : ts.ahead <;> simp [nth, current, h]

theorem nth_succ (ts : TokenStream) (i : Nat) : ts.nth (i + 1) = ts.advance.nth i := by
  cases h : ts.ahead <;> simp [nth, advance, h]

theorem getElem?_toList_min (ts : TokenStream) (i : Nat) :
    ts.toList[min i (ts.toList.length - 1)]? = some (ts.nth i) := by
  have hlength : ts.toList.length - 1 = ts.remaining := by simp [toList, ts.remaining_eq]
  rw [hlength, getElem?_toList (Nat.min_le_right _ _)]
  rcases Nat.le_total i ts.remaining with hle | hle
  · rw [Nat.min_eq_left hle]
  · rw [Nat.min_eq_right hle, nth_of_le hle, nth_of_le (Nat.le_refl _)]

end TokenStream

namespace Cursor

theorem next_append (file : String) (c : Cursor) :
    ∃ read, c.rest = read ++ (c.next file).2.rest ∧
      (c.next file).2.offset = c.offset + byteSize read := by
  fun_induction next file c with
  | case1 offset => exact ⟨[], rfl, rfl⟩
  | case2 offset c cs cut after token h =>
    exact ⟨cut.1.lexeme, (Piece.cut_append c cs).1, rfl⟩
  | case3 offset c cs cut after h ih =>
    obtain ⟨read, hread, hoffset⟩ := ih
    refine ⟨cut.1.lexeme ++ read, ?_, ?_⟩
    · rw [List.append_assoc, ← hread]
      exact (Piece.cut_append c cs).1
    · rw [hoffset, Text.byteSize_append, ← Nat.add_assoc]

/-- At the end of the source the next token is the one that ends it, again and again. -/
theorem tokens_next_of_end (file : String) (c : Cursor)
    (h : (c.next file).1.kind = .endOfInput) :
    (c.next file).2.tokens file = .ended (c.next file).1 := by
  fun_induction next file c with
  | case1 offset => rw [tokens]
  | case2 offset c cs cut after token htoken =>
    obtain ⟨⟨kind, text⟩, hm, rfl⟩ := Option.map_eq_some_iff.mp htoken
    exact absurd h (Piece.kind_cut_ne_endOfInput hm)
  | case3 offset c cs cut after hgap ih => exact ih h

theorem current_tokens (file : String) (c : Cursor) :
    (c.tokens file).current = (c.next file).1 := by
  rcases c.tokens_eq_next file with ⟨-, heq⟩ | ⟨-, heq⟩
  · rw [heq]
    rfl
  · rw [heq, TokenStream.current_push]

theorem advance_tokens (file : String) (c : Cursor) :
    (c.tokens file).advance = (c.next file).2.tokens file := by
  rcases c.tokens_eq_next file with ⟨hend, heq⟩ | ⟨-, heq⟩
  · rw [heq, c.tokens_next_of_end file hend]
    rfl
  · rw [heq, TokenStream.advance_push]

end Cursor

namespace Scanner

/-- The token that the scanner yields behind `k` others. -/
def pull? : Nat → Scanner → Option Token
  | 0, s => s.next?.map Prod.fst
  | k + 1, s => s.next?.bind fun (_, after) => after.pull? k

/-- The scanner stands at the cursor. -/
structure At (s : Scanner) (c : Cursor) : Prop where
  position : s.position = c.offset
  rest : s.rest? = some c.rest

variable {s : Scanner} {c : Cursor}

theorem At.next? (h : s.At c) :
    s.next? = some ((c.next s.file).1, { s with position := (c.next s.file).2.offset }) := by
  obtain ⟨offset, rest⟩ := c
  obtain ⟨before, hsource, hsize⟩ := Text.dropBytes?_eq_some_iff.mp h.rest
  have hposition : s.position = offset := h.position
  unfold Scanner.next?
  split
  next hend =>
    have hle : byteSize s.source.toList ≤ s.position := of_decide_eq_true hend
    rw [hsource, Text.byteSize_append, hsize] at hle
    cases rest with
    | cons c cs =>
      have hpos := Text.byteSize_pos (List.cons_ne_nil c cs)
      dsimp only at hle
      omega
    | nil =>
      subst hposition
      simp [Cursor.next]
  next =>
    rw [h.rest, hposition]
    rfl

theorem At.after (h : s.At c) :
    At { s with position := (c.next s.file).2.offset } (c.next s.file).2 := by
  obtain ⟨before, hsource, hsize⟩ := Text.dropBytes?_eq_some_iff.mp h.rest
  obtain ⟨read, hread, hoffset⟩ := c.next_append s.file
  apply At.mk rfl
  apply Text.dropBytes?_eq_some_iff.mpr
  refine ⟨before ++ read, ?_, ?_⟩
  · rw [List.append_assoc, ← hread]
    exact hsource
  · rw [Text.byteSize_append, hsize, h.position, ← hoffset]

/-- Pulled one by one, the tokens are those of the stream. -/
theorem At.pull? (h : s.At c) (k : Nat) : s.pull? k = some ((c.tokens s.file).nth k) := by
  induction k generalizing s c with
  | zero =>
    rw [Scanner.pull?, h.next?, TokenStream.nth_zero, Cursor.current_tokens]
    rfl
  | succ k ih =>
    rw [Scanner.pull?, h.next?, TokenStream.nth_succ, Cursor.advance_tokens]
    exact ih h.after

theorem at_ofSource (file source : String) :
    (ofSource file source).At ⟨0, source.toList⟩ := by
  apply At.mk rfl
  exact Text.dropBytes?_eq_some_iff.mpr ⟨[], rfl, rfl⟩

theorem pull?_ofSource (file source : String) (k : Nat) :
    (ofSource file source).pull? k = some ((TokenStream.ofSource file source).nth k) :=
  (at_ofSource file source).pull? k

end Scanner

/-- What can be done with a parser from outside. The forms of statement and expression are read at
the current token, whatever it is. -/
inductive Operation
  | advance
  | skipSemicolon
  | expect (kind : Kind)
  | stmt
  | expressionStmt
  | block
  | expr (floor : Power)
  | heading (form : Heading)
  | opening (form : Opening)
  | joining (form : Joining) (left : Expr) (power : Power)
  | program

namespace Operation

/-- The state behind the operation, whether it succeeds or fails. -/
def run : Operation → State → State
  | advance, s => s.advance
  | skipSemicolon, s => s.skipSemicolon
  | expect kind, s => final (Parser.expect kind s)
  | stmt, s => final (Parser.stmt s)
  | expressionStmt, s => final (Parser.expressionStmt s)
  | block, s => final (Parser.block s)
  | expr floor, s => final (Parser.expr floor s)
  | heading form, s => final (Parser.heading form s)
  | opening form, s => final (Parser.opening form s)
  | joining form left power, s => final (Parser.joining form left power s)
  | program, s => final ((Reader.program : Reader Empty Program) s)

/-- The states before, between and behind operations that follow each other. -/
def states : List Operation → State → List State
  | [], s => [s]
  | op :: ops, s => s :: states ops (op.run s)

end Operation

section Frames

variable {R : State → State → Prop}

instance [Stepwise R] {below : Layer} [below.Keeps R] : Keeps R below.expression := by
  unfold Layer.expression
  infer_instance

namespace Operation

/-- An operation keeps what the layer that fits the depth of the state keeps. -/
theorem keeps_of_layer [Stepwise R] (op : Operation) (s : State)
    [(Layer.ofRoom (maxNesting - s.depth)).Keeps R] : R s (op.run s) := by
  let layer := Layer.ofRoom (maxNesting - s.depth)
  cases op with
  | advance => exact Stepwise.advance s
  | skipSemicolon => exact Keeps.skipSemicolon_state s
  | expect kind => exact Keeps.final s
  | stmt => exact Keeps.final (p := layer.stmt) s
  | expressionStmt => exact Keeps.final (p := layer.expression) s
  | block => exact Keeps.final (p := layer.block) s
  | expr floor => exact Keeps.final (p := layer.expr floor) s
  | heading form => exact Keeps.final (p := layer.heading form) s
  | opening form => exact Keeps.final (p := layer.opening form) s
  | joining form left power => exact Keeps.final (p := layer.joining form left power) s
  | program =>
    exact Keeps.final (p := do
      let statements ← layer.stmts fun s => s.current.kind ≠ .endOfInput
      return (⟨statements⟩ : Program)) s

variable [Frame R]

theorem keeps (op : Operation) (s : State) : R s (op.run s) :=
  op.keeps_of_layer s

theorem keeps_states (ops : List Operation) (s : State) : ∀ t ∈ states ops s, R s t := by
  induction ops generalizing s with
  | nil =>
    intro t ht
    rw [List.mem_singleton.mp ht]
    exact Frame.refl s
  | cons op ops ih =>
    intro t ht
    rcases List.mem_cons.mp ht with rfl | ht
    · exact Frame.refl t
    · exact Frame.trans (op.keeps s) (ih (op.run s) t ht)

theorem pairwise_states (ops : List Operation) (s : State) : (states ops s).Pairwise R := by
  induction ops generalizing s with
  | nil => exact List.pairwise_singleton _ _
  | cons op ops ih =>
    apply List.pairwise_cons.mpr
    constructor
    · intro t ht
      exact Frame.trans (op.keeps s) (keeps_states ops (op.run s) t ht)
    · exact ih (op.run s)

end Operation

end Frames

/-- The current token and the next one are those at the indices `k` and `k + 1`, or the token that
ends the source where there is none: of all tokens of the source, and of those that a fresh scanner
yields one by one. -/
structure Window (file source : String) (k : Nat) (s : State) : Prop where
  current : (tokenize file source)[min k ((tokenize file source).length - 1)]? = some s.current
  peek : (tokenize file source)[min (k + 1) ((tokenize file source).length - 1)]? = some s.peek
  pulled : (Scanner.ofSource file source).pull? k = some s.current
  pulledNext : (Scanner.ofSource file source).pull? (k + 1) = some s.peek

/-- How many tokens have been read of those that were ahead in another state. -/
def State.readSince (s t : State) : Nat :=
  s.remaining - t.remaining

theorem State.Passes.nth {s t : State} (h : s.Passes t) (hstop : s.input.stop = t.input.stop) :
    t.current = s.input.nth (s.readSince t) ∧ t.peek = s.input.nth (s.readSince t + 1) := by
  have hahead : t.ahead = s.input.ahead.drop (s.readSince t) := by
    rw [State.readSince, s.remaining_eq, t.remaining_eq]
    exact List.suffix_iff_eq_drop.mp h
  constructor
  · rw [← TokenStream.headD_drop, hstop, ← hahead]
    rfl
  · rw [← TokenStream.headD_drop, hstop, ← List.tail_drop, ← hahead]
    rfl

theorem window_of_passes {file source : String} {s : State}
    (h : (State.ofSource file source).Passes s)
    (hstop : (State.ofSource file source).input.stop = s.input.stop) :
    Window file source ((State.ofSource file source).readSince s) s := by
  obtain ⟨hcurrent, hpeek⟩ := h.nth hstop
  rw [State.ofSource, State.ofStream] at hcurrent hpeek
  constructor
  · rw [hcurrent]
    exact TokenStream.getElem?_toList_min _ _
  · rw [hpeek]
    exact TokenStream.getElem?_toList_min _ _
  · rw [hcurrent]
    exact Scanner.pull?_ofSource file source _
  · rw [hpeek]
    exact Scanner.pull?_ofSource file source _

theorem program_of_collect {ε : Type} {s t : State} {read : List (Option Stmt)}
    (h : (collect (fun s => s.current.kind ≠ .endOfInput)
      (Layer.ofRoom (maxNesting - s.depth)).stmtOrSkip : Reader ε _) s = .ok read t) :
    (Reader.program : Reader ε Program) s = .ok ⟨read.filterMap id⟩ t := by
  have hstmts : ((Layer.ofRoom (maxNesting - s.depth)).stmts
      (fun s => s.current.kind ≠ .endOfInput) : Reader ε _) s = .ok (read.filterMap id) t :=
    bind_of_ok h
  exact bind_of_ok hstmts

theorem Operation.current_program {s : State} (hs : s.Sealed) :
    (program.run s).current.kind = .endOfInput := by
  cases hr : (collect (fun s => s.current.kind ≠ .endOfInput)
      (Layer.ofRoom (maxNesting - s.depth)).stmtOrSkip : Reader Empty _) s with
  | error e t => exact e.elim
  | ok read t =>
    have hstop := stops_of_collect (fun hs hgo hi => Fair.remaining_lt_of_stmtOrSkip
      (hs.remaining_pos (of_decide_eq_true hgo)) hi) hs hr
    rw [run, program_of_collect hr]
    show t.current.kind = .endOfInput
    simpa using hstop

/-- At the end of the source there is no statement to read, and nothing changes. -/
theorem program_of_end {ε : Type} {s : State} (h : s.current.kind = .endOfInput) :
    (Reader.program : Reader ε Program) s = .ok ⟨[]⟩ s := by
  have hgo : (fun s : State => decide (s.current.kind ≠ .endOfInput)) s = false := by simp [h]
  exact program_of_collect (collect_of_stop hgo)

/-- After any operations, the parser is a window on the tokens of its source. The window never
moves back, whether operations succeed or fail, and diagnostics are only added. Once a program has
been read the source is at its end, and reading another one finds nothing and changes nothing. -/
theorem parser_is_window (file source : String) (ops : List Operation) :
    (∃ ks : List Nat, ks.head? = some 0 ∧ ks.Pairwise (· ≤ ·) ∧
      List.Forall₂ (Window file source) ks (Operation.states ops (.ofSource file source))) ∧
    ((Operation.states ops (.ofSource file source)).Pairwise fun s t =>
      s.errors.toList <+: t.errors.toList) ∧
    ∀ s ∈ Operation.states ops (.ofSource file source),
      (Operation.program.run s).current.kind = .endOfInput ∧
      (Reader.program : Reader Empty Program) (Operation.program.run s) =
        .ok ⟨[]⟩ (Operation.program.run s) := by
  refine ⟨?_, Operation.pairwise_states (R := State.Grows) ops _, ?_⟩
  · -- The index is how many of the tokens that were ahead at first have been read.
    refine ⟨(Operation.states ops (.ofSource file source)).map
      (State.ofSource file source).readSince, ?_, ?_, ?_⟩
    · cases ops <;> simp [Operation.states, State.readSince]
    · apply List.pairwise_map.mpr
      apply (Operation.pairwise_states (R := State.Shrinks) ops _).imp
      intro s t hst
      exact Nat.sub_le_sub_left hst _
    · apply List.forall₂_map_left_iff.mpr
      apply List.forall₂_same.mpr
      intro s hs
      apply window_of_passes
      · exact Operation.keeps_states (R := State.Passes) ops _ s hs
      · exact Operation.keeps_states (R := fun s t => s.input.stop = t.input.stop) ops _ s hs
  · intro s hs
    have hsealed : s.Sealed := Operation.keeps_states (R := State.Seals) ops _ s hs
      (State.ofSource_sealed file source)
    have hend := Operation.current_program hsealed
    exact ⟨hend, program_of_end hend⟩

end Scriptlet
