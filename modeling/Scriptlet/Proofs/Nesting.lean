import Mathlib.Order.Lattice
import Scriptlet.Proofs.Acceptance
import Scriptlet.Proofs.Yields

/-! How deeply the trees that parsing yields are nested. A layer has room for a number of levels, and
a tree takes a number of levels. What a layer reads takes no more levels than the layer has room
for, so every statement stays within the limit, whatever was refused before it or inside it. -/
namespace Scriptlet

open Reader Scriptlet.Parser Layer

mutual

/-- How many levels of nesting an expression takes. Left operands, callees and what is indexed are
at the level of the expression; everything else that it contains is one level deeper. -/
def Expr.nesting : Expr → Nat
  | .name .. => 1
  | .integer .. => 1
  | .boolean .. => 1
  | .text .. => 1
  | .unary _ _ right => right.nesting + 1
  | .binary _ left _ right => max left.nesting (right.nesting + 1)
  | .conditional _ condition consequence none =>
    max (condition.nesting + 1) (consequence.nesting + 1)
  | .conditional _ condition consequence (some alternative) =>
    max (condition.nesting + 1) (max (consequence.nesting + 1) (alternative.nesting + 1))
  | .function _ _ body => body.nesting + 1
  | .call _ callee arguments => max callee.nesting (Expr.allNesting arguments + 1)
  | .array _ elements => Expr.allNesting elements + 1
  | .index _ left index => max left.nesting (index.nesting + 1)
  | .hash _ pairs => Expr.pairsNesting pairs + 1

def Expr.allNesting : List Expr → Nat
  | [] => 0
  | e :: es => max e.nesting (Expr.allNesting es)

def Expr.pairsNesting : List (Expr × Expr) → Nat
  | [] => 0
  | (key, value) :: pairs => max (max key.nesting value.nesting) (Expr.pairsNesting pairs)

/-- The statements of a block are one level deeper than the block. -/
def Block.nesting : Block → Nat
  | .mk _ body => Stmt.allNesting body + 1

def Stmt.nesting : Stmt → Nat
  | .binding _ _ value => value.nesting
  | .returning _ value => value.nesting
  | .expression _ value => value.nesting
  | .block b => b.nesting

def Stmt.allNesting : List Stmt → Nat
  | [] => 0
  | s :: ss => max s.nesting (Stmt.allNesting ss)

end

/-- The expression that a statement consists of, behind its words. A block has none. -/
def Stmt.value? : Stmt → Option Expr
  | .binding _ _ value => some value
  | .returning _ value => some value
  | .expression _ value => some value
  | .block _ => none

theorem Expr.allNesting_le_iff {es : List Expr} {n : Nat} :
    allNesting es ≤ n ↔ ∀ e ∈ es, e.nesting ≤ n := by
  induction es with
  | nil => simp [allNesting]
  | cons e es ih => simp [allNesting, ih]

theorem Expr.pairsNesting_le_iff {ps : List (Expr × Expr)} {n : Nat} :
    pairsNesting ps ≤ n ↔ ∀ p ∈ ps, p.1.nesting ≤ n ∧ p.2.nesting ≤ n := by
  induction ps with
  | nil => simp [pairsNesting]
  | cons p ps ih => simp [pairsNesting, ih, and_assoc]

theorem Stmt.allNesting_le_iff {ss : List Stmt} {n : Nat} :
    allNesting ss ≤ n ↔ ∀ s ∈ ss, s.nesting ≤ n := by
  induction ss with
  | nil => simp [allNesting]
  | cons s ss ih => simp [allNesting, ih]

/-- The statement has an expression, and the expression takes at most `n` levels. -/
def Stmt.Shallow (n : Nat) (s : Stmt) : Prop :=
  ∃ e, s.value? = some e ∧ e.nesting ≤ n

theorem Stmt.Shallow.nesting_le {n : Nat} {s : Stmt} (h : s.Shallow n) : s.nesting ≤ n := by
  obtain ⟨e, he, hle⟩ := h
  cases s with
  | block b => simp [Stmt.value?] at he
  | _ =>
    cases he
    simpa [Stmt.nesting] using hle

/-- What a layer reads takes no more levels than the layer has room for. -/
structure Fits (n : Nat) : Prop where
  expr {floor : Power} {s : State} : s.Sealed →
    Yields ((ofRoom n).expr floor) s fun e _ => e.nesting ≤ n
  block {s : State} : s.Sealed → Yields (ofRoom n).block s fun b _ => b.nesting ≤ n

namespace Fits

variable {n : Nat} {s : State}

theorem list (h : Fits n) (hs : s.Sealed) (stop : Kind) :
    Yields ((ofRoom n).list stop) s fun es _ => Expr.allNesting es ≤ n := by
  refine .peek (.advance ?_)
  split
  next => exact .pure (by simp [Expr.allNesting])
  next =>
    have hmore (u : State) (hu : u.Sealed) :
        Yields (ofRoom n).nextElement u fun e _ => e.nesting ≤ n :=
      .advance (.advance (h.expr hu.advance.advance))
    refine .bind hs.advance (h.expr hs.advance) fun first t ht hfirst => ?_
    refine .bind ht (.forall_collect hmore ht) fun others u _ hothers => .expect fun _ => .pure ?_
    exact Expr.allNesting_le_iff.mpr (List.forall_mem_cons.mpr ⟨hfirst, hothers⟩)

theorem pair (h : Fits n) (hs : s.Sealed) :
    Yields (ofRoom n).pair s fun p _ => p.1.nesting ≤ n ∧ p.2.nesting ≤ n := by
  refine .advance (.bind hs.advance (h.expr hs.advance) fun key t ht hkey => .expect fun _ => ?_)
  refine .advance (.bind ht.advance.advance (h.expr ht.advance.advance) fun value u _ hvalue => ?_)
  refine .peek ?_
  split
  next => exact .expect fun _ => .pure ⟨hkey, hvalue⟩
  next => exact .pure ⟨hkey, hvalue⟩

theorem pairs (h : Fits n) (hs : s.Sealed) :
    Yields (ofRoom n).pairs s fun ps _ => Expr.pairsNesting ps ≤ n := by
  refine .bind hs (.forall_collect (fun u hu => h.pair hu) hs) fun ps t _ hps => ?_
  exact .expect fun _ => .pure (Expr.pairsNesting_le_iff.mpr hps)

theorem conditional (h : Fits n) (hs : s.Sealed) :
    Yields (ofRoom n).conditional s fun e _ => e.nesting ≤ n + 1 := by
  refine .current (.expect fun _ => .advance ?_)
  refine .bind hs.advance.advance (h.expr hs.advance.advance) fun condition t ht hc => ?_
  refine .expect fun _ => .expect fun _ => ?_
  have ht := ht.advance.advance
  refine .bind ht (h.block ht) fun consequence u hu hb => .peek ?_
  split
  next =>
    refine .advance (.expect fun _ => ?_)
    have hu := hu.advance.advance
    refine .bind hu (h.block hu) fun alternative v _ ha => .pure ?_
    simp [Expr.nesting, hc, hb, ha]
  next => exact .pure (by simp [Expr.nesting, hc, hb])

theorem function (h : Fits n) (hs : s.Sealed) :
    Yields (ofRoom n).function s fun e _ => e.nesting ≤ n + 1 := by
  refine .current (.expect fun _ => ?_)
  refine .bind hs.advance (.keeps State.Passes) fun names t ht _ => .expect fun _ => ?_
  refine .bind ht.advance (h.block ht.advance) fun body u _ hb => .pure ?_
  simpa [Expr.nesting] using hb

theorem opening (h : Fits n) (hs : s.Sealed) (form : Opening) :
    Yields ((ofRoom n).opening form) s fun e _ => e.nesting ≤ n + 1 := by
  cases form with
  | name => exact .current (.pure (by simp [Expr.nesting]))
  | integer =>
    refine .current ?_
    split
    next => exact .pure (by simp [Expr.nesting])
    next => exact .refuse
  | text => exact .current (.pure (by simp [Expr.nesting]))
  | boolean => exact .current (.pure (by simp [Expr.nesting]))
  | unary =>
    refine .current (.advance (.bind hs.advance (h.expr hs.advance) fun right t _ hr => .pure ?_))
    simpa [Expr.nesting] using hr
  | group =>
    -- The parentheses take a level, but they leave no node.
    refine .advance (.bind hs.advance (h.expr hs.advance) fun inner t _ hi => ?_)
    exact .expect fun _ => .pure (Nat.le_succ_of_le hi)
  | array =>
    refine .current (.bind hs (h.list hs .closeBracket) fun es t _ hes => .pure ?_)
    simpa [Expr.nesting] using hes
  | hash =>
    refine .current (.bind hs (.noting (h.pairs hs)) fun ps t _ hps => .pure ?_)
    simpa [Expr.nesting] using hps
  | conditional => exact h.conditional hs
  | function => exact h.function hs

/-- What is joined to an expression is one level deeper, and the expression stays where it is. -/
theorem joining (h : Fits n) (hs : s.Sealed) (form : Joining) {left : Expr} (power : Power)
    (hl : left.nesting ≤ n + 1) :
    Yields ((ofRoom n).joining form left power) s fun e _ => e.nesting ≤ n + 1 := by
  cases form with
  | binary =>
    refine .current (.advance (.bind hs.advance (h.expr hs.advance) fun right t _ hr => .pure ?_))
    simp [Expr.nesting, hl, hr]
  | call =>
    refine .current (.bind hs (h.list hs .closeParen) fun es t _ hes => .pure ?_)
    simp [Expr.nesting, hl, hes]
  | index =>
    refine .current (.advance (.bind hs.advance (h.expr hs.advance) fun index t _ hi => ?_))
    exact .expect fun _ => .pure (by simp [Expr.nesting, hl, hi])

theorem climb (h : Fits n) (hs : s.Sealed) (floor : Power) :
    Yields ((ofRoom n).climb floor) s fun e _ => e.nesting ≤ n + 1 := by
  refine .current ?_
  split
  next => exact .refuse
  next form _ =>
    refine .bind hs (h.opening hs form) fun first t ht hfirst => ?_
    -- However many rounds go on with the expression, it takes no further level.
    refine .repeatWhile (fun left u hu _ hl => ?_) ht hfirst
    refine .peek ?_
    split
    next => exact .pure hl
    next form power _ => exact .note (.advance (h.joining (hu.note _).advance form power hl))

theorem stmt (h : Fits n) (hs : s.Sealed) :
    Yields (ofRoom n).stmt s fun st _ => st.Shallow n := by
  refine .current ?_
  cases s.current.kind.heading? with
  | none =>
    refine .current (.bind hs (h.expr hs) fun value t _ hv => .skipSemicolon (.pure ?_))
    exact ⟨value, rfl, hv⟩
  | some form =>
    cases form with
    | binding =>
      refine .current (.expect fun _ => .readName (.expect fun _ => .advance ?_))
      have hs := hs.advance.advance.advance
      refine .bind hs (h.expr hs) fun value t _ hv => .skipSemicolon (.pure ?_)
      exact ⟨value, rfl, hv⟩
    | returning =>
      refine .current (.advance (.bind hs.advance (h.expr hs.advance) fun value t _ hv => ?_))
      exact .skipSemicolon (.pure ⟨value, rfl, hv⟩)

theorem stmts {ε : Type} (h : Fits n) (hs : s.Sealed) (goesOn : State → Bool) :
    Yields ((ofRoom n).stmts goesOn : Reader ε _) s fun ss _ => ∀ st ∈ ss, st.Shallow n := by
  have hturn (u : State) (hu : u.Sealed) :
      Yields ((ofRoom n).stmtOrSkip : Reader ε _) u fun st? _ => ∀ st ∈ st?, st.Shallow n :=
    .bind hu (.recovering (h.stmt hu)) fun _ _ _ hst => .advance (.pure hst)
  refine .bind hs (.forall_collect hturn hs) fun read t _ hread => .pure ?_
  intro st hst
  obtain ⟨st?, hmem, hst⟩ := List.mem_filterMap.mp hst
  exact hread st? hmem st hst

theorem braces (h : Fits n) (hs : s.Sealed) :
    Yields (ofRoom n).braces s fun b _ => b.nesting ≤ n + 1 := by
  refine .current (.advance (.bind hs.advance (h.stmts hs.advance _) fun body t _ hbody => ?_))
  refine .current ?_
  split
  next => exact .refuse
  next =>
    refine .pure (Nat.succ_le_succ (Stmt.allNesting_le_iff.mpr ?_))
    exact fun st hst => (hbody st hst).nesting_le

theorem succ (h : Fits n) : Fits (n + 1) where
  expr hs := .nest (h.climb hs.enter _)
  block hs := .nest (h.braces hs.enter)

end Fits

theorem Layer.fits (n : Nat) : Fits n := by
  induction n with
  | zero => exact ⟨fun _ => .current .refuse, fun _ => .current .refuse⟩
  | succ n ih => exact ih.succ

/-- Every statement that parsing yields, errors or not, has an expression that stays within the
limit of nesting. -/
theorem parse_within_nesting (file source : String) :
    ∀ s ∈ (parse file source).program.statements,
      ∃ e, s.value? = some e ∧ e.nesting ≤ maxNesting := by
  obtain ⟨ss, t, ht⟩ := exists_wholeStmts (.ofSource file source)
  have hss := (Layer.fits maxNesting).stmts (State.ofSource_sealed file source) _ ss t ht
  rw [parse_eq ht]
  exact hss

/-- In the body of a function a statement with one sign too many is skipped, and the statement
behind it takes the function to the limit itself. -/
theorem parse_within_nesting_recovered :
    let source := "fn() \x7b " ++ String.ofList (List.replicate 62 '!') ++ "x; " ++
      String.ofList (List.replicate 61 '!') ++ "x \x7d"
    (parse "f" source).errors.map Diagnostic.cause = [.nestingTooDeep 64] ∧
      ∃ s ∈ (parse "f" source).program.statements, s.nesting = 64 ∧
        ∃ e, s.value? = some e ∧ e.nesting ≤ 64 := by
  intro source
  obtain ⟨hcauses, hlevels⟩ :
      (parse "f" source).errors.map Diagnostic.cause = [.nestingTooDeep 64] ∧
        (parse "f" source).program.statements.map Stmt.nesting = [64] := by
    decide +kernel
  obtain ⟨s, hs, hlevel⟩ : ∃ s ∈ (parse "f" source).program.statements, s.nesting = 64 := by
    apply List.mem_map.mp
    simp [hlevels]
  exact ⟨hcauses, s, hs, hlevel, parse_within_nesting "f" source s hs⟩

end Scriptlet
