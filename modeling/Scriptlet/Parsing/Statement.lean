import Scriptlet.Parsing.Expression

/-! Statements and blocks, and the layers in which they nest. A statement that fails is recorded,
and reading goes on behind the token at which it failed. -/
namespace Scriptlet

open Reader Scriptlet.Parser

/-- How deeply expressions and blocks may be nested. -/
def maxNesting : Nat := 64

namespace Layer

def binding (below : Layer) : Parser Stmt := do
  let token ← current
  expect .name
  let name ← readName
  expect .assign
  advance
  let value ← below.expr .lowest
  skipSemicolon
  return .binding token name value

def returning (below : Layer) : Parser Stmt := do
  let token ← current
  advance
  let value ← below.expr .lowest
  skipSemicolon
  return .returning token value

def expression (below : Layer) : Parser Stmt := do
  let token ← current
  let value ← below.expr .lowest
  skipSemicolon
  return .expression token value

/-- Reads a statement whose first word is the current token. -/
def heading (below : Layer) : Heading → Parser Stmt
  | .binding => below.binding
  | .returning => below.returning

def stmt (below : Layer) : Parser Stmt := do
  let token ← current
  match token.kind.heading? with
  | some form => below.heading form
  | none => below.expression

/-- Reads a statement, if it does not fail, and steps behind it. -/
def stmtOrSkip {ε : Type} (below : Layer) : Reader ε (Option Stmt) := do
  let stmt? ← recovering below.stmt
  advance
  return stmt?

/-- Statement after statement, as long as the state allows. -/
def stmts {ε : Type} (below : Layer) (goesOn : State → Bool) : Reader ε (List Stmt) := do
  let read ← collect goesOn below.stmtOrSkip
  return read.filterMap id

/-- The statements between braces. The block fails when it runs to the end of the source, also if a
statement that failed took its closing brace. -/
def braces (below : Layer) : Parser Block := do
  let token ← current
  advance
  let body ← below.stmts fun s => s.current.kind ≠ .closeCurly && s.current.kind ≠ .endOfInput
  let last ← current
  if last.kind = .endOfInput then
    refuse (.tokenMismatch .closeCurly .endOfInput last.text) last
  return .mk token body

/-- The layer at which nothing more may be nested. -/
def deepest : Layer where
  expr _ := do refuse (.nestingTooDeep maxNesting) (← current)
  block := do refuse (.nestingTooDeep maxNesting) (← current)

/-- The layer above another one. -/
def above (below : Layer) : Layer where
  expr floor := nest (below.climb floor)
  block := nest below.braces

/-- The layer with room for `n` levels of nesting. -/
def ofRoom : Nat → Layer
  | 0 => deepest
  | n + 1 => (ofRoom n).above

end Layer

/-- Runs a parser with the layer that fits the depth of the state. -/
def atDepth {ε α : Type} (p : Layer → Reader ε α) : Reader ε α := fun s =>
  p (.ofRoom (maxNesting - s.depth)) s

namespace Parser

/-- An expression as far as its tokens bind tighter than `floor`. -/
def expr (floor : Power) : Parser Expr := atDepth fun layer => layer.expr floor

def block : Parser Block := atDepth Layer.block

def stmt : Parser Stmt := atDepth Layer.stmt

/-- A statement that is an expression, whatever its first token. -/
def expressionStmt : Parser Stmt := atDepth Layer.expression

/-- The form of expression that a kind of token begins, read at the current token whatever its
kind. -/
def opening (form : Opening) : Parser Expr := atDepth fun layer => layer.opening form

def joining (form : Joining) (left : Expr) (power : Power) : Parser Expr :=
  atDepth fun layer => layer.joining form left power

def heading (form : Heading) : Parser Stmt := atDepth fun layer => layer.heading form

end Parser

end Scriptlet
