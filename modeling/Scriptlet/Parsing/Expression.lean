import Scriptlet.Parsing.Loop
import Scriptlet.Parsing.Parser
import Scriptlet.Text.Numeral
import Scriptlet.Tree.Basic

/-! Expressions. Each parser here starts at the first token of what it reads and ends at the last
one. What is nested one level deeper is read by the layer below. -/
namespace Scriptlet

open Reader Scriptlet.Parser

/-- Parsers for what may be nested: expressions that bind tighter than a given power, and
blocks. -/
structure Layer where
  expr : Power → Parser Expr
  block : Parser Block

namespace Layer

/-- The current token as a name. -/
def readName : Parser Name := do
  let token ← current
  return ⟨token, token.text⟩

def name : Parser Expr := do
  let token ← current
  return .name token token.text

def integer : Parser Expr := do
  let token ← current
  match Text.int64? token.text with
  | some value => return .integer token value
  | none => refuse (.integerOutOfRange token.text) token

def text : Parser Expr := do
  let token ← current
  return .text token token.text

def boolean : Parser Expr := do
  let token ← current
  return .boolean token (token.kind = .trueWord)

def unary (below : Layer) : Parser Expr := do
  let token ← current
  advance
  let right ← below.expr .unary
  return .unary token token.text right

/-- A parenthesised expression leaves no node of its own. -/
def group (below : Layer) : Parser Expr := do
  advance
  let inner ← below.expr .lowest
  expect .closeParen
  return inner

/-- A comma that comes next, and the expression behind it. -/
def nextElement (below : Layer) : Parser Expr := do
  advance
  advance
  below.expr .lowest

/-- Expressions separated by commas, up to a token of kind `stop`. -/
def list (below : Layer) (stop : Kind) : Parser (List Expr) := do
  let next ← peek
  advance
  if next.kind = stop then return []
  let first ← below.expr .lowest
  let others ← collect (fun s => s.peek.kind = .comma) below.nextElement
  expect stop
  return first :: others

def array (below : Layer) : Parser Expr := do
  let token ← current
  let elements ← below.list .closeBracket
  return .array token elements

/-- A key with its value, and the comma behind them unless the hash ends there. -/
def pair (below : Layer) : Parser (Expr × Expr) := do
  advance
  let key ← below.expr .lowest
  expect .colon
  advance
  let value ← below.expr .lowest
  let next ← peek
  if next.kind ≠ .closeCurly then expect .comma
  return (key, value)

/-- Keys with their values, up to the closing brace. -/
def pairs (below : Layer) : Parser (List (Expr × Expr)) := do
  let read ← collect (fun s => s.peek.kind ≠ .closeCurly) below.pair
  expect .closeCurly
  return read

def hash (below : Layer) : Parser Expr := do
  let token ← current
  let read ← noting (.abandoned token) below.pairs
  return .hash token read

def conditional (below : Layer) : Parser Expr := do
  let token ← current
  expect .openParen
  advance
  let condition ← below.expr .lowest
  expect .closeParen
  expect .openCurly
  let consequence ← below.block
  let next ← peek
  if next.kind = .elseWord then
    advance
    expect .openCurly
    let alternative ← below.block
    return .conditional token condition consequence (some alternative)
  else
    return .conditional token condition consequence none

/-- A comma that comes next, and the name behind it. -/
def nextParameter : Parser Name := do
  advance
  expect .name
  readName

/-- The parameters of a function, up to the closing parenthesis. -/
def parameters : Parser (List Name) := do
  let next ← peek
  if next.kind = .closeParen then
    advance
    return []
  expect .name
  let first ← readName
  let others ← collect (fun s => s.peek.kind = .comma) nextParameter
  expect .closeParen
  return first :: others

def function (below : Layer) : Parser Expr := do
  let token ← current
  expect .openParen
  let names ← parameters
  expect .openCurly
  let body ← below.block
  return .function token names body

/-- Reads a form that the current token begins. -/
def opening (below : Layer) : Opening → Parser Expr
  | .name => name
  | .integer => integer
  | .text => text
  | .boolean => boolean
  | .unary => below.unary
  | .group => below.group
  | .array => below.array
  | .hash => below.hash
  | .conditional => below.conditional
  | .function => below.function

/-- The right operand binds tighter than the operator, so operators of one power group to the
left. -/
def binary (below : Layer) (left : Expr) (power : Power) : Parser Expr := do
  let token ← current
  advance
  let right ← below.expr power
  return .binary token left token.text right

def call (below : Layer) (callee : Expr) : Parser Expr := do
  let token ← current
  let arguments ← below.list .closeParen
  return .call token callee arguments

def index (below : Layer) (left : Expr) : Parser Expr := do
  let token ← current
  advance
  let index ← below.expr .lowest
  expect .closeBracket
  return .index token left index

/-- Continues an expression in a form whose joining token is the current one. -/
def joining (below : Layer) (form : Joining) (left : Expr) (power : Power) : Parser Expr :=
  match form with
  | .binary => below.binary left power
  | .call => below.call left
  | .index => below.index left

/-- Whether the next token takes the expression before it, over the power `floor`. -/
def binds (floor : Power) (s : State) : Bool :=
  s.peek.kind ≠ .semicolon && floor < s.peek.kind.power

/-- Continues an expression by the token that comes next. -/
def extend (below : Layer) (floor : Power) (left : Expr) : Parser Expr := do
  let next ← peek
  match next.kind.joining? with
  | none => return left
  | some (form, power) =>
    note (.applied next.kind power floor)
    advance
    below.joining form left power

/-- Reads an expression as far as its tokens bind tighter than `floor`. -/
def climb (below : Layer) (floor : Power) : Parser Expr := do
  let token ← current
  match token.kind.opening? with
  | none => refuse (.unexpectedToken token.kind token.text) token
  | some form =>
    let first ← below.opening form
    repeatWhile (binds floor) (below.extend floor) first

end Layer

end Scriptlet
