import Scriptlet.Token.Basic

/-! Diagnostics: why a statement was refused, and where. -/
namespace Scriptlet

inductive Cause
  /-- No expression starts with a token of this kind. -/
  | unexpectedToken (kind : Kind) (text : String)
  /-- Another kind of token has to come next. -/
  | tokenMismatch (expected found : Kind) (text : String)
  /-- A numeral without a signed 64-bit value. -/
  | integerOutOfRange (text : String)
  | nestingTooDeep (limit : Nat)
  deriving DecidableEq, Repr, Inhabited

namespace Cause

def name : Cause → String
  | unexpectedToken .. => "UnexpectedToken"
  | tokenMismatch .. => "TokenMismatch"
  | integerOutOfRange .. => "IntegerParseError"
  | nestingTooDeep .. => "NestingTooDeep"

def message : Cause → String
  | unexpectedToken kind _ => "no prefix parse function for " ++ kind.label
  | tokenMismatch expected found _ =>
    "expected next token to be " ++ expected.label ++ ", got " ++ found.label ++ " instead"
  | integerOutOfRange text => "could not parse " ++ Text.quoted text ++ " as integer"
  | nestingTooDeep limit => "expression nested deeper than " ++ limit.repr ++ " levels"

/-- Advice on the cause. There is none for a character that is no token at all. -/
def tip? : Cause → Option String
  | unexpectedToken .illegal _ => none
  | unexpectedToken _ text => some ("`" ++ text ++ "` cannot start an expression")
  | tokenMismatch expected _ text =>
    some ("expected `" ++ expected.label ++ "`, found `" ++ text ++ "`")
  | integerOutOfRange _ => some "integer literals must fit in a signed 64-bit integer"
  | nestingTooDeep _ => some "split the expression up with `let` bindings"

end Cause

structure Diagnostic where
  cause : Cause
  position : Position
  deriving DecidableEq, Repr, Inhabited

def Diagnostic.message (d : Diagnostic) : String :=
  d.cause.message

end Scriptlet
