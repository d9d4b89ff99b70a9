/-! The kinds of token, their labels in messages, and the reserved words. -/
namespace Scriptlet

inductive Kind
  | endOfInput
  | illegal
  | number
  | text
  | name
  | openBracket
  | closeBracket
  | openCurly
  | closeCurly
  | openParen
  | closeParen
  | assign
  | equal
  | bang
  | notEqual
  | less
  | greater
  | semicolon
  | colon
  | comma
  | plus
  | minus
  | slash
  | star
  | letWord
  | fnWord
  | returnWord
  | ifWord
  | elseWord
  | trueWord
  | falseWord
  deriving DecidableEq, Repr, Inhabited

namespace Kind

/-- How messages name a kind: marks by their text, everything else by a word. -/
def label : Kind → String
  | endOfInput => "EOF"
  | illegal => "ILLEGAL"
  | number => "INT"
  | text => "STRING"
  | name => "IDENT"
  | openBracket => "["
  | closeBracket => "]"
  | openCurly => "\x7b"
  | closeCurly => "\x7d"
  | openParen => "("
  | closeParen => ")"
  | assign => "="
  | equal => "=="
  | bang => "!"
  | notEqual => "!="
  | less => "<"
  | greater => ">"
  | semicolon => ";"
  | colon => ":"
  | comma => ","
  | plus => "+"
  | minus => "-"
  | slash => "/"
  | star => "*"
  | letWord => "LET"
  | fnWord => "FUNCTION"
  | returnWord => "RETURN"
  | ifWord => "IF"
  | elseWord => "ELSE"
  | trueWord => "TRUE"
  | falseWord => "FALSE"

/-- The kind of a reserved word. -/
def reserved? (word : String) : Option Kind :=
  if word = "let" then some letWord
  else if word = "return" then some returnWord
  else if word = "fn" then some fnWord
  else if word = "if" then some ifWord
  else if word = "else" then some elseWord
  else if word = "true" then some trueWord
  else if word = "false" then some falseWord
  else none

/-- A word that is not reserved is a name. -/
def ofWord (word : String) : Kind :=
  (reserved? word).getD name

theorem ofWord_ne_endOfInput {word : String} : ofWord word ≠ endOfInput := by
  unfold ofWord reserved?
  repeat' split
  all_goals simp

end Kind

end Scriptlet
