import Scriptlet.Token.Basic

/-! Programs as trees. Every node keeps the token that it was read at. -/
namespace Scriptlet

/-- A name that is bound: by `let`, or as a parameter. -/
structure Name where
  token : Token
  value : String
  deriving DecidableEq, Repr, Inhabited

mutual

inductive Expr
  | name (token : Token) (value : String)
  | integer (token : Token) (value : Int)
  | boolean (token : Token) (value : Bool)
  | text (token : Token) (value : String)
  | unary (token : Token) (operator : String) (right : Expr)
  | binary (token : Token) (left : Expr) (operator : String) (right : Expr)
  | conditional (token : Token) (condition : Expr) (consequence : Block)
      (alternative : Option Block)
  | function (token : Token) (parameters : List Name) (body : Block)
  | call (token : Token) (callee : Expr) (arguments : List Expr)
  | array (token : Token) (elements : List Expr)
  | index (token : Token) (left : Expr) (index : Expr)
  | hash (token : Token) (pairs : List (Expr × Expr))

/-- The statements between two braces. -/
inductive Block
  | mk (token : Token) (body : List Stmt)

inductive Stmt
  | binding (token : Token) (name : Name) (value : Expr)
  | returning (token : Token) (value : Expr)
  | expression (token : Token) (value : Expr)
  | block (block : Block)

end

structure Program where
  statements : List Stmt

namespace Block

def token : Block → Token
  | mk token _ => token

def body : Block → List Stmt
  | mk _ body => body

end Block

/-- The token that an expression was read at: of an infix form, the operator or bracket. -/
def Expr.token : Expr → Token
  | name token _ => token
  | integer token _ => token
  | boolean token _ => token
  | text token _ => token
  | unary token _ _ => token
  | binary token _ _ _ => token
  | conditional token _ _ _ => token
  | function token _ _ => token
  | call token _ _ => token
  | array token _ => token
  | index token _ _ => token
  | hash token _ => token

/-- The first token of a statement. -/
def Stmt.token : Stmt → Token
  | binding token _ _ => token
  | returning token _ => token
  | expression token _ => token
  | block b => b.token

/-- The text of the first token of a program. -/
def Program.firstText (p : Program) : String :=
  p.statements.head?.elim "" (·.token.text)

end Scriptlet
