import Scriptlet.Text.Literal
import Scriptlet.Tree.Basic

/-! The printed form of a program. Operators and indexing are parenthesised in full, so that the
printed text shows how the source was grouped. -/
namespace Scriptlet

def commaSeparated (items : List String) : String :=
  ", ".intercalate items

mutual

def Expr.print : Expr → String
  | .name _ value => value
  | .integer token _ => token.text
  | .boolean _ value => if value then "true" else "false"
  | .text _ value => Text.literal value
  | .unary _ operator right => "(" ++ operator ++ right.print ++ ")"
  | .binary _ left operator right =>
    "(" ++ left.print ++ " " ++ operator ++ " " ++ right.print ++ ")"
  | .conditional _ condition consequence none =>
    "if (" ++ condition.print ++ ") " ++ consequence.print
  | .conditional _ condition consequence (some alternative) =>
    "if (" ++ condition.print ++ ") " ++ consequence.print ++ " else " ++ alternative.print
  | .function _ parameters body =>
    "fn(" ++ commaSeparated (parameters.map Name.value) ++ ") " ++ body.print
  | .call _ callee arguments =>
    callee.print ++ "(" ++ commaSeparated (Expr.printAll arguments) ++ ")"
  | .array _ elements => "[" ++ commaSeparated (Expr.printAll elements) ++ "]"
  | .index _ left index => "(" ++ left.print ++ "[" ++ index.print ++ "])"
  | .hash _ pairs => "\x7b" ++ commaSeparated (Expr.printPairs pairs) ++ "\x7d"

def Expr.printAll : List Expr → List String
  | [] => []
  | e :: es => e.print :: Expr.printAll es

def Expr.printPairs : List (Expr × Expr) → List String
  | [] => []
  | (key, value) :: pairs => (key.print ++ ": " ++ value.print) :: Expr.printPairs pairs

def Block.print : Block → String
  | .mk _ body => "\x7b " ++ Block.printBody body ++ "\x7d"

/-- The statements of a block, each with a space behind it. -/
def Block.printBody : List Stmt → String
  | [] => ""
  | s :: ss => s.print ++ " " ++ Block.printBody ss

def Stmt.print : Stmt → String
  | .binding _ name value => "let " ++ name.value ++ " = " ++ value.print ++ ";"
  | .returning _ value => "return " ++ value.print ++ ";"
  | .expression _ value => value.print ++ ";"
  | .block b => b.print

end

/-- A program is printed one statement a line. -/
def Program.print (p : Program) : String :=
  "\n".intercalate (p.statements.map Stmt.print)

@[simp] theorem Expr.printAll_eq_map (es : List Expr) : printAll es = es.map print := by
  induction es with
  | nil => rfl
  | cons e es ih => simp [printAll, ih]

@[simp] theorem Expr.printPairs_eq_map (pairs : List (Expr × Expr)) :
    printPairs pairs = pairs.map fun (key, value) => key.print ++ ": " ++ value.print := by
  induction pairs with
  | nil => rfl
  | cons pair pairs ih => simp [printPairs, ih]

end Scriptlet
