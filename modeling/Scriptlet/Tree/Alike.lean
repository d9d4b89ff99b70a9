import Scriptlet.Tree.Basic

/-! When two trees say the same: where their tokens stand does not matter, and a statement that is
an expression is compared by the expression alone, since its first token depends on how the
expression is parenthesised. -/
namespace Scriptlet

def Name.alike (m n : Name) : Bool :=
  m.token.alike n.token && m.value == n.value

def Name.allAlike : List Name → List Name → Bool
  | [], [] => true
  | m :: ms, n :: ns => m.alike n && allAlike ms ns
  | _, _ => false

mutual

def Expr.alike : Expr → Expr → Bool
  | .name t v, .name u w => t.alike u && v == w
  | .integer t v, .integer u w => t.alike u && v == w
  | .boolean t v, .boolean u w => t.alike u && v == w
  | .text t v, .text u w => t.alike u && v == w
  | .unary t op right, .unary u op' right' => t.alike u && op == op' && right.alike right'
  | .binary t left op right, .binary u left' op' right' =>
    t.alike u && left.alike left' && op == op' && right.alike right'
  | .conditional t condition consequence none, .conditional u condition' consequence' none =>
    t.alike u && condition.alike condition' && consequence.alike consequence'
  | .conditional t condition consequence (some alternative),
    .conditional u condition' consequence' (some alternative') =>
    t.alike u && condition.alike condition' && consequence.alike consequence' &&
      alternative.alike alternative'
  | .function t parameters body, .function u parameters' body' =>
    t.alike u && Name.allAlike parameters parameters' && body.alike body'
  | .call t callee arguments, .call u callee' arguments' =>
    t.alike u && callee.alike callee' && Expr.allAlike arguments arguments'
  | .array t elements, .array u elements' => t.alike u && Expr.allAlike elements elements'
  | .index t left index, .index u left' index' =>
    t.alike u && left.alike left' && index.alike index'
  | .hash t pairs, .hash u pairs' => t.alike u && Expr.pairsAlike pairs pairs'
  | _, _ => false

def Expr.allAlike : List Expr → List Expr → Bool
  | [], [] => true
  | d :: ds, e :: es => d.alike e && Expr.allAlike ds es
  | _, _ => false

def Expr.pairsAlike : List (Expr × Expr) → List (Expr × Expr) → Bool
  | [], [] => true
  | (key, value) :: pairs, (key', value') :: pairs' =>
    key.alike key' && value.alike value' && Expr.pairsAlike pairs pairs'
  | _, _ => false

def Block.alike : Block → Block → Bool
  | .mk t body, .mk u body' => t.alike u && Stmt.allAlike body body'

def Stmt.alike : Stmt → Stmt → Bool
  | .binding t name value, .binding u name' value' =>
    t.alike u && name.alike name' && value.alike value'
  | .returning t value, .returning u value' => t.alike u && value.alike value'
  | .expression _ value, .expression _ value' => value.alike value'
  | .block b, .block b' => b.alike b'
  | _, _ => false

def Stmt.allAlike : List Stmt → List Stmt → Bool
  | [], [] => true
  | s :: ss, t :: ts => s.alike t && Stmt.allAlike ss ts
  | _, _ => false

end

def Program.alike (p q : Program) : Bool :=
  Stmt.allAlike p.statements q.statements

end Scriptlet
