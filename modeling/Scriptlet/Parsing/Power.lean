import Scriptlet.Token.Kind

/-! How tightly operators bind, and what each kind of token can begin or continue. -/
namespace Scriptlet

/-- Binding powers, from the loosest to the tightest. -/
inductive Power
  | lowest
  | equality
  | comparison
  | sum
  | product
  | unary
  | call
  | index
  deriving DecidableEq, Repr, Inhabited

namespace Power

def rank : Power → Nat
  | lowest => 0
  | equality => 1
  | comparison => 2
  | sum => 3
  | product => 4
  | unary => 5
  | call => 6
  | index => 7

instance : LT Power := ⟨fun p q => p.rank < q.rank⟩

instance (p q : Power) : Decidable (p < q) := inferInstanceAs (Decidable (p.rank < q.rank))

def label : Power → String
  | lowest => "Lowest"
  | equality => "Equals"
  | comparison => "LessGreater"
  | sum => "Sum"
  | product => "Product"
  | unary => "Prefix"
  | call => "Call"
  | index => "Index"

end Power

/-- The forms of expression that a token can begin. -/
inductive Opening
  | name
  | integer
  | text
  | boolean
  | unary
  | group
  | array
  | hash
  | conditional
  | function
  deriving DecidableEq, Repr

/-- The forms of expression in which a token stands behind a first operand. -/
inductive Joining
  | binary
  | call
  | index
  deriving DecidableEq, Repr

/-- The statements that start with a word of their own. -/
inductive Heading
  | binding
  | returning
  deriving DecidableEq, Repr

namespace Kind

def opening? : Kind → Option Opening
  | name => some .name
  | number => some .integer
  | text => some .text
  | trueWord => some .boolean
  | falseWord => some .boolean
  | bang => some .unary
  | minus => some .unary
  | openParen => some .group
  | openBracket => some .array
  | openCurly => some .hash
  | ifWord => some .conditional
  | fnWord => some .function
  | _ => none

/-- The form that a token makes of the expression before it, and how tightly it binds. -/
def joining? : Kind → Option (Joining × Power)
  | equal => some (.binary, .equality)
  | notEqual => some (.binary, .equality)
  | less => some (.binary, .comparison)
  | greater => some (.binary, .comparison)
  | plus => some (.binary, .sum)
  | minus => some (.binary, .sum)
  | star => some (.binary, .product)
  | slash => some (.binary, .product)
  | openParen => some (.call, .call)
  | openBracket => some (.index, .index)
  | _ => none

/-- A token that joins nothing binds as loosely as can be. -/
def power (kind : Kind) : Power :=
  kind.joining?.elim .lowest Prod.snd

def heading? : Kind → Option Heading
  | letWord => some .binding
  | returnWord => some .returning
  | _ => none

end Kind

end Scriptlet
