import Scriptlet.Text.Numeral
import Scriptlet.Tree.Basic

/-! The layered grammar of programs, as derivations of trees from lists of tokens. Operators of one
tier group to the left, and a tier contains the next tighter one. A derivation counts how many
levels of nesting it takes. -/
namespace Scriptlet

/-- The tiers of expressions, from the loosest to the tightest. -/
inductive Tier
  | equality
  | comparison
  | sum
  | product
  | unary
  | suffixed
  | primary
  deriving DecidableEq, Repr

namespace Tier

/-- The next tighter tier, from which the right operands of binary operators are taken. -/
def tighter? : Tier → Option Tier
  | equality => some comparison
  | comparison => some sum
  | sum => some product
  | product => some unary
  | unary => some suffixed
  | suffixed => some primary
  | primary => none

def operators : Tier → List Kind
  | equality => [.equal, .notEqual]
  | comparison => [.less, .greater]
  | sum => [.plus, .minus]
  | product => [.star, .slash]
  | unary => []
  | suffixed => []
  | primary => []

end Tier

/-- What the grammar derives: an expression of a tier, the elements of a list up to its closing
bracket, what follows the first element, the pairs of a hash, a block, a statement without its
terminator, or a run of statements. -/
inductive Phrase
  | expr (tier : Tier)
  | list
  | more
  | pairs
  | block
  | stmt
  | stmts
  deriving DecidableEq, Repr

def Phrase.Tree : Phrase → Type
  | expr _ => Expr
  | list => List Expr
  | more => List Expr
  | pairs => List (Expr × Expr)
  | block => Block
  | stmt => Stmt
  | stmts => List Stmt

/-- Names with a comma before each of them. -/
inductive MoreNames : List Token → List Name → Prop
  | nil : MoreNames [] []
  | cons {comma t : Token} {ts : List Token} {names : List Name} (hc : comma.kind = .comma)
      (ht : t.kind = .name) (h : MoreNames ts names) :
      MoreNames (comma :: t :: ts) (⟨t, t.text⟩ :: names)

/-- Names separated by commas, or none. -/
inductive Names : List Token → List Name → Prop
  | nil : Names [] []
  | cons {t : Token} {ts : List Token} {names : List Name} (ht : t.kind = .name)
      (h : MoreNames ts names) : Names (t :: ts) (⟨t, t.text⟩ :: names)

/-- The tokens that would continue a statement that has no terminator. -/
def Kind.Continues (kind : Kind) : Prop :=
  kind = .minus ∨ kind = .openParen ∨ kind = .openBracket

/-- `Derives phrase n ts tree`: the grammar derives the tree from the tokens, and the derivation
takes `n` levels of nesting. A prefix operand, a right operand, a group, an argument, an element,
an index, a key, a value and a condition are one level deeper than the expression that contains
them. A block is one level deeper than its expression, and its statements are one level deeper
than the block. -/
inductive Derives : (phrase : Phrase) → Nat → List Token → phrase.Tree → Prop
  | tighter {tier next : Tier} {n : Nat} {ts : List Token} {e : Expr}
      (ht : tier.tighter? = some next) (h : Derives (.expr next) n ts e) :
      Derives (.expr tier) n ts e
  | binary {tier next : Tier} {op : Token} {m n : Nat} {ls rs : List Token} {l r : Expr}
      (hop : op.kind ∈ tier.operators) (ht : tier.tighter? = some next)
      (hl : Derives (.expr tier) m ls l) (hr : Derives (.expr next) n rs r) :
      Derives (.expr tier) (max m (n + 1)) (ls ++ op :: rs) (.binary op l op.text r)
  | unary {op : Token} {n : Nat} {ts : List Token} {e : Expr}
      (hop : op.kind = .bang ∨ op.kind = .minus) (h : Derives (.expr .unary) n ts e) :
      Derives (.expr .unary) (n + 1) (op :: ts) (.unary op op.text e)
  | call {o c : Token} {m n : Nat} {fs ts : List Token} {f : Expr} {es : List Expr}
      (ho : o.kind = .openParen) (hc : c.kind = .closeParen)
      (hf : Derives (.expr .suffixed) m fs f) (h : Derives .list n ts es) :
      Derives (.expr .suffixed) (max m (n + 1)) (fs ++ o :: (ts ++ [c])) (.call o f es)
  | index {o c : Token} {m n : Nat} {ls ts : List Token} {l i : Expr}
      (ho : o.kind = .openBracket) (hc : c.kind = .closeBracket)
      (hl : Derives (.expr .suffixed) m ls l) (h : Derives (.expr .equality) n ts i) :
      Derives (.expr .suffixed) (max m (n + 1)) (ls ++ o :: (ts ++ [c])) (.index o l i)
  | name {t : Token} (ht : t.kind = .name) : Derives (.expr .primary) 1 [t] (.name t t.text)
  | integer {t : Token} {v : Nat} (ht : t.kind = .number)
      (hv : Text.natural? t.text.toList = some v) (hlt : v < Text.int64Bound) :
      Derives (.expr .primary) 1 [t] (.integer t v)
  | text {t : Token} (ht : t.kind = .text) : Derives (.expr .primary) 1 [t] (.text t t.text)
  | yes {t : Token} (ht : t.kind = .trueWord) : Derives (.expr .primary) 1 [t] (.boolean t true)
  | no {t : Token} (ht : t.kind = .falseWord) : Derives (.expr .primary) 1 [t] (.boolean t false)
  | group {o c : Token} {n : Nat} {ts : List Token} {e : Expr} (ho : o.kind = .openParen)
      (hc : c.kind = .closeParen) (h : Derives (.expr .equality) n ts e) :
      Derives (.expr .primary) (n + 1) (o :: (ts ++ [c])) e
  | array {o c : Token} {n : Nat} {ts : List Token} {es : List Expr} (ho : o.kind = .openBracket)
      (hc : c.kind = .closeBracket) (h : Derives .list n ts es) :
      Derives (.expr .primary) (n + 1) (o :: (ts ++ [c])) (.array o es)
  | hash {o c : Token} {n : Nat} {ts : List Token} {ps : List (Expr × Expr)}
      (ho : o.kind = .openCurly) (hc : c.kind = .closeCurly) (h : Derives .pairs n ts ps) :
      Derives (.expr .primary) (n + 1) (o :: (ts ++ [c])) (.hash o ps)
  | conditional {w o c : Token} {m n : Nat} {ts bs : List Token} {e : Expr} {b : Block}
      (hw : w.kind = .ifWord) (ho : o.kind = .openParen) (hc : c.kind = .closeParen)
      (h : Derives (.expr .equality) m ts e) (hb : Derives .block n bs b) :
      Derives (.expr .primary) (max (m + 1) (n + 1)) (w :: o :: (ts ++ c :: bs))
        (.conditional w e b none)
  | alternative {w o c x : Token} {m n k : Nat} {ts bs as : List Token} {e : Expr} {b a : Block}
      (hw : w.kind = .ifWord) (ho : o.kind = .openParen) (hc : c.kind = .closeParen)
      (hx : x.kind = .elseWord) (h : Derives (.expr .equality) m ts e)
      (hb : Derives .block n bs b) (ha : Derives .block k as a) :
      Derives (.expr .primary) (max (m + 1) (max (n + 1) (k + 1)))
        (w :: o :: (ts ++ c :: (bs ++ x :: as))) (.conditional w e b (some a))
  | function {w o c : Token} {n : Nat} {ts bs : List Token} {names : List Name} {b : Block}
      (hw : w.kind = .fnWord) (ho : o.kind = .openParen) (hc : c.kind = .closeParen)
      (h : Names ts names) (hb : Derives .block n bs b) :
      Derives (.expr .primary) (n + 1) (w :: o :: (ts ++ c :: bs)) (.function w names b)
  | empty : Derives .list 0 [] []
  | first {m n : Nat} {ts rs : List Token} {e : Expr} {es : List Expr}
      (h : Derives (.expr .equality) m ts e) (hr : Derives .more n rs es) :
      Derives .list (max m n) (ts ++ rs) (e :: es)
  | last : Derives .more 0 [] []
  | next {comma : Token} {m n : Nat} {ts rs : List Token} {e : Expr} {es : List Expr}
      (hc : comma.kind = .comma) (h : Derives (.expr .equality) m ts e)
      (hr : Derives .more n rs es) :
      Derives .more (max m n) (comma :: (ts ++ rs)) (e :: es)
  | noPair : Derives .pairs 0 [] []
  | lastPair {colon : Token} {m n : Nat} {ks vs : List Token} {k v : Expr}
      (hc : colon.kind = .colon) (hk : Derives (.expr .equality) m ks k)
      (hv : Derives (.expr .equality) n vs v) :
      Derives .pairs (max m n) (ks ++ colon :: vs) [(k, v)]
  | nextPair {colon comma : Token} {m n l : Nat} {ks vs rs : List Token} {k v : Expr}
      {ps : List (Expr × Expr)} (hc : colon.kind = .colon) (hs : comma.kind = .comma)
      (hk : Derives (.expr .equality) m ks k) (hv : Derives (.expr .equality) n vs v)
      (hr : Derives .pairs l rs ps) :
      Derives .pairs (max (max m n) l) (ks ++ colon :: (vs ++ comma :: rs)) ((k, v) :: ps)
  | block {o c : Token} {n : Nat} {ts : List Token} {ss : List Stmt} (ho : o.kind = .openCurly)
      (hc : c.kind = .closeCurly) (h : Derives .stmts n ts ss) :
      Derives .block (n + 1) (o :: (ts ++ [c])) (.mk o ss)
  | binding {w t a : Token} {n : Nat} {ts : List Token} {e : Expr} (hw : w.kind = .letWord)
      (ht : t.kind = .name) (ha : a.kind = .assign) (h : Derives (.expr .equality) n ts e) :
      Derives .stmt n (w :: t :: a :: ts) (.binding w ⟨t, t.text⟩ e)
  | returning {w : Token} {n : Nat} {ts : List Token} {e : Expr} (hw : w.kind = .returnWord)
      (h : Derives (.expr .equality) n ts e) : Derives .stmt n (w :: ts) (.returning w e)
  | expression {t : Token} {n : Nat} {ts : List Token} {e : Expr}
      (h : Derives (.expr .equality) n (t :: ts) e) :
      Derives .stmt n (t :: ts) (.expression t e)
  | done : Derives .stmts 0 [] []
  | terminated {semicolon : Token} {m n : Nat} {ts rs : List Token} {s : Stmt} {ss : List Stmt}
      (ht : semicolon.kind = .semicolon) (h : Derives .stmt m ts s)
      (hr : Derives .stmts n rs ss) :
      Derives .stmts (max m n) (ts ++ semicolon :: rs) (s :: ss)
  | unterminated {m n : Nat} {ts rs : List Token} {s : Stmt} {ss : List Stmt}
      (ht : ∀ t ∈ rs.head?, ¬ t.kind.Continues) (h : Derives .stmt m ts s)
      (hr : Derives .stmts n rs ss) : Derives .stmts (max m n) (ts ++ rs) (s :: ss)

end Scriptlet
