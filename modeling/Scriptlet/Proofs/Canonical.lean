import Scriptlet.Proofs.Grammar
import Scriptlet.Proofs.Spelling

/-! Canonical trees: the token and the fields of every node agree as in the trees that are read
from a source, and no block stands as a statement. Where the tokens stand does not matter. -/
namespace Scriptlet

/-- The token is of the given kind, and spelled as the kind says. -/
structure Token.Is (t : Token) (kind : Kind) : Prop where
  kind : t.kind = kind
  spelled : t.WellSpelled

/-- The token is of one of the given kinds, and spelled as its kind says. -/
structure Token.IsOneOf (t : Token) (kinds : List Kind) : Prop where
  kind : t.kind ∈ kinds
  spelled : t.WellSpelled

def Kind.unaryOperators : List Kind :=
  [.bang, .minus]

def Kind.binaryOperators : List Kind :=
  [.equal, .notEqual, .less, .greater, .plus, .minus, .star, .slash]

structure Name.Canonical (n : Name) : Prop where
  token : n.token.Is .name
  value : n.value = n.token.text

mutual

def Expr.Canonical : Expr → Prop
  | .name t value => t.Is .name ∧ value = t.text
  | .integer t value =>
    t.kind = .number ∧
      ∃ n : Nat, Text.natural? t.text.toList = some n ∧ n < Text.int64Bound ∧ value = n
  | .boolean t value => t.Is (if value then .trueWord else .falseWord)
  | .text t value => t.kind = .text ∧ value = t.text
  | .unary t operator right =>
    t.IsOneOf Kind.unaryOperators ∧ operator = t.text ∧ right.Canonical
  | .binary t left operator right =>
    t.IsOneOf Kind.binaryOperators ∧ operator = t.text ∧ left.Canonical ∧ right.Canonical
  | .conditional t condition consequence none =>
    t.Is .ifWord ∧ condition.Canonical ∧ consequence.Canonical
  | .conditional t condition consequence (some alternative) =>
    t.Is .ifWord ∧ condition.Canonical ∧ consequence.Canonical ∧ alternative.Canonical
  | .function t parameters body =>
    t.Is .fnWord ∧ (∀ p ∈ parameters, p.Canonical) ∧ body.Canonical
  | .call t callee arguments =>
    t.Is .openParen ∧ callee.Canonical ∧ Expr.AllCanonical arguments
  | .array t elements => t.Is .openBracket ∧ Expr.AllCanonical elements
  | .index t left index => t.Is .openBracket ∧ left.Canonical ∧ index.Canonical
  | .hash t pairs => t.Is .openCurly ∧ Expr.PairsCanonical pairs

def Expr.AllCanonical : List Expr → Prop
  | [] => True
  | e :: es => e.Canonical ∧ Expr.AllCanonical es

def Expr.PairsCanonical : List (Expr × Expr) → Prop
  | [] => True
  | (key, value) :: pairs => key.Canonical ∧ value.Canonical ∧ Expr.PairsCanonical pairs

def Block.Canonical : Block → Prop
  | .mk t body => t.Is .openCurly ∧ Stmt.AllCanonical body

/-- The token of a statement that is an expression is not compared, so it may be any. -/
def Stmt.Canonical : Stmt → Prop
  | .binding t name value => t.Is .letWord ∧ name.Canonical ∧ value.Canonical
  | .returning t value => t.Is .returnWord ∧ value.Canonical
  | .expression _ value => value.Canonical
  | .block _ => False

def Stmt.AllCanonical : List Stmt → Prop
  | [] => True
  | s :: ss => s.Canonical ∧ Stmt.AllCanonical ss

end

def Program.Canonical (p : Program) : Prop :=
  Stmt.AllCanonical p.statements

def Phrase.Canonical : (phrase : Phrase) → phrase.Tree → Prop
  | expr _, e => Expr.Canonical e
  | list, es => Expr.AllCanonical es
  | more, es => Expr.AllCanonical es
  | pairs, ps => Expr.PairsCanonical ps
  | block, b => Block.Canonical b
  | stmt, s => Stmt.Canonical s
  | stmts, ss => Stmt.AllCanonical ss

theorem MoreNames.canonical {ts : List Token} {names : List Name} (h : MoreNames ts names)
    (hts : ∀ t ∈ ts, t.WellSpelled) : ∀ p ∈ names, p.Canonical := by
  induction h with
  | nil => nofun
  | cons _ ht _ ih =>
    simp only [List.forall_mem_cons] at hts ⊢
    exact ⟨⟨⟨ht, hts.2.1⟩, rfl⟩, ih hts.2.2⟩

theorem Names.canonical {ts : List Token} {names : List Name} (h : Names ts names)
    (hts : ∀ t ∈ ts, t.WellSpelled) : ∀ p ∈ names, p.Canonical := by
  cases h with
  | nil => nofun
  | cons ht h =>
    simp only [List.forall_mem_cons] at hts ⊢
    exact ⟨⟨⟨ht, hts.1⟩, rfl⟩, h.canonical hts.2⟩

theorem Tier.mem_binaryOperators {tier : Tier} {kind : Kind} (h : kind ∈ tier.operators) :
    kind ∈ Kind.binaryOperators := by
  cases tier <;> revert kind <;> decide

/-- A tree that is derived from well-spelled tokens is canonical. -/
theorem Derives.canonical {phrase : Phrase} {n : Nat} {ts : List Token} {tree : phrase.Tree}
    (h : Derives phrase n ts tree) (hts : ∀ t ∈ ts, t.WellSpelled) : phrase.Canonical tree := by
  induction h with
  | tighter _ _ ih => exact ih hts
  | binary hop _ _ _ ihl ihr =>
    simp only [List.forall_mem_append, List.forall_mem_cons] at hts
    exact ⟨⟨Tier.mem_binaryOperators hop, hts.2.1⟩, rfl, ihl hts.1, ihr hts.2.2⟩
  | unary hop _ ih =>
    simp only [List.forall_mem_cons] at hts
    exact ⟨⟨by simpa [Kind.unaryOperators] using hop, hts.1⟩, rfl, ih hts.2⟩
  | call ho _ _ _ ihf ih =>
    simp only [List.forall_mem_append, List.forall_mem_cons] at hts
    exact ⟨⟨ho, hts.2.1⟩, ihf hts.1, ih hts.2.2.1⟩
  | index ho _ _ _ ihl ih =>
    simp only [List.forall_mem_append, List.forall_mem_cons] at hts
    exact ⟨⟨ho, hts.2.1⟩, ihl hts.1, ih hts.2.2.1⟩
  | name ht => exact ⟨⟨ht, hts _ (List.mem_singleton_self _)⟩, rfl⟩
  | integer ht hv hlt => exact ⟨ht, _, hv, hlt, rfl⟩
  | text ht => exact ⟨ht, rfl⟩
  | yes ht | no ht => exact ⟨ht, hts _ (List.mem_singleton_self _)⟩
  | group _ _ _ ih =>
    simp only [List.forall_mem_append, List.forall_mem_cons] at hts
    exact ih hts.2.1
  | array ho _ _ ih | hash ho _ _ ih | block ho _ _ ih =>
    simp only [List.forall_mem_append, List.forall_mem_cons] at hts
    exact ⟨⟨ho, hts.1⟩, ih hts.2.1⟩
  | conditional hw _ _ _ _ ih ihb =>
    simp only [List.forall_mem_append, List.forall_mem_cons] at hts
    obtain ⟨hspelled, -, hc, -, hb⟩ := hts
    exact ⟨⟨hw, hspelled⟩, ih hc, ihb hb⟩
  | alternative hw _ _ _ _ _ _ ih ihb iha =>
    simp only [List.forall_mem_append, List.forall_mem_cons] at hts
    obtain ⟨hspelled, -, hc, -, hb, -, ha⟩ := hts
    exact ⟨⟨hw, hspelled⟩, ih hc, ihb hb, iha ha⟩
  | function hw _ _ hnames _ ihb =>
    simp only [List.forall_mem_append, List.forall_mem_cons] at hts
    obtain ⟨hspelled, -, hp, -, hb⟩ := hts
    exact ⟨⟨hw, hspelled⟩, hnames.canonical hp, ihb hb⟩
  | empty | last | noPair | done => trivial
  | first _ _ ih ihr | unterminated _ _ _ ih ihr =>
    simp only [List.forall_mem_append] at hts
    exact ⟨ih hts.1, ihr hts.2⟩
  | next _ _ _ ih ihr =>
    simp only [List.forall_mem_append, List.forall_mem_cons] at hts
    exact ⟨ih hts.2.1, ihr hts.2.2⟩
  | lastPair _ _ _ ihk ihv =>
    simp only [List.forall_mem_append, List.forall_mem_cons] at hts
    exact ⟨ihk hts.1, ihv hts.2.2, trivial⟩
  | nextPair _ _ _ _ _ ihk ihv ihr =>
    simp only [List.forall_mem_append, List.forall_mem_cons] at hts
    obtain ⟨hk, -, hv, -, hr⟩ := hts
    exact ⟨ihk hk, ihv hv, ihr hr⟩
  | binding hw ht _ _ ih =>
    simp only [List.forall_mem_cons] at hts
    obtain ⟨hspelled, hname, -, hv⟩ := hts
    exact ⟨⟨hw, hspelled⟩, ⟨⟨ht, hname⟩, rfl⟩, ih hv⟩
  | returning hw _ ih =>
    simp only [List.forall_mem_cons] at hts
    exact ⟨⟨hw, hts.1⟩, ih hts.2⟩
  | expression _ ih => exact ih hts
  | terminated _ _ _ ih ihr =>
    simp only [List.forall_mem_append, List.forall_mem_cons] at hts
    exact ⟨ih hts.1, ihr hts.2.2⟩

end Scriptlet
