import Scriptlet.Proofs.Reparsing
import Scriptlet.Proofs.SourceOrder

/-! The printed form of a program says which program it is. Two trees are alike if and only if they
become equal once the places of their tokens are forgotten, and the printer shows no places. In the
other direction, the words of a printed program are derived in one way only, however deeply they
are nested: the parser finds every derivation that it has room for, and it finds one tree. -/
namespace Scriptlet

/-- The token as it would stand anywhere. -/
def Token.unplaced (t : Token) : Token :=
  { t with span := default }

def Name.unplaced (n : Name) : Name :=
  ⟨n.token.unplaced, n.value⟩

mutual

/-- The tree without the places of its tokens. The first token of a statement that is an expression
is forgotten as a whole. -/
def Expr.unplaced : Expr → Expr
  | .name t value => .name t.unplaced value
  | .integer t value => .integer t.unplaced value
  | .boolean t value => .boolean t.unplaced value
  | .text t value => .text t.unplaced value
  | .unary t operator right => .unary t.unplaced operator right.unplaced
  | .binary t left operator right => .binary t.unplaced left.unplaced operator right.unplaced
  | .conditional t condition consequence none =>
    .conditional t.unplaced condition.unplaced consequence.unplaced none
  | .conditional t condition consequence (some alternative) =>
    .conditional t.unplaced condition.unplaced consequence.unplaced (some alternative.unplaced)
  | .function t parameters body =>
    .function t.unplaced (parameters.map Name.unplaced) body.unplaced
  | .call t callee arguments => .call t.unplaced callee.unplaced (Expr.allUnplaced arguments)
  | .array t elements => .array t.unplaced (Expr.allUnplaced elements)
  | .index t left index => .index t.unplaced left.unplaced index.unplaced
  | .hash t pairs => .hash t.unplaced (Expr.pairsUnplaced pairs)

def Expr.allUnplaced : List Expr → List Expr
  | [] => []
  | e :: es => e.unplaced :: Expr.allUnplaced es

def Expr.pairsUnplaced : List (Expr × Expr) → List (Expr × Expr)
  | [] => []
  | (key, value) :: pairs => (key.unplaced, value.unplaced) :: Expr.pairsUnplaced pairs

def Block.unplaced : Block → Block
  | .mk t body => .mk t.unplaced (Stmt.allUnplaced body)

def Stmt.unplaced : Stmt → Stmt
  | .binding t name value => .binding t.unplaced name.unplaced value.unplaced
  | .returning t value => .returning t.unplaced value.unplaced
  | .expression _ value => .expression default value.unplaced
  | .block b => .block b.unplaced

def Stmt.allUnplaced : List Stmt → List Stmt
  | [] => []
  | s :: ss => s.unplaced :: Stmt.allUnplaced ss

end

@[simp] theorem Token.unplaced_eq_iff {t u : Token} :
    t.unplaced = u.unplaced ↔ t.alike u = true := by
  rw [alike_iff]
  obtain ⟨kind, text, span⟩ := t
  simp [unplaced]

@[simp] theorem Token.text_unplaced (t : Token) : t.unplaced.text = t.text := rfl

@[simp] theorem Name.unplaced_eq_iff {m n : Name} :
    m.unplaced = n.unplaced ↔ m.alike n = true := by
  simp [unplaced, alike]

theorem Name.allAlike_iff {ms ns : List Name} :
    allAlike ms ns = true ↔ ms.map unplaced = ns.map unplaced := by
  induction ms generalizing ns with
  | nil => cases ns <;> simp [allAlike]
  | cons m ms ih => cases ns <;> simp [allAlike, ih]

@[simp] theorem Expr.unplaced_conditional (t : Token) (condition : Expr) (consequence : Block)
    (alternative : Option Block) :
    (conditional t condition consequence alternative).unplaced =
      .conditional t.unplaced condition.unplaced consequence.unplaced
        (alternative.map Block.unplaced) := by
  cases alternative <;> simp [unplaced]

mutual

theorem Expr.alike_iff : (d e : Expr) → (d.alike e = true ↔ d.unplaced = e.unplaced)
  | .name .., e => by cases e <;> simp [Expr.alike, Expr.unplaced]
  | .integer .., e => by cases e <;> simp [Expr.alike, Expr.unplaced]
  | .boolean .., e => by cases e <;> simp [Expr.alike, Expr.unplaced]
  | .text .., e => by cases e <;> simp [Expr.alike, Expr.unplaced]
  | .unary _ _ right, e => by
    cases e <;> simp [Expr.alike, Expr.unplaced, right.alike_iff, and_assoc]
  | .binary _ left _ right, e => by
    cases e <;> simp [Expr.alike, Expr.unplaced, left.alike_iff, right.alike_iff, and_assoc]
  | .conditional _ condition consequence none, e => by
    cases e with
    | conditional _ _ _ alternative' =>
      cases alternative' <;>
        simp [Expr.alike, condition.alike_iff, consequence.alike_iff, and_assoc]
    | _ => simp [Expr.alike, Expr.unplaced]
  | .conditional _ condition consequence (some alternative), e => by
    cases e with
    | conditional _ _ _ alternative' =>
      cases alternative' <;>
        simp [Expr.alike, condition.alike_iff, consequence.alike_iff, alternative.alike_iff,
          and_assoc]
    | _ => simp [Expr.alike, Expr.unplaced]
  | .function _ _ body, e => by
    cases e <;> simp [Expr.alike, Expr.unplaced, Name.allAlike_iff, body.alike_iff, and_assoc]
  | .call _ callee arguments, e => by
    cases e <;>
      simp [Expr.alike, Expr.unplaced, callee.alike_iff, Expr.allAlike_iff arguments, and_assoc]
  | .array _ elements, e => by
    cases e <;> simp [Expr.alike, Expr.unplaced, Expr.allAlike_iff elements]
  | .index _ left index, e => by
    cases e <;> simp [Expr.alike, Expr.unplaced, left.alike_iff, index.alike_iff, and_assoc]
  | .hash _ pairs, e => by
    cases e <;> simp [Expr.alike, Expr.unplaced, Expr.pairsAlike_iff pairs]

theorem Expr.allAlike_iff : (ds es : List Expr) →
    (Expr.allAlike ds es = true ↔ Expr.allUnplaced ds = Expr.allUnplaced es)
  | [], es => by cases es <;> simp [Expr.allAlike, Expr.allUnplaced]
  | d :: ds, es => by
    cases es <;> simp [Expr.allAlike, Expr.allUnplaced, d.alike_iff, Expr.allAlike_iff ds]

theorem Expr.pairsAlike_iff : (ps qs : List (Expr × Expr)) →
    (Expr.pairsAlike ps qs = true ↔ Expr.pairsUnplaced ps = Expr.pairsUnplaced qs)
  | [], qs => by cases qs <;> simp [Expr.pairsAlike, Expr.pairsUnplaced]
  | _ :: _, [] => by simp [Expr.pairsAlike, Expr.pairsUnplaced]
  | (key, value) :: ps, (key', value') :: qs => by
    simp [Expr.pairsAlike, Expr.pairsUnplaced, key.alike_iff key', value.alike_iff value',
      Expr.pairsAlike_iff ps qs]

theorem Block.alike_iff : (b c : Block) → (b.alike c = true ↔ b.unplaced = c.unplaced)
  | .mk _ body, .mk _ body' => by
    simp [Block.alike, Block.unplaced, Stmt.allAlike_iff body body']

theorem Stmt.alike_iff : (s t : Stmt) → (s.alike t = true ↔ s.unplaced = t.unplaced)
  | .binding _ _ value, t => by
    cases t <;> simp [Stmt.alike, Stmt.unplaced, value.alike_iff, and_assoc]
  | .returning _ value, t => by cases t <;> simp [Stmt.alike, Stmt.unplaced, value.alike_iff]
  | .expression _ value, t => by cases t <;> simp [Stmt.alike, Stmt.unplaced, value.alike_iff]
  | .block b, t => by cases t <;> simp [Stmt.alike, Stmt.unplaced, b.alike_iff]

theorem Stmt.allAlike_iff : (ss ts : List Stmt) →
    (Stmt.allAlike ss ts = true ↔ Stmt.allUnplaced ss = Stmt.allUnplaced ts)
  | [], ts => by cases ts <;> simp [Stmt.allAlike, Stmt.allUnplaced]
  | s :: ss, ts => by
    cases ts <;> simp [Stmt.allAlike, Stmt.allUnplaced, s.alike_iff, Stmt.allAlike_iff ss]

end

mutual

/-- The printer shows no places. -/
theorem Expr.print_unplaced : (e : Expr) → e.unplaced.print = e.print
  | .name .. => by simp [Expr.unplaced, Expr.print]
  | .integer .. => by simp [Expr.unplaced, Expr.print]
  | .boolean .. => by simp [Expr.unplaced, Expr.print]
  | .text .. => by simp [Expr.unplaced, Expr.print]
  | .unary _ _ right => by simp [Expr.unplaced, Expr.print, right.print_unplaced]
  | .binary _ left _ right => by
    simp [Expr.unplaced, Expr.print, left.print_unplaced, right.print_unplaced]
  | .conditional _ condition consequence none => by
    simp [Expr.print, condition.print_unplaced, consequence.print_unplaced]
  | .conditional _ condition consequence (some alternative) => by
    simp [Expr.print, condition.print_unplaced, consequence.print_unplaced,
      alternative.print_unplaced]
  | .function _ parameters body => by
    have hnames : (parameters.map Name.unplaced).map Name.value = parameters.map Name.value := by
      simp [Name.unplaced]
    rw [Expr.unplaced, Expr.print, hnames, body.print_unplaced, Expr.print]
  | .call _ callee arguments => by
    rw [Expr.unplaced, Expr.print, callee.print_unplaced, Expr.printAll_unplaced arguments,
      Expr.print]
  | .array _ elements => by
    rw [Expr.unplaced, Expr.print, Expr.printAll_unplaced elements, Expr.print]
  | .index _ left index => by
    simp [Expr.unplaced, Expr.print, left.print_unplaced, index.print_unplaced]
  | .hash _ pairs => by
    rw [Expr.unplaced, Expr.print, Expr.printPairs_unplaced pairs, Expr.print]

theorem Expr.printAll_unplaced : (es : List Expr) →
    Expr.printAll (Expr.allUnplaced es) = Expr.printAll es
  | [] => rfl
  | e :: es => by
    rw [Expr.allUnplaced, Expr.printAll, e.print_unplaced, Expr.printAll_unplaced es,
      Expr.printAll]

theorem Expr.printPairs_unplaced : (pairs : List (Expr × Expr)) →
    Expr.printPairs (Expr.pairsUnplaced pairs) = Expr.printPairs pairs
  | [] => rfl
  | (key, value) :: pairs => by
    rw [Expr.pairsUnplaced, Expr.printPairs, key.print_unplaced, value.print_unplaced,
      Expr.printPairs_unplaced pairs, Expr.printPairs]

theorem Block.print_unplaced : (b : Block) → b.unplaced.print = b.print
  | .mk _ body => by
    rw [Block.unplaced, Block.print, Block.printBody_unplaced body, Block.print]

theorem Block.printBody_unplaced : (ss : List Stmt) →
    Block.printBody (Stmt.allUnplaced ss) = Block.printBody ss
  | [] => rfl
  | s :: ss => by
    rw [Stmt.allUnplaced, Block.printBody, s.print_unplaced, Block.printBody_unplaced ss,
      Block.printBody]

theorem Stmt.print_unplaced : (s : Stmt) → s.unplaced.print = s.print
  | .binding _ name value => by simp [Stmt.unplaced, Stmt.print, Name.unplaced, value.print_unplaced]
  | .returning _ value => by simp [Stmt.unplaced, Stmt.print, value.print_unplaced]
  | .expression _ value => by simp [Stmt.unplaced, Stmt.print, value.print_unplaced]
  | .block b => by simp [Stmt.unplaced, Stmt.print, b.print_unplaced]

end

theorem Stmt.map_print_allUnplaced (ss : List Stmt) :
    (Stmt.allUnplaced ss).map Stmt.print = ss.map Stmt.print := by
  induction ss with
  | nil => rfl
  | cons s ss ih => simp [Stmt.allUnplaced, s.print_unplaced, ih]

/-- The comparison of trees sees everything that the printer shows. -/
theorem Program.print_eq_of_alike {p q : Program} (h : p.alike q = true) : p.print = q.print := by
  have hplain := (Stmt.allAlike_iff p.statements q.statements).mp h
  unfold Program.print
  rw [← Stmt.map_print_allUnplaced p.statements, hplain, Stmt.map_print_allUnplaced]

/-- The grammar is unambiguous: statements that are derived from the same tokens are the same,
whatever the levels of their derivations. -/
theorem Derives.unambiguous {m n : Nat} {ts : List Token} {ss ss' : List Stmt}
    (h : Derives .stmts m ts ss) (h' : Derives .stmts n ts ss') : ss = ss' := by
  -- A run with room for both derivations finds the statements of either.
  obtain ⟨s, hs, hstop⟩ : ∃ s : State, s.ahead = ts ∧ s.input.stop.kind = .endOfInput :=
    ⟨.ofStream ⟨ts, .atEnd defaultFile 0, ts.length, rfl⟩, rfl, rfl⟩
  obtain ⟨t, ht, -⟩ := (h.settles (max m n) hs hstop).reads (Nat.le_max_left m n)
  obtain ⟨t', ht', -⟩ := (h'.settles (max m n) hs hstop).reads (Nat.le_max_right m n)
  cases ht.symm.trans ht'
  rfl

theorem Program.Canonical.alike_of_print_eq {p q : Program} (hp : p.Canonical) (hq : q.Canonical)
    (h : p.print = q.print) : p.alike q = true := by
  obtain ⟨ss, hss, hsp⟩ := hp.derives_print defaultFile
  obtain ⟨ss', hss', hsq⟩ := hq.derives_print defaultFile
  rw [← h] at hss'
  obtain rfl : ss = ss' := hss.unambiguous hss'
  rw [Stmt.allAlike_iff] at hsp hsq
  exact (Stmt.allAlike_iff p.statements q.statements).mpr (hsp.symm.trans hsq)

/-- Every program that parsing yields is canonical, errors or not. -/
theorem canonical_parse (file source : String) : (parse file source).program.Canonical := by
  obtain ⟨ss, t, ht⟩ := exists_wholeStmts (.ofSource file source)
  have hlies := (Layer.orderly maxNesting).stmts (State.ofSource_sealed file source) _ ss t ht
  rw [parse_eq ht]
  exact hlies.canonical

/-- Two sources, with or without errors, parse to programs that are alike if and only if the
printed forms of the programs are the same text. -/
theorem alike_iff_print_eq (file a file' b : String) :
    (parse file a).program.alike (parse file' b).program = true ↔
      (parse file a).program.print = (parse file' b).program.print :=
  ⟨Program.print_eq_of_alike,
    (canonical_parse file a).alike_of_print_eq (canonical_parse file' b)⟩

end Scriptlet
