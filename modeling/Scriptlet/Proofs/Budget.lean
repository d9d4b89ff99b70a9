import Scriptlet.Proofs.Braces

/-! What a source can pay for. Every statement that is read and every diagnostic that is recorded
takes a token of its own: the token that the statement starts at, however deeply its block is
nested. So diagnostics and statements together are never more than the tokens. -/
namespace Scriptlet

open Reader Scriptlet.Parser Layer

mutual

def Expr.nested : Expr → Nat
  | .name .. => 0
  | .integer .. => 0
  | .boolean .. => 0
  | .text .. => 0
  | .unary _ _ right => right.nested
  | .binary _ left _ right => left.nested + right.nested
  | .conditional _ condition consequence none => condition.nested + consequence.nested
  | .conditional _ condition consequence (some alternative) =>
    condition.nested + consequence.nested + alternative.nested
  | .function _ _ body => body.nested
  | .call _ callee arguments => callee.nested + Expr.allNested arguments
  | .array _ elements => Expr.allNested elements
  | .index _ left index => left.nested + index.nested
  | .hash _ pairs => Expr.pairsNested pairs

def Expr.allNested : List Expr → Nat
  | [] => 0
  | e :: es => e.nested + Expr.allNested es

def Expr.pairsNested : List (Expr × Expr) → Nat
  | [] => 0
  | (key, value) :: pairs => key.nested + value.nested + Expr.pairsNested pairs

def Block.nested : Block → Nat
  | .mk _ body => Stmt.count body

def Stmt.nested : Stmt → Nat
  | .binding _ _ value => value.nested
  | .returning _ value => value.nested
  | .expression _ value => value.nested
  | .block b => b.nested

def Stmt.count : List Stmt → Nat
  | [] => 0
  | s :: ss => 1 + s.nested + Stmt.count ss

end

/-- How many statements a program has, those in blocks included. -/
def Program.stmtCount (p : Program) : Nat :=
  Stmt.count p.statements

namespace State

/-- The diagnostics recorded and the tokens behind the current one. -/
def tally (s : State) : Nat :=
  s.errors.size + s.after.length

/-- The diagnostics recorded and the tokens from the current one on. -/
def load (s : State) : Nat :=
  s.errors.size + s.ahead.length

theorem load_advance (s : State) : s.advance.load = s.tally := rfl

theorem tally_le_load (s : State) : s.tally ≤ s.load := by
  have hle : s.after.length ≤ s.ahead.length := by simp [after, ahead]
  unfold tally load
  omega

theorem tally_advance_le (s : State) : s.advance.tally ≤ s.tally :=
  s.advance.tally_le_load

theorem tally_skipSemicolon_le (s : State) : s.skipSemicolon.tally ≤ s.tally := by
  unfold skipSemicolon
  split
  · exact s.tally_advance_le
  · exact Nat.le_refl _

theorem tally_record (s : State) (d : Diagnostic) : (s.record d).tally = s.tally + 1 := by
  have hsize : (s.record d).errors.size = s.errors.size + 1 := Array.size_push d
  have hafter : (s.record d).after.length = s.after.length := rfl
  unfold tally
  omega

theorem Sealed.load_eq {s : State} (hs : s.Sealed) (hne : s.current.kind ≠ .endOfInput) :
    s.load = s.tally + 1 := by
  have hlength : s.ahead.length = s.after.length + 1 := by
    rw [hs.ahead_eq hne, List.length_cons]
  unfold load tally
  omega

end State

/-- What a run comes to by a measure of states: that of the state it ends in, and the statements in
its result. -/
def cost (measure : State → Nat) {ε α : Type} (count : α → Nat) : EStateM.Result ε State α → Nat
  | .ok a t => measure t + count a
  | .error _ t => measure t

/-- A run of the reader from `s` comes to at most the given amount. -/
def Costs {ε α : Type} (count : α → Nat) (p : Reader ε α) (s : State) (v : Nat) : Prop :=
  cost State.tally count (p s) ≤ v

/-- A loop stays within a measure that its rounds stay within. -/
theorem cost_collect_le {measure : State → Nat} {ε α : Type} {count : α → Nat}
    {counts : List α → Nat} {goesOn : State → Bool} {item : Reader ε α} [Keeps State.Seals item]
    (hnil : counts [] = 0) (hcons : ∀ a as, counts (a :: as) = count a + counts as)
    (hitem : ∀ s : State, s.Sealed → goesOn s = true → cost measure count (item s) ≤ measure s)
    {s : State} (hs : s.Sealed) :
    cost measure counts (collect goesOn item s) ≤ measure s := by
  -- From the last round on: what the later rounds cost is counted from where this one ends.
  induction s using collect_induction goesOn item with
  | stop s hgo =>
    rw [collect_of_stop hgo]
    simp [cost, hnil]
  | fail s e t hgo hi =>
    have hround := hitem s hs hgo
    rw [hi] at hround
    rw [collect_of_error hgo hi]
    exact hround
  | idle s a t hgo hi hidle =>
    have hround := hitem s hs hgo
    rw [hi] at hround
    rw [Settles.collect_of_idle hgo hi hidle]
    simp only [cost, hcons, hnil, Nat.add_zero] at hround ⊢
    exact hround
  | next s a t hgo hi hlt ih =>
    have hround := hitem s hs hgo
    have hrest := ih (hs.of_ok hi)
    rw [hi] at hround
    rw [collect_of_ok hgo hi hlt]
    cases hc : collect goesOn item t with
    | ok as u =>
      rw [hc] at hrest
      simp only [cost, hcons] at hround hrest ⊢
      omega
    | error e u =>
      rw [hc] at hrest
      simp only [cost] at hround hrest ⊢
      omega

namespace Costs

variable {ε α β : Type} {count : α → Nat} {count' : β → Nat} {s : State} {v w : Nat}

theorem mono {p : Reader ε α} (h : Costs count p s v) (hv : v ≤ w) : Costs count p s w :=
  Nat.le_trans h hv

theorem pure {a : α} (h : s.tally + count a ≤ v) : Costs count (Pure.pure a : Reader ε α) s v := h

theorem of_load {p : Reader ε α} (h : cost State.load count (p s) ≤ v) : Costs count p s v := by
  unfold Costs
  cases hr : p s with
  | ok a t =>
    have hle := t.tally_le_load
    rw [hr] at h
    simp only [cost] at h ⊢
    omega
  | error e t =>
    rw [hr] at h
    exact Nat.le_trans t.tally_le_load h

theorem refuse {cause : Cause} {token : Token} (h : s.tally ≤ v) :
    Costs count (Parser.refuse cause token) s v := h

theorem current {f : Token → Reader ε β} (h : Costs count' (f s.current) s v) :
    Costs count' (Reader.current >>= f) s v := h

theorem peek {f : Token → Reader ε β} (h : Costs count' (f s.peek) s v) :
    Costs count' (Reader.peek >>= f) s v := h

theorem readName {f : Name → Parser β} (h : Costs count' (f ⟨s.current, s.current.text⟩) s v) :
    Costs count' (Layer.readName >>= f) s v := h

theorem step {f : Unit → Reader ε β} (h : Costs count' (f ()) s.advance v) :
    Costs count' (Reader.advance >>= f) s v := h

theorem advance {f : Unit → Reader ε β} (hs : s.Sealed)
    (h : ∀ t : State, t.Sealed → t.tally ≤ s.tally → Costs count' (f ()) t v) :
    Costs count' (Reader.advance >>= f) s v :=
  step (h s.advance hs.advance s.tally_advance_le)

theorem skipSemicolon {f : Unit → Reader ε β}
    (h : ∀ t : State, t.tally ≤ s.tally → Costs count' (f ()) t v) :
    Costs count' (Reader.skipSemicolon >>= f) s v :=
  h s.skipSemicolon s.tally_skipSemicolon_le

theorem expect {kind : Kind} {f : Unit → Parser β} (hs : s.Sealed) (hv : s.tally ≤ v)
    (h : ∀ t : State, t.Sealed → t.tally ≤ s.tally → Costs count' (f ()) t v) :
    Costs count' (Parser.expect kind >>= f) s v := by
  by_cases hk : s.peek.kind = kind
  · have hrun : (Parser.expect kind >>= f) s = f () s.advance := bind_of_ok (expect_of_eq hk)
    rw [Costs, hrun]
    exact h s.advance hs.advance s.tally_advance_le
  · rw [Costs, bind_of_error (expect_of_ne hk)]
    exact hv

theorem bind {p : Reader ε α} {f : α → Reader ε β} [Keeps State.Seals p] (hs : s.Sealed)
    (hp : Costs count p s w) (hw : w ≤ v)
    (hf : ∀ a t, t.Sealed → t.tally + count a ≤ w → Costs count' (f a) t v) :
    Costs count' (p >>= f) s v := by
  unfold Costs at hp
  cases hr : p s with
  | error e t =>
    rw [hr] at hp
    rw [Costs, bind_of_error hr]
    exact Nat.le_trans hp hw
  | ok a t =>
    rw [hr] at hp
    rw [Costs, bind_of_ok hr]
    exact hf a t (hs.of_ok hr) hp

theorem nest {p : Parser α} (h : Costs count p s.enter v) : Costs count (Parser.nest p) s v := by
  unfold Costs Parser.nest at *
  cases hr : p s.enter with
  | ok a t =>
    rw [hr] at h
    exact h
  | error d t =>
    rw [hr] at h
    exact h

theorem noting {e : Event} {p : Parser α} (h : Costs count p s v) :
    Costs count (Parser.noting e p) s v := by
  unfold Costs Parser.noting at *
  cases hr : p s with
  | ok a t =>
    rw [hr] at h
    exact h
  | error d t =>
    rw [hr] at h
    exact h

/-- A loop whose rounds build on what was built before. -/
theorem repeatWhile {goesOn : State → Bool} {round : α → Reader ε α}
    [∀ a, Keeps State.Seals (round a)]
    (h : ∀ a (s : State), s.Sealed → Costs count (round a) s (s.tally + count a))
    (hs : s.Sealed) (a : α) :
    Costs count (Reader.repeatWhile goesOn round a) s (s.tally + count a) := by
  unfold Costs at h ⊢
  induction a, s using repeatWhile_induction goesOn round with
  | next a s b t hgo hr hlt ih =>
    have hround := h a s hs
    rw [hr] at hround
    rw [repeatWhile_of_ok hgo hr hlt]
    exact Nat.le_trans (ih (hs.of_ok hr)) hround
  | idle a s b t hgo hr hidle =>
    rw [repeatWhile_of_idle hgo hr hidle, ← hr]
    exact h a s hs
  | fail a s e t hgo hr =>
    rw [repeatWhile_of_error hgo hr, ← hr]
    exact h a s hs
  | stop a s hgo =>
    rw [repeatWhile_of_stop hgo]
    exact Nat.le_refl _

end Costs

/-- A layer that pays for what it reads with the tokens behind the current one. -/
structure Solvent (n : Nat) : Prop where
  expr {floor : Power} {s : State} : s.Sealed → Costs Expr.nested ((ofRoom n).expr floor) s s.tally
  block {s : State} : s.Sealed → Costs Block.nested (ofRoom n).block s s.tally

namespace Solvent

variable {n : Nat} {s : State}

theorem nextElement (h : Solvent n) (hs : s.Sealed) :
    Costs Expr.nested (ofRoom n).nextElement s s.tally := by
  apply Costs.advance hs
  intro t ht hst
  apply Costs.advance ht
  intro u hu htu
  exact (h.expr hu).mono (by omega)

theorem list (h : Solvent n) (hs : s.Sealed) (stop : Kind) :
    Costs Expr.allNested ((ofRoom n).list stop) s s.tally := by
  apply Costs.peek
  apply Costs.advance hs
  intro t ht hst
  split
  next => exact .pure hst
  next =>
    apply Costs.bind ht (h.expr ht) hst
    intro first u hu hfirst
    have hothers : Costs Expr.allNested
        (collect (fun s => s.peek.kind = .comma) (ofRoom n).nextElement) u u.tally :=
      cost_collect_le rfl (fun _ _ => rfl) (fun s hs _ => h.nextElement hs) hu
    apply Costs.bind hu hothers (by omega)
    intro others x hx hrest
    apply Costs.expect hx (by omega)
    intro y _ hxy
    apply Costs.pure
    simp only [Expr.allNested]
    omega

theorem pair (h : Solvent n) (hs : s.Sealed) :
    Costs (fun p => p.1.nested + p.2.nested) (ofRoom n).pair s s.tally := by
  apply Costs.advance hs
  intro t ht hst
  apply Costs.bind ht (h.expr ht) hst
  intro key u hu hkey
  apply Costs.expect hu (by omega)
  intro x hx hux
  apply Costs.advance hx
  intro y hy hxy
  apply Costs.bind hy (h.expr hy) (by omega)
  intro value z hz hvalue
  apply Costs.peek
  split
  next =>
    apply Costs.expect hz (by omega)
    intro z' _ hz'
    exact .pure (by dsimp only; omega)
  next => exact .pure (by dsimp only; omega)

theorem hash (h : Solvent n) (hs : s.Sealed) :
    Costs Expr.nested (ofRoom n).hash s s.tally := by
  have hread : Costs Expr.pairsNested
      (collect (fun s => s.peek.kind ≠ .closeCurly) (ofRoom n).pair) s s.tally :=
    cost_collect_le rfl (fun _ _ => rfl) (fun s hs _ => h.pair hs) hs
  have hpairs : Costs Expr.pairsNested (ofRoom n).pairs s s.tally := by
    apply Costs.bind hs hread (Nat.le_refl _)
    intro ps t ht hps
    apply Costs.expect ht (by omega)
    intro u _ htu
    exact .pure (by omega)
  apply Costs.current
  apply Costs.bind hs hpairs.noting (Nat.le_refl _)
  intro ps t ht hps
  exact .pure hps

theorem nextBlock {β : Type} {count' : β → Nat} {f : Block → Parser β} {v : Nat}
    (h : Solvent n) (hs : s.Sealed) (hv : s.tally ≤ v)
    (hf : ∀ b t, t.Sealed → t.tally + b.nested ≤ s.tally → Costs count' (f b) t v) :
    Costs count' (expect .openCurly >>= fun _ => (ofRoom n).block >>= f) s v := by
  apply Costs.expect hs hv
  intro t ht hst
  apply Costs.bind ht (h.block ht) (by omega)
  intro b u hu hb
  exact hf b u hu (by omega)

theorem conditional (h : Solvent n) (hs : s.Sealed) :
    Costs Expr.nested (ofRoom n).conditional s s.tally := by
  apply Costs.current
  apply Costs.expect hs (Nat.le_refl _)
  intro t ht hst
  apply Costs.advance ht
  intro u hu htu
  apply Costs.bind hu (h.expr hu) (by omega)
  intro condition x hx hcondition
  apply Costs.expect hx (by omega)
  intro y hy hxy
  apply h.nextBlock hy (by omega)
  intro consequence z hz hconsequence
  apply Costs.peek
  split
  next =>
    apply Costs.advance hz
    intro z' hz' hzz'
    apply h.nextBlock hz' (by omega)
    intro alternative last _ halternative
    apply Costs.pure
    simp only [Expr.nested]
    omega
  next =>
    apply Costs.pure
    simp only [Expr.nested]
    omega

theorem nextParameter (hs : s.Sealed) : Costs (fun _ => 0) Layer.nextParameter s s.tally := by
  apply Costs.advance hs
  intro t ht hst
  apply Costs.expect ht hst
  intro u _ htu
  exact .current (.pure (by omega))

theorem parameters (hs : s.Sealed) : Costs (fun _ => 0) Layer.parameters s s.tally := by
  apply Costs.peek
  split
  next =>
    apply Costs.advance hs
    intro t _ hst
    exact .pure hst
  next =>
    apply Costs.expect hs (Nat.le_refl _)
    intro t ht hst
    apply Costs.readName
    have hothers : Costs (fun _ => 0)
        (collect (fun s => s.peek.kind = .comma) Layer.nextParameter) t t.tally := by
      apply cost_collect_le rfl (fun _ _ => rfl) ?_ ht
      intro s hs _
      exact nextParameter hs
    apply Costs.bind ht hothers hst
    intro names u hu hnames
    apply Costs.expect hu (by omega)
    intro x _ hux
    exact .pure (by omega)

theorem function (h : Solvent n) (hs : s.Sealed) :
    Costs Expr.nested (ofRoom n).function s s.tally := by
  apply Costs.current
  apply Costs.expect hs (Nat.le_refl _)
  intro t ht hst
  apply Costs.bind ht (parameters ht) hst
  intro names u hu hnames
  apply h.nextBlock hu (by omega)
  intro body x _ hbody
  apply Costs.pure
  simp only [Expr.nested]
  omega

theorem opening (h : Solvent n) (hs : s.Sealed) (form : Opening) :
    Costs Expr.nested ((ofRoom n).opening form) s s.tally := by
  cases form with
  | name => exact .current (.pure (Nat.le_refl _))
  | integer =>
    apply Costs.current
    split
    next => exact .pure (Nat.le_refl _)
    next => exact .refuse (Nat.le_refl _)
  | text => exact .current (.pure (Nat.le_refl _))
  | boolean => exact .current (.pure (Nat.le_refl _))
  | unary =>
    apply Costs.current
    apply Costs.advance hs
    intro t ht hst
    apply Costs.bind ht (h.expr ht) hst
    intro right u _ hright
    exact .pure (by simp only [Expr.nested]; omega)
  | group =>
    apply Costs.advance hs
    intro t ht hst
    apply Costs.bind ht (h.expr ht) hst
    intro inner u hu hinner
    apply Costs.expect hu (by omega)
    intro x _ hux
    exact .pure (by omega)
  | array =>
    apply Costs.current
    apply Costs.bind hs (h.list hs _) (Nat.le_refl _)
    intro elements t _ helements
    exact .pure helements
  | hash => exact h.hash hs
  | conditional => exact h.conditional hs
  | function => exact h.function hs

/-- The first operand has been paid for. -/
theorem joining (h : Solvent n) (hs : s.Sealed) (form : Joining) (left : Expr) (power : Power) :
    Costs Expr.nested ((ofRoom n).joining form left power) s (s.tally + left.nested) := by
  cases form with
  | binary =>
    apply Costs.current
    apply Costs.advance hs
    intro t ht hst
    apply Costs.bind ht (h.expr ht) (by omega)
    intro right u _ hright
    exact .pure (by simp only [Expr.nested]; omega)
  | call =>
    apply Costs.current
    apply Costs.bind hs (h.list hs _) (by omega)
    intro arguments t _ harguments
    exact .pure (by simp only [Expr.nested]; omega)
  | index =>
    apply Costs.current
    apply Costs.advance hs
    intro t ht hst
    apply Costs.bind ht (h.expr ht) (by omega)
    intro index u hu hindex
    apply Costs.expect hu (by omega)
    intro x _ hux
    exact .pure (by simp only [Expr.nested]; omega)

theorem extend (h : Solvent n) (hs : s.Sealed) (floor : Power) (left : Expr) :
    Costs Expr.nested ((ofRoom n).extend floor left) s (s.tally + left.nested) := by
  apply Costs.peek
  split
  next => exact .pure (Nat.le_refl _)
  next form power hj =>
    have hnote := hs.note (.applied s.peek.kind power floor)
    have hle : (s.note (.applied s.peek.kind power floor)).advance.tally ≤ s.tally :=
      s.tally_advance_le
    exact (h.joining hnote.advance form left power).mono (by omega)

theorem climb (h : Solvent n) (hs : s.Sealed) (floor : Power) :
    Costs Expr.nested ((ofRoom n).climb floor) s s.tally := by
  apply Costs.current
  split
  next => exact .refuse (Nat.le_refl _)
  next form _ =>
    apply Costs.bind hs (h.opening hs form) (Nat.le_refl _)
    intro first t ht hfirst
    exact (Costs.repeatWhile (fun left u hu => h.extend hu floor left) ht first).mono hfirst

theorem value (h : Solvent n) (hs : s.Sealed) {v : Nat} (hv : s.tally ≤ v) {f : Expr → Stmt}
    (hf : ∀ e, (f e).nested = e.nested) :
    Costs Stmt.nested (do
      let e ← (ofRoom n).expr .lowest
      skipSemicolon
      return f e) s v := by
  apply Costs.bind hs (h.expr hs) hv
  intro e t _ he
  apply Costs.skipSemicolon
  intro u htu
  apply Costs.pure
  rw [hf]
  omega

theorem stmt (h : Solvent n) (hs : s.Sealed) : Costs Stmt.nested (ofRoom n).stmt s s.tally := by
  apply Costs.current
  cases s.current.kind.heading? with
  | none => exact .current (h.value hs (Nat.le_refl _) fun _ => rfl)
  | some form =>
    cases form with
    | binding =>
      apply Costs.current
      apply Costs.expect hs (Nat.le_refl _)
      intro t ht hst
      apply Costs.readName
      apply Costs.expect ht hst
      intro u hu htu
      apply Costs.advance hu
      intro x hx hux
      exact h.value hx (by omega) fun _ => rfl
    | returning =>
      apply Costs.current
      apply Costs.advance hs
      intro t ht hst
      exact h.value ht hst fun _ => rfl

/-- A statement costs its first token, whether it is read or a diagnostic is recorded for it. -/
theorem stmtOrSkip {ε : Type} (h : Solvent n) (hs : s.Sealed)
    (hne : s.current.kind ≠ .endOfInput) :
    cost State.load (fun st? : Option Stmt => Stmt.count st?.toList)
      (((ofRoom n).stmtOrSkip : Reader ε _) s) ≤ s.load := by
  have hstmt := h.stmt hs
  unfold Costs at hstmt
  -- What the current token adds to the load is for the statement itself or for its diagnostic.
  rw [hs.load_eq hne]
  cases hr : (ofRoom n).stmt s with
  | ok st t =>
    rw [hr] at hstmt
    rw [stmtOrSkip_of_ok hr]
    simp only [cost, State.load_advance, Option.toList_some, Stmt.count] at hstmt ⊢
    omega
  | error d t =>
    have hle := (t.record d).tally_skipSemicolon_le
    rw [hr] at hstmt
    rw [stmtOrSkip_of_error hr]
    simp only [cost, State.load_advance, State.tally_record, Option.toList_none,
      Stmt.count] at hstmt hle ⊢
    omega

theorem stmts {ε : Type} (h : Solvent n) (goesOn : State → Bool) (hs : s.Sealed)
    (hgo : ∀ s : State, goesOn s = true → s.current.kind ≠ .endOfInput) :
    cost State.load Stmt.count (((ofRoom n).stmts goesOn : Reader ε _) s) ≤ s.load := by
  have hread : cost State.load (fun read : List (Option Stmt) => Stmt.count (read.filterMap id))
      ((collect goesOn (ofRoom n).stmtOrSkip : Reader ε _) s) ≤ s.load := by
    apply cost_collect_le rfl ?_ (fun s hs hg => h.stmtOrSkip hs (hgo s hg)) hs
    intro st? read
    cases st? <;> simp [Stmt.count]
  cases hr : (collect goesOn (ofRoom n).stmtOrSkip : Reader ε _) s with
  | error e t =>
    rw [hr] at hread
    rw [Layer.stmts, bind_of_error hr]
    exact hread
  | ok read t =>
    rw [hr] at hread
    rw [Layer.stmts, bind_of_ok hr]
    exact hread

theorem braces (h : Solvent n) (hs : s.Sealed) :
    Costs Block.nested (ofRoom n).braces s s.tally := by
  have hbody := h.stmts (ε := Diagnostic)
    (fun s => s.current.kind ≠ .closeCurly && s.current.kind ≠ .endOfInput) hs.advance
    fun s hgo => by simpa using (Bool.and_eq_true_iff.mp hgo).2
  rw [State.load_advance] at hbody
  -- The closing brace is one token more than has to be paid.
  apply Costs.current
  apply Costs.step
  apply Costs.bind hs.advance (.of_load hbody) (Nat.le_refl _)
  intro body t _ hcount
  apply Costs.current
  split
  next => exact .refuse (by omega)
  next => exact .pure hcount

theorem succ (h : Solvent n) : Solvent (n + 1) where
  expr {floor _} hs := (h.climb hs.enter floor).nest
  block hs := (h.braces hs.enter).nest

end Solvent

theorem Layer.solvent (n : Nat) : Solvent n := by
  induction n with
  | zero =>
    constructor
    · intro floor s _
      exact .current (.refuse (Nat.le_refl _))
    · intro s _
      exact .current (.refuse (Nat.le_refl _))
  | succ n ih => exact ih.succ

/-- At first nothing is recorded, and every token is ahead but the one that ends the source. -/
theorem State.load_ofSource (file source : String) :
    (State.ofSource file source).load =
      (tokenize file source).countP (·.kind ≠ .endOfInput) := by
  have hs := State.ofSource_sealed file source
  have hahead : (State.ofSource file source).ahead.countP (·.kind ≠ .endOfInput) =
      (State.ofSource file source).ahead.length := by
    apply List.countP_eq_length.mpr
    intro t ht
    exact decide_eq_true (hs.ahead t ht).2
  have hlist : tokenize file source =
      (State.ofSource file source).ahead ++ [(State.ofSource file source).input.stop] := rfl
  have hnone : (State.ofSource file source).errors.size = 0 := rfl
  rw [hlist, List.countP_append, hahead, List.countP_singleton, hs.stop, State.load, hnone]
  simp

/-- The diagnostics and the statements of a source, those in blocks included, are together no more
than its tokens. -/
theorem errors_add_stmtCount_le (file source : String) :
    (parse file source).errors.length + (parse file source).program.stmtCount ≤
      (tokenize file source).countP (·.kind ≠ .endOfInput) := by
  obtain ⟨ss, t, ht⟩ := exists_wholeStmts (.ofSource file source)
  have hs := State.ofSource_sealed file source
  have hcost : cost State.load Stmt.count (wholeStmts (.ofSource file source)) ≤
      (State.ofSource file source).load :=
    (Layer.solvent maxNesting).stmts _ hs fun s hgo => of_decide_eq_true hgo
  rw [ht, State.load_ofSource] at hcost
  rw [parse_eq ht]
  simp only [cost, State.load, Array.length_toList, Program.stmtCount] at hcost ⊢
  omega

end Scriptlet
