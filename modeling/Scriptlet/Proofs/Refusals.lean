import Mathlib.Logic.Basic
import Scriptlet.Proofs.Braces

/-! Why parsers fail. There are five reasons, each about the token that the parser stands on or
about the next one, and the reason is still to be seen where the failed run ends. So what becomes
of the diagnostics can be told by invariants of the tokens ahead and the diagnostics recorded: an
invariant that is kept by stepping on, and by recording a diagnostic for which there is a reason
and stepping on, holds after every run. -/
namespace Scriptlet

open Reader Scriptlet.Parser Layer

/-- There is a reason for the diagnostic where the parser stands. -/
inductive Refusal : Diagnostic → TokenStream → Prop
  | unexpected {ts : TokenStream} (h : ts.current.kind.opening? = none) :
      Refusal ⟨.unexpectedToken ts.current.kind ts.current.text, ts.current.position⟩ ts
  | mismatch {ts : TokenStream} {expected : Kind} (h : ts.peek.kind ≠ expected)
      (hbrace : expected ≠ .closeCurly) :
      Refusal ⟨.tokenMismatch expected ts.peek.kind ts.peek.text, ts.peek.position⟩ ts
  | unclosed {ts : TokenStream} (h : ts.current.kind = .endOfInput) (hend : ts.ahead = []) :
      Refusal ⟨.tokenMismatch .closeCurly .endOfInput ts.current.text, ts.current.position⟩ ts
  | outOfRange {ts : TokenStream} {n : Nat} (h : ts.current.kind = .number)
      (hn : Text.natural? ts.current.text.toList = some n) (hbound : Text.int64Bound ≤ n) :
      Refusal ⟨.integerOutOfRange ts.current.text, ts.current.position⟩ ts
  | nesting {ts : TokenStream} : Refusal ⟨.nestingTooDeep maxNesting, ts.current.position⟩ ts

/-- What is kept by stepping on and by recovery is an invariant. -/
class Invariant (I : TokenStream → List Diagnostic → Prop) : Prop where
  advance {ts : TokenStream} {ds : List Diagnostic} : I ts ds → I ts.advance ds
  recover {ts : TokenStream} {ds : List Diagnostic} {d : Diagnostic} :
    I ts ds → Refusal d ts → I ts.advance (ds ++ [d])

/-- The invariant holds in a state whose tokens are those of a source. -/
structure State.Meets (I : TokenStream → List Diagnostic → Prop) (s : State) : Prop where
  sealed : s.Sealed
  holds : I s.input s.errors.toList

/-- The invariant holds where the run ends, and a failure has its reason there. -/
def Leaves (I : TokenStream → List Diagnostic → Prop) {ε α : Type}
    (reason : ε → TokenStream → Prop) : EStateM.Result ε State α → Prop
  | .ok _ t => t.Meets I
  | .error e t => t.Meets I ∧ reason e t.input

/-- Every run of the reader keeps the invariant and fails only with a reason. -/
class Upholds (I : TokenStream → List Diagnostic → Prop) {ε α : Type}
    (reason : ε → TokenStream → Prop) (p : Reader ε α) : Prop where
  leaves {s : State} : s.Meets I → Leaves I reason (p s)

variable {I : TokenStream → List Diagnostic → Prop} {ε α β : Type}
  {reason : ε → TokenStream → Prop}

theorem Leaves.bind {p : Reader ε α} {f : α → Reader ε β} {s : State} (hp : Leaves I reason (p s))
    (hf : ∀ a t, t.Meets I → Leaves I reason (f a t)) : Leaves I reason ((p >>= f) s) := by
  cases hr : p s with
  | ok a t =>
    rw [hr] at hp
    rw [bind_of_ok hr]
    exact hf a t hp
  | error e t =>
    rw [hr] at hp
    rwa [bind_of_error hr]

namespace State.Meets

variable {s t : State}

theorem of_eq (h : s.Meets I) (hinput : t.input = s.input) (herrors : t.errors = s.errors) :
    t.Meets I := by
  obtain ⟨⟨hstop, hahead⟩, hI⟩ := h
  unfold State.ahead at hahead
  rw [← hinput] at hstop hahead hI
  rw [← herrors] at hI
  exact ⟨⟨hstop, hahead⟩, hI⟩

variable [Invariant I]

theorem advance (h : s.Meets I) : s.advance.Meets I :=
  ⟨h.sealed.advance, Invariant.advance h.holds⟩

theorem skipSemicolon (h : s.Meets I) : s.skipSemicolon.Meets I := by
  unfold State.skipSemicolon
  split
  · exact h.advance
  · exact h

/-- Recording a diagnostic and stepping on, with the terminator that may come next. -/
theorem recover {d : Diagnostic} (h : s.Meets I) (hd : Refusal d s.input) :
    (s.record d).skipSemicolon.advance.Meets I := by
  have hnext : (s.record d).advance.Meets I := by
    apply Meets.mk (h.sealed.record d).advance
    change I s.input.advance (s.errors.push d).toList
    rw [Array.toList_push]
    exact Invariant.recover h.holds hd
  unfold State.skipSemicolon
  split
  · exact hnext.advance
  · exact hnext

end State.Meets

namespace Upholds

instance {c : Prop} [Decidable c] {p q : Reader ε α} [Upholds I reason p] [Upholds I reason q] :
    Upholds I reason (if c then p else q) := by
  split <;> infer_instance

instance bind {p : Reader ε α} {f : α → Reader ε β} [hp : Upholds I reason p]
    [hf : ∀ a, Upholds I reason (f a)] : Upholds I reason (p >>= f) where
  leaves hs := (hp.leaves hs).bind fun a _ ht => (hf a).leaves ht

instance (priority := high) bind_unit {p : Reader ε Unit} {f : Unit → Reader ε β}
    [Upholds I reason p] [h : Upholds I reason (f ())] : Upholds I reason (p >>= f) := by
  have (u : Unit) : Upholds I reason (f u) := h
  exact bind

instance (a : α) : Upholds I reason (pure a : Reader ε α) where
  leaves hs := hs

instance : Upholds I reason (current : Reader ε Token) where
  leaves hs := hs

instance : Upholds I reason (peek : Reader ε Token) where
  leaves hs := hs

instance (e : Event) : Upholds I reason (note e : Reader ε Unit) where
  leaves hs := hs.of_eq rfl rfl

instance {e : Event} {p : Parser α} [hp : Upholds I Refusal p] :
    Upholds I Refusal (noting e p) where
  leaves {s} hs := by
    have hleaves := hp.leaves hs
    unfold noting
    cases hr : p s with
    | ok a t => rwa [hr] at hleaves
    | error d t =>
      rw [hr] at hleaves
      exact ⟨hleaves.1.of_eq rfl rfl, hleaves.2⟩

instance {p : Parser α} [hp : Upholds I Refusal p] : Upholds I Refusal (nest p) where
  leaves {s} hs := by
    have hleaves : Leaves I Refusal (p s.enter) := hp.leaves (hs.of_eq rfl rfl)
    unfold nest
    cases hr : p s.enter with
    | ok a t =>
      rw [hr] at hleaves
      exact State.Meets.of_eq hleaves rfl rfl
    | error d t =>
      rw [hr] at hleaves
      exact ⟨hleaves.1.of_eq rfl rfl, hleaves.2⟩

theorem repeatWhile {goesOn : State → Bool} {round : α → Reader ε α}
    [hround : ∀ a, Upholds I reason (round a)] (a : α) :
    Upholds I reason (Reader.repeatWhile goesOn round a) where
  leaves {s} hs := by
    induction a, s using repeatWhile_induction goesOn round with
    | next a s b t hgo hr hlt ih =>
      have ht := (hround a).leaves hs
      rw [hr] at ht
      rw [repeatWhile_of_ok hgo hr hlt]
      exact ih ht
    | idle a s b t hgo hr hidle =>
      rw [repeatWhile_of_idle hgo hr hidle, ← hr]
      exact (hround a).leaves hs
    | fail a s e t hgo hr =>
      rw [repeatWhile_of_error hgo hr, ← hr]
      exact (hround a).leaves hs
    | stop a s hgo =>
      rw [repeatWhile_of_stop hgo]
      exact hs

instance {goesOn : State → Bool} {item : Reader ε α} [Upholds I reason item] :
    Upholds I reason (collect goesOn item) := by
  unfold collect
  have (items : Array α) : Upholds I reason (gather item items) := by
    unfold gather
    infer_instance
  exact @bind _ _ _ _ _ _ _ (repeatWhile #[]) inferInstance

variable [Invariant I]

instance : Upholds I reason (advance : Reader ε Unit) where
  leaves hs := hs.advance

instance : Upholds I reason (skipSemicolon : Reader ε Unit) where
  leaves hs := hs.skipSemicolon

/-- A closing brace is never asked for in vain, so it is left out. -/
instance (kind : Kind) [hbrace : Fact (kind ≠ .closeCurly)] : Upholds I Refusal (expect kind) where
  leaves {s} hs := by
    by_cases hk : s.peek.kind = kind
    · rw [expect_of_eq hk]
      exact hs.advance
    · rw [expect_of_ne hk]
      exact ⟨hs.of_eq rfl rfl, .mismatch hk hbrace.out⟩

end Upholds

-- The kinds of token that are asked for; only the pairs of a hash ask for a closing brace.
instance : Fact (Kind.name ≠ .closeCurly) := ⟨by decide⟩
instance : Fact (Kind.assign ≠ .closeCurly) := ⟨by decide⟩
instance : Fact (Kind.colon ≠ .closeCurly) := ⟨by decide⟩
instance : Fact (Kind.comma ≠ .closeCurly) := ⟨by decide⟩
instance : Fact (Kind.openCurly ≠ .closeCurly) := ⟨by decide⟩
instance : Fact (Kind.openParen ≠ .closeCurly) := ⟨by decide⟩
instance : Fact (Kind.closeParen ≠ .closeCurly) := ⟨by decide⟩
instance : Fact (Kind.closeBracket ≠ .closeCurly) := ⟨by decide⟩

namespace Layer

class Upholds (I : TokenStream → List Diagnostic → Prop) (below : Layer) : Prop where
  expr (floor : Power) : Scriptlet.Upholds I Refusal (below.expr floor)
  block : Scriptlet.Upholds I Refusal below.block

attribute [instance] Upholds.expr Upholds.block

variable [Invariant I]

instance : Scriptlet.Upholds I Refusal readName := by
  unfold readName
  infer_instance

instance : Scriptlet.Upholds I Refusal nextParameter := by
  unfold nextParameter
  infer_instance

instance : Scriptlet.Upholds I Refusal parameters := by
  unfold parameters
  infer_instance

variable {below : Layer} [below.Upholds I]

instance : Scriptlet.Upholds I Refusal below.nextElement := by
  unfold nextElement
  infer_instance

instance (stop : Kind) [Fact (stop ≠ .closeCurly)] :
    Scriptlet.Upholds I Refusal (below.list stop) := by
  unfold list
  infer_instance

instance : Scriptlet.Upholds I Refusal below.pair := by
  unfold pair
  infer_instance

/-- The closing brace of a hash is there when its pairs are read. -/
instance [below.Ends] [below.Keeps State.Shrinks] [below.Keeps State.Seals] :
    Scriptlet.Upholds I Refusal below.pairs where
  leaves {s} hs := by
    have hread : Leaves I Refusal
        (collect (fun s => s.peek.kind ≠ .closeCurly) below.pair s) :=
      Scriptlet.Upholds.leaves hs
    cases hr : collect (fun s => s.peek.kind ≠ .closeCurly) below.pair s with
    | error d t =>
      rw [hr] at hread
      rw [pairs, bind_of_error hr]
      exact hread
    | ok ps t =>
      rw [hr] at hread
      have hstop := stops_of_collect (fun hs _ hi => remaining_lt_of_pair hs hi) hs.sealed hr
      have hclose : t.peek.kind = .closeCurly := by simpa using hstop
      rw [pairs, bind_of_ok hr, bind_of_ok (expect_of_eq hclose)]
      exact hread.advance

/-- A form that the current token begins. Only the integer asks for the kind of that token. -/
theorem leaves_opening [below.Ends] [below.Keeps State.Shrinks] [below.Keeps State.Seals]
    {form : Opening} {s : State} (hs : s.Meets I) (hform : s.current.kind.opening? = some form) :
    Leaves I Refusal (below.opening form s) := by
  have run {p : Parser Expr} (hp : Scriptlet.Upholds I Refusal p) : Leaves I Refusal (p s) :=
    hp.leaves hs
  cases form with
  | integer =>
    have hk : s.current.kind = .number := by
      cases hk : s.current.kind <;> rw [hk] at hform <;> cases hform
    have hmem : s.current ∈ s.ahead := by
      rw [hs.sealed.ahead_eq (by rw [hk]; decide)]
      exact List.mem_cons_self
    obtain ⟨hne, hdigits⟩ := (hs.sealed.ahead _ hmem).1.number hk
    have hvalue := Text.int64?_of_digits hne hdigits
    change Leaves I Refusal (integer s)
    rw [integer, current_bind, hvalue]
    by_cases hlt : Text.digitsValue s.current.text.toList < Text.int64Bound
    · rw [if_pos hlt]
      exact hs
    · rw [if_neg hlt]
      have hn := Text.natural?_eq_some_iff.mpr ⟨hne, hdigits, rfl⟩
      exact ⟨hs.of_eq rfl rfl, .outOfRange hk hn (Nat.le_of_not_lt hlt)⟩
  | name => unfold opening name; exact run inferInstance
  | text => unfold opening text; exact run inferInstance
  | boolean => unfold opening boolean; exact run inferInstance
  | unary => unfold opening unary; exact run inferInstance
  | group => unfold opening group; exact run inferInstance
  | array => unfold opening array; exact run inferInstance
  | hash => unfold opening hash; exact run inferInstance
  | conditional => unfold opening conditional; exact run inferInstance
  | function => unfold opening function; exact run inferInstance

instance (form : Joining) (left : Expr) (power : Power) :
    Scriptlet.Upholds I Refusal (below.joining form left power) := by
  cases form with
  | binary => unfold joining binary; infer_instance
  | call => unfold joining call; infer_instance
  | index => unfold joining index; infer_instance

instance (floor : Power) (left : Expr) :
    Scriptlet.Upholds I Refusal (below.extend floor left) := by
  unfold extend
  refine @Scriptlet.Upholds.bind _ _ _ _ _ _ _ _ fun next => ?_
  split <;> infer_instance

instance [below.Ends] [below.Keeps State.Shrinks] [below.Keeps State.Seals] (floor : Power) :
    Scriptlet.Upholds I Refusal (below.climb floor) where
  leaves {s} hs := by
    rw [climb, current_bind]
    cases hform : s.current.kind.opening? with
    | none => exact ⟨hs.of_eq rfl rfl, .unexpected hform⟩
    | some form =>
      apply (leaves_opening hs hform).bind
      intro first t ht
      exact (Scriptlet.Upholds.repeatWhile first).leaves ht

instance (form : Heading) : Scriptlet.Upholds I Refusal (below.heading form) := by
  cases form with
  | binding => unfold heading binding; infer_instance
  | returning => unfold heading returning; infer_instance

instance : Scriptlet.Upholds I Refusal below.stmt := by
  unfold stmt expression
  refine @Scriptlet.Upholds.bind _ _ _ _ _ _ _ _ fun token => ?_
  split <;> infer_instance

/-- Recovery records the diagnostic of a failed statement and steps on. -/
instance : Scriptlet.Upholds I reason (below.stmtOrSkip : Reader ε (Option Stmt)) where
  leaves {s} hs := by
    have hst : Leaves I Refusal (below.stmt s) := Scriptlet.Upholds.leaves hs
    cases hr : below.stmt s with
    | ok st t =>
      rw [hr] at hst
      rw [stmtOrSkip_of_ok hr]
      exact State.Meets.advance hst
    | error d t =>
      rw [hr] at hst
      rw [stmtOrSkip_of_error hr]
      exact hst.1.recover hst.2

instance (goesOn : State → Bool) :
    Scriptlet.Upholds I reason (below.stmts goesOn : Reader ε (List Stmt)) := by
  unfold stmts
  infer_instance

instance : Scriptlet.Upholds I Refusal below.braces where
  leaves {s} hs := by
    rw [braces, current_bind]
    apply Leaves.bind (p := advance) hs.advance
    intro _ t ht
    apply Leaves.bind (Scriptlet.Upholds.leaves ht)
    intro body u hu
    rw [current_bind]
    split
    next hend => exact ⟨hu.of_eq rfl rfl, .unclosed hend (hu.sealed.ahead_eq_nil hend)⟩
    next => exact hu

instance (n : Nat) : (ofRoom n).Upholds I := by
  induction n with
  | zero =>
    have hdeep {α : Type} : Scriptlet.Upholds I Refusal
        (do refuse (.nestingTooDeep maxNesting) (← current) : Parser α) :=
      ⟨fun hs => ⟨hs.of_eq rfl rfl, .nesting⟩⟩
    exact ⟨fun _ => hdeep, hdeep⟩
  | succ n ih => constructor <;> unfold ofRoom above <;> infer_instance

end Layer

/-- What holds of a source before anything is recorded, and is kept, holds of its end and of
everything that parsing records. -/
theorem Invariant.parse [Invariant I] (file source : String) (h : I (.ofSource file source) []) :
    ∃ ts, I ts (parse file source).errors := by
  obtain ⟨ss, t, ht⟩ := exists_wholeStmts (.ofSource file source)
  have hstart : (State.ofSource file source).Meets I := ⟨State.ofSource_sealed file source, h⟩
  have hend : Leaves I (fun _ _ => False) (wholeStmts (.ofSource file source)) :=
    Upholds.leaves hstart
  rw [ht] at hend
  rw [parse_eq ht]
  exact ⟨t.input, hend.holds⟩

end Scriptlet
