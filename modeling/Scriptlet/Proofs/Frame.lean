import Scriptlet.Parsing.Program

/-! Frames: a relation between the states before and after a run. If the elementary steps keep it,
then every parser keeps it, whether it succeeds or fails. That a parser keeps a relation is found
by instance search, which follows the text of the parser. -/
namespace Scriptlet

/-- The state that a run ends in, whatever its outcome. -/
def Reader.final {ε α : Type} : EStateM.Result ε State α → State
  | .ok _ t => t
  | .error _ t => t

/-- The event stands for a step that neither reads nor records anything, and stays at its depth. -/
def Event.isRemark : Event → Bool
  | applied _ _ _ => true
  | refused _ _ => true
  | abandoned _ => true
  | _ => false

theorem Event.diagnostic?_of_isRemark {e : Event} (h : e.isRemark = true) :
    e.diagnostic? = none := by
  cases e <;> simp_all [isRemark, diagnostic?]

/-- A relation that the elementary steps at one level of nesting keep. -/
class Stepwise (R : State → State → Prop) : Prop where
  refl (s : State) : R s s
  trans {s t u : State} : R s t → R t u → R s u
  advance (s : State) : R s s.advance
  note (s : State) {e : Event} : e.isRemark = true → R s (s.note e)
  record (s : State) (d : Diagnostic) : R s (s.record d)

/-- A relation that all elementary steps keep, a level entered and left again included. -/
class Frame (R : State → State → Prop) : Prop extends Stepwise R where
  nest {s t : State} : R s.enter t → R s t.leave

namespace Frame

export Stepwise (refl trans advance note record)

end Frame

/-- Every run of the reader keeps the relation. -/
class Keeps (R : State → State → Prop) {ε α : Type} (p : Reader ε α) : Prop where
  final (s : State) : R s (Reader.final (p s))

namespace Keeps

open Reader Scriptlet.Parser

variable {R : State → State → Prop} {ε α β : Type}

theorem of_ok {p : Reader ε α} [h : Keeps R p] {s t : State} {a : α} (hr : p s = .ok a t) :
    R s t := by
  have hs := h.final s
  rwa [hr] at hs

theorem of_error {p : Reader ε α} [h : Keeps R p] {s t : State} {e : ε}
    (hr : p s = .error e t) : R s t := by
  have hs := h.final s
  rwa [hr] at hs

instance {c : Prop} [Decidable c] {p q : Reader ε α} [Keeps R p] [Keeps R q] :
    Keeps R (if c then p else q) := by
  split <;> infer_instance

instance [Frame R] {p : Parser α} [Keeps R p] : Keeps R (nest p) where
  final s := by
    unfold nest
    split
    next a t h => exact Frame.nest (of_ok h)
    next d t h => exact Frame.nest (of_error h)

variable [Stepwise R]

instance (a : α) : Keeps R (pure a : Reader ε α) := ⟨fun s => Frame.refl s⟩

instance : Keeps R (current : Reader ε Token) := ⟨fun s => Frame.refl s⟩

instance : Keeps R (peek : Reader ε Token) := ⟨fun s => Frame.refl s⟩

instance : Keeps R (advance : Reader ε Unit) := ⟨fun s => Frame.advance s⟩

instance (kind : Kind) (power floor : Power) :
    Keeps R (note (.applied kind power floor) : Reader ε Unit) :=
  ⟨fun s => Frame.note s rfl⟩

instance (cause : Cause) (token : Token) : Keeps R (refuse cause token : Parser α) :=
  ⟨fun s => Frame.note s rfl⟩

theorem skipSemicolon_state (s : State) : R s s.skipSemicolon := by
  unfold State.skipSemicolon
  split
  · exact Frame.advance s
  · exact Frame.refl s

instance : Keeps R (skipSemicolon : Reader ε Unit) := ⟨skipSemicolon_state⟩

instance bind {p : Reader ε α} {f : α → Reader ε β} [Keeps R p] [hf : ∀ a, Keeps R (f a)] :
    Keeps R (p >>= f) where
  final s := by
    cases h : p s with
    | ok a t =>
      rw [bind_of_ok h]
      exact Frame.trans (of_ok h) ((hf a).final t)
    | error e t =>
      rw [bind_of_error h]
      exact of_error h

-- What follows a step without a result is searched for once, not for each result.
instance (priority := high) bind_unit {p : Reader ε Unit} {f : Unit → Reader ε β} [Keeps R p]
    [h : Keeps R (f ())] : Keeps R (p >>= f) := by
  have (u : Unit) : Keeps R (f u) := h
  exact bind

instance (kind : Kind) : Keeps R (expect kind) := by
  unfold expect
  infer_instance

instance {token : Token} {p : Parser α} [Keeps R p] : Keeps R (noting (.abandoned token) p) where
  final s := by
    unfold noting
    split
    next a t h => exact of_ok h
    next d t h => exact Frame.trans (of_error h) (Frame.note t rfl)

instance {p : Parser α} [Keeps R p] : Keeps R (recovering p : Reader ε (Option α)) where
  final s := by
    unfold recovering
    split
    next a t h => exact of_ok h
    next d t h =>
      exact Frame.trans (of_error h) (Frame.trans (Frame.record t d) (skipSemicolon_state _))

theorem repeatWhile {goesOn : State → Bool} {round : α → Reader ε α}
    [∀ a, Keeps R (round a)] (a : α) : Keeps R (Reader.repeatWhile goesOn round a) where
  final s := by
    induction a, s using repeatWhile_induction goesOn round with
    | next a s b t hgo hr hlt ih =>
      rw [repeatWhile_of_ok hgo hr hlt]
      exact Frame.trans (of_ok hr) ih
    | idle a s b t hgo hr hidle =>
      rw [repeatWhile_of_idle hgo hr hidle]
      exact of_ok hr
    | fail a s e t hgo hr =>
      rw [repeatWhile_of_error hgo hr]
      exact of_error hr
    | stop a s hgo =>
      rw [repeatWhile_of_stop hgo]
      exact Frame.refl s

instance {goesOn : State → Bool} {item : Reader ε α} [Keeps R item] :
    Keeps R (collect goesOn item) := by
  unfold collect
  have (items : Array α) : Keeps R (gather item items) := by
    unfold gather
    infer_instance
  exact @bind _ _ _ _ _ _ _ (repeatWhile #[]) inferInstance

end Keeps

namespace Layer

open Reader Scriptlet.Parser

variable {R : State → State → Prop}

class Keeps (R : State → State → Prop) (below : Layer) : Prop where
  expr (floor : Power) : Scriptlet.Keeps R (below.expr floor)
  block : Scriptlet.Keeps R below.block

attribute [instance] Keeps.expr Keeps.block

section Handlers

variable [Stepwise R]

instance : Scriptlet.Keeps R readName := by
  unfold readName
  infer_instance

instance : Scriptlet.Keeps R integer := by
  unfold integer
  refine @Scriptlet.Keeps.bind _ _ _ _ _ _ _ _ fun token => ?_
  split <;> infer_instance

instance : Scriptlet.Keeps R nextParameter := by
  unfold nextParameter
  infer_instance

instance : Scriptlet.Keeps R parameters := by
  unfold parameters
  infer_instance

variable {below : Layer} [below.Keeps R]

instance : Scriptlet.Keeps R below.nextElement := by
  unfold nextElement
  infer_instance

instance (stop : Kind) : Scriptlet.Keeps R (below.list stop) := by
  unfold list
  infer_instance

instance : Scriptlet.Keeps R below.pair := by
  unfold pair
  infer_instance

instance : Scriptlet.Keeps R below.pairs := by
  unfold pairs
  infer_instance

instance (form : Opening) : Scriptlet.Keeps R (below.opening form) := by
  cases form with
  | name => unfold opening name; infer_instance
  | integer => unfold opening; infer_instance
  | text => unfold opening text; infer_instance
  | boolean => unfold opening boolean; infer_instance
  | unary => unfold opening unary; infer_instance
  | group => unfold opening group; infer_instance
  | array => unfold opening array; infer_instance
  | hash => unfold opening hash; infer_instance
  | conditional => unfold opening conditional; infer_instance
  | function => unfold opening function; infer_instance

instance (form : Joining) (left : Expr) (power : Power) :
    Scriptlet.Keeps R (below.joining form left power) := by
  cases form with
  | binary => unfold joining binary; infer_instance
  | call => unfold joining call; infer_instance
  | index => unfold joining index; infer_instance

instance (floor : Power) (left : Expr) : Scriptlet.Keeps R (below.extend floor left) := by
  unfold extend
  refine @Scriptlet.Keeps.bind _ _ _ _ _ _ _ _ fun next => ?_
  split <;> infer_instance

instance (floor : Power) : Scriptlet.Keeps R (below.climb floor) := by
  unfold climb
  refine @Scriptlet.Keeps.bind _ _ _ _ _ _ _ _ fun token => ?_
  split
  · infer_instance
  · exact @Scriptlet.Keeps.bind _ _ _ _ _ _ _ _ fun first => .repeatWhile first

instance (form : Heading) : Scriptlet.Keeps R (below.heading form) := by
  cases form with
  | binding =>
    change Scriptlet.Keeps R below.binding
    unfold binding
    infer_instance
  | returning => unfold heading returning; infer_instance

instance : Scriptlet.Keeps R below.stmt := by
  unfold stmt expression
  refine @Scriptlet.Keeps.bind _ _ _ _ _ _ _ _ fun token => ?_
  split <;> infer_instance

instance {ε : Type} : Scriptlet.Keeps R (below.stmtOrSkip : Reader ε (Option Stmt)) := by
  unfold stmtOrSkip
  infer_instance

instance {ε : Type} (goesOn : State → Bool) :
    Scriptlet.Keeps R (below.stmts goesOn : Reader ε (List Stmt)) := by
  unfold stmts
  infer_instance

instance : Scriptlet.Keeps R below.braces := by
  unfold braces
  infer_instance

end Handlers

instance [Frame R] (n : Nat) : (ofRoom n).Keeps R := by
  induction n with
  | zero => constructor <;> unfold ofRoom deepest <;> infer_instance
  | succ n ih => constructor <;> unfold ofRoom above <;> infer_instance

end Layer

end Scriptlet
