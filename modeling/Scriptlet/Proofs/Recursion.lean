import Scriptlet.Proofs.Frame

/-! The parsers as a recursive descent with a counter of its depth. The room of the layer that a
parser runs with is the room that the depth of the state leaves below the limit. So each expression
and each block tests the depth before it is read, and reads what is nested in it with the parsers at
the depth of the state again. -/
namespace Scriptlet

open Reader Scriptlet.Parser

def State.Level (s t : State) : Prop :=
  t.depth = s.depth

instance : Frame State.Level where
  refl _ := rfl
  trans hst htu := htu.trans hst
  advance _ := rfl
  note _ _ _ := rfl
  record _ _ := rfl
  nest {s t} h := by
    have ht : t.depth = s.depth + 1 := h
    simp [State.Level, State.leave, ht]

/-- From states at the depth the readers run alike, and come back to it. -/
class SameAt (depth : Nat) {ε α : Type} (p q : Reader ε α) : Prop where
  eq {s : State} : s.depth = depth → p s = q s
  level : Keeps State.Level q

namespace SameAt

variable {depth : Nat} {ε α β : Type}

theorem depth_eq {p q : Reader ε α} (h : SameAt depth p q) {s t : State} {a : α}
    (hs : s.depth = depth) (hr : q s = .ok a t) : t.depth = depth := by
  have hlevel : s.Level (final (q s)) := h.level.final s
  rw [hr] at hlevel
  exact hlevel.trans hs

instance {p : Reader ε α} [h : Keeps State.Level p] : SameAt depth p p :=
  ⟨fun _ => rfl, h⟩

instance {c : Prop} [Decidable c] {p q p' q' : Reader ε α} [SameAt depth p p']
    [SameAt depth q q'] : SameAt depth (if c then p else q) (if c then p' else q') := by
  split <;> infer_instance

instance bind {p q : Reader ε α} {f g : α → Reader ε β} [hp : SameAt depth p q]
    [hf : ∀ a, SameAt depth (f a) (g a)] : SameAt depth (p >>= f) (q >>= g) where
  eq {s} hs := by
    have heq := hp.eq hs
    cases hr : q s with
    | ok a t =>
      rw [bind_of_ok (heq.trans hr), bind_of_ok hr]
      exact (hf a).eq (hp.depth_eq hs hr)
    | error e t => rw [bind_of_error (heq.trans hr), bind_of_error hr]
  level := @Keeps.bind _ _ _ _ _ _ _ hp.level fun a => (hf a).level

instance (priority := high) bind_unit {p q : Reader ε Unit} {f g : Unit → Reader ε β}
    [SameAt depth p q] [h : SameAt depth (f ()) (g ())] : SameAt depth (p >>= f) (q >>= g) := by
  have (u : Unit) : SameAt depth (f u) (g u) := h
  exact bind

instance {token : Token} {p q : Parser α} [h : SameAt depth p q] :
    SameAt depth (noting (.abandoned token) p) (noting (.abandoned token) q) where
  eq hs := by rw [noting, noting, h.eq hs]
  level := by
    have := h.level
    infer_instance

instance {p q : Parser α} [h : SameAt (depth + 1) p q] : SameAt depth (nest p) (nest q) where
  eq {s} hs := by
    have hs : s.enter.depth = depth + 1 := congrArg (· + 1) hs
    rw [nest, nest, h.eq hs]
  level := by
    have := h.level
    infer_instance

instance {p q : Parser α} [h : SameAt depth p q] :
    SameAt depth (recovering p : Reader ε _) (recovering q) where
  eq hs := by rw [recovering, recovering, h.eq hs]
  level := by
    have := h.level
    infer_instance

theorem repeatWhile {goesOn : State → Bool} {round round' : α → Reader ε α}
    [h : ∀ a, SameAt depth (round a) (round' a)] (a : α) :
    SameAt depth (Reader.repeatWhile goesOn round a) (Reader.repeatWhile goesOn round' a) where
  eq {s} hs := by
    induction a, s using repeatWhile_induction goesOn round' with
    | next a s b t hgo hr hlt ih =>
      rw [repeatWhile_of_ok hgo (((h a).eq hs).trans hr) hlt, repeatWhile_of_ok hgo hr hlt]
      exact ih ((h a).depth_eq hs hr)
    | idle a s b t hgo hr hidle =>
      rw [repeatWhile_of_idle hgo (((h a).eq hs).trans hr) hidle, repeatWhile_of_idle hgo hr hidle]
    | fail a s e t hgo hr =>
      rw [repeatWhile_of_error hgo (((h a).eq hs).trans hr), repeatWhile_of_error hgo hr]
    | stop a s hgo => rw [repeatWhile_of_stop hgo, repeatWhile_of_stop hgo]
  level := @Keeps.repeatWhile _ _ _ _ _ _ (fun b => (h b).level) a

instance {goesOn : State → Bool} {item item' : Reader ε α} [SameAt depth item item'] :
    SameAt depth (collect goesOn item) (collect goesOn item') := by
  have (items : Array α) : SameAt depth (gather item items) (gather item' items) := by
    unfold gather
    infer_instance
  exact @bind _ _ _ _ _ _ _ _ (repeatWhile #[]) inferInstance

end SameAt

namespace Layer

class SameAt (depth : Nat) (below below' : Layer) : Prop where
  expr (floor : Power) : Scriptlet.SameAt depth (below.expr floor) (below'.expr floor)
  block : Scriptlet.SameAt depth below.block below'.block

attribute [instance] SameAt.expr SameAt.block

variable {depth : Nat} {below below' : Layer} [below.SameAt depth below']

instance : Scriptlet.SameAt depth below.nextElement below'.nextElement := by
  unfold nextElement
  infer_instance

instance (stop : Kind) : Scriptlet.SameAt depth (below.list stop) (below'.list stop) := by
  unfold list
  infer_instance

instance : Scriptlet.SameAt depth below.pair below'.pair := by
  unfold pair
  infer_instance

instance : Scriptlet.SameAt depth below.pairs below'.pairs := by
  unfold pairs
  infer_instance

instance (form : Opening) : Scriptlet.SameAt depth (below.opening form) (below'.opening form) := by
  cases form with
  | name => unfold opening name; infer_instance
  | integer => unfold opening; infer_instance
  | text => unfold opening text; infer_instance
  | boolean => unfold opening boolean; infer_instance
  | unary => unfold opening unary; infer_instance
  | group => unfold opening group; infer_instance
  | array => unfold opening array; infer_instance
  | hash => unfold opening hash; infer_instance
  | conditional => unfold opening conditional; infer_instance
  | function => unfold opening function; infer_instance

instance (form : Joining) (left : Expr) (power : Power) :
    Scriptlet.SameAt depth (below.joining form left power) (below'.joining form left power) := by
  cases form with
  | binary => unfold joining binary; infer_instance
  | call => unfold joining call; infer_instance
  | index => unfold joining index; infer_instance

instance (floor : Power) (left : Expr) :
    Scriptlet.SameAt depth (below.extend floor left) (below'.extend floor left) := by
  unfold extend
  refine @Scriptlet.SameAt.bind _ _ _ _ _ _ _ _ _ fun next => ?_
  split <;> infer_instance

instance (floor : Power) :
    Scriptlet.SameAt depth (below.climb floor) (below'.climb floor) := by
  unfold climb
  refine @Scriptlet.SameAt.bind _ _ _ _ _ _ _ _ _ fun token => ?_
  split
  · infer_instance
  · exact @Scriptlet.SameAt.bind _ _ _ _ _ _ _ _ _ fun first => .repeatWhile first

instance (form : Heading) : Scriptlet.SameAt depth (below.heading form) (below'.heading form) := by
  cases form with
  | binding => unfold heading binding; infer_instance
  | returning => unfold heading returning; infer_instance

instance : Scriptlet.SameAt depth below.expression below'.expression := by
  unfold expression
  infer_instance

instance : Scriptlet.SameAt depth below.stmt below'.stmt := by
  unfold stmt
  refine @Scriptlet.SameAt.bind _ _ _ _ _ _ _ _ _ fun token => ?_
  split <;> infer_instance

instance {ε : Type} (goesOn : State → Bool) :
    Scriptlet.SameAt depth (below.stmts goesOn : Reader ε _) (below'.stmts goesOn) := by
  unfold stmts stmtOrSkip
  infer_instance

instance : Scriptlet.SameAt depth below.braces below'.braces := by
  unfold braces
  infer_instance

end Layer

/-- Reads one level deeper, unless the limit of nesting is reached. -/
def Parser.guarded {α : Type} (p : Parser α) : Parser α := fun s =>
  if maxNesting ≤ s.depth then refuse (.nestingTooDeep maxNesting) s.current s else nest p s

/-- The parsers at the depth of the state. -/
def Layer.descent : Layer :=
  ⟨Parser.expr, Parser.block⟩

section

variable {ε α : Type}

theorem sameAt_atDepth (p : Layer → Reader ε α) [∀ n, Keeps State.Level (p (.ofRoom n))]
    (depth : Nat) : SameAt depth (p (.ofRoom (maxNesting - depth))) (atDepth p) where
  eq hs := by
    subst hs
    rfl
  level := ⟨fun s => Keeps.final (p := p (.ofRoom (maxNesting - s.depth))) s⟩

instance (depth : Nat) : (Layer.ofRoom (maxNesting - depth)).SameAt depth .descent where
  expr floor := sameAt_atDepth (fun layer => layer.expr floor) depth
  block := sameAt_atDepth Layer.block depth

theorem atDepth_eq (p : Layer → Reader ε α)
    [h : ∀ depth, SameAt depth (p (.ofRoom (maxNesting - depth))) (p .descent)] :
    atDepth p = p .descent := by
  funext s
  exact (h s.depth).eq rfl

/-- What is refused in the deepest layer and nested in the others is guarded by the depth. -/
theorem atDepth_eq_guarded (p q : Layer → Parser α)
    (hdeepest : p .deepest = do refuse (.nestingTooDeep maxNesting) (← current))
    (habove : ∀ below, p (.above below) = nest (q below))
    [h : ∀ depth, SameAt depth (q (.ofRoom (maxNesting - depth))) (q .descent)] :
    atDepth p = guarded (q .descent) := by
  funext s
  unfold atDepth guarded
  split
  next hs =>
    rw [Nat.sub_eq_zero_of_le hs]
    exact congrFun hdeepest s
  next hs =>
    have hroom : maxNesting - s.depth = maxNesting - (s.depth + 1) + 1 := by omega
    have := h (s.depth + 1)
    have hnest : SameAt s.depth (nest (q (.ofRoom (maxNesting - (s.depth + 1)))))
        (nest (q .descent)) := inferInstance
    rw [hroom, Layer.ofRoom, habove]
    exact hnest.eq rfl

end

/-- The parsers satisfy the equations of a recursive descent that counts its depth: expressions and
blocks, and nothing else, are guarded by a test of the depth, and whatever is nested in any form is
read by the same parsers. -/
theorem recursive_descent :
    (∀ floor, Parser.expr floor = guarded (Layer.descent.climb floor)) ∧
    Parser.block = guarded Layer.descent.braces ∧
    (∀ form, Parser.opening form = Layer.descent.opening form) ∧
    (∀ form left power, Parser.joining form left power = Layer.descent.joining form left power) ∧
    (∀ form, Parser.heading form = Layer.descent.heading form) ∧
    Parser.expressionStmt = Layer.descent.expression ∧
    Parser.stmt = Layer.descent.stmt ∧
    (Reader.program : Reader Empty Program) = do
      return ⟨← Layer.descent.stmts fun s => s.current.kind ≠ .endOfInput⟩ := by
  refine ⟨fun floor => ?_, ?_, fun form => ?_, fun form left power => ?_, fun form => ?_, ?_, ?_,
    ?_⟩
  · exact atDepth_eq_guarded _ (fun layer => layer.climb floor) rfl fun _ => rfl
  · exact atDepth_eq_guarded _ Layer.braces rfl fun _ => rfl
  · exact atDepth_eq fun layer => layer.opening form
  · exact atDepth_eq fun layer => layer.joining form left power
  · exact atDepth_eq fun layer => layer.heading form
  · exact atDepth_eq Layer.expression
  · exact atDepth_eq Layer.stmt
  · exact atDepth_eq fun layer => do
      return (⟨← layer.stmts fun s => s.current.kind ≠ .endOfInput⟩ : Program)

end Scriptlet
