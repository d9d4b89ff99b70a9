import Scriptlet.Proofs.Deriving

/-! What runs that succeed come to, whatever they record on the way. The rules follow the text of a
reader from its first step on, so a fact about its result is assembled from facts about its
parts. -/
namespace Scriptlet

open Reader Scriptlet.Parser

/-- If the reader succeeds from `s`, its result and the state that it ends in are as stated. -/
def Yields {ε α : Type} (p : Reader ε α) (s : State) (Q : α → State → Prop) : Prop :=
  ∀ a t, p s = .ok a t → Q a t

namespace Yields

variable {ε α β : Type} {s : State} {P : α → State → Prop} {Q : β → State → Prop}

theorem imp {P' : α → State → Prop} {p : Reader ε α} (h : Yields p s P)
    (himp : ∀ a t, P a t → P' a t) : Yields p s P' :=
  fun a t hr => himp a t (h a t hr)

theorem and {P' : α → State → Prop} {p : Reader ε α} (h : Yields p s P) (h' : Yields p s P') :
    Yields p s fun a t => P a t ∧ P' a t :=
  fun a t hr => ⟨h a t hr, h' a t hr⟩

theorem keeps (R : State → State → Prop) {p : Reader ε α} [Keeps R p] :
    Yields p s fun _ t => R s t :=
  fun _ _ hr => Keeps.of_ok hr

theorem pure {a : α} (h : P a s) : Yields (Pure.pure a : Reader ε α) s P := by
  intro b t hr
  cases hr
  exact h

theorem refuse {cause : Cause} {token : Token} : Yields (Parser.refuse cause token) s P := by
  intro a t hr
  cases hr

theorem current {f : Token → Reader ε β} (h : Yields (f s.current) s Q) :
    Yields (Reader.current >>= f) s Q := h

theorem peek {f : Token → Reader ε β} (h : Yields (f s.peek) s Q) :
    Yields (Reader.peek >>= f) s Q := h

theorem advance {f : Unit → Reader ε β} (h : Yields (f ()) s.advance Q) :
    Yields (Reader.advance >>= f) s Q := h

theorem note {e : Event} {f : Unit → Reader ε β} (h : Yields (f ()) (s.note e) Q) :
    Yields (Reader.note e >>= f) s Q := h

theorem skipSemicolon {f : Unit → Reader ε β} (h : Yields (f ()) s.skipSemicolon Q) :
    Yields (Reader.skipSemicolon >>= f) s Q := h

theorem readName {f : Name → Parser β} (h : Yields (f ⟨s.current, s.current.text⟩) s Q) :
    Yields (Layer.readName >>= f) s Q := h

theorem bind {p : Reader ε α} {f : α → Reader ε β} [Keeps State.Seals p] (hs : s.Sealed)
    (hp : Yields p s P) (hf : ∀ a t, t.Sealed → P a t → Yields (f a) t Q) :
    Yields (p >>= f) s Q := by
  intro b u hr
  cases hread : p s with
  | error e t => cases (bind_of_error hread).symm.trans hr
  | ok a t =>
    rw [bind_of_ok hread] at hr
    exact hf a t (hs.of_ok hread) (hp a t hread) b u hr

theorem expect {kind : Kind} {f : Unit → Parser β}
    (h : s.peek.kind = kind → Yields (f ()) s.advance Q) :
    Yields (Parser.expect kind >>= f) s Q := by
  intro b u hr
  by_cases hk : s.peek.kind = kind
  · rw [bind_of_ok (expect_of_eq hk)] at hr
    exact h hk b u hr
  · cases (bind_of_error (expect_of_ne hk)).symm.trans hr

theorem nest {p : Parser α} (h : Yields p s.enter fun a t => P a t.leave) :
    Yields (Parser.nest p) s P := by
  intro a u hr
  unfold Parser.nest at hr
  split at hr
  next b t hp =>
    cases hr
    exact h _ _ hp
  next => cases hr

theorem noting {e : Event} {p : Parser α} (h : Yields p s P) : Yields (Parser.noting e p) s P := by
  intro a u hr
  unfold Parser.noting at hr
  split at hr
  next b t hp =>
    cases hr
    exact h _ _ hp
  next => cases hr

theorem recovering {p : Parser α} (h : Yields p s P) :
    Yields (Reader.recovering p : Reader ε (Option α)) s fun a? t => ∀ a ∈ a?, P a t := by
  intro a? u hr a ha
  unfold Reader.recovering at hr
  split at hr
  next b t hp =>
    cases hr
    cases ha
    exact h _ _ hp
  next =>
    cases hr
    cases ha

/-- What holds before a round of a loop and is kept by it holds behind the loop. -/
theorem repeatWhile {goesOn : State → Bool} {round : α → Reader ε α}
    [∀ a, Keeps State.Seals (round a)]
    (hround : ∀ a s, s.Sealed → goesOn s = true → P a s → Yields (round a) s P) {a : α}
    (hs : s.Sealed) (h : P a s) : Yields (Reader.repeatWhile goesOn round a) s P := by
  intro b u hr
  induction a, s using repeatWhile_induction goesOn round with
  | next a s c t hgo hc hlt ih =>
    rw [repeatWhile_of_ok hgo hc hlt] at hr
    exact ih (hs.of_ok hc) (hround a s hs hgo h c t hc) hr
  | idle a s c t hgo hc hidle =>
    rw [repeatWhile_of_idle hgo hc hidle] at hr
    cases hr
    exact hround a s hs hgo h _ _ hc
  | fail a s e t hgo hc =>
    rw [repeatWhile_of_error hgo hc] at hr
    cases hr
  | stop a s hgo =>
    rw [repeatWhile_of_stop hgo] at hr
    cases hr
    exact h

theorem collect {goesOn : State → Bool} {item : Reader ε α} [Keeps State.Seals item]
    {P : List α → State → Prop}
    (hround : ∀ as s, s.Sealed → goesOn s = true → P as s →
      Yields item s fun a t => P (as ++ [a]) t)
    (hs : s.Sealed) (h : P [] s) : Yields (Reader.collect goesOn item) s P := by
  have hk (items : Array α) : Keeps State.Seals (gather item items) := by
    unfold gather
    infer_instance
  have hkr : Keeps State.Seals (Reader.repeatWhile goesOn (gather item) (#[] : Array α)) :=
    .repeatWhile _
  have hloop : Yields (Reader.repeatWhile goesOn (gather item) #[]) s
      fun items t => P items.toList t := by
    refine repeatWhile (fun items s hs hgo hP => ?_) hs h
    refine bind hs (hround items.toList s hs hgo hP) fun a t _ ht => pure ?_
    rwa [Array.toList_push]
  exact bind hs hloop fun items t _ ht => pure ht

/-- What holds of every item holds of everything that a loop collects. -/
theorem forall_collect {goesOn : State → Bool} {item : Reader ε α} [Keeps State.Seals item]
    {P : α → Prop} (hitem : ∀ s, s.Sealed → Yields item s fun a _ => P a) (hs : s.Sealed) :
    Yields (Reader.collect goesOn item) s fun as _ => ∀ a ∈ as, P a := by
  refine collect (fun as u hu _ has => ?_) hs (by simp)
  refine (hitem u hu).imp fun a _ ha => ?_
  exact List.forall_mem_append.mpr ⟨has, by simpa using ha⟩

end Yields

end Scriptlet
