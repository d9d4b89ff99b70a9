import Mathlib.Data.List.Forall2
import Scriptlet.Proofs.Braces
import Scriptlet.Proofs.Strict

/-! Two runs in lockstep. A parser looks at no token behind the next one, so two runs from streams
that correspond as far as the first run looks take the same steps: their trees are alike, and their
diagnostics have the same causes at corresponding tokens. -/
namespace Scriptlet

open Reader Scriptlet.Parser Layer

/-- The token at an index; past the last one, the token that ends the source. -/
def TokenStream.nth (ts : TokenStream) (i : Nat) : Token :=
  ts.ahead.getD i ts.stop

theorem TokenStream.nth_of_le {ts : TokenStream} {i : Nat} (h : ts.remaining ≤ i) :
    ts.nth i = ts.stop := by
  rw [ts.remaining_eq] at h
  rw [nth, List.getD_eq_getElem?_getD, List.getElem?_eq_none h]
  rfl

theorem TokenStream.headD_drop (ts : TokenStream) (i : Nat) :
    (ts.ahead.drop i).headD ts.stop = ts.nth i := by
  simp [nth, List.headD_eq_head?_getD]

theorem TokenStream.getElem?_toList {ts : TokenStream} {i : Nat} (h : i ≤ ts.remaining) :
    ts.toList[i]? = some (ts.nth i) := by
  rw [ts.remaining_eq] at h
  rw [toList, nth, List.getD_eq_getElem?_getD]
  rcases Nat.lt_or_eq_of_le h with hlt | rfl
  · rw [List.getElem?_append_left hlt, List.getElem?_eq_getElem hlt]
    rfl
  · rw [List.getElem?_concat_length, List.getElem?_eq_none (Nat.le_refl _)]
    rfl

/-- How two runs are compared: they start from two streams that correspond, index by index, as far
as the first one is near. -/
structure Comparison where
  source : TokenStream
  source' : TokenStream
  /-- The streams correspond where that many tokens are left in the first one. -/
  near : Nat → Prop
  mono {m n : Nat} : near m → m ≤ n → near n
  alike {i : Nat} : near (source.remaining - i) → (source.nth i).alike (source'.nth i) = true
  /-- What the runs had recorded when the comparison began. -/
  earlier : List Diagnostic
  earlier' : List Diagnostic

/-- How near to the end of the source the last token is that a run looked at. -/
def reach {α : Type} : EStateM.Result Diagnostic State α → Nat
  | .ok _ t => t.remaining - 1
  | .error d t => if d.cause.standsOn then t.remaining else t.remaining - 1

namespace Comparison

variable (c : Comparison)

def twins (t t' : Token) : Prop :=
  ∃ i, c.near (c.source.remaining - i) ∧ t = c.source.nth i ∧ t' = c.source'.nth i

/-- Diagnostics with the same cause at corresponding tokens. -/
def Similar (d d' : Diagnostic) : Prop :=
  d.cause = d'.cause ∧ ∃ t t', c.twins t t' ∧ d.position = t.position ∧ d'.position = t'.position

/-- The states stand at the same index of the two streams, and what was recorded is similar. -/
structure Agree (s s' : State) : Prop where
  sealed : s.Sealed
  sealed' : s'.Sealed
  stop : s.input.stop = c.source.stop
  stop' : s'.input.stop = c.source'.stop
  place : ∃ k, s.ahead = c.source.ahead.drop k ∧ s'.ahead = c.source'.ahead.drop k
  errors : ∃ ds ds', s.errors.toList = c.earlier ++ ds ∧ s'.errors.toList = c.earlier' ++ ds' ∧
    List.Forall₂ c.Similar ds ds'

/-- Both runs succeed with related results or fail with similar diagnostics. -/
def Linked {α : Type} (rel : α → α → Prop) :
    EStateM.Result Diagnostic State α → EStateM.Result Diagnostic State α → Prop
  | .ok a t, .ok a' t' => rel a a' ∧ c.Agree t t'
  | .error d t, .error d' t' => c.Similar d d' ∧ c.Agree t t'
  | _, _ => False

/-- The runs are linked if the first one looks only at corresponding tokens. -/
def Match {α : Type} (rel : α → α → Prop) (p : Parser α) (s : State) (p' : Parser α)
    (s' : State) : Prop :=
  c.near (reach (p s)) → c.Linked rel (p s) (p' s')

variable {c} {s s' : State}

theorem alike_of_twins {t t' : Token} (h : c.twins t t') : t.alike t' = true := by
  obtain ⟨i, hnear, rfl, rfl⟩ := h
  exact c.alike hnear

theorem kind_eq {t t' : Token} (h : c.twins t t') : t.kind = t'.kind :=
  (Token.alike_iff.mp (alike_of_twins h)).1

theorem text_eq {t t' : Token} (h : c.twins t t') : t.text = t'.text :=
  (Token.alike_iff.mp (alike_of_twins h)).2

namespace Agree

theorem current (h : c.Agree s s') (hnear : c.near s.remaining) :
    c.twins s.current s'.current := by
  obtain ⟨k, hs, hs'⟩ := h.place
  refine ⟨k, ?_, ?_, ?_⟩
  · rwa [s.remaining_eq, hs, List.length_drop, ← c.source.remaining_eq] at hnear
  · rw [s.current_eq, hs, h.stop, TokenStream.headD_drop]
  · rw [s'.current_eq, hs', h.stop', TokenStream.headD_drop]

theorem advance (h : c.Agree s s') : c.Agree s.advance s'.advance := by
  obtain ⟨k, hs, hs'⟩ := h.place
  refine ⟨h.sealed.advance, h.sealed'.advance, h.stop, h.stop', ⟨k + 1, ?_, ?_⟩, h.errors⟩
  · show s.ahead.tail = _
    rw [hs, List.tail_drop]
  · show s'.ahead.tail = _
    rw [hs', List.tail_drop]

theorem peek (h : c.Agree s s') (hnear : c.near (s.remaining - 1)) : c.twins s.peek s'.peek :=
  h.advance.current hnear

/-- Only the tokens and the diagnostics matter. -/
theorem of_eq {t t' : State} (h : c.Agree s s') (hs : t.input = s.input)
    (hs' : t'.input = s'.input) (he : t.errors = s.errors) (he' : t'.errors = s'.errors) :
    c.Agree t t' := by
  obtain ⟨input, depth, errors, trace⟩ := t
  obtain ⟨input', depth', errors', trace'⟩ := t'
  cases hs
  cases hs'
  cases he
  cases he'
  exact ⟨⟨h.sealed.1, h.sealed.2⟩, ⟨h.sealed'.1, h.sealed'.2⟩, h.stop, h.stop', h.place, h.errors⟩

theorem note (h : c.Agree s s') (e e' : Event) : c.Agree (s.note e) (s'.note e') :=
  h.of_eq rfl rfl rfl rfl

theorem enter (h : c.Agree s s') : c.Agree s.enter s'.enter :=
  h.of_eq rfl rfl rfl rfl

theorem leave (h : c.Agree s s') : c.Agree s.leave s'.leave :=
  h.of_eq rfl rfl rfl rfl

theorem skipSemicolon (h : c.Agree s s') (hnear : c.near (s.remaining - 1)) :
    c.Agree s.skipSemicolon s'.skipSemicolon := by
  have hkind := kind_eq (h.peek hnear)
  unfold State.skipSemicolon
  rw [← hkind]
  split
  · exact h.advance
  · exact h

theorem record (h : c.Agree s s') {d d' : Diagnostic} (hd : c.Similar d d') :
    c.Agree (s.record d) (s'.record d') := by
  obtain ⟨ds, ds', hs, hs', hsimilar⟩ := h.errors
  refine ⟨h.sealed.record d, h.sealed'.record d', h.stop, h.stop', h.place, ds ++ [d], ds' ++ [d'],
    ?_, ?_, ?_⟩
  · rw [State.record, Array.toList_push, hs, List.append_assoc]
  · rw [State.record, Array.toList_push, hs', List.append_assoc]
  · exact List.rel_append hsimilar (.cons hd .nil)

end Agree

end Comparison

/-- The parser looks beyond the current token before it fails or succeeds. -/
class Behind {α : Type} (p : Parser α) : Prop where
  reach_le (s : State) : reach (p s) ≤ s.remaining - 1

theorem reach_le_remaining {α : Type} {p : Parser α} [Keeps State.Shrinks p] (s : State) :
    reach (p s) ≤ s.remaining := by
  have hshrinks : State.Shrinks s (final (p s)) := Keeps.final s
  cases hr : p s with
  | ok a t =>
    rw [hr] at hshrinks
    exact Nat.le_trans (Nat.sub_le _ _) hshrinks
  | error d t =>
    rw [hr] at hshrinks
    show (if d.cause.standsOn then t.remaining else t.remaining - 1) ≤ s.remaining
    split
    · exact hshrinks
    · exact Nat.le_trans (Nat.sub_le _ _) hshrinks

namespace Behind

variable {α β : Type}

instance (a : α) : Behind (pure a : Parser α) := ⟨fun _ => Nat.le_refl _⟩

instance (expected found : Kind) (text : String) (token : Token) :
    Behind (refuse (.tokenMismatch expected found text) token : Parser α) :=
  ⟨fun _ => Nat.le_refl _⟩

instance {c : Prop} [Decidable c] {p q : Parser α} [Behind p] [Behind q] :
    Behind (if c then p else q) := by
  split <;> infer_instance

instance current {f : Token → Parser β} [h : ∀ t, Behind (f t)] :
    Behind (Reader.current >>= f) :=
  ⟨fun s => (h s.current).reach_le s⟩

instance peek {f : Token → Parser β} [h : ∀ t, Behind (f t)] : Behind (Reader.peek >>= f) :=
  ⟨fun s => (h s.peek).reach_le s⟩

instance advance {f : Unit → Parser β} [Keeps State.Shrinks (f ())] :
    Behind (Reader.advance >>= f) where
  reach_le s := by
    have hle := reach_le_remaining (p := f ()) s.advance
    rwa [State.remaining_advance] at hle

instance note {e : Event} {f : Unit → Parser β} [h : Behind (f ())] :
    Behind (Reader.note e >>= f) :=
  ⟨fun s => h.reach_le (s.note e)⟩

instance (priority := low) bind {p : Parser α} {f : α → Parser β} [hp : Behind p]
    [hf : ∀ a, Behind (f a)] :
    Behind (p >>= f) where
  reach_le s := by
    have hle := hp.reach_le s
    cases hr : p s with
    | error d t =>
      rw [hr] at hle
      rw [bind_of_error hr]
      exact hle
    | ok a t =>
      rw [hr] at hle
      rw [bind_of_ok hr]
      exact Nat.le_trans ((hf a).reach_le t) hle

instance (priority := high) expect {kind : Kind} {f : Unit → Parser β}
    [Keeps State.Shrinks (f ())] : Behind (Parser.expect kind >>= f) where
  reach_le s := by
    by_cases hk : s.peek.kind = kind
    · have hle := reach_le_remaining (p := f ()) s.advance
      rw [bind_of_ok (expect_of_eq hk)]
      rwa [State.remaining_advance] at hle
    · rw [bind_of_error (expect_of_ne hk)]
      exact Nat.le_refl _

theorem repeatWhile {goesOn : State → Bool} {round : α → Parser α} [h : ∀ a, Behind (round a)]
    (a : α) : Behind (Reader.repeatWhile goesOn round a) where
  reach_le s := by
    induction a, s using repeatWhile_induction goesOn round with
    | next a s b t hgo hr hlt ih =>
      rw [repeatWhile_of_ok hgo hr hlt]
      exact Nat.le_trans ih (Nat.sub_le_sub_right (Nat.le_of_lt hlt) 1)
    | idle a s b t hgo hr hidle =>
      rw [repeatWhile_of_idle hgo hr hidle, ← hr]
      exact (h a).reach_le s
    | fail a s d t hgo hr =>
      rw [repeatWhile_of_error hgo hr, ← hr]
      exact (h a).reach_le s
    | stop a s hgo =>
      rw [repeatWhile_of_stop hgo]
      exact Nat.le_refl _

instance {goesOn : State → Bool} {item : Parser α} [Behind item] :
    Behind (collect goesOn item) := by
  have (items : Array α) : Behind (gather item items) := by
    unfold gather
    infer_instance
  exact @bind _ _ _ _ (repeatWhile #[]) inferInstance

end Behind

namespace Comparison.Match

variable {c : Comparison} {α β : Type} {rel : α → α → Prop} {rel' : β → β → Prop} {s s' : State}

theorem pure {a a' : α} (hrel : rel a a') (h : c.Agree s s') :
    c.Match rel (Pure.pure a) s (Pure.pure a') s' :=
  fun _ => ⟨hrel, h⟩

theorem refuse {cause cause' : Cause} {t t' : Token} (hcause : cause = cause')
    (ht : c.twins t t') (h : c.Agree s s') :
    c.Match rel (Parser.refuse cause t) s (Parser.refuse cause' t') s' :=
  fun _ => ⟨⟨hcause, t, t', ht, rfl, rfl⟩, h.note _ _⟩

theorem advance {f f' : Unit → Parser β} (hf : c.Match rel' (f ()) s.advance (f' ()) s'.advance) :
    c.Match rel' (Reader.advance >>= f) s (Reader.advance >>= f') s' := hf

theorem note {e e' : Event} {f f' : Unit → Parser β}
    (hf : c.Match rel' (f ()) (s.note e) (f' ()) (s'.note e')) :
    c.Match rel' (Reader.note e >>= f) s (Reader.note e' >>= f') s' := hf

theorem current {f f' : Token → Parser β} [∀ t, Keeps State.Shrinks (f t)] (h : c.Agree s s')
    (hf : ∀ t t', c.twins t t' → c.Match rel' (f t) s (f' t') s') :
    c.Match rel' (Reader.current >>= f) s (Reader.current >>= f') s' := by
  intro hnear
  have hle : reach (f s.current s) ≤ s.remaining := reach_le_remaining s
  exact hf _ _ (h.current (c.mono hnear hle)) hnear

theorem readName {f f' : Name → Parser β} [∀ n, Keeps State.Shrinks (f n)] (h : c.Agree s s')
    (hf : ∀ t t', c.twins t t' → c.Match rel' (f ⟨t, t.text⟩) s (f' ⟨t', t'.text⟩) s') :
    c.Match rel' (Layer.readName >>= f) s (Layer.readName >>= f') s' :=
  current h hf

theorem peek {f f' : Token → Parser β} [hb : ∀ t, Behind (f t)] (h : c.Agree s s')
    (hf : ∀ t t', c.twins t t' → c.Match rel' (f t) s (f' t') s') :
    c.Match rel' (Reader.peek >>= f) s (Reader.peek >>= f') s' := by
  intro hnear
  have hle : reach (f s.peek s) ≤ s.remaining - 1 := (hb s.peek).reach_le s
  exact hf _ _ (h.peek (c.mono hnear hle)) hnear

theorem expect {kind : Kind} {f f' : Unit → Parser β} [Keeps State.Shrinks (f ())]
    (h : c.Agree s s')
    (hf : c.Agree s.advance s'.advance → c.Match rel' (f ()) s.advance (f' ()) s'.advance) :
    c.Match rel' (Parser.expect kind >>= f) s (Parser.expect kind >>= f') s' := by
  intro hnear
  have hle : reach ((Parser.expect kind >>= f) s) ≤ s.remaining - 1 := Behind.expect.reach_le s
  have htwins := h.peek (c.mono hnear hle)
  have hkind := kind_eq htwins
  by_cases hk : s.peek.kind = kind
  · have hk' : s'.peek.kind = kind := hkind.symm.trans hk
    rw [bind_of_ok (expect_of_eq hk)] at hnear ⊢
    rw [bind_of_ok (expect_of_eq hk')]
    exact hf h.advance hnear
  · have hk' : s'.peek.kind ≠ kind := fun hk' => hk (hkind.trans hk')
    rw [bind_of_error (expect_of_ne hk), bind_of_error (expect_of_ne hk'), ← hkind,
      ← text_eq htwins]
    exact ⟨⟨rfl, _, _, htwins, rfl, rfl⟩, h.note _ _⟩

theorem bind {p p' : Parser α} {f f' : α → Parser β} [hb : ∀ a, Behind (f a)]
    (hp : c.Match rel p s p' s')
    (hf : ∀ a a' t t', rel a a' → c.Agree t t' → c.Match rel' (f a) t (f' a') t') :
    c.Match rel' (p >>= f) s (p' >>= f') s' := by
  intro hnear
  unfold Match at hp
  cases hr : p s with
  | error d t =>
    rw [bind_of_error hr] at hnear ⊢
    rw [hr] at hp
    have hlink := hp hnear
    cases hr' : p' s' with
    | ok a' t' =>
      rw [hr'] at hlink
      exact hlink.elim
    | error d' t' =>
      rw [hr'] at hlink
      rwa [bind_of_error hr']
  | ok a t =>
    rw [bind_of_ok hr] at hnear ⊢
    rw [hr] at hp
    have hlink := hp (c.mono hnear ((hb a).reach_le t))
    cases hr' : p' s' with
    | error d' t' =>
      rw [hr'] at hlink
      exact hlink.elim
    | ok a' t' =>
      rw [hr'] at hlink
      rw [bind_of_ok hr']
      exact hf a a' t t' hlink.1 hlink.2 hnear

theorem nest {p p' : Parser α} (h : c.Match rel p s.enter p' s'.enter) :
    c.Match rel (Parser.nest p) s (Parser.nest p') s' := by
  intro hnear
  unfold Parser.nest at hnear ⊢
  unfold Match at h
  cases hr : p s.enter <;> cases hr' : p' s'.enter <;> rw [hr] at hnear <;> rw [hr, hr'] at h <;>
    have hlink := h hnear
  · exact ⟨hlink.1, hlink.2.leave⟩
  · exact hlink
  · exact hlink
  · exact ⟨hlink.1, hlink.2.leave⟩

theorem noting {p p' : Parser α} {e e' : Event} (h : c.Match rel p s p' s') :
    c.Match rel (Parser.noting e p) s (Parser.noting e' p') s' := by
  intro hnear
  unfold Parser.noting at hnear ⊢
  unfold Match at h
  cases hr : p s <;> cases hr' : p' s' <;> rw [hr] at hnear <;> rw [hr, hr'] at h <;>
    have hlink := h hnear
  · exact hlink
  · exact hlink
  · exact hlink
  · exact ⟨hlink.1, hlink.2.note _ _⟩

/-- A loop whose test looks at the next token only, and whose rounds read a token each. -/
theorem repeatWhile {goesOn : State → Bool} {round : α → Parser α} [hb : ∀ a, Behind (round a)]
    (hgo : ∀ {s s' : State}, s.peek.kind = s'.peek.kind → goesOn s = goesOn s')
    (hread : ∀ {a b : α} {s t : State}, s.Sealed → goesOn s = true → round a s = .ok b t →
      t.remaining < s.remaining)
    (hround : ∀ {a a' : α} {s s' : State}, rel a a' → c.Agree s s' →
      c.Match rel (round a) s (round a') s')
    {a a' : α} (hrel : rel a a') (h : c.Agree s s') :
    c.Match rel (Reader.repeatWhile goesOn round a) s (Reader.repeatWhile goesOn round a') s' := by
  intro hnear
  have hloop (b : α) (t : State) : reach (Reader.repeatWhile goesOn round b t) ≤
      t.remaining - 1 := (Behind.repeatWhile b).reach_le t
  induction a, s using repeatWhile_induction goesOn round generalizing a' s' with
  | stop a s hs =>
    have hsame := hgo (kind_eq (h.peek (c.mono hnear (hloop a s))))
    rw [repeatWhile_of_stop hs, repeatWhile_of_stop (hsame.symm.trans hs)]
    exact ⟨hrel, h⟩
  | fail a s d t hs hr =>
    have hs' := (hgo (kind_eq (h.peek (c.mono hnear (hloop a s))))).symm.trans hs
    rw [repeatWhile_of_error hs hr, ← hr] at hnear
    have hlink := hround hrel h hnear
    rw [hr] at hlink
    cases hr' : round a' s' with
    | ok b' t' => rw [hr'] at hlink; exact hlink.elim
    | error d' t' =>
      rw [repeatWhile_of_error hs hr, repeatWhile_of_error hs' hr']
      rwa [hr'] at hlink
  | idle a s b t hs hr hidle => exact absurd (hread h.sealed hs hr) hidle
  | next a s b t hs hr hlt ih =>
    have hs' := (hgo (kind_eq (h.peek (c.mono hnear (hloop a s))))).symm.trans hs
    rw [repeatWhile_of_ok hs hr hlt] at hnear
    have hnext : c.near (reach (round a s)) := by
      rw [hr]
      exact c.mono hnear (hloop b t)
    have hlink := hround hrel h hnext
    rw [hr] at hlink
    cases hr' : round a' s' with
    | error d' t' => rw [hr'] at hlink; exact hlink.elim
    | ok b' t' =>
      rw [hr'] at hlink
      rw [repeatWhile_of_ok hs hr hlt, repeatWhile_of_ok hs' hr' (hread h.sealed' hs' hr')]
      exact ih hlink.1 hlink.2 hnear

theorem collect {goesOn : State → Bool} {item : Parser α} [Behind item]
    (hgo : ∀ {s s' : State}, s.peek.kind = s'.peek.kind → goesOn s = goesOn s')
    (hread : ∀ {a : α} {s t : State}, s.Sealed → goesOn s = true → item s = .ok a t →
      t.remaining < s.remaining)
    (hitem : ∀ {s s' : State}, c.Agree s s' → c.Match rel item s item s') (h : c.Agree s s') :
    c.Match (List.Forall₂ rel) (Reader.collect goesOn item) s (Reader.collect goesOn item) s' := by
  have hb (items : Array α) : Behind (gather item items) := by
    unfold gather
    infer_instance
  have hloop : c.Match (fun as as' : Array α => List.Forall₂ rel as.toList as'.toList)
      (Reader.repeatWhile goesOn (gather item) #[]) s
      (Reader.repeatWhile goesOn (gather item) #[]) s' := by
    apply repeatWhile hgo
    · intro items items' s t hs hgo hr
      cases hi : item s with
      | error d u => cases (gather_of_error hi).symm.trans hr
      | ok a u =>
        cases (gather_of_ok hi).symm.trans hr
        exact hread hs hgo hi
    · intro items items' s s' hrel h
      refine bind (hitem h) fun a a' t t' ha ht => pure ?_ ht
      rw [Array.toList_push, Array.toList_push]
      exact List.rel_append hrel (.cons ha .nil)
    · exact .nil
    · exact h
  exact bind hloop fun items items' t t' hitems ht => pure hitems ht

end Comparison.Match

end Scriptlet
