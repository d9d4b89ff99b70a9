import Scriptlet.Proofs.Braces
import Scriptlet.Proofs.Strict

/-! What was read before the first failure can be completed. Wherever a strict parser fails with
room for another level of nesting, the tokens before the one that it refuses are the first tokens
of something that the grammar derives. -/
namespace Scriptlet

open Reader Scriptlet.Parser Layer

/-- A text for a token of the kind. -/
def Kind.sample? : Kind → Option String
  | .name => some "x"
  | kind => kind.spelling?

/-- Tokens of these kinds, whatever they are, satisfy the predicate. -/
def Fills : List Kind → (List Token → Prop) → Prop
  | [], Q => Q []
  | kind :: kinds, Q => ∀ t : Token, t.kind = kind → Fills kinds fun ts => Q (t :: ts)

namespace Fills

variable {Q Q' : List Token → Prop}

theorem imp {kinds : List Kind} (h : Fills kinds Q) (hQ : ∀ ts, Q ts → Q' ts) :
    Fills kinds Q' := by
  induction kinds generalizing Q Q' with
  | nil => exact hQ [] h
  | cons kind kinds ih =>
    intro t ht
    exact ih (h t ht) fun ts => hQ (t :: ts)

theorem append {kinds kinds' : List Kind}
    (h : Fills kinds fun ts => Fills kinds' fun us => Q (ts ++ us)) :
    Fills (kinds ++ kinds') Q := by
  induction kinds generalizing Q with
  | nil => exact h
  | cons kind kinds ih =>
    intro t ht
    exact ih (h t ht)

theorem of_map {kinds : List Kind} (h : Fills kinds Q) {ts : List Token}
    (hts : ts.map Token.kind = kinds) : Q ts := by
  induction ts generalizing kinds Q with
  | nil =>
    cases hts
    exact h
  | cons t ts ih =>
    cases hts
    exact ih (h t rfl) rfl

end Fills

/-- The tokens `xs` up to `rest` can be completed to tokens that satisfy the predicate. -/
def Completable (Q : List Token → Prop) (xs rest : List Token) : Prop :=
  ∃ read kinds, xs = read ++ rest ∧ kinds.all (·.sample?.isSome) = true ∧
    Fills kinds fun ts => Q (read ++ ts)

namespace Completable

variable {Q Q' : List Token → Prop} {xs rest : List Token}

theorem wrap (h : Completable Q xs rest) (pre : List Token) (kinds : List Kind)
    (hkinds : kinds.all (·.sample?.isSome) = true)
    (hQ : ∀ ys, Q ys → Fills kinds fun ts => Q' (pre ++ (ys ++ ts))) :
    Completable Q' (pre ++ xs) rest := by
  obtain ⟨read, kinds', rfl, hkinds', hfill⟩ := h
  refine ⟨pre ++ read, kinds' ++ kinds, (List.append_assoc ..).symm, ?_, Fills.append ?_⟩
  · rw [List.all_append, hkinds', hkinds, Bool.and_self]
  · refine hfill.imp fun ts hts => (hQ _ hts).imp fun us hus => ?_
    rwa [List.append_assoc, ← List.append_assoc read]

theorem behind (h : Completable Q xs rest) (pre : List Token) (hQ : ∀ ys, Q ys → Q' (pre ++ ys)) :
    Completable Q' (pre ++ xs) rest := by
  refine h.wrap pre [] rfl fun ys hys => ?_
  show Q' (pre ++ (ys ++ []))
  rw [List.append_nil]
  exact hQ ys hys

theorem imp (h : Completable Q xs rest) (hQ : ∀ ys, Q ys → Q' ys) : Completable Q' xs rest :=
  h.behind [] hQ

theorem of_read (read : List Token) (hxs : xs = read ++ rest) (hQ : Q read) :
    Completable Q xs rest := by
  refine ⟨read, [], hxs, rfl, ?_⟩
  show Q (read ++ [])
  rwa [List.append_nil]

end Completable

/-- The tokens from the one that the diagnostic refuses. -/
def State.blamed (t : State) (d : Diagnostic) : List Token :=
  if d.cause.standsOn then t.ahead else t.after

/-- The tokens are those of a source, and the depth leaves room for `n` levels. -/
structure State.Ready (n : Nat) (s : State) : Prop where
  sealed : s.Sealed
  depth : s.depth + n = maxNesting

instance : Frame fun s t : State => s.depth = t.depth where
  refl _ := rfl
  trans := Eq.trans
  advance _ := rfl
  note _ _ _ := rfl
  record _ _ := rfl
  nest {s t} h := by
    show s.depth = t.depth - 1
    rw [← h]
    rfl

namespace State.Ready

variable {n : Nat} {s t : State}

theorem advance (h : s.Ready n) : s.advance.Ready n := ⟨h.sealed.advance, h.depth⟩

theorem note (h : s.Ready n) (e : Event) : (s.note e).Ready n := ⟨h.sealed.note e, h.depth⟩

theorem enter (h : s.Ready (n + 1)) : s.enter.Ready n := by
  refine ⟨h.sealed.enter, ?_⟩
  have hdepth := h.depth
  show s.depth + 1 + n = maxNesting
  omega

theorem clean {α : Type} {p : Parser α} {a : α} [Keeps State.Seals p]
    [Keeps (fun s t : State => s.depth = t.depth) p] (h : s.Ready n) (hp : Clean p s a t) :
    t.Ready n := by
  refine ⟨h.sealed.clean hp, ?_⟩
  have hdepth : s.depth = t.depth := Keeps.of_ok (R := fun s t : State => s.depth = t.depth) hp.ok
  rw [← hdepth]
  exact h.depth

end State.Ready

/-- If the run fails, its diagnostic stands at the token that it refuses; and if that was at a
depth below the limit, the tokens `xs` can be completed up to that token. -/
def Finishes (xs : List Token) (Q : List Token → Prop) {α : Type} (p : Parser α)
    (s : State) : Prop :=
  ∀ d t, p s = .error d t → d.position = ((t.blamed d).headD t.input.stop).position ∧
    ∃ depth, s.Raises depth d t ∧ (depth < maxNesting → Completable Q xs (t.blamed d))

namespace Finishes

variable {α β : Type} {n : Nat} {s : State} {xs xs' : List Token} {Q Q' : List Token → Prop}

theorem imp {p : Parser α} (h : Finishes xs Q p s)
    (hQ : ∀ rest, Completable Q xs rest → Completable Q' xs' rest) : Finishes xs' Q' p s := by
  intro d t hr
  obtain ⟨hpos, depth, hraises, hcomplete⟩ := h d t hr
  exact ⟨hpos, depth, hraises, fun hlt => hQ _ (hcomplete hlt)⟩

theorem pure (a : α) : Finishes xs Q (Pure.pure a) s := by
  intro d t hr
  cases hr

theorem of_quiet {p : Parser α} {q : Parser β} {t : State} (h : Finishes xs Q p t)
    (hst : s.Quiet t) (hrun : ∀ d u, q s = .error d u → p t = .error d u) : Finishes xs Q q s := by
  intro d u hr
  obtain ⟨hpos, depth, hraises, hcomplete⟩ := h d u (hrun d u hr)
  exact ⟨hpos, depth, hraises.of_quiet hst, hcomplete⟩

theorem current {f : Token → Parser β} (h : Finishes xs Q (f s.current) s) :
    Finishes xs Q (Reader.current >>= f) s :=
  h.of_quiet (.refl s) fun _ _ hr => hr

theorem peek {f : Token → Parser β} (h : Finishes xs Q (f s.peek) s) :
    Finishes xs Q (Reader.peek >>= f) s :=
  h.of_quiet (.refl s) fun _ _ hr => hr

theorem readName {f : Name → Parser β} (h : Finishes xs Q (f ⟨s.current, s.current.text⟩) s) :
    Finishes xs Q (Layer.readName >>= f) s :=
  h.of_quiet (.refl s) fun _ _ hr => hr

theorem advance {f : Unit → Parser β} (h : Finishes xs Q (f ()) s.advance) :
    Finishes xs Q (Reader.advance >>= f) s :=
  h.of_quiet (.advance s) fun _ _ hr => hr

theorem note {kind : Kind} {power floor : Power} {f : Unit → Parser β}
    (h : Finishes xs Q (f ()) (s.note (.applied kind power floor))) :
    Finishes xs Q (Reader.note (.applied kind power floor) >>= f) s :=
  h.of_quiet (.event (e := .applied kind power floor) rfl rfl rfl) fun _ _ hr => hr

/-- A refusal below the limit leaves room for another level. -/
theorem refuse (hs : s.Ready n) {cause : Cause} {token : Token}
    (hpos : token.position = ((s.blamed ⟨cause, token.position⟩).headD s.input.stop).position)
    (h : 0 < n → Completable Q xs (s.blamed ⟨cause, token.position⟩)) :
    Finishes xs Q (Parser.refuse cause token : Parser α) s := by
  intro d t hr
  cases hr
  refine ⟨hpos, s.depth, ⟨s, .refl s, List.prefix_rfl⟩, fun hlt => h ?_⟩
  have hdepth := hs.depth
  omega

theorem expect (hs : s.Ready n) {kind : Kind} {f : Unit → Parser β}
    (hmiss : 0 < n → Completable Q xs s.after)
    (hf : s.peek.kind = kind → Finishes xs Q (f ()) s.advance) :
    Finishes xs Q (Parser.expect kind >>= f) s := by
  by_cases hk : s.peek.kind = kind
  · refine (hf hk).of_quiet (.advance s) fun d u hr => ?_
    rwa [bind_of_ok (expect_of_eq hk)] at hr
  · have hrefuse : Finishes xs Q (Parser.refuse (.tokenMismatch kind s.peek.kind s.peek.text) s.peek
        : Parser β) s := refuse hs rfl hmiss
    refine hrefuse.of_quiet (.refl s) fun d u hr => ?_
    rw [bind_of_error (expect_of_ne hk)] at hr
    exact hr

/-- What the first parser reads, its mirror image reads without a failure. -/
theorem bind {p q : Parser α} [hm : Mirrors p q] {f : α → Parser β} (hp : Finishes xs Q p s)
    (hf : ∀ a t, Clean q s a t → Finishes xs Q (f a) t) : Finishes xs Q (p >>= f) s := by
  cases hr : p s with
  | error d t =>
    refine hp.of_quiet (.refl s) fun e u he => ?_
    rw [bind_of_error hr] at he
    rw [hr]
    cases he
    rfl
  | ok a t =>
    obtain ⟨hq, hquiet⟩ := hm.ok hr
    refine (hf a t ⟨hq, hquiet.errors⟩).of_quiet hquiet fun e u he => ?_
    rwa [bind_of_ok hr] at he

theorem nest {p : Parser α} (h : Finishes xs Q p s.enter) : Finishes xs Q (Parser.nest p) s := by
  intro d t hr
  unfold Parser.nest at hr
  cases hp : p s.enter with
  | ok a u => rw [hp] at hr; cases hr
  | error e u =>
    rw [hp] at hr
    cases hr
    obtain ⟨hpos, depth, hraises, hcomplete⟩ := h d u hp
    refine ⟨hpos, depth, (hraises.of_quiet (.enter s)).extends ?_, hcomplete⟩
    exact (State.Extends.leave u).trace

theorem noting {p : Parser α} {e : Event} (h : Finishes xs Q p s) :
    Finishes xs Q (Parser.noting e p) s := by
  intro d t hr
  unfold Parser.noting at hr
  cases hp : p s with
  | ok a u => rw [hp] at hr; cases hr
  | error d' u =>
    rw [hp] at hr
    cases hr
    obtain ⟨hpos, depth, hraises, hcomplete⟩ := h d u hp
    refine ⟨hpos, depth, hraises.extends ?_, hcomplete⟩
    simp [State.note]

theorem repeatWhile {goesOn : State → Bool} {round : α → Parser α} (round' : α → Parser α)
    [hm : ∀ a, Mirrors (round a) (round' a)] {I : α → State → Prop}
    (hround : ∀ {a s}, I a s → goesOn s = true → Finishes xs Q (round a) s)
    (hnext : ∀ {a b s t}, I a s → goesOn s = true → Clean (round' a) s b t → I b t) {a : α}
    (hs : I a s) : Finishes xs Q (Reader.repeatWhile goesOn round a) s := by
  induction a, s using repeatWhile_induction goesOn round with
  | next a s b t hgo hr hlt ih =>
    obtain ⟨hq, hquiet⟩ := (hm a).ok hr
    refine (ih (hnext hs hgo ⟨hq, hquiet.errors⟩)).of_quiet hquiet fun e u he => ?_
    rwa [repeatWhile_of_ok hgo hr hlt] at he
  | idle a s b t hgo hr hidle =>
    intro e u he
    rw [repeatWhile_of_idle hgo hr hidle] at he
    cases he
  | fail a s d t hgo hr =>
    refine (hround hs hgo).of_quiet (.refl s) fun e u he => ?_
    rwa [repeatWhile_of_error hgo hr, ← hr] at he
  | stop a s hgo =>
    intro d t hr
    rw [repeatWhile_of_stop hgo] at hr
    cases hr

/-- A loop over items, from the last one on: what completes the rest completes the whole. -/
theorem collect {goesOn : State → Bool} {item : Parser α} (item' : Parser α)
    [hm : Mirrors item item'] {I : State → Prop} {X : State → List Token}
    {P : State → List Token → Prop}
    (hitem : ∀ {s}, I s → goesOn s = true → Finishes (X s) (P s) item s)
    (hnext : ∀ {s a t}, I s → goesOn s = true → Clean item' s a t → goesOn t = true →
      I t ∧ ∀ rest, Completable (P t) (X t) rest → Completable (P s) (X s) rest)
    (hs : I s) : Finishes (X s) (P s) (Reader.collect goesOn item) s := by
  have hstop {xs : List Token} {Q : List Token → Prop} {s : State} (hgo : goesOn s = false) :
      Finishes xs Q (Reader.collect goesOn item) s := by
    intro d t hr
    rw [collect_of_stop hgo] at hr
    cases hr
  induction s using collect_induction goesOn item with
  | stop s hgo => exact hstop hgo
  | fail s d t hgo hr =>
    refine (hitem hs hgo).of_quiet (.refl s) fun e u he => ?_
    rw [collect_of_error hgo hr] at he
    cases he
    exact hr
  | idle s a t hgo hr hidle =>
    intro e u he
    rw [Settles.collect_of_idle hgo hr hidle] at he
    cases he
  | next s a t hgo hr hlt ih =>
    obtain ⟨hq, hquiet⟩ := hm.ok hr
    have hrest : Finishes (X s) (P s) (Reader.collect goesOn item) t := by
      cases hgo' : goesOn t with
      | false => exact hstop hgo'
      | true =>
        obtain ⟨ht, hwhole⟩ := hnext hs hgo ⟨hq, hquiet.errors⟩ hgo'
        exact (ih ht).imp hwhole
    refine hrest.of_quiet hquiet fun e u he => ?_
    rw [collect_of_ok hgo hr hlt] at he
    cases hc : Reader.collect goesOn item t with
    | ok as v => rw [hc] at he; cases he
    | error e' v =>
      rw [hc] at he
      cases he
      rfl

end Finishes

/-- The grammar derives the tokens as such a phrase, within `n` levels. -/
def Derivable (phrase : Phrase) (n : Nat) (ts : List Token) : Prop :=
  ∃ k tree, k ≤ n ∧ Derives phrase k ts tree

/-- The grammar derives an expression that binds tighter than `floor`. -/
def DerivableOver (floor : Power) (n : Nat) (ts : List Token) : Prop :=
  ∃ k tier e, k ≤ n ∧ Derives (.expr tier) k ts e ∧ floor < tier.entry

namespace Derivable

variable {n : Nat} {ts bs as : List Token} {w o c x : Token}

theorem pos {tier : Tier} (h : Derivable (.expr tier) n ts) : 0 < n := by
  obtain ⟨k, e, hk, hd⟩ := h
  have hone := hd.start.1
  omega

theorem above (h : Derivable (.expr .primary) n ts) {floor : Power} (hfloor : floor < .call) :
    DerivableOver floor n ts := by
  obtain ⟨k, e, hk, hd⟩ := h
  exact ⟨k, .primary, e, hk, hd, hfloor⟩

theorem name (hn : 0 < n) (hx : x.kind = .name) (tier : Tier) : Derivable (.expr tier) n [x] := by
  have hd : Derives (.expr tier) 1 [x] (.name x x.text) :=
    (Derives.name hx).loosen (by cases tier <;> decide)
  exact ⟨1, _, hn, hd⟩

theorem braces (hn : 0 < n) (ho : o.kind = .openCurly) (hc : c.kind = .closeCurly) :
    Derivable .block n [o, c] :=
  ⟨1, _, hn, .block ho hc .done⟩

theorem group (ho : o.kind = .openParen) (hc : c.kind = .closeParen)
    (h : Derivable (.expr .equality) n ts) :
    Derivable (.expr .primary) (n + 1) (o :: (ts ++ [c])) := by
  obtain ⟨k, e, hk, hd⟩ := h
  exact ⟨k + 1, e, by omega, .group ho hc hd⟩

theorem array (ho : o.kind = .openBracket) (hc : c.kind = .closeBracket)
    (h : Derivable .list n ts) : Derivable (.expr .primary) (n + 1) (o :: (ts ++ [c])) := by
  obtain ⟨k, es, hk, hd⟩ := h
  exact ⟨k + 1, _, by omega, .array ho hc hd⟩

theorem hash (ho : o.kind = .openCurly) (hc : c.kind = .closeCurly)
    (h : Derivable .pairs n ts) : Derivable (.expr .primary) (n + 1) (o :: (ts ++ [c])) := by
  obtain ⟨k, ps, hk, hd⟩ := h
  exact ⟨k + 1, _, by omega, .hash ho hc hd⟩

theorem conditional (hw : w.kind = .ifWord) (ho : o.kind = .openParen)
    (hc : c.kind = .closeParen) (h : Derivable (.expr .equality) n ts)
    (hb : Derivable .block n bs) :
    Derivable (.expr .primary) (n + 1) (w :: o :: (ts ++ c :: bs)) := by
  obtain ⟨j, e, hj, hd⟩ := h
  obtain ⟨k, b, hk, hb⟩ := hb
  exact ⟨_, _, by omega, .conditional hw ho hc hd hb⟩

theorem alternative (hw : w.kind = .ifWord) (ho : o.kind = .openParen)
    (hc : c.kind = .closeParen) (hx : x.kind = .elseWord) (h : Derivable (.expr .equality) n ts)
    (hb : Derivable .block n bs) (ha : Derivable .block n as) :
    Derivable (.expr .primary) (n + 1) (w :: o :: (ts ++ c :: (bs ++ x :: as))) := by
  obtain ⟨j, e, hj, hd⟩ := h
  obtain ⟨k, b, hk, hb⟩ := hb
  obtain ⟨l, a, hl, ha⟩ := ha
  exact ⟨_, _, by omega, .alternative hw ho hc hx hd hb ha⟩

theorem function (hw : w.kind = .fnWord) (ho : o.kind = .openParen) (hc : c.kind = .closeParen)
    {names : List Name} (h : Names ts names) (hb : Derivable .block n bs) :
    Derivable (.expr .primary) (n + 1) (w :: o :: (ts ++ c :: bs)) := by
  obtain ⟨k, b, hk, hb⟩ := hb
  exact ⟨_, _, by omega, .function hw ho hc h hb⟩

theorem single (h : Derivable (.expr .equality) n ts) : Derivable .list n ts := by
  obtain ⟨k, e, hk, hd⟩ := h
  have hlist := Derives.first hd .last
  rw [List.append_nil] at hlist
  exact ⟨_, _, by omega, hlist⟩

theorem first {rs : List Token} (h : Derivable (.expr .equality) n ts)
    (hr : Derivable .more n rs) : Derivable .list n (ts ++ rs) := by
  obtain ⟨k, e, hk, hd⟩ := h
  obtain ⟨l, es, hl, hes⟩ := hr
  exact ⟨_, _, by omega, .first hd hes⟩

theorem next {comma : Token} {rs : List Token} (hc : comma.kind = .comma)
    (h : Derivable (.expr .equality) n ts) (hr : Derivable .more n rs) :
    Derivable .more n (comma :: (ts ++ rs)) := by
  obtain ⟨k, e, hk, hd⟩ := h
  obtain ⟨l, es, hl, hes⟩ := hr
  exact ⟨_, _, by omega, .next hc hd hes⟩

theorem lastPair {ks vs : List Token} (hc : c.kind = .colon)
    (hk : Derivable (.expr .equality) n ks) (hv : Derivable (.expr .equality) n vs) :
    Derivable .pairs n (ks ++ c :: vs) := by
  obtain ⟨j, key, hj, hkey⟩ := hk
  obtain ⟨k, value, hk, hvalue⟩ := hv
  exact ⟨_, _, by omega, .lastPair hc hkey hvalue⟩

theorem nextPair {comma : Token} {ks vs rs : List Token} (hc : c.kind = .colon)
    (hs : comma.kind = .comma) (hk : Derivable (.expr .equality) n ks)
    (hv : Derivable (.expr .equality) n vs) (hr : Derivable .pairs n rs) :
    Derivable .pairs n (ks ++ c :: (vs ++ comma :: rs)) := by
  obtain ⟨j, key, hj, hkey⟩ := hk
  obtain ⟨k, value, hk, hvalue⟩ := hv
  obtain ⟨l, ps, hl, hps⟩ := hr
  exact ⟨_, _, by omega, .nextPair hc hs hkey hvalue hps⟩

end Derivable

/-- Elements, and the token that closes their list. -/
def Listed (stop : Kind) (n : Nat) (ts : List Token) : Prop :=
  ∃ es c, ts = es ++ [c] ∧ c.kind = stop ∧ Derivable .list n es

/-- Names, and the parenthesis that closes their list. There has to be room for what follows. -/
def NamesListed (n : Nat) (ts : List Token) : Prop :=
  0 < n ∧ ∃ ns c names, ts = ns ++ [c] ∧ c.kind = .closeParen ∧ Names ns names

/-- Where a strict layer with room for `n` levels fails, what it read can be completed within
`n` levels. -/
structure Completing (n : Nat) : Prop where
  expr {floor : Power} {s : State} : floor < .call → s.Ready n →
    Finishes s.ahead (DerivableOver floor n) ((strictOfRoom n).expr floor) s
  block {s : State} : s.current.kind = .openCurly → s.Ready n →
    Finishes s.ahead (Derivable .block n) (strictOfRoom n).block s

namespace Completing

variable {n : Nat} {s t : State}

theorem read {e : Expr} (hs : s.Ready n) (hc : Clean ((ofRoom n).expr .lowest) s e t) :
    ∃ ts, Derivable (.expr .equality) n ts ∧ s.ahead = ts ++ t.after ∧ t.Ready n := by
  obtain ⟨k, ts, hk, hd, hahead, -⟩ := (sound n).whole hs.sealed hc
  exact ⟨ts, ⟨k, e, hk, hd⟩, hahead, hs.clean hc⟩

theorem readBlock {b : Block} (ho : s.peek.kind = .openCurly) (hs : s.Ready n)
    (hc : Clean (ofRoom n).block s.advance b t) :
    ∃ bs, Derivable .block n bs ∧ s.after = bs ++ t.after ∧ t.Ready n := by
  obtain ⟨k, bs, hk, hd, hafter, -⟩ := (sound n).blockAfter hs.sealed ho hc
  exact ⟨bs, ⟨k, b, hk, hd⟩, hafter, hs.advance.clean hc⟩

theorem whole (h : Completing n) (hs : s.Ready n) :
    Finishes s.ahead (Derivable (.expr .equality) n) ((strictOfRoom n).expr .lowest) s := by
  refine (h.expr (by decide) hs).imp fun rest hc => hc.imp ?_
  rintro ys ⟨k, tier, e, hk, hd, -⟩
  exact ⟨k, e, hk, hd.loosen (Nat.zero_le _)⟩

theorem blockAfter (h : Completing n) (ho : s.peek.kind = .openCurly) (hs : s.Ready n) :
    Finishes s.after (Derivable .block n) (strictOfRoom n).block s.advance :=
  h.block (s := s.advance) ho hs.advance

theorem more (h : Completing n) (hs : s.Ready n) :
    Finishes s.after (Derivable .more n)
      (collect (fun s => s.peek.kind = .comma) (strictOfRoom n).nextElement) s := by
  refine Finishes.collect (ofRoom n).nextElement (I := State.Ready n)
    (X := State.after) (P := fun _ => Derivable .more n) ?_ ?_ hs
  · intro s hs hgo
    have hcomma : s.peek.kind = .comma := of_decide_eq_true hgo
    refine .advance (.advance ((h.whole hs.advance.advance).imp fun rest hc => ?_))
    rw [hs.sealed.after_eq (by rw [hcomma]; decide)]
    refine hc.behind [s.peek] fun ys hys => ?_
    have hmore := Derivable.next hcomma hys ⟨0, [], Nat.zero_le n, .last⟩
    rwa [List.append_nil] at hmore
  · intro s e t hs hgo hc _
    have hcomma : s.peek.kind = .comma := of_decide_eq_true hgo
    obtain ⟨k, ts, hk, hd, hafter⟩ := (sound n).nextElement hs.sealed hcomma hc
    refine ⟨hs.clean hc, fun rest hrest => ?_⟩
    rw [hafter]
    exact hrest.behind (s.peek :: ts) fun ys hys => .next hcomma ⟨k, e, hk, hd⟩ hys

theorem list (h : Completing n) (hs : s.Ready n) {stop : Kind}
    (hstop : stop.sample?.isSome = true) :
    Finishes s.after (Listed stop n) ((strictOfRoom n).list stop) s := by
  have hstop : [stop].all (·.sample?.isSome) = true := by
    rw [List.all_cons, hstop]
    rfl
  refine .peek (.advance ?_)
  split
  · exact .pure []
  refine .bind (q := (ofRoom n).expr .lowest) ((h.whole hs.advance).imp fun rest hc => ?_)
    fun e t he => ?_
  · exact hc.wrap [] [stop] hstop fun ys hys c hc => ⟨ys, c, rfl, hc, hys.single⟩
  obtain ⟨ts, hd, hahead, ht⟩ := read hs.advance he
  rw [State.ahead_advance] at hahead
  rw [hahead]
  refine .bind (q := collect (fun s => s.peek.kind = .comma) (ofRoom n).nextElement)
    ((h.more ht).imp fun rest hc => ?_) fun es u hes => ?_
  · refine hc.wrap ts [stop] hstop fun ys hys c hc => ?_
    show Listed stop n (ts ++ (ys ++ [c]))
    rw [← List.append_assoc]
    exact ⟨ts ++ ys, c, rfl, hc, hd.first hys⟩
  · obtain ⟨l, rs, hl, hes', hafter⟩ := (sound n).more ht.sealed hes
    refine .expect (ht.clean hes) (fun _ => ⟨ts ++ rs, [stop], ?_, hstop, ?_⟩) fun _ => .pure _
    · rw [hafter, List.append_assoc]
    · exact fun c hc => ⟨ts ++ rs, c, rfl, hc, hd.first ⟨l, es, hl, hes'⟩⟩

theorem group (h : Completing n) (hs : s.Ready n) (ho : s.current.kind = .openParen) :
    Finishes s.ahead (Derivable (.expr .primary) (n + 1)) (strictOfRoom n).group s := by
  rw [hs.sealed.ahead_eq (by rw [ho]; decide)]
  refine .advance (.bind (q := (ofRoom n).expr .lowest)
    ((h.whole hs.advance).imp fun rest hc => ?_) fun e t he => ?_)
  · exact hc.wrap [s.current] [.closeParen] rfl fun ys hys c hc => .group ho hc hys
  · obtain ⟨ts, hd, hahead, ht⟩ := read hs.advance he
    rw [State.ahead_advance] at hahead
    refine .expect ht (fun _ => ⟨s.current :: ts, [.closeParen], ?_, rfl, ?_⟩) fun _ => .pure _
    · rw [hahead]
      rfl
    · exact fun c hc => .group ho hc hd

theorem array (h : Completing n) (hs : s.Ready n) (ho : s.current.kind = .openBracket) :
    Finishes s.ahead (Derivable (.expr .primary) (n + 1)) (strictOfRoom n).array s := by
  rw [hs.sealed.ahead_eq (by rw [ho]; decide)]
  refine .current (.bind (q := (ofRoom n).list .closeBracket)
    ((h.list hs rfl).imp fun rest hc => ?_) fun es t hes => .pure _)
  refine hc.behind [s.current] ?_
  rintro _ ⟨ts, c, rfl, hc, hd⟩
  exact .array ho hc hd

theorem pair (h : Completing n) (hs : s.Ready n) :
    Finishes s.after (Derivable .pairs n) (strictOfRoom n).pair s := by
  refine .advance (.bind (q := (ofRoom n).expr .lowest)
    ((h.whole hs.advance).imp fun rest hc => ?_) fun key t hkey => ?_)
  · refine hc.wrap [] [.colon, .name] rfl fun ys hys c hc x hx => ?_
    exact .lastPair hc hys (.name hys.pos hx _)
  obtain ⟨ks, hk, hahead, ht⟩ := read hs.advance hkey
  rw [State.ahead_advance] at hahead
  refine .expect ht (fun hn => ⟨ks, [.colon, .name], hahead, rfl, ?_⟩) fun hcolon => .advance ?_
  · exact fun c hc x hx => .lastPair hc hk (.name hn hx _)
  have hafter : s.after = (ks ++ [t.peek]) ++ t.advance.after := by
    rw [hahead, ht.sealed.after_eq (by rw [hcolon]; decide)]
    simp
  rw [hafter]
  refine .bind (q := (ofRoom n).expr .lowest) ((h.whole ht.advance.advance).imp fun rest hc => ?_)
    fun value u hvalue => .peek ?_
  · refine hc.behind (ks ++ [t.peek]) fun ys hys => ?_
    rw [List.append_assoc]
    exact .lastPair hcolon hk hys
  split
  · obtain ⟨vs, hv, hrest, hu⟩ := read ht.advance.advance hvalue
    rw [State.ahead_advance] at hrest
    refine .expect hu (fun _ => .of_read (ks ++ t.peek :: vs) ?_ (.lastPair hcolon hk hv))
      fun _ => .pure _
    rw [hrest]
    simp
  · exact .pure _

theorem pairs (h : Completing n) (hs : s.Ready n) :
    Finishes s.after (Derivable .pairs n)
      (collect (fun s => s.peek.kind ≠ .closeCurly) (strictOfRoom n).pair) s := by
  refine Finishes.collect (ofRoom n).pair (I := State.Ready n) (X := State.after)
    (P := fun _ => Derivable .pairs n) (fun hs _ => h.pair hs) ?_ hs
  rintro s ⟨key, value⟩ t hs _ hc hgo
  obtain ⟨j, k, ks, vs, colon, mid, hj, hk, hkey, hvalue, hcolon, hafter, hmid⟩ :=
    (sound n).pair hs.sealed hc
  refine ⟨hs.clean hc, fun rest hrest => ?_⟩
  rcases hmid with ⟨-, hcurly⟩ | ⟨comma, hcomma, rfl⟩
  · exact absurd hcurly (of_decide_eq_true hgo)
  · have hafter : s.after = (ks ++ colon :: (vs ++ [comma])) ++ t.after := by
      rw [hafter]
      simp
    rw [hafter]
    refine hrest.behind _ fun ys hys => ?_
    have hpairs := Derivable.nextPair hcolon hcomma ⟨j, key, hj, hkey⟩ ⟨k, value, hk, hvalue⟩ hys
    simpa using hpairs

theorem hash (h : Completing n) (hs : s.Ready n) (ho : s.current.kind = .openCurly) :
    Finishes s.ahead (Derivable (.expr .primary) (n + 1)) (strictOfRoom n).hash s := by
  rw [hs.sealed.ahead_eq (by rw [ho]; decide)]
  refine .current (.bind (q := noting (.abandoned s.current) (ofRoom n).pairs)
    (.noting ?_) fun ps t hps => .pure _)
  refine .bind (q := collect (fun s => s.peek.kind ≠ .closeCurly) (ofRoom n).pair)
    ((h.pairs hs).imp fun rest hc => ?_) fun ps t hps => ?_
  · exact hc.wrap [s.current] [.closeCurly] rfl fun ys hys c hc => .hash ho hc hys
  · obtain ⟨k, ts, hk, hd, hafter⟩ := (sound n).pairs hs.sealed hps
    refine .expect (hs.clean hps) (fun _ => ⟨s.current :: ts, [.closeCurly], ?_, rfl, ?_⟩)
      fun _ => .pure _
    · rw [hafter]
      rfl
    · exact fun c hc => .hash ho hc ⟨k, ps, hk, hd⟩

theorem consequence (h : Completing n) {w o c : Token} {e : Expr} {ts : List Token}
    (hw : w.kind = .ifWord) (ho : o.kind = .openParen) (hc : c.kind = .closeParen)
    (hd : Derivable (.expr .equality) n ts) (hs : s.Ready n) :
    Finishes (w :: o :: (ts ++ [c]) ++ s.after) (Derivable (.expr .primary) (n + 1)) (do
      expect .openCurly
      let consequence ← (strictOfRoom n).block
      let next ← peek
      if next.kind = .elseWord then
        advance
        expect .openCurly
        let alternative ← (strictOfRoom n).block
        return .conditional w e consequence (some alternative)
      else
        return .conditional w e consequence none : Parser Expr) s := by
  have hif {ys : List Token} (hys : Derivable .block n ys) :
      Derivable (.expr .primary) (n + 1) (w :: o :: (ts ++ [c]) ++ ys) := by
    simpa using Derivable.conditional hw ho hc hd hys
  refine .expect hs (fun _ => ⟨_, [.openCurly, .closeCurly], rfl, rfl, ?_⟩) fun hcurly => ?_
  · exact fun o ho c hc => hif (.braces hd.pos ho hc)
  refine .bind (q := (ofRoom n).block) ((h.blockAfter hcurly hs).imp fun rest hc => ?_)
    fun b u hb => .peek ?_
  · exact hc.behind _ fun ys hys => hif hys
  split
  next helse =>
    obtain ⟨bs, hb, hafter, hu⟩ := readBlock hcurly hs hb
    have helseif {ys : List Token} (hys : Derivable .block n ys) : Derivable (.expr .primary)
        (n + 1) (w :: o :: (ts ++ c :: (bs ++ [u.peek])) ++ ys) := by
      simpa using Derivable.alternative hw ho hc helse hd hb hys
    have hxs : w :: o :: (ts ++ [c]) ++ s.after =
        (w :: o :: (ts ++ c :: (bs ++ [u.peek]))) ++ u.advance.after := by
      rw [hafter, hu.sealed.after_eq (by rw [helse]; decide)]
      simp
    rw [hxs]
    refine .advance (.expect hu.advance (fun _ => ⟨_, [.openCurly, .closeCurly], rfl, rfl, ?_⟩)
      fun hcurly' => ?_)
    · exact fun o ho c hc => helseif (.braces hd.pos ho hc)
    · refine .bind (q := (ofRoom n).block) ((h.blockAfter hcurly' hu.advance).imp fun rest hc => ?_)
        fun a v ha => .pure _
      exact hc.behind _ fun ys hys => helseif hys
  next => exact .pure _

theorem conditional (h : Completing n) (hs : s.Ready n) (hw : s.current.kind = .ifWord) :
    Finishes s.ahead (Derivable (.expr .primary) (n + 1)) (strictOfRoom n).conditional s := by
  rw [hs.sealed.ahead_eq (by rw [hw]; decide)]
  refine .current (.expect hs (fun hn => ⟨[s.current],
    [.openParen, .name, .closeParen, .openCurly, .closeCurly], rfl, rfl, ?_⟩)
    fun hparen => .advance ?_)
  · intro o ho x hx c hc o' ho' c' hc'
    exact Derivable.conditional hw ho hc (.name hn hx _) (.braces hn ho' hc')
  rw [hs.sealed.after_eq (by rw [hparen]; decide)]
  refine .bind (q := (ofRoom n).expr .lowest) ((h.whole hs.advance.advance).imp fun rest hc => ?_)
    fun e t he => ?_
  · refine hc.wrap [s.current, s.peek] [.closeParen, .openCurly, .closeCurly] rfl ?_
    exact fun ys hys c hc o ho c' hc' => .conditional hw hparen hc hys (.braces hys.pos ho hc')
  obtain ⟨ts, hd, hahead, ht⟩ := read hs.advance.advance he
  rw [State.ahead_advance] at hahead
  rw [hahead]
  refine .expect ht (fun _ => ⟨s.current :: s.peek :: ts, [.closeParen, .openCurly, .closeCurly],
    rfl, rfl, ?_⟩) fun hclose => ?_
  · exact fun c hc o ho c' hc' => .conditional hw hparen hc hd (.braces hd.pos ho hc')
  · have hrest := h.consequence (e := e) hw hparen hclose hd ht.advance
    rw [ht.sealed.after_eq (by rw [hclose]; decide)]
    simpa using hrest

theorem moreNames (hs : s.Ready n) :
    Finishes s.after (fun ts => 0 < n ∧ ∃ names, MoreNames ts names)
      (collect (fun s => s.peek.kind = .comma) nextParameter) s := by
  refine Finishes.collect nextParameter (I := State.Ready n) (X := State.after)
    (P := fun _ ts => 0 < n ∧ ∃ names, MoreNames ts names) ?_ ?_ hs
  · intro s hs hgo
    have hcomma : s.peek.kind = .comma := of_decide_eq_true hgo
    rw [hs.sealed.after_eq (by rw [hcomma]; decide)]
    refine .advance (.expect hs.advance (fun hn => ⟨[s.peek], [.name], rfl, rfl, ?_⟩)
      fun _ => .readName (.pure _))
    exact fun x hx => ⟨hn, _, .cons hcomma hx .nil⟩
  · intro s name t hs hgo hc _
    have hcomma : s.peek.kind = .comma := of_decide_eq_true hgo
    obtain ⟨c, hname, rfl, hafter⟩ := Sound.nextParameter hs.sealed hcomma hc
    refine ⟨hs.clean hc, fun rest hrest => ?_⟩
    have hafter : s.after = [s.peek, c] ++ t.after := hafter
    rw [hafter]
    refine hrest.behind _ ?_
    rintro ys ⟨hn, names, hnames⟩
    exact ⟨hn, _, .cons hcomma hname hnames⟩

theorem parameters (hs : s.Ready n) : Finishes s.after (NamesListed n) Layer.parameters s := by
  refine .peek ?_
  split
  · exact .advance (.pure _)
  refine .expect hs (fun hn => ⟨[], [.closeParen], rfl, rfl, ?_⟩) fun hname => .readName ?_
  · exact fun c hc => ⟨hn, [], c, [], rfl, hc, .nil⟩
  have hafter : s.after = [s.peek] ++ s.advance.after :=
    hs.sealed.after_eq (by rw [hname]; decide)
  rw [hafter]
  refine .bind (q := collect (fun s => s.peek.kind = .comma) nextParameter)
    ((moreNames hs.advance).imp fun rest hc => ?_) fun names t hnames => ?_
  · refine hc.wrap [s.peek] [.closeParen] rfl ?_
    rintro ys ⟨hn, names, hnames⟩ c hc
    exact ⟨hn, s.peek :: ys, c, _, rfl, hc, .cons hname hnames⟩
  · obtain ⟨ts, hmore, hrest⟩ := Sound.moreNames hs.sealed.advance hnames
    refine .expect (hs.advance.clean hnames) (fun hn => ⟨s.peek :: ts, [.closeParen], ?_, rfl, ?_⟩)
      fun _ => .pure _
    · rw [hrest]
      rfl
    · exact fun c hc => ⟨hn, s.peek :: ts, c, _, rfl, hc, .cons hname hmore⟩

theorem function (h : Completing n) (hs : s.Ready n) (hw : s.current.kind = .fnWord) :
    Finishes s.ahead (Derivable (.expr .primary) (n + 1)) (strictOfRoom n).function s := by
  rw [hs.sealed.ahead_eq (by rw [hw]; decide)]
  refine .current (.expect hs (fun hn => ⟨[s.current],
    [.openParen, .closeParen, .openCurly, .closeCurly], rfl, rfl, ?_⟩) fun hparen => ?_)
  · exact fun o ho c hc o' ho' c' hc' => Derivable.function hw ho hc .nil (.braces hn ho' hc')
  rw [hs.sealed.after_eq (by rw [hparen]; decide)]
  refine .bind (q := Layer.parameters) ((parameters hs.advance).imp fun rest hc => ?_)
    fun names t hnames => ?_
  · refine hc.wrap [s.current, s.peek] [.openCurly, .closeCurly] rfl ?_
    rintro _ ⟨hn, ns, c, names, rfl, hc, hnames⟩ o ho c' hc'
    have hfn := Derivable.function hw hparen hc hnames (.braces hn ho hc')
    simpa [Fills] using hfn
  obtain ⟨ns, c, hns, hc, hafter⟩ := Sound.parameters hs.sealed.advance hnames
  have ht := hs.advance.clean hnames
  have hfn {ys : List Token} (hys : Derivable .block n ys) :
      Derivable (.expr .primary) (n + 1) (s.current :: s.peek :: (ns ++ [c]) ++ ys) := by
    simpa using Derivable.function hw hparen hc hns hys
  have hxs : s.current :: s.peek :: s.advance.after =
      (s.current :: s.peek :: (ns ++ [c])) ++ t.after := by
    rw [hafter]
    simp
  rw [hxs]
  refine .expect ht (fun hn => ⟨_, [.openCurly, .closeCurly], rfl, rfl, ?_⟩) fun hcurly => ?_
  · exact fun o ho c hc => hfn (.braces hn ho hc)
  · refine .bind (q := (ofRoom n).block) ((h.blockAfter hcurly ht).imp fun rest hc => ?_)
      fun b u hb => .pure _
    exact hc.behind _ fun ys hys => hfn hys

theorem unary (h : Completing n) (hs : s.Ready n) {floor : Power} (hfloor : floor < .call)
    (hop : s.current.kind = .bang ∨ s.current.kind = .minus) :
    Finishes s.ahead (DerivableOver floor (n + 1)) (strictOfRoom n).unary s := by
  rw [hs.sealed.ahead_eq (by rcases hop with hop | hop <;> rw [hop] <;> decide)]
  refine .current (.advance (.bind (q := (ofRoom n).expr .unary)
    ((h.expr (by decide) hs.advance).imp fun rest hc => ?_) fun e t he => .pure _))
  refine hc.behind [s.current] ?_
  rintro ys ⟨k, tier, e, hk, hd, hentry⟩
  have hrank : Tier.unary.rank ≤ tier.rank := by
    revert hentry
    cases tier <;> decide
  exact ⟨k + 1, .unary, _, by omega, .unary hop (hd.loosen hrank), hfloor⟩

theorem here (hn : 0 < n) {floor : Power} (hfloor : floor < .call) (xs : List Token) :
    Completable (DerivableOver floor n) xs xs :=
  ⟨[], [.name], rfl, rfl, fun _ hx => (Derivable.name hn hx .primary).above hfloor⟩

theorem opening (h : Completing n) (hs : s.Ready n) {form : Opening} {floor : Power}
    (hfloor : floor < .call) (hform : s.current.kind.opening? = some form) :
    Finishes s.ahead (DerivableOver floor (n + 1)) ((strictOfRoom n).opening form) s := by
  have hprimary {p : Parser Expr} (hp : Finishes s.ahead (Derivable (.expr .primary) (n + 1)) p s) :
      Finishes s.ahead (DerivableOver floor (n + 1)) p s :=
    hp.imp fun rest hc => hc.imp fun ys hys => hys.above hfloor
  cases hk : s.current.kind <;> rw [hk] at hform <;> cases hform
  case name | text | trueWord | falseWord => exact .current (.pure _)
  case number =>
    refine .current ?_
    split
    · exact .pure _
    · exact .refuse hs rfl fun _ => here (Nat.succ_pos n) hfloor s.ahead
  case bang => exact h.unary hs hfloor (.inl hk)
  case minus => exact h.unary hs hfloor (.inr hk)
  case openParen => exact hprimary (h.group hs hk)
  case openBracket => exact hprimary (h.array hs hk)
  case openCurly => exact hprimary (h.hash hs hk)
  case ifWord => exact hprimary (h.conditional hs hk)
  case fnWord => exact hprimary (h.function hs hk)

section Joining

variable {floor power : Power} {l : Expr} {u : State} {m : Nat} {tier : Tier} {ls : List Token}

theorem binary (h : Completing n) (hu : u.Ready n)
    (hj : u.peek.kind.joining? = some (.binary, power)) (hpower : floor < power)
    (hm : m ≤ n + 1) (hl : Derives (.expr tier) m ls l) (hlimit : ¬ tier.limit < power)
    (hahead : s.ahead = (ls ++ [u.peek]) ++ u.advance.after) :
    Finishes s.ahead (DerivableOver floor (n + 1)) ((strictOfRoom n).binary l power) u.advance := by
  obtain ⟨target, next, hop, hnext, hentry, htarget⟩ := Tier.exists_of_joining hj
  subst hentry
  have hcall : target.entry < .call := by cases target <;> first | decide | cases hop
  rw [hahead]
  refine .current (.advance (.bind (q := (ofRoom n).expr target.entry)
    ((h.expr hcall hu.advance.advance).imp fun rest hc => ?_) fun e t he => .pure _))
  refine hc.behind _ ?_
  rintro ys ⟨k, tier', e, hk, hd, hentry⟩
  have hleft := hl.loosen (Tier.rank_le_of_limit hlimit htarget)
  have hright := hd.loosen (Tier.rank_le_of_entry hentry hnext htarget)
  rw [List.append_assoc]
  exact ⟨max m (k + 1), target, _, by omega, .binary hop hnext hleft hright, hpower⟩

theorem call (h : Completing n) (hu : u.Ready n) (ho : u.peek.kind = .openParen)
    (hfloor : floor < .call) (hm : m ≤ n + 1) (hl : Derives (.expr .suffixed) m ls l)
    (hahead : s.ahead = (ls ++ [u.peek]) ++ u.advance.after) :
    Finishes s.ahead (DerivableOver floor (n + 1)) ((strictOfRoom n).call l) u.advance := by
  rw [hahead]
  refine .current (.bind (q := (ofRoom n).list .closeParen)
    ((h.list hu.advance rfl).imp fun rest hc => ?_) fun es t hes => .pure _)
  refine hc.behind _ ?_
  rintro _ ⟨ts, c, rfl, hc, k, es, hk, hd⟩
  rw [List.append_assoc]
  exact ⟨max m (k + 1), .suffixed, _, by omega, .call ho hc hl hd, hfloor⟩

theorem index (h : Completing n) (hu : u.Ready n) (ho : u.peek.kind = .openBracket)
    (hfloor : floor < .call) (hm : m ≤ n + 1) (hl : Derives (.expr .suffixed) m ls l)
    (hahead : s.ahead = (ls ++ [u.peek]) ++ u.advance.after) :
    Finishes s.ahead (DerivableOver floor (n + 1)) ((strictOfRoom n).index l) u.advance := by
  have hindex {ts : List Token} {c : Token} (hc : c.kind = .closeBracket)
      (h : Derivable (.expr .equality) n ts) :
      DerivableOver floor (n + 1) ((ls ++ [u.peek]) ++ (ts ++ [c])) := by
    obtain ⟨k, e, hk, hd⟩ := h
    rw [List.append_assoc]
    exact ⟨max m (k + 1), .suffixed, _, by omega, .index ho hc hl hd, hfloor⟩
  rw [hahead]
  refine .current (.advance (.bind (q := (ofRoom n).expr .lowest)
    ((h.whole hu.advance.advance).imp fun rest hc => ?_) fun i t hi => ?_))
  · exact hc.wrap _ [.closeBracket] rfl fun ys hys c hc => hindex hc hys
  · obtain ⟨ts, hd, hafter, ht⟩ := read hu.advance.advance hi
    rw [State.ahead_advance] at hafter
    refine .expect ht (fun _ => ⟨ls ++ [u.peek] ++ ts, [.closeBracket], ?_, rfl, ?_⟩)
      fun _ => .pure _
    · rw [hafter, ← List.append_assoc]
    · intro c hc
      have hi := hindex hc hd
      rwa [← List.append_assoc] at hi

theorem extend (h : Completing n) (hu : u.Ready n) (hfloor : floor < .call)
    (hpart : Sound.Part n floor s l u) (hgo : binds floor u = true) :
    Finishes s.ahead (DerivableOver floor (n + 1)) ((strictOfRoom n).extend floor l) u := by
  simp only [binds, Bool.and_eq_true, decide_eq_true_eq] at hgo
  obtain ⟨m, tier, ls, hm, hl, -, hahead, hlimit⟩ := hpart
  refine .peek ?_
  split
  next => exact .pure l
  next form power hj =>
    have hp : u.peek.kind.power = power := by rw [Kind.power, hj]; rfl
    rw [hp] at hlimit hgo
    have hne : u.peek.kind ≠ .endOfInput := by
      intro hk
      rw [hk] at hj
      cases hj
    have hahead : s.ahead = (ls ++ [u.peek]) ++ u.advance.after := by
      rw [hahead, hu.sealed.after_eq hne, List.append_assoc]
      rfl
    have hu' := hu.note (.applied u.peek.kind power floor)
    refine .note (.advance ?_)
    cases form with
    | binary => exact h.binary hu' hj hgo.2 hm hl hlimit hahead
    | call =>
      obtain ⟨ho, rfl⟩ := Kind.eq_of_joining?_call hj
      exact h.call hu' ho hfloor hm (hl.loosen (Tier.suffixed_le_of_limit hlimit)) hahead
    | index =>
      obtain ⟨ho, rfl⟩ := Kind.eq_of_joining?_index hj
      have hcall : ¬ tier.limit < .call := fun hlt => hlimit (Nat.lt_trans hlt (by decide))
      exact h.index hu' ho hfloor hm (hl.loosen (Tier.suffixed_le_of_limit hcall)) hahead

end Joining

theorem climb (h : Completing n) (hs : s.Ready n) {floor : Power} (hfloor : floor < .call) :
    Finishes s.ahead (DerivableOver floor (n + 1)) ((strictOfRoom n).climb floor) s := by
  refine .current ?_
  split
  next => exact .refuse hs rfl fun _ => here (Nat.succ_pos n) hfloor s.ahead
  next form hform =>
    refine .bind (q := (ofRoom n).opening form) (h.opening hs hfloor hform) fun first t hfirst => ?_
    refine .repeatWhile ((ofRoom n).extend floor)
      (I := fun left t => t.Ready n ∧ Sound.Part n floor s left t)
      (fun hpart hgo => h.extend hpart.1 hfloor hpart.2 hgo) ?_ ?_
    · rintro left e t u ⟨ht, hpart⟩ hgo hround
      exact ⟨ht.clean hround, ((sound n).extend ht.sealed hfloor hpart hgo hround).1⟩
    · exact ⟨hs.clean hfirst, (sound n).opening hs.sealed hfloor hform hfirst⟩

theorem clause (h : Completing n) (hs : s.Ready n) :
    Finishes s.ahead (Derivable .stmt n) (strictOfRoom n).clause s := by
  refine .current ?_
  split
  next hform =>
    have hw : s.current.kind = .letWord := by
      cases hk : s.current.kind <;> rw [hk] at hform <;> cases hform
    have hlet {t a : Token} {ts : List Token} (ht : t.kind = .name) (ha : a.kind = .assign)
        (h : Derivable (.expr .equality) n ts) :
        Derivable .stmt n (s.current :: t :: a :: ts) := by
      obtain ⟨k, e, hk, hd⟩ := h
      exact ⟨k, _, hk, .binding hw ht ha hd⟩
    rw [hs.sealed.ahead_eq (by rw [hw]; decide)]
    refine .expect hs (fun hn => ⟨[s.current], [.name, .assign, .name], rfl, rfl, ?_⟩)
      fun hname => .readName ?_
    · exact fun x hx a ha y hy => hlet hx ha (.name hn hy _)
    rw [hs.sealed.after_eq (by rw [hname]; decide)]
    refine .expect hs.advance (fun hn => ⟨[s.current, s.peek], [.assign, .name], rfl, rfl, ?_⟩)
      fun hassign => .advance ?_
    · exact fun a ha y hy => hlet hname ha (.name hn hy _)
    rw [hs.sealed.advance.after_eq (by rw [hassign]; decide)]
    refine .bind (q := (ofRoom n).expr .lowest)
      ((h.whole hs.advance.advance.advance).imp fun rest hc => ?_) fun e t he => .pure _
    exact hc.behind [s.current, s.peek, s.advance.peek] fun ys hys => hlet hname hassign hys
  next hform =>
    have hw : s.current.kind = .returnWord := by
      cases hk : s.current.kind <;> rw [hk] at hform <;> cases hform
    rw [hs.sealed.ahead_eq (by rw [hw]; decide)]
    refine .advance (.bind (q := (ofRoom n).expr .lowest)
      ((h.whole hs.advance).imp fun rest hc => ?_) fun e t he => .pure _)
    refine hc.behind [s.current] ?_
    rintro ys ⟨k, e, hk, hd⟩
    exact ⟨k, _, hk, .returning hw hd⟩
  next =>
    refine .bind (q := (ofRoom n).expr .lowest) ((h.whole hs).imp fun rest hc => hc.imp ?_)
      fun e t he => .pure _
    rintro ys ⟨k, e, hk, hd⟩
    obtain ⟨-, first, rest, rfl, -⟩ := hd.start
    exact ⟨k, _, hk, .expression hd⟩

/-- Statements that begin as the tokens ahead do. -/
def Resumed (n : Nat) (s : State) (ts : List Token) : Prop :=
  Derivable .stmts n ts ∧ ∀ t ∈ ts.head?, t ∈ s.ahead.head?

/-- What completes the statements behind one completes them all. -/
theorem resume {st : Stmt} {u : State} (hs : s.Ready n) (hc : Clean (ofRoom n).clause s st u)
    {rest : List Token}
    (hrest : Completable (Resumed n u.skipSemicolon.advance) u.skipSemicolon.advance.ahead rest) :
    Completable (Resumed n s) s.ahead rest := by
  obtain ⟨k, ts, hk, hd, hahead, hend⟩ := (sound n).clause hs.sealed hc
  obtain ⟨first, ts', rfl, -⟩ := hd.start
  have hfirst {ys : List Token} : ∀ t ∈ ((first :: ts') ++ ys).head?, t ∈ s.ahead.head? := by
    intro t ht
    rw [hahead]
    exact ht
  rw [State.ahead_advance] at hrest
  unfold State.skipSemicolon at hrest
  split at hrest
  next hsemi =>
    have hahead : s.ahead = ((first :: ts') ++ [u.peek]) ++ u.advance.after := by
      rw [hahead, (hs.clean hc).sealed.after_eq (by rw [hsemi]; decide), List.append_assoc]
      rfl
    rw [hahead]
    refine hrest.behind _ ?_
    rintro ys ⟨⟨l, ss, hl, hss⟩, -⟩
    rw [List.append_assoc]
    exact ⟨⟨max k l, _, by omega, .terminated hsemi hd hss⟩, hfirst⟩
  next =>
    rw [hahead]
    refine hrest.behind _ ?_
    rintro ys ⟨⟨l, ss, hl, hss⟩, hhead⟩
    refine ⟨⟨max k l, _, by omega, .unterminated ?_ hd hss⟩, hfirst⟩
    intro t ht hcont
    have hmem : u.after.head? = some t := hhead t ht
    have hpeek : u.peek = t := by
      rw [u.peek_eq, List.headD_eq_head?_getD, hmem]
      rfl
    rw [hpeek] at hend
    rcases hcont with hk | hk | hk <;> rw [hk] at hend <;> exact hend (by decide)

theorem stmts (h : Completing n) (hs : s.Ready n) (goesOn : State → Bool) :
    Finishes s.ahead (Derivable .stmts n) ((strictOfRoom n).strictStmts goesOn) s := by
  have hloop : Finishes s.ahead (Resumed n s) ((strictOfRoom n).strictStmts goesOn) s := by
    refine Finishes.collect (ofRoom n).strictStmt (I := State.Ready n)
      (X := State.ahead) (P := Resumed n) ?_ ?_ hs
    · intro s hs _
      refine .bind (q := (ofRoom n).clause) ((h.clause hs).imp fun rest hc => ?_)
        fun st t hst => ?_
      · -- A statement of which nothing was read is left out.
        obtain ⟨read, kinds, hread, hkinds, hfill⟩ := hc
        cases read with
        | nil => exact .of_read [] hread ⟨⟨0, [], Nat.zero_le n, .done⟩, fun _ ht => by cases ht⟩
        | cons first read =>
          refine ⟨first :: read, kinds, hread, hkinds, hfill.imp ?_⟩
          rintro ts ⟨k, st, hk, hd⟩
          have hss := Derives.unterminated (fun _ ht => by cases ht) hd .done
          rw [List.append_nil] at hss
          refine ⟨⟨max k 0, _, by omega, hss⟩, ?_⟩
          rw [hread]
          exact fun t ht => ht
      · intro d u hr
        cases hr
    · intro s st t hs _ hc _
      have ht := hs.clean hc
      obtain ⟨st', u, hclause, hc⟩ := hc.bind
      obtain ⟨rfl, rfl⟩ := hc.skipSemicolon.advance.pure
      exact ⟨ht, fun rest hrest => resume hs hclause hrest⟩
  exact hloop.imp fun rest hc => hc.imp fun ys hys => hys.1

theorem braces (h : Completing n) (hs : s.Ready n) (ho : s.current.kind = .openCurly) :
    Finishes s.ahead (Derivable .block (n + 1)) (strictOfRoom n).strictBraces s := by
  have hblock {ts : List Token} {c : Token} (hc : c.kind = .closeCurly)
      (h : Derivable .stmts n ts) : Derivable .block (n + 1) (s.current :: (ts ++ [c])) := by
    obtain ⟨k, ss, hk, hd⟩ := h
    exact ⟨k + 1, _, by omega, .block ho hc hd⟩
  rw [hs.sealed.ahead_eq (by rw [ho]; decide)]
  refine .current (.advance (.bind (q := (ofRoom n).stmts inBlock)
    ((h.stmts hs.advance inBlock).imp fun rest hc => ?_) fun ss t hss => .current ?_))
  · exact hc.wrap [s.current] [.closeCurly] rfl fun ys hys c hc => hblock hc hys
  split
  next hend =>
    obtain ⟨k, ts, hk, hd, hafter, -⟩ := (sound n).stmts hs.sealed.advance hss
    have ht := hs.advance.clean hss
    have hnil := ht.sealed.ahead_eq_nil hend
    have hblamed : t.after = [] := by
      rw [State.after, ← State.ahead, hnil]
      rfl
    have hstop : t.current = t.input.stop := by
      rw [t.current_eq, hnil]
      rfl
    refine .bind (q := refuse (.tokenMismatch .closeCurly .endOfInput t.current.text) t.current)
      (.refuse ht ?_ fun _ => ⟨s.current :: ts, [.closeCurly], ?_, rfl, ?_⟩)
      fun _ _ hc => hc.refuse.elim
    · show t.current.position = (t.after.headD t.input.stop).position
      rw [hblamed, hstop]
      rfl
    · show s.current :: s.advance.ahead = s.current :: ts ++ t.after
      rw [hafter, hnil, hblamed]
      rfl
    · exact fun c hc => hblock hc ⟨k, ss, hk, hd⟩
  next => exact .pure _

theorem succ (h : Completing n) : Completing (n + 1) where
  expr hfloor hs := .nest (h.climb hs.enter hfloor)
  block ho hs := .nest (h.braces hs.enter ho)

end Completing

theorem Layer.completing (n : Nat) : Completing n := by
  -- A layer without room refuses at the limit, where nothing has to be completed.
  have hdeepest {s : State} {α : Type} {xs : List Token} {Q : List Token → Prop}
      (hs : s.Ready 0) : Finishes xs Q (do
        refuse (.nestingTooDeep maxNesting) (← current) : Parser α) s :=
    .current (.refuse hs rfl fun hn => absurd hn (Nat.lt_irrefl 0))
  induction n with
  | zero => exact ⟨fun _ hs => hdeepest hs, fun _ hs => hdeepest hs⟩
  | succ n ih => exact ih.succ

end Scriptlet
