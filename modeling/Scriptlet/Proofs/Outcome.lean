import Scriptlet.Proofs.Frame

/-! What a run on well-formed input comes to. Either the nesting suffices, and the run reads
exactly the tokens that it should and records nothing, or it does not, and the first diagnostic of
the run is that the nesting is too deep. -/
namespace Scriptlet

open Reader Scriptlet.Parser

namespace State

/-- The tokens from the current one on. -/
def ahead (s : State) : List Token :=
  s.input.ahead

/-- The tokens behind the current one. -/
def after (s : State) : List Token :=
  s.input.ahead.tail

@[simp] theorem ahead_advance (s : State) : s.advance.ahead = s.after := rfl

theorem peek_eq (s : State) : s.peek = s.after.headD s.input.stop := rfl

theorem current_eq (s : State) : s.current = s.ahead.headD s.input.stop := rfl

theorem remaining_eq (s : State) : s.remaining = s.ahead.length := s.input.remaining_eq

/-- The diagnostics of one state are the first ones of the other. -/
def Grows (s t : State) : Prop :=
  s.errors.toList <+: t.errors.toList

theorem Grows.errors_eq {s t u : State} (hst : s.Grows t) (htu : t.Grows u)
    (h : u.errors = s.errors) : t.errors = s.errors := by
  have hlen := htu.length_le
  rw [h] at hlen
  exact Array.toList_inj.mp (hst.eq_of_length_le hlen).symm

instance : Frame Grows where
  refl _ := List.prefix_rfl
  trans := List.IsPrefix.trans
  advance _ := List.prefix_rfl
  note _ _ _ := List.prefix_rfl
  record s d := by simp [Grows, record]
  nest h := h

/-- Nothing but tokens from the front has been read. -/
def Passes (s t : State) : Prop :=
  t.ahead <:+ s.ahead

instance : Frame Passes where
  refl _ := List.suffix_rfl
  trans hst htu := htu.trans hst
  advance _ := List.tail_suffix _
  note _ _ _ := List.suffix_rfl
  record _ _ := List.suffix_rfl
  nest h := h

instance : Frame fun s t : State => s.input.stop = t.input.stop where
  refl _ := rfl
  trans := Eq.trans
  advance _ := rfl
  note _ _ _ := rfl
  record _ _ := rfl
  nest h := h

/-- The state `t` has `rest` behind its current token, and nothing was recorded since `s`. -/
structure Reaches (s : State) (rest : List Token) (t : State) : Prop where
  after : t.after = rest
  stop : t.input.stop = s.input.stop
  errors : t.errors = s.errors

theorem Reaches.trans {s t u : State} {mid rest : List Token} (h : s.Reaches mid t)
    (h' : t.Reaches rest u) : s.Reaches rest u :=
  ⟨h'.after, h'.stop.trans h.stop, h'.errors.trans h.errors⟩

theorem Reaches.peek {s t : State} {rest : List Token} (h : s.Reaches rest t) :
    t.peek = rest.headD s.input.stop := by
  rw [peek_eq, h.after, h.stop]

theorem remaining_lt_of_after {s t : State} (ts : List Token) (hs : s.after = ts ++ t.after)
    (hts : ts ≠ []) : t.remaining < s.remaining := by
  have hs := congrArg List.length hs
  have := List.length_pos_iff.mpr hts
  simp only [after, List.length_tail, List.length_append] at hs
  rw [remaining_eq, remaining_eq, ahead, ahead]
  omega

theorem Reaches.remaining_lt {s t : State} {ts rest : List Token} (h : s.Reaches rest t)
    (hs : s.after = ts ++ rest) (hts : ts ≠ []) : t.remaining < s.remaining :=
  remaining_lt_of_after ts (h.after ▸ hs) hts

/-- The first diagnostic recorded since `s` is that the nesting is too deep. -/
def Overran (s t : State) : Prop :=
  ∃ d : Diagnostic, d.cause = .nestingTooDeep maxNesting ∧
    (s.errors.push d).toList <+: t.errors.toList

theorem Overran.grows {s t u : State} (h : s.Overran t) (htu : t.Grows u) : s.Overran u := by
  obtain ⟨d, hd, hp⟩ := h
  exact ⟨d, hd, hp.trans htu⟩

theorem Overran.of_errors_eq {s s' t : State} (h : s'.Overran t) (he : s'.errors = s.errors) :
    s.Overran t := by
  rwa [Overran, ← he]

end State

/-- The first diagnostic of a run from `s` is that the nesting is too deep. -/
def Overrun (s : State) {α : Type} : EStateM.Result Diagnostic State α → Prop
  | .ok _ t => s.Overran t
  | .error d t => s.Overran t ∨ d.cause = .nestingTooDeep maxNesting ∧ t.errors = s.errors

namespace Overrun

variable {α β : Type} {s : State} {p : Parser α}

theorem of_errors_eq {s' : State} {r : EStateM.Result Diagnostic State α} (h : Overrun s' r)
    (he : s'.errors = s.errors) : Overrun s r := by
  cases r with
  | ok a t => exact State.Overran.of_errors_eq h he
  | error d t =>
    rcases h with h | ⟨hd, ht⟩
    · exact .inl (h.of_errors_eq he)
    · exact .inr ⟨hd, ht.trans he⟩

theorem bind {f : α → Parser β} [hf : ∀ a, Keeps State.Grows (f a)] (h : Overrun s (p s)) :
    Overrun s ((p >>= f) s) := by
  cases hp : p s with
  | error d t =>
    rw [bind_of_error hp]
    rwa [hp] at h
  | ok a t =>
    rw [hp] at h
    have hg := (hf a).final t
    rw [bind_of_ok hp]
    cases hr : f a t with
    | ok b u => exact State.Overran.grows h (by rwa [hr] at hg)
    | error d u => exact .inl (State.Overran.grows h (by rwa [hr] at hg))

theorem repeatWhile {goesOn : State → Bool} {round : α → Parser α}
    [hk : ∀ a, Keeps State.Grows (round a)] {a : α} (hs : goesOn s = true)
    (h : Overrun s (round a s)) : Overrun s (Reader.repeatWhile goesOn round a s) := by
  cases hr : round a s with
  | error d t =>
    rw [hr] at h
    rwa [repeatWhile_of_error hs hr]
  | ok b t =>
    rw [hr] at h
    by_cases hlt : t.remaining < s.remaining
    · have hg : t.Grows (final (Reader.repeatWhile goesOn round b t)) :=
        (Keeps.repeatWhile b).final t
      rw [repeatWhile_of_ok hs hr hlt]
      cases hu : Reader.repeatWhile goesOn round b t with
      | ok c u => exact State.Overran.grows h (by rwa [hu] at hg)
      | error d u => exact .inl (State.Overran.grows h (by rwa [hu] at hg))
    · rwa [repeatWhile_of_idle hs hr hlt]

end Overrun

/-- If the nesting suffices, the parser reads `a` and leaves `rest`; if not, it overruns. -/
structure Outcome (fits : Prop) {α : Type} (p : Parser α) (s : State) (rest : List Token)
    (a : α) : Prop where
  reads : fits → ∃ t, p s = .ok a t ∧ s.Reaches rest t
  overruns : ¬ fits → Overrun s (p s)

namespace Outcome

variable {α β : Type} {fits more : Prop} {p : Parser α} {f : α → Parser β} {s : State}
  {mid rest : List Token} {a : α} {b : β}

theorem congr (h : Outcome fits p s rest a) (hf : fits ↔ more) : Outcome more p s rest a :=
  ⟨fun hm => h.reads (hf.mpr hm), fun hm => h.overruns fun hfit => hm (hf.mp hfit)⟩

theorem pure (h : s.after = rest) : Outcome True (Pure.pure a : Parser α) s rest a :=
  ⟨fun _ => ⟨s, rfl, h, rfl, rfl⟩, fun h => absurd trivial h⟩

theorem bind [∀ a, Keeps State.Grows (f a)] (hp : Outcome fits p s mid a)
    (hf : ∀ t, s.Reaches mid t → Outcome more (f a) t rest b) :
    Outcome (fits ∧ more) (p >>= f) s rest b where
  reads h := by
    obtain ⟨t, ht, hst⟩ := hp.reads h.1
    obtain ⟨u, hu, htu⟩ := (hf t hst).reads h.2
    exact ⟨u, (bind_of_ok ht).trans hu, hst.trans htu⟩
  overruns h := by
    by_cases hfit : fits
    · obtain ⟨t, ht, hst⟩ := hp.reads hfit
      have hover := (hf t hst).overruns fun hm => h ⟨hfit, hm⟩
      rw [bind_of_ok ht]
      exact hover.of_errors_eq hst.errors
    · exact (hp.overruns hfit).bind

/-- What comes last needs no room. -/
theorem finish [∀ a, Keeps State.Grows (f a)] (hp : Outcome fits p s mid a)
    (hf : ∀ t, s.Reaches mid t → Outcome True (f a) t rest b) :
    Outcome fits (p >>= f) s rest b :=
  (hp.bind hf).congr (iff_of_eq (and_true fits))

/-- A run goes on like a run from a state with the same diagnostics. -/
theorem of_eq {q : Parser α} {t : State} (h : Outcome fits p t rest a) (hrun : q s = p t)
    (hstop : t.input.stop = s.input.stop) (herrors : t.errors = s.errors) :
    Outcome fits q s rest a where
  reads hfit := by
    obtain ⟨u, hu, htu⟩ := h.reads hfit
    exact ⟨u, hrun.trans hu, htu.after, htu.stop.trans hstop, htu.errors.trans herrors⟩
  overruns hfit := by
    rw [hrun]
    exact (h.overruns hfit).of_errors_eq herrors

theorem current {f : Token → Parser β} (h : Outcome fits (f s.current) s rest b) :
    Outcome fits (Reader.current >>= f) s rest b :=
  h.of_eq rfl rfl rfl

theorem readName {f : Name → Parser β}
    (h : Outcome fits (f ⟨s.current, s.current.text⟩) s rest b) :
    Outcome fits (Layer.readName >>= f) s rest b :=
  h.of_eq rfl rfl rfl

theorem peek {f : Token → Parser β} (h : Outcome fits (f s.peek) s rest b) :
    Outcome fits (Reader.peek >>= f) s rest b :=
  h.of_eq rfl rfl rfl

theorem advance {f : Unit → Parser β} (h : Outcome fits (f ()) s.advance rest b) :
    Outcome fits (Reader.advance >>= f) s rest b :=
  h.of_eq rfl rfl rfl

theorem note {f : Unit → Parser β} {e : Event} (h : Outcome fits (f ()) (s.note e) rest b) :
    Outcome fits (Reader.note e >>= f) s rest b :=
  h.of_eq rfl rfl rfl

theorem expect {f : Unit → Parser β} {kind : Kind} (hk : s.peek.kind = kind)
    (h : Outcome fits (f ()) s.advance rest b) :
    Outcome fits (Parser.expect kind >>= f) s rest b :=
  h.of_eq (bind_of_ok (expect_of_eq hk)) rfl rfl

theorem noting (h : Outcome fits p s rest a) (e : Event) :
    Outcome fits (Parser.noting e p) s rest a where
  reads hfit := by
    obtain ⟨t, ht, hst⟩ := h.reads hfit
    exact ⟨t, by rw [Parser.noting, ht], hst⟩
  overruns hfit := by
    have ho := h.overruns hfit
    unfold Parser.noting
    split
    next b t ht =>
      rw [ht] at ho
      exact ho
    next d t ht =>
      rw [ht] at ho
      exact ho

theorem nest (h : Outcome fits p s.enter rest a) : Outcome fits (Parser.nest p) s rest a where
  reads hfit := by
    obtain ⟨t, ht, hst⟩ := h.reads hfit
    exact ⟨t.leave, by rw [Parser.nest, ht], hst.after, hst.stop, hst.errors⟩
  overruns hfit := by
    have ho := h.overruns hfit
    unfold Parser.nest
    split
    next b t ht =>
      rw [ht] at ho
      exact ho
    next d t ht =>
      rw [ht] at ho
      exact ho

/-- A level that has no room left refuses every form. -/
theorem refuse_nesting (hfit : ¬ fits) (token : Token) :
    Outcome fits (Parser.refuse (.nestingTooDeep maxNesting) token) s rest a :=
  ⟨fun h => absurd h hfit, fun _ => .inr ⟨rfl, rfl⟩⟩

theorem collect_cons {goesOn : State → Bool} {item : Parser α} {ts : List Token} {as : List α}
    [Keeps State.Grows item] (hs : goesOn s = true) (hts : s.after = ts ++ mid) (hne : ts ≠ [])
    (hi : Outcome fits item s mid a)
    (hr : ∀ t, s.Reaches mid t → Outcome more (collect goesOn item) t rest as) :
    Outcome (fits ∧ more) (collect goesOn item) s rest (a :: as) where
  reads h := by
    obtain ⟨t, ht, hst⟩ := hi.reads h.1
    obtain ⟨u, hu, htu⟩ := (hr t hst).reads h.2
    refine ⟨u, ?_, hst.trans htu⟩
    rw [collect_of_ok hs ht (hst.remaining_lt hts hne), hu]
  overruns h := by
    by_cases hfit : fits
    · obtain ⟨t, ht, hst⟩ := hi.reads hfit
      have ho := ((hr t hst).overruns fun hm => h ⟨hfit, hm⟩).of_errors_eq hst.errors
      rw [collect_of_ok hs ht (hst.remaining_lt hts hne)]
      cases hc : collect goesOn item t <;> rwa [hc] at ho
    · have hk (items : Array α) : Keeps State.Grows (gather item items) := by
        unfold gather
        infer_instance
      have hg : Overrun s (gather item #[] s) := (hi.overruns hfit).bind
      exact Overrun.bind (p := Reader.repeatWhile goesOn (gather item) #[]) (hg.repeatWhile hs)

theorem collect_nil {goesOn : State → Bool} {item : Parser α} (hs : goesOn s = false)
    (h : s.after = rest) : Outcome True (collect goesOn item) s rest [] :=
  ⟨fun _ => ⟨s, collect_of_stop hs, h, rfl, rfl⟩, fun h => absurd trivial h⟩

theorem skipSemicolon {f : Unit → Parser β} (h : Outcome fits (f ()) s.skipSemicolon rest b) :
    Outcome fits (Reader.skipSemicolon >>= f) s rest b := by
  refine h.of_eq rfl ?_ ?_ <;> unfold State.skipSemicolon <;> split <;> rfl

end Outcome

/-- If the nesting suffices, the reader reads `a` and stops at `rest`; if not, it overruns. Unlike
an outcome this is about readers that end at the token behind what they read, and that record
their failures. -/
structure Settles (fits : Prop) {ε α : Type} (p : Reader ε α) (s : State) (rest : List Token)
    (a : α) : Prop where
  reads : fits → ∃ t, p s = .ok a t ∧ t.ahead = rest ∧ t.input.stop = s.input.stop ∧
    t.errors = s.errors
  overruns : ¬ fits → s.Overran (final (p s))

namespace Settles

variable {ε α β : Type} {fits more : Prop} {s : State} {mid rest : List Token} {a : α}

theorem congr {p : Reader ε α} (h : Settles fits p s rest a) (hf : fits ↔ more) :
    Settles more p s rest a :=
  ⟨fun hm => h.reads (hf.mpr hm), fun hm => h.overruns fun hfit => hm (hf.mp hfit)⟩

theorem bind {p : Parser α} {f : α → Parser β} [∀ a, Keeps State.Grows (f a)] {b : β}
    (hp : Settles fits p s mid a)
    (hf : ∀ t, t.ahead = mid → t.input.stop = s.input.stop → Outcome more (f a) t rest b) :
    Outcome (fits ∧ more) (p >>= f) s rest b where
  reads h := by
    obtain ⟨t, ht, hmid, hstop, herr⟩ := hp.reads h.1
    obtain ⟨u, hu, htu⟩ := (hf t hmid hstop).reads h.2
    exact ⟨u, (bind_of_ok ht).trans hu, htu.after, htu.stop.trans hstop, htu.errors.trans herr⟩
  overruns h := by
    by_cases hfit : fits
    · obtain ⟨t, ht, hmid, hstop, herr⟩ := hp.reads hfit
      have ho := (hf t hmid hstop).overruns fun hm => h ⟨hfit, hm⟩
      rw [bind_of_ok ht]
      exact ho.of_errors_eq herr
    · refine Overrun.bind ?_
      have ho := hp.overruns hfit
      cases hr : p s with
      | ok b t => rwa [hr] at ho
      | error d t => exact .inl (by rwa [hr] at ho)

/-- A statement that fits is read with its terminator; one that does not is recorded. -/
theorem of_outcome {p : Parser α} (h : Outcome fits p s rest a) :
    Settles fits (do
      let a? ← recovering p
      advance
      return a? : Reader ε (Option α)) s rest (some a) where
  reads hfit := by
    obtain ⟨t, ht, hst⟩ := h.reads hfit
    refine ⟨t.advance, ?_, hst.after, hst.stop, hst.errors⟩
    change EStateM.bind (recovering p) _ s = _
    rw [EStateM.bind, recovering, ht]
    rfl
  overruns hfit := by
    have ho := h.overruns hfit
    change s.Overran (final (EStateM.bind (recovering p) _ s))
    rw [EStateM.bind, recovering]
    cases hp : p s with
    | ok b t =>
      rw [hp] at ho
      exact ho
    | error d t =>
      rw [hp] at ho
      have hg : (t.record d).Grows (t.record d).skipSemicolon := Keeps.skipSemicolon_state _
      rcases ho with ho | ⟨hd, ht⟩
      · exact ho.grows (Frame.trans (Frame.record t d) hg)
      · exact ⟨d, hd, by rw [← ht]; exact hg⟩

theorem collect_of_idle {goesOn : State → Bool} {item : Reader ε α} {t : State}
    (hs : goesOn s = true) (hi : item s = .ok a t) (ht : ¬ t.remaining < s.remaining) :
    collect goesOn item s = .ok [a] t := by
  have hr : repeatWhile goesOn (gather item) #[] s = .ok #[a] t :=
    repeatWhile_of_idle hs (gather_of_ok hi) ht
  simp only [collect, Bind.bind, EStateM.bind, hr, Pure.pure, EStateM.pure]

theorem overran_collect {goesOn : State → Bool} {item : Reader ε α} [Keeps State.Grows item]
    (hs : goesOn s = true) (h : s.Overran (final (item s))) :
    s.Overran (final (collect goesOn item s)) := by
  cases hi : item s with
  | error e t =>
    rw [hi] at h
    rwa [collect_of_error hs hi]
  | ok b t =>
    rw [hi] at h
    by_cases ht : t.remaining < s.remaining
    · have hg : t.Grows (final (collect goesOn item t)) := Keeps.final t
      rw [collect_of_ok hs hi ht]
      cases hc : collect goesOn item t <;> rw [hc] at hg <;> exact h.grows hg
    · rwa [collect_of_idle hs hi ht]

theorem collect_cons {goesOn : State → Bool} {item : Reader ε α} [Keeps State.Grows item]
    {ts : List Token} {as : List α} (hs : goesOn s = true) (hts : s.ahead = ts ++ mid)
    (hne : ts ≠ []) (hi : Settles fits item s mid a)
    (hr : ∀ t, t.ahead = mid → t.input.stop = s.input.stop →
      Settles more (collect goesOn item) t rest as) :
    Settles (fits ∧ more) (collect goesOn item) s rest (a :: as) := by
  have hlt {t : State} (ht : t.ahead = mid) : t.remaining < s.remaining := by
    have := List.length_pos_iff.mpr hne
    rw [t.remaining_eq, s.remaining_eq, ht, hts, List.length_append]
    omega
  constructor
  · rintro ⟨hfit, hmore⟩
    obtain ⟨t, ht, hmid, hstop, herr⟩ := hi.reads hfit
    obtain ⟨u, hu, hrest, hustop, huerr⟩ := (hr t hmid hstop).reads hmore
    refine ⟨u, ?_, hrest, hustop.trans hstop, huerr.trans herr⟩
    rw [collect_of_ok hs ht (hlt hmid), hu]
  · intro h
    by_cases hfit : fits
    · obtain ⟨t, ht, hmid, hstop, herr⟩ := hi.reads hfit
      have ho := ((hr t hmid hstop).overruns fun hm => h ⟨hfit, hm⟩).of_errors_eq herr
      rw [collect_of_ok hs ht (hlt hmid)]
      cases hc : collect goesOn item t <;> rwa [hc] at ho
    · exact overran_collect hs (hi.overruns hfit)

end Settles

end Scriptlet
