import Scriptlet.Proofs.Reading
import Scriptlet.Proofs.Spelling

/-! What the parser reads without recording a diagnostic, the grammar derives. A run is clean if it
succeeds and records nothing; a clean run of several steps is clean at each of them, so every
handler is read off against the production that it stands for. -/
namespace Scriptlet

open Reader Scriptlet.Parser Layer

/-- The reader reads `a` from `s` to `t` and records nothing. -/
structure Clean {ε α : Type} (p : Reader ε α) (s : State) (a : α) (t : State) : Prop where
  ok : p s = .ok a t
  errors : t.errors = s.errors

namespace Clean

variable {ε α β : Type} {s t u : State} {a : α} {b : β}

theorem bind {p : Reader ε α} {f : α → Reader ε β} [Keeps State.Grows p]
    [∀ a, Keeps State.Grows (f a)] (h : Clean (p >>= f) s b u) :
    ∃ a t, Clean p s a t ∧ Clean (f a) t b u := by
  obtain ⟨hok, herr⟩ := h
  cases hp : p s with
  | error e t => cases (bind_of_error hp).symm.trans hok
  | ok a t =>
    rw [bind_of_ok hp] at hok
    have hst : t.errors = s.errors :=
      State.Grows.errors_eq (Keeps.of_ok hp) (Keeps.of_ok hok) herr
    exact ⟨a, t, ⟨hp, hst⟩, hok, herr.trans hst.symm⟩

theorem current {f : Token → Reader ε β} (h : Clean (Reader.current >>= f) s b u) :
    Clean (f s.current) s b u := ⟨h.ok, h.errors⟩

theorem peek {f : Token → Reader ε β} (h : Clean (Reader.peek >>= f) s b u) :
    Clean (f s.peek) s b u := ⟨h.ok, h.errors⟩

theorem advance {f : Unit → Reader ε β} (h : Clean (Reader.advance >>= f) s b u) :
    Clean (f ()) s.advance b u := ⟨h.ok, h.errors⟩

theorem note {f : Unit → Reader ε β} {e : Event} (h : Clean (Reader.note e >>= f) s b u) :
    Clean (f ()) (s.note e) b u := ⟨h.ok, h.errors⟩

theorem readName {f : Name → Parser β} (h : Clean (Layer.readName >>= f) s b u) :
    Clean (f ⟨s.current, s.current.text⟩) s b u := ⟨h.ok, h.errors⟩

theorem pure {a' : α} (h : Clean (Pure.pure a : Reader ε α) s a' u) : a' = a ∧ u = s := by
  cases h.ok
  exact ⟨rfl, rfl⟩

theorem refuse {cause : Cause} {token : Token} (h : Clean (Parser.refuse cause token) s a u) :
    False := by
  cases h.ok

theorem expect {f : Unit → Parser β} {kind : Kind} (h : Clean (Parser.expect kind >>= f) s b u) :
    s.peek.kind = kind ∧ Clean (f ()) s.advance b u := by
  by_cases hk : s.peek.kind = kind
  · have he : (Parser.expect kind >>= f) s = f () s.advance := bind_of_ok (expect_of_eq hk)
    exact ⟨hk, he ▸ h.ok, h.errors⟩
  · cases (bind_of_error (expect_of_ne hk)).symm.trans h.ok

theorem skipSemicolon {f : Unit → Parser β} (h : Clean (Reader.skipSemicolon >>= f) s b u) :
    Clean (f ()) s.skipSemicolon b u := by
  refine ⟨h.ok, h.errors.trans ?_⟩
  unfold State.skipSemicolon
  split <;> rfl

theorem nest {p : Parser α} (h : Clean (Parser.nest p) s a u) :
    ∃ t, Clean p s.enter a t ∧ u = t.leave := by
  obtain ⟨hok, herr⟩ := h
  unfold Parser.nest at hok
  cases hp : p s.enter with
  | error d t => rw [hp] at hok; cases hok
  | ok b t =>
    rw [hp] at hok
    cases hok
    exact ⟨t, ⟨hp, herr⟩, rfl⟩

theorem noting {e : Event} {p : Parser α} (h : Clean (Parser.noting e p) s a u) :
    Clean p s a u := by
  obtain ⟨hok, herr⟩ := h
  unfold Parser.noting at hok
  cases hp : p s with
  | error d t => rw [hp] at hok; cases hok
  | ok b t =>
    rw [hp] at hok
    cases hok
    exact ⟨hp, herr⟩

theorem recovering {p : Parser α} [Keeps State.Grows p] {a? : Option α}
    (h : Clean (Reader.recovering p : Reader ε (Option α)) s a? u) :
    ∃ a, a? = some a ∧ Clean p s a u := by
  obtain ⟨hok, herr⟩ := h
  unfold Reader.recovering at hok
  cases hp : p s with
  | ok a t =>
    rw [hp] at hok
    cases hok
    exact ⟨a, rfl, hp, herr⟩
  | error d t =>
    rw [hp] at hok
    cases hok
    -- What failed was recorded, so the run was not clean.
    have hst : s.Grows t := Keeps.of_error hp
    have htu : (t.record d).Grows (t.record d).skipSemicolon := Keeps.skipSemicolon_state _
    have hsd : s.Grows (t.record d) := Frame.trans hst (Frame.record t d)
    have hrec := congrArg Array.size (hsd.errors_eq htu herr)
    have hsize := hst.length_le
    simp only [State.record, Array.size_push, Array.length_toList] at hrec hsize
    omega

/-- A clean run of a loop keeps what each of its rounds keeps, and ends where the loop stops. -/
theorem repeatWhile {goesOn : State → Bool} {round : α → Reader ε α}
    [∀ a, Keeps State.Grows (round a)] {P : α → State → Prop}
    (hstep : ∀ {a b : α} {s t : State}, goesOn s = true → P a s → Clean (round a) s b t →
      P b t ∧ t.remaining < s.remaining)
    {a b : α} {s u : State} (hP : P a s) (h : Clean (Reader.repeatWhile goesOn round a) s b u) :
    P b u ∧ goesOn u = false := by
  obtain ⟨hok, herr⟩ := h
  induction a, s using repeatWhile_induction goesOn round with
  | next a s c t hgo hr hlt ih =>
    rw [repeatWhile_of_ok hgo hr hlt] at hok
    have hk : Keeps State.Grows (Reader.repeatWhile goesOn round c) := .repeatWhile c
    have hst : s.Grows t := Keeps.of_ok hr
    have hclean := hst.errors_eq (hk.of_ok hok) herr
    exact ih (hstep hgo hP ⟨hr, hclean⟩).1 hok (herr.trans hclean.symm)
  | idle a s c t hgo hr hidle =>
    cases (repeatWhile_of_idle hgo hr hidle).symm.trans hok
    exact absurd (hstep hgo hP ⟨hr, herr⟩).2 hidle
  | fail a s e t hgo hr => cases (repeatWhile_of_error hgo hr).symm.trans hok
  | stop a s hgo =>
    cases (repeatWhile_of_stop hgo).symm.trans hok
    exact ⟨hP, hgo⟩

/-- Induction over the rounds of a clean run of a collecting loop, from the last one on. Each
round keeps `I` and reads a token. -/
theorem collect {goesOn : State → Bool} {item : Reader ε α} [Keeps State.Grows item]
    {I : State → Prop} {P : State → List α → Prop} {as : List α}
    (hround : ∀ {s t : State} {a : α}, I s → goesOn s = true → Clean item s a t →
      I t ∧ t.remaining < s.remaining)
    (hnil : I u → goesOn u = false → P u [])
    (hcons : ∀ {s t : State} {a : α} {as : List α}, I s → goesOn s = true → Clean item s a t →
      P t as → P s (a :: as))
    (hI : I s) (h : Clean (Reader.collect goesOn item) s as u) : P s as := by
  obtain ⟨hok, herr⟩ := h
  induction s using collect_induction goesOn item generalizing as with
  | stop s hgo =>
    cases (collect_of_stop hgo).symm.trans hok
    exact hnil hI hgo
  | fail s e t hgo hi => cases (collect_of_error hgo hi).symm.trans hok
  | idle s a t hgo hi hidle =>
    cases (Settles.collect_of_idle hgo hi hidle).symm.trans hok
    exact absurd (hround hI hgo ⟨hi, herr⟩).2 hidle
  | next s a t hgo hi hlt ih =>
    rw [collect_of_ok hgo hi hlt] at hok
    cases hc : Reader.collect goesOn item t with
    | error e v => rw [hc] at hok; cases hok
    | ok as' v =>
      rw [hc] at hok
      cases hok
      have hst : s.Grows t := Keeps.of_ok hi
      have hclean := hst.errors_eq (Keeps.of_ok hc) herr
      have hP := ih (hround hI hgo ⟨hi, hclean⟩).1 hc (herr.trans hclean.symm)
      exact hcons hI hgo ⟨hi, hclean⟩ hP

end Clean

/-- The tokens ahead are those of a source: none of them ends it, and the one behind them does. -/
structure State.Sealed (s : State) : Prop where
  stop : s.input.stop.kind = .endOfInput
  ahead : ∀ t ∈ s.ahead, t.WellSpelled ∧ t.kind ≠ .endOfInput

def State.Seals (s t : State) : Prop :=
  s.Sealed → t.Sealed

instance : Frame State.Seals where
  refl _ h := h
  trans hst htu h := htu (hst h)
  advance _ h := ⟨h.stop, fun t ht => h.ahead t (List.mem_of_mem_tail ht)⟩
  note _ _ _ h := ⟨h.stop, h.ahead⟩
  record _ _ h := ⟨h.stop, h.ahead⟩
  nest hst h := ⟨(hst ⟨h.stop, h.ahead⟩).stop, (hst ⟨h.stop, h.ahead⟩).ahead⟩

namespace State.Sealed

variable {s t : State}

theorem advance (h : s.Sealed) : s.advance.Sealed :=
  ⟨h.stop, fun t ht => h.ahead t (List.mem_of_mem_tail ht)⟩

theorem note (h : s.Sealed) (e : Event) : (s.note e).Sealed := ⟨h.stop, h.ahead⟩

theorem enter (h : s.Sealed) : s.enter.Sealed := ⟨h.stop, h.ahead⟩

theorem record (h : s.Sealed) (d : Diagnostic) : (s.record d).Sealed := ⟨h.stop, h.ahead⟩

theorem skipSemicolon (h : s.Sealed) : s.skipSemicolon.Sealed :=
  Keeps.skipSemicolon_state (R := Seals) s h

theorem of_ok {ε α : Type} {p : Reader ε α} {a : α} [hk : Keeps Seals p] (h : s.Sealed)
    (hr : p s = .ok a t) : t.Sealed :=
  hk.of_ok hr h

theorem of_error {ε α : Type} {p : Reader ε α} {e : ε} [hk : Keeps Seals p] (h : s.Sealed)
    (hr : p s = .error e t) : t.Sealed :=
  hk.of_error hr h

theorem clean {ε α : Type} {p : Reader ε α} {a : α} [Keeps Seals p] (h : s.Sealed)
    (hp : Clean p s a t) : t.Sealed :=
  h.of_ok hp.ok

theorem ahead_eq (h : s.Sealed) (hne : s.current.kind ≠ .endOfInput) :
    s.ahead = s.current :: s.after := by
  rw [s.current_eq] at hne ⊢
  change s.ahead = _ :: s.ahead.tail
  cases hs : s.ahead with
  | nil =>
    rw [hs] at hne
    exact absurd h.stop hne
  | cons t ts => rfl

theorem remaining_pos (h : s.Sealed) (hne : s.current.kind ≠ .endOfInput) : 0 < s.remaining := by
  rw [s.remaining_eq, h.ahead_eq hne]
  exact Nat.succ_pos _

theorem ahead_eq_nil (h : s.Sealed) (hend : s.current.kind = .endOfInput) : s.ahead = [] := by
  rw [s.current_eq] at hend
  cases ha : s.ahead with
  | nil => rfl
  | cons c cs =>
    rw [ha] at hend
    exact absurd hend (h.ahead c (by rw [ha]; exact List.mem_cons_self)).2

theorem after_eq (h : s.Sealed) (hne : s.peek.kind ≠ .endOfInput) :
    s.after = s.peek :: s.advance.after :=
  h.advance.ahead_eq hne

end State.Sealed

namespace Tier

def rank : Tier → Nat
  | equality => 0
  | comparison => 1
  | sum => 2
  | product => 3
  | unary => 4
  | suffixed => 5
  | primary => 6

theorem exists_tighter {tier target : Tier} (h : target.rank < tier.rank) :
    ∃ next, target.tighter? = some next ∧ next.rank = target.rank + 1 := by
  cases target with
  | primary => cases tier <;> exact absurd h (by decide)
  | _ => exact ⟨_, rfl, rfl⟩

theorem eq_of_rank {tier target : Tier} (h : tier.rank = target.rank) : tier = target := by
  cases tier <;> cases target <;> first | rfl | cases h

theorem exists_of_joining {kind : Kind} {power : Power}
    (h : kind.joining? = some (.binary, power)) :
    ∃ tier next : Tier, kind ∈ tier.operators ∧ tier.tighter? = some next ∧ tier.entry = power ∧
      tier.limit = power := by
  cases kind <;> cases h
  case equal | notEqual => exact ⟨equality, comparison, by decide, rfl, rfl, rfl⟩
  case less | greater => exact ⟨comparison, sum, by decide, rfl, rfl, rfl⟩
  case plus | minus => exact ⟨sum, product, by decide, rfl, rfl, rfl⟩
  case star | slash => exact ⟨product, unary, by decide, rfl, rfl, rfl⟩

theorem rank_le_of_limit {tier target : Tier} (h : ¬ tier.limit < target.entry)
    (ht : target.limit = target.entry) : target.rank ≤ tier.rank := by
  revert h ht
  cases tier <;> cases target <;> decide

theorem rank_le_of_entry {tier target next : Tier} (h : target.entry < tier.entry)
    (ht : target.tighter? = some next) (hop : target.limit = target.entry) :
    next.rank ≤ tier.rank := by
  revert h hop
  cases target <;> cases ht <;> cases tier <;> decide

theorem suffixed_le_of_limit {tier : Tier} (h : ¬ tier.limit < .call) :
    suffixed.rank ≤ tier.rank := by
  revert h
  cases tier <;> decide

theorem rank_le_suffixed {tier next : Tier} {kind : Kind} (h : kind ∈ tier.operators)
    (ht : tier.tighter? = some next) :
    tier.rank ≤ suffixed.rank ∧ next.rank ≤ suffixed.rank := by
  cases tier <;> cases ht <;> first | decide | cases h

end Tier

namespace Kind

theorem not_index_lt_power (kind : Kind) : ¬ Power.index < kind.power := by
  cases kind <;> decide

theorem eq_of_joining?_call {kind : Kind} {power : Power}
    (h : kind.joining? = some (.call, power)) : kind = .openParen ∧ power = .call := by
  cases kind <;> cases h
  exact ⟨rfl, rfl⟩

theorem eq_of_joining?_index {kind : Kind} {power : Power}
    (h : kind.joining? = some (.index, power)) : kind = .openBracket ∧ power = .index := by
  cases kind <;> cases h
  exact ⟨rfl, rfl⟩

end Kind

theorem Derives.loosen {tier target : Tier} {k : Nat} {ts : List Token} {e : Expr}
    (h : Derives (.expr tier) k ts e) (hr : target.rank ≤ tier.rank) :
    Derives (.expr target) k ts e := by
  induction hd : tier.rank - target.rank generalizing target with
  | zero =>
    obtain rfl := Tier.eq_of_rank (Nat.le_antisymm (Nat.sub_eq_zero_iff_le.mp hd) hr)
    exact h
  | succ d ih =>
    obtain ⟨next, hnext, hrank⟩ := Tier.exists_tighter (Nat.lt_of_sub_eq_succ hd)
    exact .tighter hnext (ih (by omega) (by omega))

namespace Layer

/-- A statement up to its terminator. -/
def clause (below : Layer) : Parser Stmt := do
  let token ← current
  match token.kind.heading? with
  | some .binding =>
    expect .name
    let name ← readName
    expect .assign
    advance
    let value ← below.expr .lowest
    return .binding token name value
  | some .returning =>
    advance
    let value ← below.expr .lowest
    return .returning token value
  | none =>
    let value ← below.expr .lowest
    return .expression token value

/-- Every statement ends in the same way. -/
theorem stmt_eq (below : Layer) (s : State) : below.stmt s = (do
    let st ← below.clause
    skipSemicolon
    return st : Parser Stmt) s := by
  rw [stmt, clause, bind_assoc, current_bind, current_bind]
  cases s.current.kind.heading? with
  | none =>
    simp only [bind_assoc, pure_bind]
    rfl
  | some form =>
    cases form <;> simp only [bind_assoc, pure_bind] <;> rfl

theorem stmt_of_clause {below : Layer} {s t : State} {st : Stmt} (h : below.clause s = .ok st t) :
    below.stmt s = .ok st t.skipSemicolon := by
  rw [stmt_eq, bind_of_ok h]
  rfl

theorem stmt_of_clause_error {below : Layer} {s t : State} {d : Diagnostic}
    (h : below.clause s = .error d t) : below.stmt s = .error d t := by
  rw [stmt_eq, bind_of_error h]

instance {R : State → State → Prop} [Frame R] {below : Layer} [below.Keeps R] :
    Scriptlet.Keeps R below.clause := by
  unfold clause
  refine @Scriptlet.Keeps.bind _ _ _ _ _ _ _ _ fun token => ?_
  split <;> infer_instance

end Layer

theorem Clean.clause {below : Layer} [below.Keeps State.Grows] {s t : State} {st : Stmt}
    (h : Clean below.stmt s st t) : ∃ u, Clean below.clause s st u ∧ t = u.skipSemicolon := by
  have hc : Clean (do
      let st ← below.clause
      Reader.skipSemicolon
      return st : Parser Stmt) s st t := ⟨(stmt_eq _ s).symm.trans h.ok, h.errors⟩
  obtain ⟨st', u, hclause, hc⟩ := hc.bind
  obtain ⟨rfl, rfl⟩ := hc.skipSemicolon.pure
  exact ⟨u, hclause, rfl⟩

/-- What a layer with room for `n` levels reads cleanly is derived in at most `n` levels. -/
structure Sound (n : Nat) : Prop where
  expr {floor : Power} {s t : State} {e : Expr} : floor < .call → s.Sealed →
    Clean ((ofRoom n).expr floor) s e t →
    ∃ k tier ts, k ≤ n ∧ Derives (.expr tier) k ts e ∧ floor < tier.entry ∧
      s.ahead = ts ++ t.after ∧ ¬ floor < t.peek.kind.power
  block {s t : State} {b : Block} : s.current.kind = .openCurly → s.Sealed →
    Clean (ofRoom n).block s b t →
    ∃ k ts, k ≤ n ∧ Derives .block k ts b ∧ s.ahead = ts ++ t.after

namespace Sound

variable {n : Nat} {s t : State}

theorem whole (h : Sound n) {e : Expr} (hs : s.Sealed)
    (hc : Clean ((ofRoom n).expr .lowest) s e t) :
    ∃ k ts, k ≤ n ∧ Derives (.expr .equality) k ts e ∧ s.ahead = ts ++ t.after ∧
      ¬ Power.lowest < t.peek.kind.power := by
  obtain ⟨k, tier, ts, hk, hd, -, hahead, hend⟩ := h.expr (by decide) hs hc
  exact ⟨k, ts, hk, hd.loosen (Nat.zero_le _), hahead, hend⟩

theorem upTo {β : Type} (h : Sound n) {b : β} {kind : Kind} {f : Expr → Unit → Parser β}
    [∀ e u, Keeps State.Grows (f e u)] (hs : s.Sealed)
    (hc : Clean ((ofRoom n).expr .lowest >>= fun e => expect kind >>= f e) s b t)
    (hkind : kind ≠ .endOfInput) :
    ∃ k ts e c u, k ≤ n ∧ Derives (.expr .equality) k ts e ∧ c.kind = kind ∧
      s.ahead = ts ++ c :: u.after ∧ u.Sealed ∧ u.current = c ∧ Clean (f e ()) u b t := by
  obtain ⟨e, u, he, hc⟩ := hc.bind
  obtain ⟨k, ts, hk, hd, hahead, -⟩ := h.whole hs he
  obtain ⟨hpeek, hc⟩ := hc.expect
  have hu : u.Sealed := hs.clean he
  rw [hu.after_eq (by rwa [hpeek])] at hahead
  exact ⟨k, ts, e, u.peek, u.advance, hk, hd, hpeek, hahead, hu.advance, rfl, hc⟩

theorem nextElement (h : Sound n) {e : Expr} (hs : s.Sealed) (hcomma : s.peek.kind = .comma)
    (hc : Clean (ofRoom n).nextElement s e t) :
    ∃ k ts, k ≤ n ∧ Derives (.expr .equality) k ts e ∧ s.after = s.peek :: ts ++ t.after := by
  obtain ⟨k, ts, hk, hd, hahead, -⟩ := h.whole hs.advance.advance hc.advance.advance
  refine ⟨k, ts, hk, hd, ?_⟩
  rw [hs.after_eq (by rw [hcomma]; decide)]
  exact congrArg (s.peek :: ·) hahead

theorem more (h : Sound n) {es : List Expr} (hs : s.Sealed)
    (hc : Clean (collect (fun s => s.peek.kind = .comma) (ofRoom n).nextElement) s es t) :
    ∃ k ts, k ≤ n ∧ Derives .more k ts es ∧ s.after = ts ++ t.after := by
  refine hc.collect (I := State.Sealed)
    (P := fun s es => ∃ k ts, k ≤ n ∧ Derives .more k ts es ∧ s.after = ts ++ t.after)
    ?_ ?_ ?_ hs
  · intro s u e hs hgo hi
    obtain ⟨k, ts, -, -, hafter⟩ := h.nextElement hs (of_decide_eq_true hgo) hi
    exact ⟨hs.clean hi, State.remaining_lt_of_after _ hafter (by simp)⟩
  · exact fun _ _ => ⟨0, [], Nat.zero_le _, .last, rfl⟩
  · rintro s u e es hs hgo hi ⟨k', rs, hk', hd', hrest⟩
    have hcomma := of_decide_eq_true hgo
    obtain ⟨k, ts, hk, hd, hafter⟩ := h.nextElement hs hcomma hi
    refine ⟨max k k', s.peek :: (ts ++ rs), by omega, .next hcomma hd hd', ?_⟩
    rw [hafter, hrest]
    simp

theorem list (h : Sound n) {stop : Kind} {es : List Expr} (hs : s.Sealed)
    (hc : Clean ((ofRoom n).list stop) s es t) (hstop : stop ≠ .endOfInput) :
    ∃ k ts c, k ≤ n ∧ Derives .list k ts es ∧ c.kind = stop ∧ s.after = ts ++ c :: t.after := by
  have hc := hc.peek.advance
  by_cases hk : s.peek.kind = stop
  · rw [if_pos hk] at hc
    obtain ⟨rfl, rfl⟩ := hc.pure
    exact ⟨0, [], s.peek, Nat.zero_le _, .empty, hk, hs.after_eq (by rwa [hk])⟩
  · rw [if_neg hk] at hc
    obtain ⟨e, u, he, hc⟩ := hc.bind
    obtain ⟨k, ts, hk, hd, hahead, -⟩ := h.whole hs.advance he
    have hu : u.Sealed := hs.advance.clean he
    obtain ⟨es, v, hes, hc⟩ := hc.bind
    obtain ⟨k', rs, hk', hd', hafter⟩ := h.more hu hes
    have hv : v.Sealed := hu.clean hes
    obtain ⟨hpeek, hc⟩ := hc.expect
    obtain ⟨rfl, rfl⟩ := hc.pure
    refine ⟨max k k', ts ++ rs, v.peek, by omega, .first hd hd', hpeek, ?_⟩
    rw [hv.after_eq (by rwa [hpeek])] at hafter
    change s.advance.ahead = _
    rw [hahead, hafter]
    simp

theorem nextParameter {name : Name} (hs : s.Sealed) (hcomma : s.peek.kind = .comma)
    (hc : Clean Layer.nextParameter s name t) :
    ∃ c, c.kind = .name ∧ name = ⟨c, c.text⟩ ∧ s.after = s.peek :: c :: t.after := by
  obtain ⟨hname, hc⟩ := hc.advance.expect
  obtain ⟨rfl, rfl⟩ := hc.current.pure
  refine ⟨s.advance.peek, hname, rfl, ?_⟩
  rw [hs.after_eq (by rw [hcomma]; decide), hs.advance.after_eq (by rw [hname]; decide)]

theorem moreNames {names : List Name} (hs : s.Sealed)
    (hc : Clean (collect (fun s => s.peek.kind = .comma) Layer.nextParameter) s names t) :
    ∃ ts, MoreNames ts names ∧ s.after = ts ++ t.after := by
  refine hc.collect (I := State.Sealed)
    (P := fun s names => ∃ ts, MoreNames ts names ∧ s.after = ts ++ t.after) ?_ ?_ ?_ hs
  · intro s u name hs hgo hi
    obtain ⟨c, -, -, hafter⟩ := nextParameter hs (of_decide_eq_true hgo) hi
    exact ⟨hs.clean hi, State.remaining_lt_of_after [s.peek, c] hafter (by simp)⟩
  · exact fun _ _ => ⟨[], .nil, rfl⟩
  · rintro s u name names hs hgo hi ⟨ts, hnames, hrest⟩
    have hcomma := of_decide_eq_true hgo
    obtain ⟨c, hkind, rfl, hafter⟩ := nextParameter hs hcomma hi
    refine ⟨s.peek :: c :: ts, .cons hcomma hkind hnames, ?_⟩
    rw [hafter, hrest]
    rfl

theorem parameters {names : List Name} (hs : s.Sealed) (hc : Clean Layer.parameters s names t) :
    ∃ ts c, Names ts names ∧ c.kind = .closeParen ∧ s.after = ts ++ c :: t.after := by
  have hc := hc.peek
  by_cases hk : s.peek.kind = .closeParen
  · rw [if_pos hk] at hc
    obtain ⟨rfl, rfl⟩ := hc.advance.pure
    exact ⟨[], s.peek, .nil, hk, hs.after_eq (by rw [hk]; decide)⟩
  · rw [if_neg hk] at hc
    obtain ⟨hname, hc⟩ := hc.expect
    obtain ⟨names, u, hnames, hc⟩ := hc.readName.bind
    obtain ⟨ts, hmore, hafter⟩ := moreNames hs.advance hnames
    have hu : u.Sealed := hs.advance.clean hnames
    obtain ⟨hclose, hc⟩ := hc.expect
    obtain ⟨rfl, rfl⟩ := hc.pure
    refine ⟨s.peek :: ts, u.peek, .cons hname hmore, hclose, ?_⟩
    rw [hs.after_eq (by rw [hname]; decide), hafter, hu.after_eq (by rw [hclose]; decide)]
    rfl

theorem pair (h : Sound n) {p : Expr × Expr} (hs : s.Sealed) (hc : Clean (ofRoom n).pair s p t) :
    ∃ j k ks vs colon mid, j ≤ n ∧ k ≤ n ∧ Derives (.expr .equality) j ks p.1 ∧
      Derives (.expr .equality) k vs p.2 ∧ colon.kind = .colon ∧
      s.after = ks ++ colon :: (vs ++ mid) ∧
      (t.after = mid ∧ t.peek.kind = .closeCurly ∨
        ∃ comma, comma.kind = .comma ∧ mid = comma :: t.after) := by
  obtain ⟨j, ks, key, colon, u, hj, hkey, hcolon, hahead, hu, -, hc⟩ :=
    h.upTo hs.advance hc.advance (by decide)
  obtain ⟨value, v, hvalue, hc⟩ := hc.advance.bind
  obtain ⟨k, vs, hk, hd, hafter, -⟩ := h.whole hu.advance hvalue
  have hv : v.Sealed := hu.advance.clean hvalue
  have hs : s.after = ks ++ colon :: (vs ++ v.after) := by
    rw [← hafter]
    exact hahead
  have hc := hc.peek
  by_cases hcurly : v.peek.kind = .closeCurly
  · rw [if_neg (not_not_intro hcurly)] at hc
    obtain ⟨rfl, rfl⟩ := hc.pure
    exact ⟨j, k, ks, vs, colon, _, hj, hk, hkey, hd, hcolon, hs, .inl ⟨rfl, hcurly⟩⟩
  · rw [if_pos hcurly] at hc
    obtain ⟨hcomma, hc⟩ := hc.expect
    obtain ⟨rfl, rfl⟩ := hc.pure
    refine ⟨j, k, ks, vs, colon, _, hj, hk, hkey, hd, hcolon, hs, .inr ⟨v.peek, hcomma, ?_⟩⟩
    exact hv.after_eq (by rw [hcomma]; decide)

theorem pairs (h : Sound n) {ps : List (Expr × Expr)} (hs : s.Sealed)
    (hc : Clean (collect (fun s => s.peek.kind ≠ .closeCurly) (ofRoom n).pair) s ps t) :
    ∃ k ts, k ≤ n ∧ Derives .pairs k ts ps ∧ s.after = ts ++ t.after := by
  have hall : ∃ k ts, k ≤ n ∧ Derives .pairs k ts ps ∧ s.after = ts ++ t.after ∧
      (s.peek.kind = .closeCurly → ts = [] ∧ ps = []) := by
    refine hc.collect (I := State.Sealed)
      (P := fun s ps => ∃ k ts, k ≤ n ∧ Derives .pairs k ts ps ∧ s.after = ts ++ t.after ∧
        (s.peek.kind = .closeCurly → ts = [] ∧ ps = [])) ?_ ?_ ?_ hs
    · intro s u p hs hgo hi
      obtain ⟨j, k, ks, vs, colon, mid, -, -, -, -, -, hafter, hmid⟩ := h.pair hs hi
      refine ⟨hs.clean hi, ?_⟩
      rcases hmid with ⟨rfl, -⟩ | ⟨comma, -, rfl⟩
      · exact State.remaining_lt_of_after (ks ++ colon :: vs) (by simpa using hafter) (by simp)
      · exact State.remaining_lt_of_after (ks ++ colon :: (vs ++ [comma]))
          (by simpa using hafter) (by simp)
    · exact fun _ _ => ⟨0, [], Nat.zero_le _, .noPair, rfl, fun _ => ⟨rfl, rfl⟩⟩
    · rintro s u ⟨key, value⟩ ps hs hgo hi ⟨l, rs, hl, hps, hrest, hlast⟩
      have hne := of_decide_eq_true hgo
      obtain ⟨j, k, ks, vs, colon, mid, hj, hk, hkey, hvalue, hcolon, hafter, hmid⟩ := h.pair hs hi
      rcases hmid with ⟨rfl, hcurly⟩ | ⟨comma, hcomma, rfl⟩
      · -- The hash ends behind this pair.
        obtain ⟨rfl, rfl⟩ := hlast hcurly
        refine ⟨_, _, by omega, .lastPair hcolon hkey hvalue, ?_, fun hp => absurd hp hne⟩
        rw [hafter, hrest]
        simp
      · refine ⟨_, _, by omega, .nextPair hcolon hcomma hkey hvalue hps, ?_,
          fun hp => absurd hp hne⟩
        rw [hafter, hrest]
        simp
  obtain ⟨k, ts, hk, hd, hafter, -⟩ := hall
  exact ⟨k, ts, hk, hd, hafter⟩

theorem clause (h : Sound n) {st : Stmt} (hs : s.Sealed) (hc : Clean (ofRoom n).clause s st t) :
    ∃ k ts, k ≤ n ∧ Derives .stmt k ts st ∧ s.ahead = ts ++ t.after ∧
      ¬ Power.lowest < t.peek.kind.power := by
  have hc := hc.current
  cases hform : s.current.kind.heading? with
  | none =>
    rw [hform] at hc
    obtain ⟨e, u, he, hc⟩ := hc.bind
    obtain ⟨k, ts, hk, hd, hahead, hend⟩ := h.whole hs he
    obtain ⟨rfl, rfl⟩ := hc.pure
    obtain ⟨-, first, rest, rfl, -⟩ := hd.start
    have hfirst : s.current = first := by rw [s.current_eq, hahead]; rfl
    rw [hfirst]
    exact ⟨k, first :: rest, hk, .expression hd, hahead, hend⟩
  | some form =>
    rw [hform] at hc
    cases form with
    | binding =>
      have hword : s.current.kind = .letWord := by
        cases hk : s.current.kind <;> rw [hk] at hform <;> cases hform
      obtain ⟨hname, hc⟩ := hc.expect
      obtain ⟨hassign, hc⟩ := hc.readName.expect
      obtain ⟨e, u, he, hc⟩ := hc.advance.bind
      obtain ⟨k, ts, hk, hd, hahead, hend⟩ := h.whole hs.advance.advance.advance he
      obtain ⟨rfl, rfl⟩ := hc.pure
      refine ⟨k, s.current :: s.peek :: s.advance.peek :: ts, hk,
        .binding hword hname hassign hd, ?_, hend⟩
      rw [hs.ahead_eq (by rw [hword]; decide), hs.after_eq (by rw [hname]; decide),
        hs.advance.after_eq (by rw [hassign]; decide)]
      exact congrArg (s.current :: s.peek :: s.advance.peek :: ·) hahead
    | returning =>
      have hword : s.current.kind = .returnWord := by
        cases hk : s.current.kind <;> rw [hk] at hform <;> cases hform
      obtain ⟨e, u, he, hc⟩ := hc.advance.bind
      obtain ⟨k, ts, hk, hd, hahead, hend⟩ := h.whole hs.advance he
      obtain ⟨rfl, rfl⟩ := hc.pure
      refine ⟨k, s.current :: ts, hk, .returning hword hd, ?_, hend⟩
      rw [hs.ahead_eq (by rw [hword]; decide)]
      exact congrArg (s.current :: ·) hahead

theorem stmt (h : Sound n) {st : Stmt} (hs : s.Sealed) (hc : Clean (ofRoom n).stmt s st t) :
    ∃ (k : Nat) (ts : List Token) (u : State), k ≤ n ∧ Derives .stmt k ts st ∧
      s.ahead = ts ++ u.after ∧ u.Sealed ∧ ¬ Power.lowest < u.peek.kind.power ∧
      t = u.skipSemicolon := by
  obtain ⟨u, hclause, rfl⟩ := hc.clause
  obtain ⟨k, ts, hk, hd, hahead, hend⟩ := h.clause hs hclause
  exact ⟨k, ts, u, hk, hd, hahead, hs.clean hclause, hend, rfl⟩

/-- A clean run over a statement records no failure, so there is a statement. -/
theorem stmtOrSkip {ε : Type} {below : Layer} [below.Keeps State.Grows] {st? : Option Stmt}
    (hc : Clean (below.stmtOrSkip : Reader ε _) s st? t) :
    ∃ st u, st? = some st ∧ Clean below.stmt s st u ∧ t = u.advance := by
  obtain ⟨st?, u, hread, hc⟩ := hc.bind
  obtain ⟨st, rfl, hst⟩ := hread.recovering
  obtain ⟨rfl, rfl⟩ := hc.advance.pure
  exact ⟨st, u, rfl, hst, rfl⟩

theorem stmts {ε : Type} (h : Sound n) {goesOn : State → Bool} {ss : List Stmt} (hs : s.Sealed)
    (hc : Clean ((ofRoom n).stmts goesOn : Reader ε _) s ss t) :
    ∃ k ts, k ≤ n ∧ Derives .stmts k ts ss ∧ s.ahead = ts ++ t.ahead ∧ goesOn t = false := by
  obtain ⟨read, u, hread, hc⟩ := hc.bind
  obtain ⟨rfl, rfl⟩ := hc.pure
  refine hread.collect (I := State.Sealed) (P := fun s read => ∃ k ts, k ≤ n ∧
    Derives .stmts k ts (read.filterMap id) ∧ s.ahead = ts ++ t.ahead ∧ goesOn t = false)
    ?_ ?_ ?_ hs
  · intro s u st? hs _ hi
    obtain ⟨st, v, rfl, hst, rfl⟩ := stmtOrSkip hi
    obtain ⟨k, ts, w, -, hd, hahead, -, -, rfl⟩ := h.stmt hs hst
    refine ⟨hs.clean hi, ?_⟩
    obtain ⟨first, rest, rfl, -⟩ := hd.start
    have hskip := w.remaining_skipSemicolon_le
    have hafter : w.after.length = w.remaining - 1 := by
      rw [w.remaining_eq]
      exact List.length_tail
    rw [State.remaining_advance, s.remaining_eq, hahead, List.length_append, List.length_cons]
    omega
  · exact fun _ hgo => ⟨0, [], Nat.zero_le _, .done, rfl, hgo⟩
  · rintro s u st? read hs _ hi ⟨l, rs, hl, hss, hrest, hgo⟩
    obtain ⟨st, v, rfl, hst, rfl⟩ := stmtOrSkip hi
    obtain ⟨k, ts, w, hk, hd, hahead, hw, hend, rfl⟩ := h.stmt hs hst
    rw [State.ahead_advance] at hrest
    unfold State.skipSemicolon at hrest
    split at hrest
    next hsemi =>
      refine ⟨_, _, by omega, .terminated hsemi hd hss, ?_, hgo⟩
      rw [hahead, hw.after_eq (by rw [hsemi]; decide), hrest]
      simp
    next =>
      refine ⟨_, _, by omega, .unterminated ?_ hd hss, ?_, hgo⟩
      · intro c hc hcont
        obtain ⟨rs, rfl⟩ := List.head?_eq_some_iff.mp hc
        have hpeek : w.peek = c := by rw [w.peek_eq, hrest]; rfl
        rw [hpeek] at hend
        rcases hcont with hk | hk | hk <;> rw [hk] at hend <;> exact hend (by decide)
      · rw [hahead, hrest]
        simp

theorem braces (h : Sound n) {b : Block} (hs : s.Sealed) (ho : s.current.kind = .openCurly)
    (hc : Clean (ofRoom n).braces s b t) :
    ∃ k ts, k ≤ n + 1 ∧ Derives .block k ts b ∧ s.ahead = ts ++ t.after := by
  obtain ⟨body, u, hbody, hc⟩ := hc.current.advance.bind
  obtain ⟨k, ts, hk, hd, hafter, hgo⟩ := h.stmts hs.advance hbody
  have hu : u.Sealed := hs.advance.clean hbody
  have hc := hc.current
  by_cases hstop : u.current.kind = .endOfInput
  · rw [if_pos hstop] at hc
    obtain ⟨_, _, hrefuse, _⟩ := hc.bind
    exact hrefuse.refuse.elim
  · rw [if_neg hstop] at hc
    obtain ⟨rfl, rfl⟩ := hc.pure
    have hclose : t.current.kind = .closeCurly := by simpa [hstop] using hgo
    refine ⟨k + 1, _, by omega, .block ho hclose hd, ?_⟩
    rw [hs.ahead_eq (by rw [ho]; decide)]
    change s.current :: s.advance.ahead = _
    rw [hafter, hu.ahead_eq hstop]
    simp

theorem integer {e : Expr} (hs : s.Sealed) (ht : s.current.kind = .number)
    (hc : Clean Layer.integer s e t) :
    Derives (.expr .primary) 1 [s.current] e ∧ t = s := by
  have hmem : s.current ∈ s.ahead := by
    rw [hs.ahead_eq (by rw [ht]; decide)]
    exact List.mem_cons_self
  have hnum := (hs.ahead _ hmem).1.number ht
  have hint := Text.int64?_of_digits hnum.nonempty hnum.digits
  have hc := hc.current
  split at hint
  next hlt =>
    rw [hint] at hc
    obtain ⟨rfl, rfl⟩ := hc.pure
    exact ⟨.integer ht (Text.natural?_eq_some_iff.2 ⟨hnum.nonempty, hnum.digits, rfl⟩) hlt, rfl⟩
  next =>
    rw [hint] at hc
    exact hc.refuse.elim

theorem hash (h : Sound n) {e : Expr} (hs : s.Sealed) (ho : s.current.kind = .openCurly)
    (hc : Clean (ofRoom n).hash s e t) :
    ∃ k ts, k ≤ n + 1 ∧ Derives (.expr .primary) k ts e ∧ s.ahead = ts ++ t.after := by
  obtain ⟨ps, v, hread, hc⟩ := hc.current.bind
  obtain ⟨rfl, rfl⟩ := hc.pure
  obtain ⟨ps, u, hps, hc⟩ := hread.noting.bind
  obtain ⟨k, ts, hk, hd, hafter⟩ := h.pairs hs hps
  have hu : u.Sealed := hs.clean hps
  obtain ⟨hclose, hc⟩ := hc.expect
  obtain ⟨rfl, rfl⟩ := hc.pure
  refine ⟨k + 1, _, by omega, .hash ho hclose hd, ?_⟩
  rw [hs.ahead_eq (by rw [ho]; decide), hafter, hu.after_eq (by rw [hclose]; decide)]
  simp

theorem blockAfter (h : Sound n) {b : Block} (hs : s.Sealed) (ho : s.peek.kind = .openCurly)
    (hc : Clean (ofRoom n).block s.advance b t) :
    ∃ k ts, k ≤ n ∧ Derives .block k ts b ∧ s.after = ts ++ t.after ∧ t.Sealed := by
  obtain ⟨k, ts, hk, hd, hahead⟩ := h.block (s := s.advance) ho hs.advance hc
  exact ⟨k, ts, hk, hd, hahead, hs.advance.clean hc⟩

theorem conditional (h : Sound n) {e : Expr} (hs : s.Sealed) (hw : s.current.kind = .ifWord)
    (hc : Clean (ofRoom n).conditional s e t) :
    ∃ k ts, k ≤ n + 1 ∧ Derives (.expr .primary) k ts e ∧ s.ahead = ts ++ t.after := by
  obtain ⟨ho, hc⟩ := hc.current.expect
  obtain ⟨j, cs, condition, c, u, hj, hcond, hclose, hahead, hu, -, hc⟩ :=
    h.upTo hs.advance.advance hc.advance (by decide)
  obtain ⟨hcurly, hc⟩ := hc.expect
  obtain ⟨b, v, hb, hc⟩ := hc.bind
  obtain ⟨k, bs, hk, hd, hafter, hv⟩ := h.blockAfter hu hcurly hb
  have hs' : s.ahead = s.current :: s.peek :: (cs ++ c :: (bs ++ v.after)) := by
    rw [hs.ahead_eq (by rw [hw]; decide), hs.after_eq (by rw [ho]; decide), ← hafter]
    exact congrArg (s.current :: s.peek :: ·) hahead
  have hc := hc.peek
  by_cases helse : v.peek.kind = .elseWord
  · rw [if_pos helse] at hc
    obtain ⟨hcurly', hc⟩ := hc.advance.expect
    obtain ⟨a, w, ha, hc⟩ := hc.bind
    obtain ⟨l, as, hl, hd', hafter', -⟩ := h.blockAfter hv.advance hcurly' ha
    obtain ⟨rfl, rfl⟩ := hc.pure
    refine ⟨_, _, by omega, .alternative hw ho hclose helse hcond hd hd', ?_⟩
    rw [hs', hv.after_eq (by rw [helse]; decide), hafter']
    simp
  · rw [if_neg helse] at hc
    obtain ⟨rfl, rfl⟩ := hc.pure
    refine ⟨_, _, by omega, .conditional hw ho hclose hcond hd, ?_⟩
    rw [hs']
    simp

theorem function (h : Sound n) {e : Expr} (hs : s.Sealed) (hw : s.current.kind = .fnWord)
    (hc : Clean (ofRoom n).function s e t) :
    ∃ k ts, k ≤ n + 1 ∧ Derives (.expr .primary) k ts e ∧ s.ahead = ts ++ t.after := by
  obtain ⟨ho, hc⟩ := hc.current.expect
  obtain ⟨names, u, hnames, hc⟩ := hc.bind
  obtain ⟨ps, c, hd, hclose, hafter⟩ := parameters hs.advance hnames
  have hu : u.Sealed := hs.advance.clean hnames
  obtain ⟨hcurly, hc⟩ := hc.expect
  obtain ⟨b, v, hb, hc⟩ := hc.bind
  obtain ⟨k, bs, hk, hbody, hafter', -⟩ := h.blockAfter hu hcurly hb
  obtain ⟨rfl, rfl⟩ := hc.pure
  refine ⟨_, _, by omega, .function hw ho hclose hd hbody, ?_⟩
  rw [hs.ahead_eq (by rw [hw]; decide), hs.after_eq (by rw [ho]; decide), hafter, hafter']
  simp

/-- What an expression has been read of: a tree of some tier, and a token that does not go on
with that tier. -/
def Part (n : Nat) (floor : Power) (s : State) (e : Expr) (t : State) : Prop :=
  ∃ k tier ts, k ≤ n + 1 ∧ Derives (.expr tier) k ts e ∧ floor < tier.entry ∧
    s.ahead = ts ++ t.after ∧ ¬ tier.limit < t.peek.kind.power

theorem Part.primary {k : Nat} {ts : List Token} {e : Expr} {floor : Power}
    (hfloor : floor < .call) (hk : k ≤ n + 1) (hd : Derives (.expr .primary) k ts e)
    (hs : s.ahead = ts ++ t.after) : Part n floor s e t :=
  ⟨k, .primary, ts, hk, hd, hfloor, hs, t.peek.kind.not_index_lt_power⟩

theorem Part.longer {k : Nat} {tier : Tier} {ls ts : List Token} {e : Expr} {floor : Power}
    {u : State} (hahead : s.ahead = ls ++ u.after) (hafter : u.after = ts ++ t.after)
    (hts : ts ≠ []) (hk : k ≤ n + 1) (hd : Derives (.expr tier) k (ls ++ ts) e)
    (hentry : floor < tier.entry) (hend : ¬ tier.limit < t.peek.kind.power) :
    Part n floor s e t ∧ t.remaining < u.remaining := by
  refine ⟨⟨k, tier, ls ++ ts, hk, hd, hentry, ?_, hend⟩, ?_⟩
  · rw [hahead, hafter, List.append_assoc]
  · exact State.remaining_lt_of_after ts hafter hts

theorem unary (h : Sound n) {floor : Power} {e : Expr} (hs : s.Sealed) (hfloor : floor < .call)
    (hop : s.current.kind = .bang ∨ s.current.kind = .minus)
    (hahead : s.ahead = s.current :: s.after) (hc : Clean (ofRoom n).unary s e t) :
    Part n floor s e t := by
  obtain ⟨right, u, hright, hc⟩ := hc.current.advance.bind
  obtain ⟨k, tier, ts, hk, hd, hentry, hafter, hend⟩ := h.expr (by decide) hs.advance hright
  obtain ⟨rfl, rfl⟩ := hc.pure
  have hrank : Tier.unary.rank ≤ tier.rank := by
    revert hentry
    cases tier <;> decide
  have hunary := Derives.unary hop (hd.loosen hrank)
  refine ⟨k + 1, .unary, s.current :: ts, Nat.succ_le_succ hk, hunary, hfloor, ?_, hend⟩
  rw [hahead]
  exact congrArg (s.current :: ·) hafter

theorem group (h : Sound n) {e : Expr} (hs : s.Sealed) (ho : s.current.kind = .openParen)
    (hc : Clean (ofRoom n).group s e t) :
    ∃ k ts, k ≤ n + 1 ∧ Derives (.expr .primary) k ts e ∧ s.ahead = ts ++ t.after := by
  obtain ⟨k, ts, inner, c, u, hk, hd, hclose, hahead, -, -, hc⟩ :=
    h.upTo hs.advance hc.advance (by decide)
  obtain ⟨rfl, rfl⟩ := hc.pure
  have hafter : s.after = ts ++ c :: t.after := hahead
  refine ⟨k + 1, _, Nat.succ_le_succ hk, .group ho hclose hd, ?_⟩
  rw [hs.ahead_eq (by rw [ho]; decide), hafter]
  simp

theorem array (h : Sound n) {e : Expr} (hs : s.Sealed) (ho : s.current.kind = .openBracket)
    (hc : Clean (ofRoom n).array s e t) :
    ∃ k ts, k ≤ n + 1 ∧ Derives (.expr .primary) k ts e ∧ s.ahead = ts ++ t.after := by
  obtain ⟨es, u, hes, hc⟩ := hc.current.bind
  obtain ⟨k, ts, c, hk, hd, hclose, hafter⟩ := h.list hs hes (by decide)
  obtain ⟨rfl, rfl⟩ := hc.pure
  refine ⟨k + 1, _, Nat.succ_le_succ hk, .array ho hclose hd, ?_⟩
  rw [hs.ahead_eq (by rw [ho]; decide), hafter]
  simp

theorem opening (h : Sound n) {form : Opening} {floor : Power} {e : Expr} (hs : s.Sealed)
    (hfloor : floor < .call) (hform : s.current.kind.opening? = some form)
    (hc : Clean ((ofRoom n).opening form) s e t) : Part n floor s e t := by
  have hne : s.current.kind ≠ .endOfInput := by
    intro hk
    rw [hk] at hform
    cases hform
  have hahead := hs.ahead_eq hne
  cases hk : s.current.kind <;> rw [hk] at hform <;> cases hform
  case name =>
    obtain ⟨rfl, rfl⟩ := hc.current.pure
    exact .primary hfloor (by omega) (.name hk) hahead
  case number =>
    obtain ⟨hd, rfl⟩ := integer hs hk hc
    exact .primary hfloor (by omega) hd hahead
  case text =>
    obtain ⟨rfl, rfl⟩ := hc.current.pure
    exact .primary hfloor (by omega) (.text hk) hahead
  case trueWord =>
    obtain ⟨rfl, rfl⟩ := hc.current.pure
    rw [hk]
    exact .primary hfloor (by omega) (.yes hk) hahead
  case falseWord =>
    obtain ⟨rfl, rfl⟩ := hc.current.pure
    rw [hk]
    exact .primary hfloor (by omega) (.no hk) hahead
  case bang => exact h.unary hs hfloor (.inl hk) hahead hc
  case minus => exact h.unary hs hfloor (.inr hk) hahead hc
  case openParen =>
    obtain ⟨k, ts, hkn, hd, hahead⟩ := h.group hs hk hc
    exact .primary hfloor hkn hd hahead
  case openBracket =>
    obtain ⟨k, ts, hkn, hd, hahead⟩ := h.array hs hk hc
    exact .primary hfloor hkn hd hahead
  case openCurly =>
    obtain ⟨k, ts, hkn, hd, hahead⟩ := h.hash hs hk hc
    exact .primary hfloor hkn hd hahead
  case ifWord =>
    obtain ⟨k, ts, hkn, hd, hahead⟩ := h.conditional hs hk hc
    exact .primary hfloor hkn hd hahead
  case fnWord =>
    obtain ⟨k, ts, hkn, hd, hahead⟩ := h.function hs hk hc
    exact .primary hfloor hkn hd hahead

section Joining

variable {floor power : Power} {l e : Expr} {u : State} {m : Nat} {tier : Tier} {ls : List Token}

/-- The right operand binds tighter than the operator, so both belong to the tier of it. -/
theorem binary (h : Sound n) (hu : u.Sealed)
    (hj : u.peek.kind.joining? = some (.binary, power)) (hpower : floor < power)
    (hm : m ≤ n + 1) (hl : Derives (.expr tier) m ls l) (hlimit : ¬ tier.limit < power)
    (hahead : s.ahead = ls ++ u.after) (hafter : u.after = u.peek :: u.advance.after)
    (hc : Clean ((ofRoom n).binary l power) u.advance e t) :
    Part n floor s e t ∧ t.remaining < u.remaining := by
  obtain ⟨target, next, hop, hnext, hentry, htarget⟩ := Tier.exists_of_joining hj
  subst hentry
  obtain ⟨r, v, hr, hc⟩ := hc.current.advance.bind
  have hcall : target.entry < .call := by cases target <;> first | decide | cases hop
  obtain ⟨k, tier', rs, hk, hd, hentry, hrest, hend⟩ := h.expr hcall hu.advance.advance hr
  obtain ⟨rfl, rfl⟩ := hc.pure
  have hleft := hl.loosen (Tier.rank_le_of_limit hlimit htarget)
  have hright := hd.loosen (Tier.rank_le_of_entry hentry hnext htarget)
  have hrest : u.advance.after = rs ++ t.after := hrest
  rw [← htarget] at hend
  rw [hrest] at hafter
  refine Part.longer hahead hafter (List.cons_ne_nil u.peek rs) ?_
    (.binary hop hnext hleft hright) hpower hend
  omega

theorem call (h : Sound n) (hu : u.Sealed) (ho : u.peek.kind = .openParen)
    (hfloor : floor < .call) (hm : m ≤ n + 1) (hl : Derives (.expr .suffixed) m ls l)
    (hahead : s.ahead = ls ++ u.after) (hafter : u.after = u.peek :: u.advance.after)
    (hc : Clean ((ofRoom n).call l) u.advance e t) :
    Part n floor s e t ∧ t.remaining < u.remaining := by
  obtain ⟨es, v, hes, hc⟩ := hc.current.bind
  obtain ⟨k, ts, c, hk, hd, hclose, hrest⟩ := h.list hu.advance hes (by decide)
  obtain ⟨rfl, rfl⟩ := hc.pure
  have hread : u.after = u.peek :: (ts ++ [c]) ++ t.after := by
    rw [hafter, hrest]
    simp
  refine Part.longer hahead hread (List.cons_ne_nil _ _) ?_ (.call ho hclose hl hd) hfloor
    t.peek.kind.not_index_lt_power
  omega

theorem index (h : Sound n) (hu : u.Sealed) (ho : u.peek.kind = .openBracket)
    (hfloor : floor < .call) (hm : m ≤ n + 1) (hl : Derives (.expr .suffixed) m ls l)
    (hahead : s.ahead = ls ++ u.after) (hafter : u.after = u.peek :: u.advance.after)
    (hc : Clean ((ofRoom n).index l) u.advance e t) :
    Part n floor s e t ∧ t.remaining < u.remaining := by
  obtain ⟨k, ts, i, c, v, hk, hd, hclose, hrest, -, -, hc⟩ :=
    h.upTo hu.advance.advance hc.current.advance (by decide)
  obtain ⟨rfl, rfl⟩ := hc.pure
  have hrest : u.advance.after = ts ++ c :: t.after := hrest
  have hread : u.after = u.peek :: (ts ++ [c]) ++ t.after := by
    rw [hafter, hrest]
    simp
  refine Part.longer hahead hread (List.cons_ne_nil _ _) ?_ (.index ho hclose hl hd) hfloor
    t.peek.kind.not_index_lt_power
  omega

theorem joining (h : Sound n) {form : Joining} (hu : u.Sealed) (hfloor : floor < .call)
    (hpart : Part n floor s l u) (hj : u.peek.kind.joining? = some (form, power))
    (hpower : floor < power) (hc : Clean ((ofRoom n).joining form l power) u.advance e t) :
    Part n floor s e t ∧ t.remaining < u.remaining := by
  obtain ⟨m, tier, ls, hm, hl, -, hahead, hlimit⟩ := hpart
  have hp : u.peek.kind.power = power := by rw [Kind.power, hj]; rfl
  rw [hp] at hlimit
  have hne : u.peek.kind ≠ .endOfInput := by
    intro hk
    rw [hk] at hj
    cases hj
  have hafter := hu.after_eq hne
  cases form with
  | binary => exact h.binary hu hj hpower hm hl hlimit hahead hafter hc
  | call =>
    obtain ⟨ho, rfl⟩ := Kind.eq_of_joining?_call hj
    exact h.call hu ho hfloor hm (hl.loosen (Tier.suffixed_le_of_limit hlimit)) hahead hafter hc
  | index =>
    obtain ⟨ho, rfl⟩ := Kind.eq_of_joining?_index hj
    have hcall : ¬ tier.limit < .call := fun hlt => hlimit (Nat.lt_trans hlt (by decide))
    exact h.index hu ho hfloor hm (hl.loosen (Tier.suffixed_le_of_limit hcall)) hahead hafter hc

theorem extend (h : Sound n) (hu : u.Sealed) (hfloor : floor < .call)
    (hpart : Part n floor s l u) (hgo : binds floor u = true)
    (hc : Clean ((ofRoom n).extend floor l) u e t) :
    Part n floor s e t ∧ t.remaining < u.remaining := by
  simp only [binds, Bool.and_eq_true, decide_eq_true_eq] at hgo
  have hc := hc.peek
  cases hj : u.peek.kind.joining? with
  | none =>
    have hp : u.peek.kind.power = .lowest := by rw [Kind.power, hj]; rfl
    rw [hp] at hgo
    exact absurd hgo.2 (Nat.not_lt_zero _)
  | some joins =>
    obtain ⟨form, power⟩ := joins
    rw [hj] at hc
    have hp : u.peek.kind.power = power := by rw [Kind.power, hj]; rfl
    rw [hp] at hgo
    obtain ⟨hnext, hlt⟩ := h.joining (hu.note (.applied u.peek.kind power floor)) hfloor hpart hj
      hgo.2 hc.note.advance
    exact ⟨hnext, hlt⟩

end Joining

theorem climb (h : Sound n) {floor : Power} {e : Expr} (hfloor : floor < .call) (hs : s.Sealed)
    (hc : Clean ((ofRoom n).climb floor) s e t) :
    Part n floor s e t ∧ ¬ floor < t.peek.kind.power := by
  have hc := hc.current
  cases hform : s.current.kind.opening? with
  | none =>
    rw [hform] at hc
    exact hc.refuse.elim
  | some form =>
    rw [hform] at hc
    have hk (left : Expr) : Keeps State.Grows ((ofRoom n).goOn floor left) := .repeatWhile left
    obtain ⟨first, u, hfirst, hc⟩ := hc.bind
    have hpart : Part n floor s first u := h.opening hs hfloor hform hfirst
    have hu : u.Sealed := hs.clean hfirst
    -- What was read so far stays a part of the expression, round after round.
    have hloop := hc.repeatWhile (P := fun e t => t.Sealed ∧ Part n floor s e t)
      (fun hgo ⟨hu, hpart⟩ hround => by
        obtain ⟨hnext, hlt⟩ := h.extend hu hfloor hpart hgo hround
        exact ⟨⟨hu.clean hround, hnext⟩, hlt⟩)
      ⟨hu, hpart⟩
    obtain ⟨⟨-, hpart⟩, hgo⟩ := hloop
    refine ⟨hpart, fun hlt => ?_⟩
    have hsemi : t.peek.kind = .semicolon := by simpa [binds, hlt] using hgo
    rw [hsemi] at hlt
    exact Nat.not_lt_zero _ hlt

theorem succ (h : Sound n) : Sound (n + 1) where
  expr hfloor hs hc := by
    obtain ⟨u, hclimb, rfl⟩ := hc.nest
    obtain ⟨⟨k, tier, ts, hk, hd, hentry, hahead, -⟩, hend⟩ := h.climb hfloor hs.enter hclimb
    exact ⟨k, tier, ts, hk, hd, hentry, hahead, hend⟩
  block ho hs hc := by
    obtain ⟨u, hbraces, rfl⟩ := hc.nest
    obtain ⟨k, ts, hk, hd, hahead⟩ := h.braces hs.enter ho hbraces
    exact ⟨k, ts, hk, hd, hahead⟩

end Sound

theorem Layer.sound (n : Nat) : Sound n := by
  induction n with
  | zero => exact ⟨fun _ _ hc => hc.current.refuse.elim, fun _ _ hc => hc.current.refuse.elim⟩
  | succ n ih => exact ih.succ

end Scriptlet
