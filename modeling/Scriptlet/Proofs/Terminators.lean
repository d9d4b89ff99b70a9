import Scriptlet.Proofs.LockstepLayers
import Scriptlet.Proofs.Seams

/-! What stands before a terminator and what stands behind it are parsed apart. A statement that
fails looks no further than the terminator, unless an opening brace stands before it; and a
statement that is read does not take the terminator in. -/
namespace Scriptlet

open Reader Scriptlet.Parser Layer

namespace State

def Terminated (s : State) : Prop :=
  ∃ ts semicolon, s.ahead = ts ++ [semicolon] ∧ semicolon.kind = .semicolon

/-- The last token ahead is a terminator, and no token ahead opens a brace. -/
structure Fenced (s : State) : Prop where
  terminated : s.Terminated
  braceless : ∀ t ∈ s.ahead, t.kind ≠ .openCurly

/-- The current token stands before the terminator. -/
structure Inside (s : State) : Prop where
  fenced : s.Fenced
  inner : 1 < s.remaining

variable {s t : State}

theorem Fenced.remaining_pos (h : s.Fenced) : 0 < s.remaining := by
  obtain ⟨ts, semicolon, hs, -⟩ := h.terminated
  rw [s.remaining_eq, hs, List.length_append]
  exact Nat.succ_pos _

theorem Terminated.of_passes (h : s.Terminated) (hst : s.Passes t) (ht : 0 < t.remaining) :
    t.Terminated := by
  obtain ⟨ts, semicolon, hs, hk⟩ := h
  obtain ⟨before, hbefore⟩ := hst
  rw [hs] at hbefore
  rcases List.eq_nil_or_concat' t.ahead with hnil | ⟨us, u, hu⟩
  · rw [t.remaining_eq, hnil] at ht
    exact absurd ht (Nat.lt_irrefl 0)
  · rw [hu, ← List.append_assoc] at hbefore
    obtain ⟨-, hlast⟩ := List.append_inj' hbefore rfl
    cases hlast
    exact ⟨us, _, hu, hk⟩

theorem Fenced.of_passes (h : s.Fenced) (hst : s.Passes t) (ht : 0 < t.remaining) : t.Fenced :=
  ⟨h.terminated.of_passes hst ht, fun u hu => h.braceless u (hst.subset hu)⟩

theorem Fenced.inside (h : s.Fenced) (hk : s.current.kind ≠ .semicolon) : s.Inside := by
  refine ⟨h, ?_⟩
  obtain ⟨ts, semicolon, hs, hsemi⟩ := h.terminated
  rw [s.current_eq, hs] at hk
  rw [s.remaining_eq, hs]
  cases ts with
  | nil => exact absurd hsemi hk
  | cons t ts => simp

theorem Inside.advance (h : s.Inside) : s.advance.Fenced := by
  apply h.fenced.of_passes (Frame.advance s)
  rw [remaining_advance]
  exact Nat.sub_pos_of_lt h.inner

theorem Inside.next (h : s.Inside) (hk : s.peek.kind ≠ .semicolon) : s.advance.Inside :=
  h.advance.inside hk

theorem Inside.peek_ne (h : s.Inside) : s.peek.kind ≠ .openCurly := by
  have hmem : s.peek ∈ s.advance.ahead := by
    obtain ⟨ts, semicolon, hs, -⟩ := h.advance.terminated
    have hcurrent : s.peek = s.advance.ahead.headD s.input.stop := rfl
    rw [hcurrent, hs]
    cases ts <;> simp
  exact h.advance.braceless _ hmem

end State

/-- The run looks at no token behind the last one. -/
def Stops {α : Type} (p : Parser α) (s : State) : Prop :=
  0 < reach (p s)

namespace Stops

variable {α β : Type} {s : State}

theorem pure (h : s.Inside) (a : α) : Stops (Pure.pure a) s :=
  Nat.sub_pos_of_lt h.inner

theorem refuse (h : s.Fenced) {cause : Cause} (hc : cause.standsOn = true) (token : Token) :
    Stops (Parser.refuse cause token : Parser α) s := by
  show 0 < if cause.standsOn then s.remaining else s.remaining - 1
  rw [if_pos hc]
  exact h.remaining_pos

theorem current {f : Token → Parser β} (h : Stops (f s.current) s) :
    Stops (Reader.current >>= f) s := h

theorem peek {f : Token → Parser β} (h : Stops (f s.peek) s) : Stops (Reader.peek >>= f) s := h

theorem readName {f : Name → Parser β} (h : Stops (f ⟨s.current, s.current.text⟩) s) :
    Stops (Layer.readName >>= f) s := h

theorem advance {f : Unit → Parser β} (h : Stops (f ()) s.advance) :
    Stops (Reader.advance >>= f) s := h

theorem expect (h : s.Inside) {kind : Kind} {f : Unit → Parser β}
    (hf : s.peek.kind = kind → Stops (f ()) s.advance) : Stops (Parser.expect kind >>= f) s := by
  unfold Stops
  by_cases hk : s.peek.kind = kind
  · rw [bind_of_ok (expect_of_eq hk)]
    exact hf hk
  · rw [bind_of_error (expect_of_ne hk)]
    exact Nat.sub_pos_of_lt h.inner

theorem expect_inside (h : s.Inside) {kind : Kind} {f : Unit → Parser β}
    (hkind : kind ≠ .semicolon) (hf : s.advance.Inside → Stops (f ()) s.advance) :
    Stops (Parser.expect kind >>= f) s :=
  expect h fun hk => hf (h.next (hk ▸ hkind))

theorem bind {p : Parser α} {f : α → Parser β} [Keeps State.Passes p] (hs : s.Fenced)
    (hp : Stops p s) (hf : ∀ a t, t.Inside → Stops (f a) t) : Stops (p >>= f) s := by
  unfold Stops at hp ⊢
  cases hr : p s with
  | error d t =>
    rw [hr] at hp
    rwa [bind_of_error hr]
  | ok a t =>
    rw [hr] at hp
    rw [bind_of_ok hr]
    have hinner : 1 < t.remaining := Nat.lt_of_sub_pos hp
    exact hf a t ⟨hs.of_passes (Keeps.of_ok hr) (Nat.lt_trans Nat.one_pos hinner), hinner⟩

theorem nest {p : Parser α} (h : Stops p s.enter) : Stops (Parser.nest p) s := by
  unfold Stops Parser.nest
  unfold Stops at h
  cases hr : p s.enter <;> rwa [hr] at h

theorem repeatWhile {goesOn : State → Bool} {round : α → Parser α}
    [hk : ∀ a, Keeps State.Passes (round a)]
    (hround : ∀ a s, s.Inside → goesOn s = true → Stops (round a) s) (hs : s.Inside) (a : α) :
    Stops (Reader.repeatWhile goesOn round a) s := by
  unfold Stops at hround ⊢
  induction a, s using repeatWhile_induction goesOn round with
  | next a s b t hgo hr hlt ih =>
    have hstop := hround a s hs hgo
    rw [hr] at hstop
    have hinner : 1 < t.remaining := Nat.lt_of_sub_pos hstop
    have ht : t.Fenced := hs.fenced.of_passes ((hk a).of_ok hr) (Nat.lt_trans Nat.one_pos hinner)
    rw [repeatWhile_of_ok hgo hr hlt]
    exact ih ⟨ht, hinner⟩
  | idle a s b t hgo hr hidle =>
    rw [repeatWhile_of_idle hgo hr hidle, ← hr]
    exact hround a s hs hgo
  | fail a s d t hgo hr =>
    rw [repeatWhile_of_error hgo hr, ← hr]
    exact hround a s hs hgo
  | stop a s hgo =>
    rw [repeatWhile_of_stop hgo]
    exact pure hs a

theorem collect {goesOn : State → Bool} {item : Parser α} [Keeps State.Passes item]
    (hitem : ∀ s : State, s.Inside → goesOn s = true → Stops item s) (hs : s.Inside) :
    Stops (Reader.collect goesOn item) s := by
  have hk (items : Array α) : Keeps State.Passes (gather item items) := by
    unfold gather
    infer_instance
  have hloop : Keeps State.Passes (Reader.repeatWhile goesOn (gather item) #[]) := .repeatWhile #[]
  apply bind hs.fenced
  · apply repeatWhile _ hs
    intro items s hs hgo
    exact bind hs.fenced (hitem s hs hgo) fun a t ht => pure ht _
  · intro items t ht
    exact pure ht _

end Stops

/-- Expressions that the layer reads before a terminator stop there. -/
def Layer.Stopping (below : Layer) : Prop :=
  ∀ (floor : Power) {s : State}, s.Fenced → Stops (below.expr floor) s

namespace Layer.Stopping

variable {below : Layer} {s : State} [below.Keeps State.Passes]

theorem list (hb : below.Stopping) (hs : s.Inside) {stop : Kind} (hstop : stop ≠ .semicolon) :
    Stops (below.list stop) s := by
  show Stops (if s.peek.kind = stop then pure [] else do
    let first ← below.expr .lowest
    let others ← collect (fun s => s.peek.kind = .comma) below.nextElement
    expect stop
    return first :: others) s.advance
  split
  next hk => exact .pure (hs.next (hk ▸ hstop)) []
  next =>
    refine .bind hs.advance (hb .lowest hs.advance) fun first t ht => ?_
    refine .bind ht.fenced (.collect ?_ ht) fun others u hu => ?_
    · intro s hs hgo
      have hcomma : s.peek.kind = .comma := of_decide_eq_true hgo
      exact hb .lowest (hs.next (by rw [hcomma]; decide)).advance
    · exact .expect_inside hu hstop fun hu => .pure hu _

/-- No block follows, since nothing ahead opens one. -/
theorem conditional (hb : below.Stopping) (hs : s.Inside) : Stops below.conditional s := by
  refine .current (.expect_inside hs (by decide) fun hs => .advance ?_)
  refine .bind hs.advance (hb .lowest hs.advance) fun condition t ht => ?_
  refine .expect_inside ht (by decide) fun ht => ?_
  exact .expect ht fun hk => absurd hk ht.peek_ne

theorem parameters (hs : s.Inside) : Stops Layer.parameters s := by
  show Stops (if s.peek.kind = .closeParen then do
      advance
      return []
    else do
      expect .name
      let first ← readName
      let others ← collect (fun s => s.peek.kind = .comma) nextParameter
      expect .closeParen
      return first :: others) s
  split
  next hk => exact .pure (hs.next (by rw [hk]; decide)) []
  next =>
    refine .expect_inside hs (by decide) fun hs => .readName ?_
    refine .bind hs.fenced (.collect ?_ hs) fun others t ht => ?_
    · intro s hs hgo
      have hcomma : s.peek.kind = .comma := of_decide_eq_true hgo
      have hs := hs.next (by rw [hcomma]; decide)
      exact .expect_inside hs (by decide) fun hs => .pure hs _
    · exact .expect_inside ht (by decide) fun ht => .pure ht _

omit [below.Keeps State.Passes] in
theorem function (hs : s.Inside) : Stops below.function s := by
  refine .current (.expect_inside hs (by decide) fun hs => ?_)
  refine .bind hs.fenced (parameters hs) fun names t ht => ?_
  exact .expect ht fun hk => absurd hk ht.peek_ne

theorem opening (hb : below.Stopping) (hs : s.Inside) {form : Opening}
    (hform : s.current.kind.opening? = some form) (hbrace : s.current.kind ≠ .openCurly) :
    Stops (below.opening form) s := by
  cases form with
  | name | text | boolean => exact .pure hs _
  | integer =>
    refine .current ?_
    split
    · exact .pure hs _
    · exact .refuse hs.fenced rfl _
  | unary =>
    refine .current (.advance ?_)
    exact .bind hs.advance (hb .unary hs.advance) fun right t ht => .pure ht _
  | group =>
    refine .advance (.bind hs.advance (hb .lowest hs.advance) fun inner t ht => ?_)
    exact .expect_inside ht (by decide) fun ht => .pure ht _
  | array =>
    refine .current ?_
    exact .bind hs.fenced (hb.list hs (by decide)) fun elements t ht => .pure ht _
  | hash =>
    exfalso
    cases hk : s.current.kind <;> rw [hk] at hform <;> cases hform
    exact hbrace hk
  | conditional => exact hb.conditional hs
  | function => exact function hs

theorem joining (hb : below.Stopping) (hs : s.Inside) (form : Joining) (left : Expr)
    (power : Power) : Stops (below.joining form left power) s := by
  cases form with
  | binary =>
    refine .current (.advance ?_)
    exact .bind hs.advance (hb power hs.advance) fun right t ht => .pure ht _
  | call =>
    refine .current ?_
    exact .bind hs.fenced (hb.list hs (by decide)) fun arguments t ht => .pure ht _
  | index =>
    refine .current (.advance (.bind hs.advance (hb .lowest hs.advance) fun index t ht => ?_))
    exact .expect_inside ht (by decide) fun ht => .pure ht _

theorem extend (hb : below.Stopping) (hs : s.Inside) (floor : Power) (left : Expr) :
    Stops (below.extend floor left) s := by
  refine .peek ?_
  split
  next => exact .pure hs left
  next form power hj =>
    have hk : s.peek.kind ≠ .semicolon := by
      intro hk
      rw [hk] at hj
      cases hj
    have hs : (s.note (.applied s.peek.kind power floor)).Inside :=
      ⟨⟨hs.fenced.terminated, hs.fenced.braceless⟩, hs.inner⟩
    exact hb.joining (hs.next hk) form left power

theorem climb (hb : below.Stopping) (hs : s.Fenced) (floor : Power) :
    Stops (below.climb floor) s := by
  refine .current ?_
  split
  next => exact .refuse hs rfl _
  next form hform =>
    have hk : s.current.kind ≠ .semicolon := by
      intro hk
      rw [hk] at hform
      cases hform
    have hinside := hs.inside hk
    have hbrace : s.current.kind ≠ .openCurly := by
      obtain ⟨ts, semicolon, hahead, -⟩ := hs.terminated
      apply hs.braceless
      rw [s.current_eq, hahead]
      cases ts <;> simp
    refine .bind hs (hb.opening hinside hform hbrace) fun first t ht => ?_
    exact .repeatWhile (fun left s hs _ => hb.extend hs floor left) ht first

/-- The terminator can be where a statement fails, or behind it, but nothing further is. -/
theorem clause (hb : below.Stopping) (hs : s.Fenced) : Stops below.clause s := by
  have hinside {form : Heading} (hform : s.current.kind.heading? = some form) : s.Inside := by
    apply hs.inside
    intro hk
    rw [hk] at hform
    cases hform
  refine .current ?_
  split
  next hform =>
    refine .expect_inside (hinside hform) (by decide) fun hs => .readName ?_
    refine .expect_inside hs (by decide) fun hs => .advance ?_
    exact .bind hs.advance (hb .lowest hs.advance) fun value t ht => .pure ht _
  next hform =>
    have hs := (hinside hform).advance
    exact .advance (.bind hs (hb .lowest hs) fun value t ht => .pure ht _)
  next => exact .bind hs (hb .lowest hs) fun value t ht => .pure ht _

end Layer.Stopping

theorem Layer.stopping (n : Nat) : (ofRoom n).Stopping := by
  induction n with
  | zero =>
    intro floor s hs
    exact .refuse hs rfl _
  | succ n ih =>
    intro floor s hs
    exact .nest (ih.climb (s := s.enter) ⟨hs.terminated, hs.braceless⟩ floor)

/-- An expression, a block and a statement end with another token than a terminator. -/
def Phrase.EndsOpen : Phrase → List Token → Prop
  | expr _, ts | block, ts | stmt, ts => ∀ t ∈ ts.getLast?, t.kind ≠ .semicolon
  | list, _ | more, _ | pairs, _ | stmts, _ => True

theorem getLast?_ne_semicolon {t : Token} (ls : List Token) {ts : List Token}
    (ht : t.kind ≠ .semicolon) (hts : ∀ u ∈ ts.getLast?, u.kind ≠ .semicolon) :
    ∀ u ∈ (ls ++ t :: ts).getLast?, u.kind ≠ .semicolon := by
  intro u hu
  rw [List.getLast?_append_cons, List.getLast?_cons] at hu
  cases hlast : ts.getLast? with
  | none =>
    rw [hlast] at hu
    cases hu
    exact ht
  | some v =>
    rw [hlast] at hu
    cases hu
    exact hts _ hlast

theorem Derives.endsOpen {phrase : Phrase} {n : Nat} {ts : List Token} {tree : phrase.Tree}
    (h : Derives phrase n ts tree) : phrase.EndsOpen ts := by
  have hclosed (ls : List Token) {c : Token} {kind : Kind} (hc : c.kind = kind)
      (hkind : kind ≠ .semicolon) : ∀ u ∈ (ls ++ [c]).getLast?, u.kind ≠ .semicolon := by
    intro u hu
    rw [List.getLast?_concat] at hu
    cases hu
    exact hc ▸ hkind
  induction h with
  | tighter _ _ ih | expression _ ih => exact ih
  | @binary tier _ op _ _ _ _ _ _ hop _ _ _ _ ih =>
    apply getLast?_ne_semicolon _ _ ih
    intro hk
    rw [hk] at hop
    revert hop
    cases tier <;> decide
  | unary hop _ ih =>
    refine getLast?_ne_semicolon [] ?_ ih
    rcases hop with hop | hop <;> rw [hop] <;> decide
  | @call o _ _ _ fs ts _ _ _ hc | @index o _ _ _ fs ts _ _ _ hc =>
    have hend := hclosed (fs ++ o :: ts) hc (by decide)
    rwa [List.append_assoc] at hend
  | @name t ht | @integer t _ ht | @text t ht | @yes t ht | @no t ht =>
    exact hclosed [] ht (by decide)
  | @group o _ _ ts _ _ hc | @array o _ _ ts _ _ hc | @hash o _ _ ts _ _ hc
  | @block o _ _ ts _ _ hc => exact hclosed (o :: ts) hc (by decide)
  | @conditional w o _ _ _ ts _ _ _ _ _ hc _ _ _ ihb =>
    exact getLast?_ne_semicolon (w :: o :: ts) (by rw [hc]; decide) ihb
  | @function w o _ _ ts _ _ _ _ _ hc _ _ ihb =>
    exact getLast?_ne_semicolon (w :: o :: ts) (by rw [hc]; decide) ihb
  | @alternative w o c _ _ _ _ ts bs _ _ _ _ _ _ _ hx _ _ _ _ _ iha =>
    have hend := getLast?_ne_semicolon (w :: o :: (ts ++ c :: bs)) (by rw [hx]; decide) iha
    rwa [List.cons_append, List.cons_append, List.append_assoc] at hend
  | @binding w t _ _ _ _ _ _ ha _ ih =>
    exact getLast?_ne_semicolon [w, t] (by rw [ha]; decide) ih
  | returning hw _ ih => exact getLast?_ne_semicolon [] (by rw [hw]; decide) ih
  | _ => trivial

/-- Before the end of the shorter stream the two have the same tokens. -/
theorem TokenStream.nth_eq_of_append {ts us : TokenStream} {rest : List Token} {i : Nat}
    (h : us.ahead = ts.ahead ++ rest) (hi : 0 < ts.remaining - i) : us.nth i = ts.nth i := by
  have hlt : i < ts.ahead.length := by
    rw [ts.remaining_eq] at hi
    omega
  simp only [nth, h, List.getD_eq_getElem?_getD, List.getElem?_append_left hlt,
    List.getElem?_eq_getElem hlt, Option.getD_some]

/-- A run over the first tokens of a stream, compared with the run over the whole stream. -/
def Comparison.ofAppend {ts us : TokenStream} {rest : List Token}
    (h : us.ahead = ts.ahead ++ rest) : Comparison where
  source := ts
  source' := us
  near m := 0 < m
  mono hm hmn := Nat.lt_of_lt_of_le hm hmn
  alike hi := by
    rw [TokenStream.nth_eq_of_append h hi]
    exact Token.alike_iff.mpr ⟨rfl, rfl⟩
  earlier := []
  earlier' := []

/-- A run from `s` reads the statements, comes to `t` and goes on from there. -/
def Layer.Resumes (below : Layer) (s : State) (read : List (Option Stmt)) (t : State) : Prop :=
  ∀ more u, below.readAll t = .ok more u → below.readAll s = .ok (read ++ more) u

namespace Comparison.ofAppend

variable {ts us : TokenStream} {rest : List Token} {happend : us.ahead = ts.ahead ++ rest}
  {s s' : State}

theorem eq_of_similar {d d' : Diagnostic} (h : (Comparison.ofAppend happend).Similar d d') :
    d = d' := by
  obtain ⟨cause, position⟩ := d
  obtain ⟨cause', position'⟩ := d'
  obtain ⟨hcause, t, t', ⟨i, hi, ht, ht'⟩, hd, hd'⟩ := h
  have hsame : t' = t := by
    rw [ht, ht']
    exact TokenStream.nth_eq_of_append happend hi
  dsimp only at hcause hd hd'
  rw [hcause, hd, hd', hsame]

/-- At a place before the end of the first stream, the second one has `rest` behind it. -/
theorem ahead_of_agree (h : (Comparison.ofAppend happend).Agree s s') (hs : 0 < s.remaining) :
    s'.ahead = s.ahead ++ rest := by
  obtain ⟨k, hk, hk'⟩ := h.place
  have hk : s.ahead = ts.ahead.drop k := hk
  have hk' : s'.ahead = us.ahead.drop k := hk'
  have hle : k ≤ ts.ahead.length := by
    rw [s.remaining_eq, hk, List.length_drop] at hs
    omega
  rw [hk, hk', happend, List.drop_append_of_le_length hle]

/-- No terminator follows the first stream, so one is skipped in both runs or in neither. -/
theorem skip (h : (Comparison.ofAppend happend).Agree s s') (hs : 0 < s.remaining)
    (hrest : (rest.headD s'.input.stop).kind ≠ .semicolon) :
    (Comparison.ofAppend happend).Agree s.skipSemicolon.advance s'.skipSemicolon.advance ∧
      s'.skipSemicolon.advance.ahead = s.skipSemicolon.advance.ahead ++ rest := by
  have hahead := ahead_of_agree h hs
  rw [s.remaining_eq] at hs
  obtain ⟨t, after, ht⟩ := List.exists_cons_of_length_pos hs
  rw [ht] at hahead
  have hafter : s.after = after := congrArg List.tail ht
  have hafter' : s'.after = after ++ rest := congrArg List.tail hahead
  have hpeek := s.peek_eq
  have hpeek' := s'.peek_eq
  rw [hafter] at hpeek
  rw [hafter'] at hpeek'
  unfold State.skipSemicolon
  cases after with
  | nil =>
    rw [List.nil_append] at hpeek'
    have hstop : s.peek.kind ≠ .semicolon := by
      rw [hpeek, List.headD_nil, h.sealed.stop]
      decide
    rw [if_neg hstop, if_neg (hpeek' ▸ hrest)]
    refine ⟨h.advance, ?_⟩
    rw [State.ahead_advance, State.ahead_advance, hafter, hafter']
  | cons u after =>
    have hsame : s'.peek = s.peek := hpeek'.trans hpeek.symm
    rw [hsame]
    split
    · refine ⟨h.advance.advance, ?_⟩
      show s'.after.tail = s.after.tail ++ rest
      rw [hafter, hafter']
      rfl
    · refine ⟨h.advance, ?_⟩
      rw [State.ahead_advance, State.ahead_advance, hafter, hafter']

/-- The longer run first does what the shorter one does. `P` says that no statement of the shorter
run looks behind its last token. -/
theorem readAll {below : Layer} [below.Keeps State.Shrinks]
    (hb : (Comparison.ofAppend happend).Steps below) {P : State → Prop}
    (hP : ∀ {s : State}, s.Sealed → 0 < s.remaining → P s →
      Stops below.clause s ∧ P (below.outcome s).2.skipSemicolon.advance)
    (hrest : (rest.headD us.stop).kind ≠ .semicolon)
    (h : (Comparison.ofAppend happend).Agree s s') (hahead : s'.ahead = s.ahead ++ rest)
    (hs : P s) {read : List (Option Stmt)} {t : State}
    (hr : below.readAll s = .ok read t) :
    ∃ read' t', (Comparison.ofAppend happend).Agree t t' ∧ t'.ahead = rest ∧
      List.Forall₂ Stmt.Like (read.filterMap id) (read'.filterMap id) ∧
      below.Resumes s' read' t' := by
  induction hn : s.remaining using Nat.strongRecOn generalizing s s' read with
  | _ n ih =>
    by_cases hpos : 0 < s.remaining
    · have hpos' : 0 < s'.remaining := by
        rw [s.remaining_eq] at hpos
        rw [s'.remaining_eq, hahead, List.length_append]
        omega
      obtain ⟨more, rfl, hmore⟩ := (below.readAll_eq_ok_iff h.sealed hpos).mp hr
      obtain ⟨hstops, hnext⟩ := hP h.sealed hpos hs
      obtain ⟨hlike, hagree⟩ := hb.outcome h hstops
      have hout : 0 < (below.outcome s).2.remaining :=
        Nat.lt_of_lt_of_le hstops (Comparison.Steps.reach_clause_le below s)
      have hstop : (below.outcome s').2.input.stop = us.stop := hagree.stop'
      obtain ⟨hskip, hahead⟩ := skip hagree hout (by rwa [hstop])
      have hlt := Comparison.Steps.remaining_lt_of_outcome below hpos
      obtain ⟨read', t', ht, hend, hlikes, hgoes⟩ := ih _ (hn ▸ hlt) hskip hahead hnext hmore rfl
      refine ⟨(below.outcome s').1 :: read', t', ht, hend, ?_, ?_⟩
      · rw [Comparison.Steps.filterMap_id_cons, Comparison.Steps.filterMap_id_cons]
        exact List.rel_append hlike hlikes
      · intro more u hu
        exact (below.readAll_eq_ok_iff h.sealed' hpos').mpr ⟨_, rfl, hgoes more u hu⟩
    · have hnil : s.ahead = [] := by
        rw [s.remaining_eq] at hpos
        exact List.eq_nil_of_length_eq_zero (Nat.eq_zero_of_not_pos hpos)
      cases (below.readAll_of_ahead h.sealed hnil).symm.trans hr
      rw [hnil] at hahead
      exact ⟨[], s', h, hahead, .nil, fun more u hu => hu⟩

/-- Nothing is looked at behind the terminator as long as nothing opens a brace. -/
theorem stops_of_fenced {n : Nat} (hpos : 0 < s.remaining) (h : 0 < s.remaining → s.Fenced) :
    Stops (ofRoom n).clause s ∧
      (0 < ((ofRoom n).outcome s).2.skipSemicolon.advance.remaining →
        ((ofRoom n).outcome s).2.skipSemicolon.advance.Fenced) := by
  refine ⟨(stopping n).clause (h hpos), (h hpos).of_passes ?_⟩
  exact Keeps.of_ok (stmtOrSkip_eq (ε := Empty) (ofRoom n) s)

theorem stops_of_clean {n : Nat} {st : Stmt} {t : State} (hs : s.Sealed) (h : s.Terminated)
    (hc : Clean (ofRoom n).clause s st t) : Stops (ofRoom n).clause s := by
  obtain ⟨k, ts, -, hd, hahead, -⟩ := (sound n).clause hs hc
  have hend : ∀ u ∈ ts.getLast?, u.kind ≠ .semicolon := hd.endsOpen
  obtain ⟨us, semicolon, hus, hk⟩ := h
  unfold Stops
  rw [hc.ok]
  show 0 < t.remaining - 1
  have hlen : t.remaining - 1 = t.after.length := by
    rw [t.remaining_eq]
    exact (List.length_tail).symm
  rw [hlen, List.length_pos_iff]
  intro hnil
  rw [hnil, List.append_nil] at hahead
  rw [← hahead, hus, List.getLast?_concat] at hend
  exact hend semicolon rfl hk

/-- Nothing is looked at behind the terminator as long as everything is read. -/
theorem stops_of_clean_run {n : Nat} (hs : s.Sealed) (hpos : 0 < s.remaining)
    (h : (0 < s.remaining → s.Terminated) ∧
      ∃ read t, Clean (ofRoom n).readAll s read t) :
    Stops (ofRoom n).clause s ∧
      (0 < ((ofRoom n).outcome s).2.skipSemicolon.advance.remaining →
        ((ofRoom n).outcome s).2.skipSemicolon.advance.Terminated) ∧
      ∃ read t, Clean (ofRoom n).readAll
        ((ofRoom n).outcome s).2.skipSemicolon.advance read t := by
  obtain ⟨hlast, read, t, hr, herr⟩ := h
  obtain ⟨more, rfl, hmore⟩ := ((ofRoom n).readAll_eq_ok_iff hs hpos).mp hr
  have hitem := stmtOrSkip_eq (ε := Empty) (ofRoom n) s
  have hclean := State.Grows.errors_eq (Keeps.of_ok hitem) (Keeps.of_ok hmore) herr
  obtain ⟨st, v, -, hst, -⟩ := Sound.stmtOrSkip (ε := Empty) ⟨hitem, hclean⟩
  obtain ⟨w, hclause, -⟩ := hst.clause
  refine ⟨stops_of_clean hs (hlast hpos) hclause, ?_, more, t, hmore, herr.trans hclean.symm⟩
  exact (hlast hpos).of_passes (Keeps.of_ok hitem)

end Comparison.ofAppend

def Diagnostic.moved (k : Nat) (d : Diagnostic) : Diagnostic :=
  ⟨d.cause, clampOffset (d.position.offset + k), d.position.file⟩

theorem TokenStream.nth_moved {ts us : TokenStream} {k : Nat}
    (hahead : us.ahead = ts.ahead.map (Token.moved k)) (hstop : us.stop = ts.stop.moved k)
    (i : Nat) : us.nth i = (ts.nth i).moved k := by
  simp only [nth, hahead, hstop, List.getD_eq_getElem?_getD, List.getElem?_map,
    Option.getD_map]

/-- A run over a source, compared with the run over the same text `k` bytes later. -/
def Comparison.ofMoved {ts us : TokenStream} {k : Nat}
    (hahead : us.ahead = ts.ahead.map (Token.moved k)) (hstop : us.stop = ts.stop.moved k)
    (earlier : List Diagnostic) : Comparison where
  source := ts
  source' := us
  near _ := True
  mono _ _ := trivial
  alike _ := by
    rw [TokenStream.nth_moved hahead hstop]
    exact Token.alike_iff.mpr ⟨rfl, rfl⟩
  earlier := []
  earlier' := earlier

/-- A newline behind a source ends its last token, so what follows is read on its own. -/
theorem TokenStream.ofSource_newline (file a b : String)
    (hquote : ∀ t ∈ tokenize file a, ¬ t.IsLoneQuote) :
    TokenStream.ofSource file (a ++ "\n" ++ b) =
      (Cursor.tokens file ⟨Text.byteSize a.toList + 1, b.toList⟩).prepend
        (TokenStream.ofSource file a).ahead := by
  have hstop : (tokenize file a)[(TokenStream.ofSource file a).ahead.length]? =
      some (TokenStream.ofSource file a).stop := by
    rw [tokenize, TokenStream.toList, List.getElem?_concat_length]
  obtain ⟨cs, rest, hcs, hscans, -, hend⟩ := Cursor.scans_tokens file ⟨0, a.toList⟩ _ _ hstop
  have hrest := hend rfl
  dsimp only at hcs hscans
  rw [hrest, List.append_nil] at hcs
  rw [← TokenStream.ofSource, List.take_length] at hscans
  have hjoin := hscans.ofSource_newline (fun t ht => hquote t (List.mem_append_left _ ht)) b
  rwa [← hcs, String.ofList_toList] at hjoin

/-- A diagnostic of a source stands no further than the source goes. -/
theorem Cursor.offset_nth_le (file source : String) (i : Nat) :
    ((TokenStream.ofSource file source).nth i).span.start ≤ Text.byteSize source.toList := by
  have hnth : ∃ j : Nat,
      (tokenize file source)[j]? = some ((TokenStream.ofSource file source).nth i) := by
    rcases Nat.le_total i (TokenStream.ofSource file source).remaining with hle | hle
    · exact ⟨i, TokenStream.getElem?_toList hle⟩
    · refine ⟨(TokenStream.ofSource file source).remaining, ?_⟩
      rw [TokenStream.nth_of_le hle, ← TokenStream.nth_of_le (Nat.le_refl _)]
      exact TokenStream.getElem?_toList (Nat.le_refl _)
  obtain ⟨j, hj⟩ := hnth
  obtain ⟨cs, rest, hcs, -, hstart, -⟩ := Cursor.scans_tokens file ⟨0, source.toList⟩ j _ hj
  have hle : clampOffset (0 + Text.byteSize cs) ≤ 0 + Text.byteSize cs := Nat.min_le_left _ _
  dsimp only at hcs
  rw [hstart, hcs, Text.byteSize_append]
  dsimp only
  omega

theorem Comparison.ofMoved.eq_of_similar {file source : String} {us : TokenStream} {k : Nat}
    {hahead : us.ahead = (TokenStream.ofSource file source).ahead.map (Token.moved k)}
    {hstop : us.stop = (TokenStream.ofSource file source).stop.moved k}
    {earlier : List Diagnostic} {d d' : Diagnostic}
    (h : (Comparison.ofMoved hahead hstop earlier).Similar d d') :
    d.position.offset ≤ Text.byteSize source.toList ∧ d.moved k = d' := by
  obtain ⟨cause, position⟩ := d
  obtain ⟨cause', position'⟩ := d'
  obtain ⟨hcause, t, t', ⟨i, -, ht, ht'⟩, hd, hd'⟩ := h
  have hmoved : t' = t.moved k := by
    rw [ht, ht']
    exact TokenStream.nth_moved hahead hstop i
  dsimp only at hcause hd hd'
  constructor
  · rw [hd, ht]
    exact Cursor.offset_nth_le file source i
  · rw [hd', hmoved, ← hcause, hd]
    rfl

/-- The run over the first source is the beginning of the run over both, whether it fails without
a brace or reads everything. -/
theorem Comparison.ofAppend.readAll_ofSource {file a : String} {us : TokenStream}
    {rest : List Token} (happend : us.ahead = (TokenStream.ofSource file a).ahead ++ rest)
    (hus : (State.ofStream us).Sealed)
    (hlast : (tokenize file a).dropLast.getLast?.map Token.kind = some .semicolon)
    (hside : (parse file a).errors = [] ∨ ∀ t ∈ tokenize file a, t.kind ≠ .openCurly)
    (hrest : (rest.headD us.stop).kind ≠ .semicolon) :
    ∃ (read' : List (Option Stmt)) (t' : State), t'.Sealed ∧ t'.input.stop = us.stop ∧
      t'.ahead = rest ∧ t'.errors.toList = (parse file a).errors ∧
      List.Forall₂ Stmt.Like (parse file a).program.statements (read'.filterMap id) ∧
      (ofRoom maxNesting).Resumes (.ofStream us) read' t' := by
  obtain ⟨read, t, hr, hparse⟩ := exists_parse file a
  have hsealed := State.ofSource_sealed file a
  have hterm : (State.ofSource file a).Terminated := by
    rw [dropLast_tokenize] at hlast
    obtain ⟨semicolon, hsemi, hk⟩ := Option.map_eq_some_iff.mp hlast
    obtain ⟨ts, hts⟩ := List.getLast?_eq_some_iff.mp hsemi
    exact ⟨ts, semicolon, hts, hk⟩
  have hagree : (Comparison.ofAppend happend).Agree (.ofSource file a) (.ofStream us) :=
    ⟨hsealed, hus, rfl, rfl, ⟨0, rfl, rfl⟩, [], [], rfl, rfl, .nil⟩
  have hruns : ∃ (read' : List (Option Stmt)) (t' : State),
      (Comparison.ofAppend happend).Agree t t' ∧ t'.ahead = rest ∧
      List.Forall₂ Stmt.Like (read.filterMap id) (read'.filterMap id) ∧
      (ofRoom maxNesting).Resumes (.ofStream us) read' t' := by
    rcases hside with hclean | hbrace
    · rw [hparse] at hclean
      exact Comparison.ofAppend.readAll (steps _ _)
        (fun hs hpos h => stops_of_clean_run hs hpos h) hrest hagree happend
        ⟨fun _ => hterm, read, t, hr, Array.toList_inj.mp hclean⟩ hr
    · have hfenced : (State.ofSource file a).Fenced :=
        ⟨hterm, fun t ht => hbrace t (List.mem_append_left _ ht)⟩
      exact Comparison.ofAppend.readAll (steps _ _) (fun _ hpos h => stops_of_fenced hpos h) hrest
        hagree happend (fun _ => hfenced) hr
  obtain ⟨read', t', ht, hend, hlike, hgoes⟩ := hruns
  obtain ⟨ds, ds', hds, hds', hsimilar⟩ := ht.errors
  refine ⟨read', t', ht.sealed', ht.stop', hend, ?_, ?_, hgoes⟩
  · have hds : t.errors.toList = ds := hds
    have hds' : t'.errors.toList = ds' := hds'
    have heq : ds = ds' := List.forall₂_eq_eq_eq ▸ hsimilar.imp fun _ _ h => eq_of_similar h
    rw [hparse, hds', ← heq, ← hds]
  · rw [hparse]
    exact hlike

/-- The first token stays of its kind when the source is moved. -/
theorem TokenStream.kind_head_ne (ts : TokenStream) {us : TokenStream} {k : Nat}
    (hahead : us.ahead = ts.ahead.map (Token.moved k)) (hstop : us.stop = ts.stop.moved k)
    {kind : Kind} (h : ∀ t ∈ ts.toList.head?, t.kind ≠ kind) :
    (us.ahead.headD us.stop).kind ≠ kind := by
  have hhead : ts.toList.head? = some (ts.nth 0) := by
    rw [TokenStream.toList, TokenStream.nth]
    cases ts.ahead <;> rfl
  have hmoved : us.ahead.headD us.stop = (ts.nth 0).moved k := by
    rw [← TokenStream.nth_moved hahead hstop, TokenStream.nth]
    cases us.ahead <;> rfl
  rw [hmoved]
  exact h (ts.nth 0) hhead

/-- A source that stands `k` bytes later, behind what has been read already, is parsed as on its
own. -/
theorem Comparison.ofMoved.readAll_ofSource {file b : String} {us : TokenStream} {k : Nat}
    (hahead : us.ahead = (TokenStream.ofSource file b).ahead.map (Token.moved k))
    (hstop : us.stop = (TokenStream.ofSource file b).stop.moved k) {t : State} (ht : t.Sealed)
    (htstop : t.input.stop = us.stop) (htahead : t.ahead = us.ahead) :
    ∃ more u, (ofRoom maxNesting).readAll t = .ok more u ∧
      List.Forall₂ Stmt.Like (parse file b).program.statements (more.filterMap id) ∧
      u.errors.toList = t.errors.toList ++ (parse file b).errors.map (Diagnostic.moved k) ∧
      ∀ d ∈ (parse file b).errors, d.position.offset ≤ Text.byteSize b.toList := by
  obtain ⟨read, u, hr, hparse⟩ := exists_parse file b
  have hagree : (ofMoved hahead hstop t.errors.toList).Agree (.ofSource file b) t :=
    ⟨State.ofSource_sealed file b, ht, rfl, htstop, ⟨0, rfl, htahead⟩, [], [], rfl,
      (List.append_nil _).symm, .nil⟩
  obtain ⟨more, u', hmore, hlike, hu⟩ := Comparison.readAll hagree hr trivial
  obtain ⟨ds, ds', hds, hds', hsimilar⟩ := hu.errors
  have hds : u.errors.toList = ds := hds
  obtain ⟨hoffset, hmoved⟩ :=
    (List.forall₂_and_left _ _).mp (hsimilar.imp fun _ _ h => eq_of_similar h)
  have hmap : ds.map (Diagnostic.moved k) = ds' := by
    rw [← List.forall₂_eq_eq_eq]
    exact List.forall₂_map_left_iff.mpr hmoved
  rw [hparse]
  refine ⟨more, u', hmore, hlike, ?_, ?_⟩
  · rw [hds', hds, hmap]
    rfl
  · rwa [hds]

/-- What fails on one side of a terminator leaves the other side alone: behind a terminator that
ends a source without braces, or one that parses, a second source is parsed as on its own. -/
theorem parse_behind_terminator (file a b : String)
    (hlast : (tokenize file a).dropLast.getLast?.map Token.kind = some .semicolon)
    (hquote : ∀ t ∈ tokenize file a, ¬ t.IsLoneQuote)
    (hfirst : ∀ t ∈ (tokenize file b).head?, t.kind ≠ .semicolon)
    (hside : (parse file a).errors = [] ∨ ∀ t ∈ tokenize file a, t.kind ≠ .openCurly) :
    Program.alike ⟨(parse file a).program.statements ++ (parse file b).program.statements⟩
        (parse file (a ++ "\n" ++ b)).program = true ∧
      (parse file (a ++ "\n" ++ b)).errors = (parse file a).errors ++
        (parse file b).errors.map (Diagnostic.moved (Text.byteSize a.toList + 1)) ∧
      (Text.byteSize a.toList + 1 + Text.byteSize b.toList ≤ maxOffset →
        ∀ d ∈ (parse file b).errors, d.moved (Text.byteSize a.toList + 1) =
          ⟨d.cause, d.position.offset + (Text.byteSize a.toList + 1), d.position.file⟩) := by
  have hjoin := TokenStream.ofSource_newline file a b hquote
  have hmoved := Cursor.tokens_moved file (Text.byteSize a.toList + 1) ⟨0, b.toList⟩
  rw [Nat.zero_add] at hmoved
  obtain ⟨hahead, hstop⟩ := hmoved
  have hsealed := State.ofSource_sealed file (a ++ "\n" ++ b)
  rw [State.ofSource, hjoin] at hsealed
  have hrest := TokenStream.kind_head_ne (.ofSource file b) hahead hstop hfirst
  obtain ⟨read, t, ht, htstop, htahead, hterrors, hlike, hresumes⟩ :=
    Comparison.ofAppend.readAll_ofSource (TokenStream.ahead_prepend _ _) hsealed hlast hside
      (by rwa [TokenStream.stop_prepend])
  rw [TokenStream.stop_prepend] at htstop
  obtain ⟨more, u, hmore, hlikeB, herrors, hoffset⟩ :=
    Comparison.ofMoved.readAll_ofSource hahead hstop ht htstop htahead
  have hrun := hresumes more u hmore
  rw [← hjoin] at hrun
  have hparse := parse_eq (bind_of_ok hrun)
  refine ⟨?_, ?_, fun hsize d hd => ?_⟩
  · rw [hparse, Program.alike, List.filterMap_append]
    exact Stmt.allAlike_of_forall₂ (List.rel_append hlike hlikeB)
  · rw [hparse, ← hterrors]
    exact herrors
  · have hle := hoffset d hd
    rw [Diagnostic.moved, clampOffset_of_le (by omega)]

/-- Two statements that fail before the terminator, one that fails behind it and one that does
not. -/
theorem parse_behind_terminator_failures :
    (tokenize "f" "let x 5; y + ;").dropLast.getLast?.map Token.kind = some .semicolon ∧
      (parse "f" ("let x 5; y + ;" ++ "\n" ++ "return ); \x7b 1: \x7d; z")).errors =
        (parse "f" "let x 5; y + ;").errors ++
          (parse "f" "return ); \x7b 1: \x7d; z").errors.map (Diagnostic.moved 15) ∧
      (parse "f" "let x 5; y + ;").errors ≠ [] ∧
      (parse "f" "return ); \x7b 1: \x7d; z").errors ≠ [] := by
  have hlast : (tokenize "f" "let x 5; y + ;").dropLast.getLast?.map Token.kind =
      some .semicolon := by decide +kernel
  have hjoin := parse_behind_terminator "f" "let x 5; y + ;" "return ); \x7b 1: \x7d; z" hlast
    (by decide +kernel) (by decide +kernel) (.inr (by decide +kernel))
  exact ⟨hlast, hjoin.2.1, by decide +kernel, by decide +kernel⟩

end Scriptlet
