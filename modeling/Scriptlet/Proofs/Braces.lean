import Scriptlet.Proofs.Acceptance

/-! What becomes of the braces of a source. An opening brace is closed, or it opens a block that
runs to the end of the source, or a hash that is given up, or recovery steps over it. A closing
brace closes something, or recovery steps over it. So the blocks that are reported as not closed
can be counted from what happened on the way. -/
namespace Scriptlet

open Reader Scriptlet.Parser Layer

/-- What a token of the kind adds to the balance of braces. -/
def Kind.brace : Kind → Int
  | .openCurly => 1
  | .closeCurly => -1
  | _ => 0

theorem Kind.brace_of_opening? {kind : Kind} {form : Opening} (h : kind.opening? = some form)
    (hne : kind ≠ .openCurly) : kind.brace = 0 := by
  cases kind with
  | openCurly => exact absurd rfl hne
  | closeCurly => cases h
  | _ => rfl

theorem Kind.brace_of_joining? {kind : Kind} {form : Joining} {power : Power}
    (h : kind.joining? = some (form, power)) : kind.brace = 0 := by
  cases kind with
  | openCurly => cases h
  | closeCurly => cases h
  | _ => rfl

theorem Kind.brace_of_heading? {kind : Kind} {form : Heading} (h : kind.heading? = some form) :
    kind.brace = 0 := by
  cases kind with
  | openCurly => cases h
  | closeCurly => cases h
  | _ => rfl

def netBraces : List Token → Int
  | [] => 0
  | t :: ts => t.kind.brace + netBraces ts

/-- A block that ran to the end of the source. -/
def Cause.missesBrace : Cause → Bool
  | .tokenMismatch .closeCurly .endOfInput _ => true
  | _ => false

/-- The parser stands on the token that it refuses, so recovery steps over that token. Only where
another token should have come next does it stand before it. -/
def Cause.standsOn : Cause → Bool
  | .tokenMismatch .. => false
  | _ => true

/-- The opening braces that are lost, less the closing ones, when the diagnostic is recorded at a
token. -/
def Cause.braces (cause : Cause) (token : Token) : Int :=
  if cause.missesBrace then 1 else if cause.standsOn then token.kind.brace else 0

def Event.braces : Event → Int
  | .recorded token d => d.cause.braces token
  | .abandoned _ => 1
  | _ => 0

def lostBraces : List Event → Int
  | [] => 0
  | e :: es => e.braces + lostBraces es

theorem lostBraces_append (es : List Event) (e : Event) :
    lostBraces (es ++ [e]) = lostBraces es + e.braces := by
  induction es with
  | nil => exact Int.add_comm _ _
  | cons d es ih => rw [List.cons_append, lostBraces, ih, lostBraces, Int.add_assoc]

namespace State

/-- The opening braces lost so far, less the closing ones. -/
def lost (s : State) : Int :=
  lostBraces s.trace.toList

/-- The braces behind the current token and the lost ones. -/
def worth (s : State) : Int :=
  netBraces s.after + s.lost

/-- The braces from the current token on and the lost ones. -/
def stake (s : State) : Int :=
  s.worth + s.current.kind.brace

theorem lost_push {s t : State} {e : Event} (h : t.trace = s.trace.push e) :
    t.lost = s.lost + e.braces := by
  rw [lost, h, Array.toList_push, lostBraces_append]
  rfl

theorem worth_note {s : State} {e : Event} (he : e.braces = 0) : (s.note e).worth = s.worth := by
  have hlost : (s.note e).lost = s.lost + e.braces := lost_push rfl
  rw [worth, hlost, he, Int.add_zero]
  rfl

theorem worth_enter (s : State) : s.enter.worth = s.worth :=
  worth_note (s := s) (e := .opened (s.depth + 1)) rfl

theorem worth_leave (s : State) : s.leave.worth = s.worth :=
  worth_note (s := s) (e := .closed s.depth) rfl

theorem worth_record (s : State) (d : Diagnostic) :
    (s.record d).worth = s.worth + d.cause.braces s.current := by
  have hlost : (s.record d).lost = s.lost + d.cause.braces s.current :=
    lost_push (e := .recorded s.current d) rfl
  rw [worth, hlost, ← Int.add_assoc]
  rfl

namespace Sealed

variable {s : State}

theorem stake_eq (h : s.Sealed) : s.stake = netBraces s.ahead + s.lost := by
  have hahead : netBraces s.ahead = s.current.kind.brace + netBraces s.after := by
    rw [s.current_eq]
    change _ = _ + netBraces s.ahead.tail
    cases s.ahead with
    | nil =>
      rw [List.headD_nil, h.stop]
      rfl
    | cons t ts => rfl
  rw [stake, worth, hahead]
  omega

theorem stake_advance (h : s.Sealed) : s.advance.stake = s.worth := by
  have hlost : s.advance.lost = s.lost + 0 := lost_push (e := .advanced s.peek) rfl
  rw [h.advance.stake_eq, hlost, Int.add_zero]
  rfl

theorem worth_advance (h : s.Sealed) : s.advance.worth = s.worth - s.peek.kind.brace := by
  rw [← h.stake_advance, stake, current_advance]
  omega

theorem worth_advance_of_eq (h : s.Sealed) {kind : Kind} (hk : s.peek.kind = kind)
    (hkind : kind.brace = 0) : s.advance.worth = s.worth := by
  rw [h.worth_advance, hk, hkind, Int.sub_zero]

theorem worth_skipSemicolon (h : s.Sealed) : s.skipSemicolon.worth = s.worth := by
  unfold State.skipSemicolon
  split
  next hsemi => exact h.worth_advance_of_eq hsemi rfl
  next => rfl

end Sealed

end State

/-- The worth of the state that a run ends in, with what recording its diagnostic adds. -/
def due {α : Type} : EStateM.Result Diagnostic State α → Int
  | .ok _ t => t.worth
  | .error d t => t.worth + d.cause.braces t.current

/-- A run of the parser from `s` comes to the given worth. -/
def Accounts {α : Type} (p : Parser α) (s : State) (v : Int) : Prop :=
  due (p s) = v

namespace Accounts

variable {α β : Type} {s : State} {v : Int}

theorem pure (a : α) : Accounts (Pure.pure a : Parser α) s s.worth := rfl

theorem current {f : Token → Parser β} (h : Accounts (f s.current) s v) :
    Accounts (Reader.current >>= f) s v := h

theorem readName {f : Name → Parser β} (h : Accounts (f ⟨s.current, s.current.text⟩) s v) :
    Accounts (Layer.readName >>= f) s v := h

theorem peek {f : Token → Parser β} (h : Accounts (f s.peek) s v) :
    Accounts (Reader.peek >>= f) s v := h

theorem advance {f : Unit → Parser β} (h : Accounts (f ()) s.advance v) :
    Accounts (Reader.advance >>= f) s v := h

theorem bind {p : Parser α} {f : α → Parser β} [Keeps State.Seals p]
    (hs : s.Sealed) (hp : Accounts p s v)
    (hf : ∀ a t, t.Sealed → Accounts (f a) t t.worth) : Accounts (p >>= f) s v := by
  unfold Accounts at hp ⊢
  cases hr : p s with
  | error d t =>
    rw [bind_of_error hr]
    rwa [hr] at hp
  | ok a t =>
    have ht : t.Sealed := hs.of_ok hr
    rw [bind_of_ok hr, ← hp, hr]
    exact hf a t ht

theorem of_ok {p : Parser α} {f : α → Parser β} {a : α} {t : State} (hr : p s = .ok a t)
    (hf : Accounts (f a) t v) : Accounts (p >>= f) s v := by
  rwa [Accounts, bind_of_ok hr]

/-- A refusal at the current token, which recovery will step over. -/
theorem refuse {cause : Cause} {token : Token} (h : cause.missesBrace = false)
    (hc : cause.standsOn = true) :
    Accounts (Parser.refuse cause token : Parser α) s s.stake := by
  change (s.note _).worth + cause.braces s.current = _
  rw [State.worth_note rfl, Cause.braces, h, hc]
  rfl

theorem expect {f : Unit → Parser β} {kind : Kind} (hkind : kind ≠ .closeCurly)
    (h : s.peek.kind = kind → Accounts (f ()) s.advance s.worth) :
    Accounts (Parser.expect kind >>= f) s s.worth := by
  by_cases hk : s.peek.kind = kind
  · have he : (Parser.expect kind >>= f) s = f () s.advance := bind_of_ok (expect_of_eq hk)
    rw [Accounts, he]
    exact h hk
  · have he : (Parser.expect kind >>= f) s = _ := bind_of_error (expect_of_ne hk)
    have hb : (Cause.tokenMismatch kind s.peek.kind s.peek.text).braces s.current = 0 := by
      revert hkind
      unfold Cause.braces Cause.missesBrace
      cases kind <;> intro hkind <;> first | rfl | exact absurd rfl hkind
    rw [Accounts, he]
    change (s.note _).worth + Cause.braces _ s.current = _
    rw [State.worth_note rfl, hb, Int.add_zero]

theorem advance_plain {f : Unit → Parser β} {kind : Kind} (hs : s.Sealed)
    (hk : s.peek.kind = kind) (hkind : kind.brace = 0)
    (h : Accounts (f ()) s.advance s.advance.worth) :
    Accounts (Reader.advance >>= f) s s.worth := by
  rw [← hs.worth_advance_of_eq hk hkind]
  exact advance h

theorem expect_plain {f : Unit → Parser β} {kind : Kind} (hs : s.Sealed) (hkind : kind.brace = 0)
    (h : ∀ t : State, t.Sealed → Accounts (f ()) t t.worth) :
    Accounts (Parser.expect kind >>= f) s s.worth := by
  refine expect (by rintro rfl; cases hkind) fun hk => ?_
  rw [← hs.worth_advance_of_eq hk hkind]
  exact h s.advance hs.advance

theorem skipSemicolon {f : Unit → Parser β} (hs : s.Sealed)
    (h : ∀ t : State, t.Sealed → Accounts (f ()) t t.worth) :
    Accounts (Reader.skipSemicolon >>= f) s s.worth := by
  rw [← hs.worth_skipSemicolon]
  exact h s.skipSemicolon hs.skipSemicolon

theorem nest {p : Parser α} (h : Accounts p s.enter v) : Accounts (Parser.nest p) s v := by
  unfold Accounts Parser.nest at *
  cases hr : p s.enter with
  | ok a t =>
    rw [hr] at h
    exact (State.worth_leave t).trans h
  | error d t =>
    rw [hr] at h
    change t.leave.worth + d.cause.braces t.current = v
    rw [State.worth_leave]
    exact h

theorem repeatWhile {goesOn : State → Bool} {round : α → Parser α}
    [∀ a, Keeps State.Seals (round a)] (hs : s.Sealed) (a : α)
    (h : ∀ a (s : State), s.Sealed → goesOn s = true → Accounts (round a) s s.worth) :
    Accounts (Reader.repeatWhile goesOn round a) s s.worth := by
  unfold Accounts at h ⊢
  induction a, s using repeatWhile_induction goesOn round with
  | next a s b t hgo hr hlt ih =>
    have hround := h a s hs hgo
    rw [hr] at hround
    rw [repeatWhile_of_ok hgo hr hlt]
    exact (ih (hs.of_ok hr)).trans hround
  | idle a s b t hgo hr hidle =>
    rw [repeatWhile_of_idle hgo hr hidle, ← hr]
    exact h a s hs hgo
  | fail a s d t hgo hr =>
    rw [repeatWhile_of_error hgo hr, ← hr]
    exact h a s hs hgo
  | stop a s hgo =>
    rw [repeatWhile_of_stop hgo]
    rfl

theorem collect {goesOn : State → Bool} {item : Parser α}
    [Keeps State.Seals item] (hs : s.Sealed)
    (h : ∀ s : State, s.Sealed → goesOn s = true → Accounts item s s.worth) :
    Accounts (Reader.collect goesOn item) s s.worth := by
  have hk (items : Array α) : Keeps State.Seals (gather item items) := by
    unfold gather
    infer_instance
  have hkr : Keeps State.Seals
      (Reader.repeatWhile goesOn (gather item) (#[] : Array α)) := .repeatWhile _
  refine bind hs (repeatWhile hs #[] fun items s hs hgo => ?_) fun items t _ => .pure _
  exact bind hs (h s hs hgo) fun a t _ => .pure _

end Accounts

/-- If every round reads a token, a loop that succeeds ends where its test says so. -/
theorem stops_of_collect {ε α : Type} {goesOn : State → Bool} {item : Reader ε α}
    [Keeps State.Seals item]
    (h : ∀ {s t : State} {a : α}, s.Sealed → goesOn s = true → item s = .ok a t →
      t.remaining < s.remaining)
    {s t : State} {as : List α} (hs : s.Sealed) (hr : Reader.collect goesOn item s = .ok as t) :
    goesOn t = false := by
  induction s using collect_induction goesOn item generalizing as with
  | stop s hgo =>
    cases (collect_of_stop hgo).symm.trans hr
    exact hgo
  | fail s e u hgo hi => cases (collect_of_error hgo hi).symm.trans hr
  | idle s a u hgo hi hidle => exact absurd (h hs hgo hi) hidle
  | next s a u hgo hi hlt ih =>
    rw [collect_of_ok hgo hi hlt] at hr
    cases hc : Reader.collect goesOn item u with
    | error e v => rw [hc] at hr; cases hr
    | ok as' v =>
      rw [hc] at hr
      cases hr
      exact ih (hs.of_ok hi) hc

/-- No token has been taken back. -/
def State.Shrinks (s t : State) : Prop :=
  t.remaining ≤ s.remaining

instance : Frame State.Shrinks where
  refl s := Nat.le_refl _
  trans hst htu := Nat.le_trans htu hst
  advance s := by
    rw [State.Shrinks, State.remaining_advance]
    exact Nat.sub_le _ _
  note _ _ _ := Nat.le_refl _
  record _ _ := Nat.le_refl _
  nest h := h

namespace Layer

theorem climb_ne_ok {below : Layer} {floor : Power} {s t : State} {e : Expr}
    (hs : s.current.kind = .endOfInput) : below.climb floor s ≠ .ok e t := by
  have hnone : s.current.kind.opening? = none := by
    rw [hs]
    rfl
  rw [climb, current_bind, hnone]
  intro hr
  cases hr

theorem stmtOrSkip_of_ok {ε : Type} {below : Layer} {s t : State} {st : Stmt}
    (h : below.stmt s = .ok st t) :
    (below.stmtOrSkip : Reader ε _) s = .ok (some st) t.advance := by
  have hread : (recovering below.stmt : Reader ε _) s = .ok (some st) t := by
    rw [recovering, h]
  exact bind_of_ok hread

theorem stmtOrSkip_of_error {ε : Type} {below : Layer} {s t : State} {d : Diagnostic}
    (h : below.stmt s = .error d t) :
    (below.stmtOrSkip : Reader ε _) s = .ok none (t.record d).skipSemicolon.advance := by
  have hread : (recovering below.stmt : Reader ε _) s =
      .ok none (t.record d).skipSemicolon := by
    rw [recovering, h]
  exact bind_of_ok hread

/-- The layer finds no expression at the end of the source. -/
class Ends (below : Layer) : Prop where
  expr_ne_ok {floor : Power} {s t : State} {e : Expr} : s.current.kind = .endOfInput →
    below.expr floor s ≠ .ok e t

theorem nest_climb_ne_ok {below : Layer} {floor : Power} {s t : State} {e : Expr}
    (hs : s.current.kind = .endOfInput) : nest (below.climb floor) s ≠ .ok e t := by
  intro hr
  unfold nest at hr
  split at hr
  next a u hc => exact climb_ne_ok (s := s.enter) hs hc
  next => cases hr

instance (n : Nat) : (ofRoom n).Ends where
  expr_ne_ok hs := by
    cases n with
    | zero =>
      intro hr
      cases hr
    | succ n => exact nest_climb_ne_ok hs

theorem remaining_lt_of_pair {below : Layer} [below.Keeps State.Shrinks] [hend : below.Ends]
    {s t : State} {p : Expr × Expr} (hs : s.Sealed) (hr : below.pair s = .ok p t) :
    t.remaining < s.remaining := by
  have hk (key : Expr) : Scriptlet.Keeps State.Shrinks (do
      expect .colon
      advance
      let value ← below.expr .lowest
      let next ← peek
      if next.kind ≠ .closeCurly then expect .comma
      return (key, value) : Parser (Expr × Expr)) := by
    infer_instance
  change (below.expr .lowest >>= _ : Parser _) s.advance = _ at hr
  cases he : below.expr .lowest s.advance with
  | error d u => cases (bind_of_error he).symm.trans hr
  | ok key u =>
    rw [bind_of_ok he] at hr
    have hu : u.remaining ≤ s.advance.remaining :=
      Scriptlet.Keeps.of_ok (R := State.Shrinks) he
    have ht : t.remaining ≤ u.remaining :=
      (hk key).of_ok hr
    have hpos : 0 < s.remaining := by
      rw [s.remaining_eq]
      refine Nat.pos_of_ne_zero fun hzero => hend.expr_ne_ok ?_ he
      have hnil : s.ahead = [] := List.length_eq_zero_iff.mp hzero
      rw [State.current_advance, s.peek_eq, State.after, ← State.ahead, hnil]
      exact hs.stop
    rw [State.remaining_advance] at hu
    omega

end Layer

/-- A layer that accounts for the braces of what it reads. -/
structure Fair (n : Nat) : Prop where
  expr {floor : Power} {s : State} : s.Sealed → Accounts ((ofRoom n).expr floor) s s.stake
  block {s : State} : s.Sealed → s.current.kind = .openCurly → Accounts (ofRoom n).block s s.stake

namespace Fair

variable {n : Nat} {s : State}

theorem next (h : Fair n) (hs : s.Sealed) {floor : Power} :
    Accounts ((ofRoom n).expr floor) s.advance s.worth := by
  rw [← hs.stake_advance]
  exact h.expr hs.advance

theorem nextBlock {β : Type} (h : Fair n) (hs : s.Sealed) {f : Block → Parser β}
    (hf : ∀ b t, t.Sealed → Accounts (f b) t t.worth) :
    Accounts (expect .openCurly >>= fun _ => (ofRoom n).block >>= f) s s.worth := by
  refine .expect (by decide) fun hk => ?_
  have hb : Accounts (ofRoom n).block s.advance s.advance.stake := h.block hs.advance hk
  rw [hs.stake_advance] at hb
  exact .bind hs.advance hb hf

theorem nextElement (h : Fair n) (hs : s.Sealed) (hcomma : s.peek.kind = .comma) :
    Accounts (ofRoom n).nextElement s s.worth := by
  apply Accounts.advance_plain hs hcomma rfl
  exact .advance (h.next hs.advance)

theorem list (h : Fair n) (hs : s.Sealed) {stop : Kind} (hstop : stop.brace = 0) :
    Accounts ((ofRoom n).list stop) s s.worth := by
  refine .peek (.advance ?_)
  split
  next hk =>
    rw [← hs.worth_advance_of_eq hk hstop]
    exact .pure _
  next =>
    refine .bind hs.advance (h.next hs) fun e t ht => ?_
    refine .bind ht (.collect ht fun s hs hgo => ?_) fun es u hu => ?_
    · exact h.nextElement hs (of_decide_eq_true hgo)
    · exact .expect_plain hu hstop fun v _ => .pure _

theorem pair (h : Fair n) (hs : s.Sealed) : Accounts (ofRoom n).pair s s.worth := by
  refine .advance (.bind hs.advance (h.next hs) fun key t ht => ?_)
  refine .expect_plain ht rfl fun u hu => .advance ?_
  refine .bind hu.advance (h.next hu) fun value v hv => .peek ?_
  split
  next => exact .expect_plain hv rfl fun w _ => .pure _
  next => exact .pure _

/-- The closing brace of a hash is there when its pairs are read, so only a pair can fail. -/
theorem pairs (h : Fair n) (hs : s.Sealed) :
    match (ofRoom n).pairs s with
    | .ok _ t => t.worth = s.worth + 1
    | .error d t => t.worth + d.cause.braces t.current = s.worth := by
  have hread : Accounts (collect (fun s => s.peek.kind ≠ .closeCurly) (ofRoom n).pair) s s.worth :=
    .collect hs fun s hs _ => h.pair hs
  unfold Accounts at hread
  cases hr : collect (fun s => s.peek.kind ≠ .closeCurly) (ofRoom n).pair s with
  | error d t =>
    have hp : (ofRoom n).pairs s = .error d t := bind_of_error hr
    rw [hp]
    rwa [hr] at hread
  | ok ps t =>
    have ht : t.Sealed := hs.of_ok hr
    have hclose : t.peek.kind = .closeCurly := by
      have hstop := stops_of_collect (fun hs _ hi => remaining_lt_of_pair hs hi) hs hr
      simpa using hstop
    have hp : (ofRoom n).pairs s = .ok ps t.advance :=
      (bind_of_ok hr).trans (bind_of_ok (expect_of_eq hclose))
    rw [hr] at hread
    rw [hp]
    change t.advance.worth = _
    rw [ht.worth_advance, hclose]
    exact congrArg (· + 1) hread

theorem hash (h : Fair n) (hs : s.Sealed) (ho : s.current.kind = .openCurly) :
    Accounts (ofRoom n).hash s s.stake := by
  have hstake : s.stake = s.worth + 1 := by rw [State.stake, ho]; rfl
  have hp := h.pairs hs
  refine .current (.bind hs ?_ fun ps t _ => .pure _)
  unfold Accounts noting
  cases hr : (ofRoom n).pairs s with
  | ok ps t =>
    rw [hr] at hp
    exact hp.trans hstake.symm
  | error d t =>
    rw [hr] at hp
    have hlost : (t.note (.abandoned s.current)).lost = t.lost + 1 :=
      State.lost_push (e := .abandoned s.current) rfl
    have hw : (t.note (.abandoned s.current)).worth = t.worth + 1 := by
      rw [State.worth, hlost, ← Int.add_assoc]
      rfl
    change (t.note (.abandoned s.current)).worth + d.cause.braces t.current = s.stake
    rw [hw, hstake, ← hp]
    omega

theorem conditional (h : Fair n) (hs : s.Sealed) : Accounts (ofRoom n).conditional s s.worth := by
  refine .current (.expect_plain hs rfl fun t ht => .advance ?_)
  refine .bind ht.advance (h.next ht) fun condition u hu => ?_
  refine .expect_plain hu rfl fun v hv => h.nextBlock hv fun consequence w hw => .peek ?_
  split
  next helse =>
    apply Accounts.advance_plain hw helse rfl
    exact h.nextBlock hw.advance fun alternative x _ => .pure _
  next => exact .pure _

theorem parameters (hs : s.Sealed) : Accounts Layer.parameters s s.worth := by
  refine .peek ?_
  split
  next hk =>
    exact .advance_plain hs hk rfl (.pure _)
  next =>
    refine .expect_plain hs rfl fun t ht => .readName ?_
    refine .bind ht (.collect ht fun s hs hgo => ?_) fun names u hu => ?_
    · apply Accounts.advance_plain hs (of_decide_eq_true hgo) rfl
      exact .expect_plain hs.advance rfl fun v _ => .current (.pure _)
    · exact .expect_plain hu rfl fun v _ => .pure _

theorem function (h : Fair n) (hs : s.Sealed) : Accounts (ofRoom n).function s s.worth := by
  refine .current (.expect_plain hs rfl fun t ht => ?_)
  refine .bind ht (parameters ht) fun names u hu => ?_
  exact h.nextBlock hu fun body v _ => .pure _

theorem opening (h : Fair n) (hs : s.Sealed) {form : Opening}
    (hform : s.current.kind.opening? = some form) :
    Accounts ((ofRoom n).opening form) s s.stake := by
  by_cases ho : s.current.kind = .openCurly
  · rw [ho] at hform
    cases hform
    exact h.hash hs ho
  · have hstake : s.stake = s.worth := by
      rw [State.stake, Kind.brace_of_opening? hform ho, Int.add_zero]
    cases form with
    | name => exact hstake ▸ .current (.pure _)
    | integer =>
      refine .current ?_
      split
      next => exact hstake ▸ .pure _
      next => exact .refuse rfl rfl
    | text => exact hstake ▸ .current (.pure _)
    | boolean => exact hstake ▸ .current (.pure _)
    | unary =>
      rw [hstake]
      exact .current (.advance (.bind hs.advance (h.next hs) fun right t _ => .pure _))
    | group =>
      rw [hstake]
      refine .advance (.bind hs.advance (h.next hs) fun inner t ht => ?_)
      exact .expect_plain ht rfl fun u _ => .pure _
    | array =>
      rw [hstake]
      exact .current (.bind hs (h.list hs rfl) fun elements t _ => .pure _)
    | hash =>
      cases hk : s.current.kind <;> rw [hk] at hform <;> cases hform
      exact absurd hk ho
    | conditional => exact hstake ▸ h.conditional hs
    | function => exact hstake ▸ h.function hs

theorem joining (h : Fair n) (hs : s.Sealed) (form : Joining) (left : Expr) (power : Power) :
    Accounts ((ofRoom n).joining form left power) s s.worth := by
  cases form with
  | binary => exact .current (.advance (.bind hs.advance (h.next hs) fun right t _ => .pure _))
  | call => exact .current (.bind hs (h.list hs rfl) fun arguments t _ => .pure _)
  | index =>
    refine .current (.advance (.bind hs.advance (h.next hs) fun index t ht => ?_))
    exact .expect_plain ht rfl fun u _ => .pure _

theorem extend (h : Fair n) (hs : s.Sealed) {floor : Power} {left : Expr} :
    Accounts ((ofRoom n).extend floor left) s s.worth := by
  refine .peek ?_
  split
  next => exact .pure _
  next form power hj =>
    have hn : (s.note (.applied s.peek.kind power floor)).Sealed := hs.note _
    have hw : (s.note (.applied s.peek.kind power floor)).advance.worth = s.worth := by
      rw [hn.worth_advance_of_eq rfl (Kind.brace_of_joining? hj), State.worth_note rfl]
    have hjoin := h.joining hn.advance form left power
    rw [hw] at hjoin
    exact hjoin

theorem climb (h : Fair n) (hs : s.Sealed) {floor : Power} :
    Accounts ((ofRoom n).climb floor) s s.stake := by
  refine .current ?_
  split
  next => exact .refuse rfl rfl
  next form hform =>
    refine .bind hs (h.opening hs hform) fun first t ht => ?_
    exact .repeatWhile ht first fun left u hu _ => h.extend hu

theorem stmt (h : Fair n) (hs : s.Sealed) : Accounts (ofRoom n).stmt s s.stake := by
  refine .current ?_
  cases hform : s.current.kind.heading? with
  | none =>
    refine .current (.bind hs (h.expr hs) fun value t ht => ?_)
    exact .skipSemicolon ht fun u _ => .pure _
  | some form =>
    have hstake : s.stake = s.worth := by
      rw [State.stake, Kind.brace_of_heading? hform, Int.add_zero]
    rw [hstake]
    cases form with
    | binding =>
      refine .current (.expect_plain hs rfl fun t ht => .readName ?_)
      refine .expect_plain ht rfl fun u hu => .advance ?_
      refine .bind hu.advance (h.next hu) fun value v hv => ?_
      exact .skipSemicolon hv fun w _ => .pure _
    | returning =>
      refine .current (.advance (.bind hs.advance (h.next hs) fun value t ht => ?_))
      exact .skipSemicolon ht fun u _ => .pure _

/-- Whether a statement fails or not, what comes behind it has the same stake. -/
theorem stmtOrSkip {ε : Type} (h : Fair n) (hs : s.Sealed) :
    ∃ st? t, ((ofRoom n).stmtOrSkip : Reader ε _) s = .ok st? t ∧ t.stake = s.stake := by
  have hst := h.stmt hs
  unfold Accounts at hst
  cases hr : (ofRoom n).stmt s with
  | ok st t =>
    have ht : t.Sealed := hs.of_ok hr
    refine ⟨some st, t.advance, stmtOrSkip_of_ok hr, ?_⟩
    rw [hr] at hst
    exact ht.stake_advance.trans hst
  | error d t =>
    have ht : t.Sealed := hs.of_error hr
    refine ⟨none, (t.record d).skipSemicolon.advance, stmtOrSkip_of_error hr, ?_⟩
    have hrecord : (t.record d).Sealed := ht.record d
    rw [hr] at hst
    rw [hrecord.skipSemicolon.stake_advance, hrecord.worth_skipSemicolon, State.worth_record]
    exact hst

theorem remaining_lt_of_stmtOrSkip {ε : Type} {t : State} {st? : Option Stmt}
    (hs : 0 < s.remaining) (hr : ((ofRoom n).stmtOrSkip : Reader ε _) s = .ok st? t) :
    t.remaining < s.remaining := by
  cases hread : (recovering (ofRoom n).stmt : Reader ε _) s with
  | error e u => cases (bind_of_error hread).symm.trans hr
  | ok a u =>
    have hle : u.remaining ≤ s.remaining :=
      Keeps.of_ok (R := State.Shrinks) hread
    have hrun : (EStateM.Result.ok a u.advance : EStateM.Result ε State _) = .ok st? t :=
      (bind_of_ok hread).symm.trans hr
    cases hrun
    rw [State.remaining_advance]
    omega

theorem stmts {ε : Type} (h : Fair n) (goesOn : State → Bool) (hs : s.Sealed)
    (hgo : ∀ s : State, goesOn s = true → s.current.kind ≠ .endOfInput) :
    ∃ ss t, ((ofRoom n).stmts goesOn : Reader ε _) s = .ok ss t ∧ t.Sealed ∧ t.stake = s.stake ∧
      goesOn t = false := by
  have hall : ∃ read t, (collect goesOn (ofRoom n).stmtOrSkip : Reader ε _) s = .ok read t ∧
      t.stake = s.stake := by
    induction hn : s.remaining using Nat.strongRecOn generalizing s with
    | _ m ih =>
      cases hg : goesOn s with
      | false => exact ⟨[], s, collect_of_stop hg, rfl⟩
      | true =>
        obtain ⟨st?, t, ht, hstake⟩ := h.stmtOrSkip (ε := ε) hs
        have hlt := remaining_lt_of_stmtOrSkip (hs.remaining_pos (hgo _ hg)) ht
        have htseal : t.Sealed := hs.of_ok ht
        obtain ⟨read, u, hu, hustake⟩ := ih _ (hn ▸ hlt) htseal rfl
        exact ⟨st? :: read, u, by rw [collect_of_ok hg ht hlt, hu], hustake.trans hstake⟩
  obtain ⟨read, t, ht, hstake⟩ := hall
  have hstop := stops_of_collect
    (fun hs hg hi => remaining_lt_of_stmtOrSkip (hs.remaining_pos (hgo _ hg)) hi) hs ht
  have htseal : t.Sealed := hs.of_ok ht
  exact ⟨_, t, bind_of_ok ht, htseal, hstake, hstop⟩

theorem braces (h : Fair n) (hs : s.Sealed) (ho : s.current.kind = .openCurly) :
    Accounts (ofRoom n).braces s s.stake := by
  have hstake : s.stake = s.worth + 1 := by rw [State.stake, ho]; rfl
  obtain ⟨ss, t, ht, -, hkept, hgo⟩ := h.stmts (ε := Diagnostic)
    (fun s => s.current.kind ≠ .closeCurly && s.current.kind ≠ .endOfInput) hs.advance
    fun s hgo => by simpa using (Bool.and_eq_true_iff.mp hgo).2
  rw [hs.stake_advance, State.stake] at hkept
  refine .current (.advance (.of_ok ht (.current ?_)))
  by_cases hend : t.current.kind = .endOfInput
  · -- The block runs to the end, and that is what is reported.
    rw [hend] at hkept
    rw [if_pos hend]
    change (t.note _).worth + 1 = _
    rw [State.worth_note rfl, hstake, ← hkept]
    exact congrArg (· + 1) (Int.add_zero _).symm
  · have hclose : t.current.kind = .closeCurly := by simpa [hend] using hgo
    have hw : t.worth = s.stake := by
      rw [hclose] at hkept
      rw [hstake, ← hkept]
      change t.worth = t.worth + -1 + 1
      omega
    rw [if_neg hend, ← hw]
    exact .pure _

theorem succ (h : Fair n) : Fair (n + 1) where
  expr {floor s} hs := by
    have hc : Accounts ((ofRoom n).climb floor) s.enter s.enter.stake := h.climb hs.enter
    rw [State.stake, State.worth_enter] at hc
    exact hc.nest
  block {s} hs ho := by
    have hb : Accounts (ofRoom n).braces s.enter s.enter.stake := h.braces hs.enter ho
    rw [State.stake, State.worth_enter] at hb
    exact hb.nest

end Fair

theorem Layer.fair (n : Nat) : Fair n := by
  induction n with
  | zero => exact ⟨fun _ => .current (.refuse rfl rfl), fun _ _ => .current (.refuse rfl rfl)⟩
  | succ n ih => exact ih.succ

/-- The balance of the braces of a source is that of the braces that parsing it loses. -/
theorem lost_wholeStmts {file source : String} {ss : List Stmt} {t : State}
    (h : wholeStmts (.ofSource file source) = .ok ss t) :
    t.lost = netBraces (tokenize file source).dropLast := by
  have hs := State.ofSource_sealed file source
  obtain ⟨ss', t', ht, hseal, hstake, hgo⟩ := (Layer.fair maxNesting).stmts (ε := Empty)
    (fun s => s.current.kind ≠ .endOfInput) hs fun s hgo => of_decide_eq_true hgo
  cases ht.symm.trans h
  have hend : t.ahead = [] := hseal.ahead_eq_nil (by simpa using hgo)
  rw [hseal.stake_eq, hs.stake_eq, hend] at hstake
  have hnone : (State.ofSource file source).lost = 0 := rfl
  have hnil : netBraces [] = 0 := rfl
  rw [dropLast_tokenize]
  omega

/-- A block that ran to the end of the source is reported. -/
def Event.misses : Event → Bool
  | .recorded _ d => d.cause.missesBrace
  | _ => false

/-- Recovery steps over a token of the kind. -/
def Event.skips (kind : Kind) : Event → Bool
  | .recorded token d => d.cause.standsOn && token.kind == kind
  | _ => false

/-- A hash is given up. -/
def Event.abandons : Event → Bool
  | .abandoned _ => true
  | _ => false

theorem netBraces_eq (ts : List Token) :
    netBraces ts = ts.countP (·.kind == .openCurly) - ts.countP (·.kind == .closeCurly) := by
  induction ts with
  | nil => rfl
  | cons t ts ih =>
    rw [netBraces, ih, List.countP_cons, List.countP_cons]
    cases t.kind <;> simp [Kind.brace] <;> omega

theorem Kind.brace_eq (kind : Kind) :
    kind.brace = ((kind == .openCurly).toNat : Int) - (kind == .closeCurly).toNat := by
  cases kind <;> rfl

theorem Cause.standsOn_of_missesBrace {cause : Cause} (h : cause.missesBrace = true) :
    cause.standsOn = false := by
  cases cause with
  | tokenMismatch => rfl
  | _ => cases h

theorem Cause.braces_eq (cause : Cause) (token : Token) :
    cause.braces token = (cause.missesBrace.toNat : Int) +
      (cause.standsOn && token.kind == .openCurly).toNat -
      (cause.standsOn && token.kind == .closeCurly).toNat := by
  unfold Cause.braces
  cases hm : cause.missesBrace with
  | true => simp [standsOn_of_missesBrace hm]
  | false => cases cause.standsOn <;> simp [Kind.brace_eq]

theorem Event.braces_eq (e : Event) :
    e.braces = (e.misses.toNat + (e.skips .openCurly).toNat + e.abandons.toNat : Int) -
      (e.skips .closeCurly).toNat := by
  cases e with
  | recorded token d =>
    refine (d.cause.braces_eq token).trans ?_
    simp [misses, skips, abandons]
  | _ => rfl

theorem lostBraces_eq (es : List Event) :
    lostBraces es =
      (es.countP Event.misses + es.countP (·.skips .openCurly) + es.countP Event.abandons : Int) -
        es.countP (·.skips .closeCurly) := by
  induction es with
  | nil => rfl
  | cons e es ih =>
    have hcount (p : Event → Bool) : (e :: es).countP p = es.countP p + (p e).toNat := by
      rw [List.countP_cons]
      cases p e <;> rfl
    rw [lostBraces, ih, e.braces_eq]
    simp only [hcount]
    omega

/-- The diagnostics of a state are those that its trace says were recorded. -/
def State.Faithful (s : State) : Prop :=
  s.errors.toList = s.trace.toList.filterMap Event.diagnostic?

theorem State.Faithful.push {s t : State} {e : Event} (h : s.Faithful)
    (ht : t.trace = s.trace.push e)
    (herrors : t.errors.toList = s.errors.toList ++ e.diagnostic?.toList) :
    t.Faithful := by
  have hone : [e].filterMap Event.diagnostic? = e.diagnostic?.toList := by
    cases hd : e.diagnostic? <;> simp [hd]
  rw [Faithful, herrors, ht, Array.toList_push, List.filterMap_append, hone, h]

instance : Frame fun s t => s.Faithful → t.Faithful where
  refl _ h := h
  trans hst htu h := htu (hst h)
  advance s h := h.push (e := .advanced s.peek) rfl (List.append_nil _).symm
  note s e he h := h.push (e := e) rfl (by
    rw [Event.diagnostic?_of_isRemark he]
    exact (List.append_nil _).symm)
  record s d h := h.push (e := .recorded s.current d) rfl Array.toList_push
  nest {s t} hst h :=
    have henter : s.enter.Faithful :=
      h.push (e := .opened (s.depth + 1)) rfl (List.append_nil _).symm
    (hst henter).push (e := .closed t.depth) rfl (List.append_nil _).symm

theorem countP_tokenize (file source : String) {kind : Kind} (h : kind ≠ .endOfInput) :
    (tokenize file source).countP (·.kind == kind) =
      (tokenize file source).dropLast.countP (·.kind == kind) := by
  have hstop := (State.ofSource_sealed file source).stop
  have hlist : tokenize file source =
      (State.ofSource file source).ahead ++ [(State.ofSource file source).input.stop] := rfl
  rw [dropLast_tokenize, hlist, List.countP_append, List.countP_singleton, hstop]
  simp [h.symm]

/-- An opening brace is closed, or its block is reported as not closed, or its hash is given up, or
recovery steps over it; a closing brace closes something, or recovery steps over it. -/
theorem braces_balance (file source : String) :
    ((parse file source).errors.countP (·.cause.missesBrace) +
        (parse file source).trace.countP (·.skips .openCurly) +
        (parse file source).trace.countP Event.abandons : Int) =
      (parse file source).trace.countP (·.skips .closeCurly) +
        ((tokenize file source).countP (·.kind == .openCurly) -
          (tokenize file source).countP (·.kind == .closeCurly)) := by
  obtain ⟨ss, t, ht⟩ := exists_wholeStmts (.ofSource file source)
  have hlost := lost_wholeStmts ht
  have hfaithful : t.Faithful :=
    Keeps.of_ok (R := fun s t => s.Faithful → t.Faithful) ht rfl
  have hmisses : t.errors.toList.countP (·.cause.missesBrace) =
      t.trace.toList.countP Event.misses := by
    rw [hfaithful, List.countP_filterMap]
    congr
    funext e
    cases e <;> rfl
  rw [State.lost, lostBraces_eq, netBraces_eq] at hlost
  rw [parse_eq ht, countP_tokenize file source (by decide), countP_tokenize file source (by decide)]
  dsimp only
  omega

/-- In a source with as many opening as closing braces, a block is reported as not closed if and
only if recovery steps over more closing braces than opening ones are lost to hashes that are given
up and to nesting that is too deep. -/
theorem missing_brace_iff (file source : String)
    (h : (tokenize file source).countP (·.kind == .openCurly) =
      (tokenize file source).countP (·.kind == .closeCurly)) :
    (∃ d ∈ (parse file source).errors, d.cause.missesBrace = true) ↔
      (parse file source).trace.countP (·.skips .openCurly) +
        (parse file source).trace.countP Event.abandons <
      (parse file source).trace.countP (·.skips .closeCurly) := by
  have hbalance := braces_balance file source
  rw [← List.countP_pos_iff]
  omega

/-- A statement that ends where its value should start takes the brace that closes its block. -/
theorem missing_brace_after_return :
    (tokenize "f" "if (x) \x7b return \x7d").countP (·.kind == .openCurly) =
      (tokenize "f" "if (x) \x7b return \x7d").countP (·.kind == .closeCurly) ∧
    ∃ d ∈ (parse "f" "if (x) \x7b return \x7d").errors, d.cause.missesBrace = true := by
  have hcount : (tokenize "f" "if (x) \x7b return \x7d").countP (·.kind == .openCurly) =
      (tokenize "f" "if (x) \x7b return \x7d").countP (·.kind == .closeCurly) := by
    decide +kernel
  refine ⟨hcount, (missing_brace_iff "f" _ hcount).mpr ?_⟩
  decide +kernel

end Scriptlet
