import Scriptlet.Proofs.Deriving

/-! Parsing that stops at the first failure. The strict parsers read blocks without recovery and are
otherwise those that recover. What a strict parser reads, the other one reads in the same way; and
where a strict parser fails, its diagnostic is the first one of the other. -/
namespace Scriptlet

open Reader Scriptlet.Parser

namespace Layer

/-- What a statement comes to before its terminator: if it fails, that is recorded. -/
def outcome (below : Layer) (s : State) : Option Stmt × State :=
  match below.clause s with
  | .ok st t => (some st, t)
  | .error d t => (none, t.record d)

theorem outcome_of_clause {below : Layer} {s t : State} {st : Stmt}
    (h : below.clause s = .ok st t) : below.outcome s = (some st, t) := by
  rw [outcome, h]

theorem outcome_of_clause_error {below : Layer} {s t : State} {d : Diagnostic}
    (h : below.clause s = .error d t) : below.outcome s = (none, t.record d) := by
  rw [outcome, h]

/-- Whether a statement fails or not, its terminator is skipped behind it. -/
theorem stmtOrSkip_eq {ε : Type} (below : Layer) (s : State) :
    (below.stmtOrSkip : Reader ε _) s =
      .ok (below.outcome s).1 (below.outcome s).2.skipSemicolon.advance := by
  have hread : (recovering below.stmt : Reader ε _) s =
      .ok (below.outcome s).1 (below.outcome s).2.skipSemicolon := by
    cases h : below.clause s with
    | ok st t => rw [recovering, stmt_of_clause h, outcome_of_clause h]
    | error d t => rw [recovering, stmt_of_clause_error h, outcome_of_clause_error h]
  exact (bind_of_ok hread).trans rfl

/-- Reads a statement and steps behind it. -/
def strictStmt (below : Layer) : Parser Stmt := do
  let st ← below.clause
  skipSemicolon
  advance
  return st

theorem strictStmt_of_clause {below : Layer} {s t : State} {st : Stmt}
    (h : below.clause s = .ok st t) :
    below.strictStmt s = .ok st t.skipSemicolon.advance := by
  rw [strictStmt, bind_of_ok h]
  rfl

theorem strictStmt_of_clause_error {below : Layer} {s t : State} {d : Diagnostic}
    (h : below.clause s = .error d t) : below.strictStmt s = .error d t := by
  rw [strictStmt, bind_of_error h]

def strictStmts (below : Layer) (goesOn : State → Bool) : Parser (List Stmt) :=
  collect goesOn below.strictStmt

/-- Whether the token ends neither a block nor the source. -/
def inBlock (s : State) : Bool :=
  s.current.kind ≠ .closeCurly && s.current.kind ≠ .endOfInput

/-- What stands between braces. -/
def inBraces (body : Parser (List Stmt)) : Parser Block := do
  let token ← current
  advance
  let body ← body
  let last ← current
  if last.kind = .endOfInput then
    refuse (.tokenMismatch .closeCurly .endOfInput last.text) last
  return .mk token body

theorem braces_eq (below : Layer) : below.braces = inBraces (below.stmts inBlock) := rfl

/-- The statements between braces. A statement that fails makes the block fail. -/
def strictBraces (below : Layer) : Parser Block :=
  inBraces (below.strictStmts inBlock)

def strictAbove (below : Layer) : Layer where
  expr floor := nest (below.climb floor)
  block := nest below.strictBraces

def strictOfRoom : Nat → Layer
  | 0 => deepest
  | n + 1 => (strictOfRoom n).strictAbove

section Keeps

variable {R : State → State → Prop} [Frame R]

instance {below : Layer} [below.Keeps R] : Scriptlet.Keeps R below.strictStmt := by
  unfold strictStmt
  infer_instance

instance {below : Layer} [below.Keeps R] (goesOn : State → Bool) :
    Scriptlet.Keeps R (below.strictStmts goesOn) := by
  unfold strictStmts
  infer_instance

instance {body : Parser (List Stmt)} [Scriptlet.Keeps R body] :
    Scriptlet.Keeps R (inBraces body) := by
  unfold inBraces
  infer_instance

instance {below : Layer} [below.Keeps R] : Scriptlet.Keeps R below.strictBraces := by
  unfold strictBraces
  infer_instance

instance (n : Nat) : (strictOfRoom n).Keeps R := by
  induction n with
  | zero => constructor <;> unfold strictOfRoom deepest <;> infer_instance
  | succ n ih => constructor <;> unfold strictOfRoom strictAbove <;> infer_instance

end Keeps

end Layer

/-- The depth at which a diagnostic arose, and the diagnostic. -/
def Event.refusal? : Event → Option (Nat × Diagnostic)
  | refused depth d => some (depth, d)
  | _ => none

namespace State

/-- The trace and the diagnostics of one state go on with those of the other. -/
structure Extends (s t : State) : Prop where
  errors : s.errors.toList <+: t.errors.toList
  trace : s.trace.toList <+: t.trace.toList

theorem Extends.enter (s : State) : s.Extends s.enter :=
  ⟨List.prefix_rfl, by simp [State.enter]⟩

theorem Extends.leave (s : State) : s.Extends s.leave :=
  ⟨List.prefix_rfl, by simp [State.leave]⟩

instance : Frame Extends where
  refl _ := ⟨List.prefix_rfl, List.prefix_rfl⟩
  trans hst htu := ⟨hst.errors.trans htu.errors, hst.trace.trans htu.trace⟩
  advance s := ⟨List.prefix_rfl, by simp [advance]⟩
  note s e _ := ⟨List.prefix_rfl, by simp [note]⟩
  record s d := ⟨by simp [record], by simp [record]⟩
  nest {s t} h := by
    have hs := Extends.enter s
    have ht := Extends.leave t
    exact ⟨(hs.errors.trans h.errors).trans ht.errors, (hs.trace.trans h.trace).trans ht.trace⟩

/-- Nothing failed between two states. -/
structure Quiet (s t : State) : Prop where
  errors : t.errors = s.errors
  trace : ∃ es, t.trace.toList = s.trace.toList ++ es ∧ ∀ e ∈ es, e.refusal? = none

/-- The first failure between two states is the diagnostic, which arose at the depth. -/
def Raises (depth : Nat) (d : Diagnostic) (s t : State) : Prop :=
  ∃ u, s.Quiet u ∧ (u.note (.refused depth d)).trace.toList <+: t.trace.toList

/-- The first failure between two states was not recorded yet. -/
structure Fails (depth : Nat) (d : Diagnostic) (s t : State) : Prop where
  errors : t.errors = s.errors
  raises : s.Raises depth d t

/-- The first failure between two states was the first to be recorded. -/
structure Blames (depth : Nat) (d : Diagnostic) (s t : State) : Prop where
  errors : (s.errors.push d).toList <+: t.errors.toList
  raises : s.Raises depth d t

variable {s t u : State} {depth : Nat} {d : Diagnostic}

theorem Quiet.refl (s : State) : s.Quiet s :=
  ⟨rfl, [], (List.append_nil _).symm, fun _ h => absurd h List.not_mem_nil⟩

theorem Quiet.trans (hst : s.Quiet t) (htu : t.Quiet u) : s.Quiet u := by
  obtain ⟨es, hes, hnone⟩ := hst.trace
  obtain ⟨es', hes', hnone'⟩ := htu.trace
  refine ⟨htu.errors.trans hst.errors, es ++ es', by rw [hes', hes, List.append_assoc], ?_⟩
  exact List.forall_mem_append.mpr ⟨hnone, hnone'⟩

theorem Quiet.event {e : Event} (htrace : t.trace = s.trace.push e) (he : e.refusal? = none)
    (herrors : t.errors = s.errors) : s.Quiet t := by
  refine ⟨herrors, [e], by rw [htrace, Array.toList_push], fun e' h => ?_⟩
  rwa [List.mem_singleton.mp h]

theorem Quiet.advance (s : State) : s.Quiet s.advance :=
  .event (e := .advanced s.peek) rfl rfl rfl

theorem Quiet.enter (s : State) : s.Quiet s.enter :=
  .event (e := .opened (s.depth + 1)) rfl rfl rfl

theorem Quiet.leave (s : State) : s.Quiet s.leave :=
  .event (e := .closed s.depth) rfl rfl rfl

theorem Quiet.skipSemicolon (s : State) : s.Quiet s.skipSemicolon := by
  unfold State.skipSemicolon
  split
  · exact .advance s
  · exact .refl s

theorem Raises.of_quiet (hst : s.Quiet t) (h : t.Raises depth d u) : s.Raises depth d u := by
  obtain ⟨v, hv, hlog⟩ := h
  exact ⟨v, hst.trans hv, hlog⟩

theorem Raises.extends (h : s.Raises depth d t) (htu : t.trace.toList <+: u.trace.toList) :
    s.Raises depth d u := by
  obtain ⟨v, hv, hlog⟩ := h
  exact ⟨v, hv, hlog.trans htu⟩

theorem Fails.of_quiet (hst : s.Quiet t) (h : t.Fails depth d u) : s.Fails depth d u :=
  ⟨h.errors.trans hst.errors, h.raises.of_quiet hst⟩

theorem Fails.quiet (h : s.Fails depth d t) (htu : t.Quiet u) : s.Fails depth d u := by
  obtain ⟨es, hes, -⟩ := htu.trace
  exact ⟨htu.errors.trans h.errors, h.raises.extends ⟨es, hes.symm⟩⟩

theorem Blames.of_quiet (hst : s.Quiet t) (h : t.Blames depth d u) : s.Blames depth d u :=
  ⟨hst.errors ▸ h.errors, h.raises.of_quiet hst⟩

theorem Blames.extends (h : s.Blames depth d t) (htu : t.Extends u) : s.Blames depth d u :=
  ⟨h.errors.trans htu.errors, h.raises.extends htu.trace⟩

theorem Fails.record (h : s.Fails depth d t) : s.Blames depth d (t.record d) :=
  ⟨by rw [← h.errors]; exact List.prefix_rfl, h.raises.extends (Extends.trace (Frame.record t d))⟩

end State

/-- The first failure of a run from `s` is the diagnostic: it was recorded, or it makes the run
fail. -/
def Faults (depth : Nat) (d : Diagnostic) (s : State) {α : Type}
    (r : EStateM.Result Diagnostic State α) : Prop :=
  s.Blames depth d (final r) ∨ ∃ u, r = .error d u ∧ s.Fails depth d u

theorem Faults.of_quiet {depth : Nat} {d : Diagnostic} {s t : State} {α : Type}
    {r : EStateM.Result Diagnostic State α} (h : Faults depth d t r) (hst : s.Quiet t) :
    Faults depth d s r := by
  rcases h with h | ⟨u, hu, h⟩
  · exact .inl (h.of_quiet hst)
  · exact .inr ⟨u, hu, h.of_quiet hst⟩

/-- The parser `p` does what `q` does up to the first failure. -/
class Mirrors {α : Type} (p q : Parser α) : Prop where
  keeps : Keeps State.Extends q
  ok {s t : State} {a : α} : p s = .ok a t → q s = .ok a t ∧ s.Quiet t
  error {s t : State} {d : Diagnostic} : p s = .error d t →
    ∃ depth, s.Fails depth d t ∧ Faults depth d s (q s)

namespace Mirrors

variable {α β : Type}

theorem of_quiet {p : Parser α} [Keeps State.Extends p]
    (h : ∀ s, ∃ a t, p s = .ok a t ∧ s.Quiet t) : Mirrors p p where
  keeps := inferInstance
  ok {s t a} hr := by
    obtain ⟨b, u, hp, hq⟩ := h s
    cases hp.symm.trans hr
    exact ⟨hr, hq⟩
  error {s t d} hr := by
    obtain ⟨b, u, hp, -⟩ := h s
    cases hp.symm.trans hr

instance (a : α) : Mirrors (pure a) (pure a) := of_quiet fun s => ⟨a, s, rfl, .refl s⟩

instance : Mirrors current current := of_quiet fun s => ⟨s.current, s, rfl, .refl s⟩

instance : Mirrors peek peek := of_quiet fun s => ⟨s.peek, s, rfl, .refl s⟩

instance : Mirrors advance advance := of_quiet fun s => ⟨(), s.advance, rfl, .advance s⟩

instance : Mirrors skipSemicolon skipSemicolon :=
  of_quiet fun s => ⟨(), s.skipSemicolon, rfl, .skipSemicolon s⟩

instance (kind : Kind) (power floor : Power) :
    Mirrors (note (.applied kind power floor)) (note (.applied kind power floor)) :=
  of_quiet fun s => ⟨(), s.note (.applied kind power floor), rfl, .event rfl rfl rfl⟩

instance (cause : Cause) (token : Token) :
    Mirrors (refuse cause token : Parser α) (refuse cause token) where
  keeps := inferInstance
  ok hr := by cases hr
  error {s t d} hr := by
    have hfails : s.Fails s.depth ⟨cause, token.position⟩
        (s.note (.refused s.depth ⟨cause, token.position⟩)) :=
      ⟨rfl, s, .refl s, List.prefix_rfl⟩
    cases hr
    exact ⟨_, hfails, .inr ⟨_, rfl, hfails⟩⟩

instance {c : Prop} [Decidable c] {p q p' q' : Parser α} [Mirrors p q] [Mirrors p' q'] :
    Mirrors (if c then p else p') (if c then q else q') := by
  split <;> infer_instance

instance bind {p q : Parser α} {f g : α → Parser β} [hp : Mirrors p q]
    [hf : ∀ a, Mirrors (f a) (g a)] : Mirrors (p >>= f) (q >>= g) where
  keeps := @Keeps.bind _ _ _ _ _ _ _ hp.keeps fun a => (hf a).keeps
  ok {s u b} hr := by
    cases hread : p s with
    | error d t => cases (bind_of_error hread).symm.trans hr
    | ok a t =>
      obtain ⟨hq, hst⟩ := hp.ok hread
      obtain ⟨hg, htu⟩ := (hf a).ok ((bind_of_ok hread).symm.trans hr)
      exact ⟨(bind_of_ok hq).trans hg, hst.trans htu⟩
  error {s u d} hr := by
    cases hread : p s with
    | error e t =>
      cases (bind_of_error hread).symm.trans hr
      obtain ⟨depth, hfails, hfault⟩ := hp.error hread
      refine ⟨depth, hfails, ?_⟩
      cases hq : q s with
      | error e v =>
        rw [hq] at hfault
        rw [bind_of_error hq]
        rcases hfault with hblame | ⟨w, hw, hfails⟩
        · exact .inl hblame
        · cases hw
          exact .inr ⟨v, rfl, hfails⟩
      | ok a v =>
        rw [hq] at hfault
        rw [bind_of_ok hq]
        rcases hfault with hblame | ⟨_, hnever, _⟩
        · exact .inl (hblame.extends ((hf a).keeps.final v))
        · cases hnever
    | ok a t =>
      obtain ⟨hq, hst⟩ := hp.ok hread
      obtain ⟨depth, hfails, hfault⟩ := (hf a).error ((bind_of_ok hread).symm.trans hr)
      rw [bind_of_ok hq]
      exact ⟨depth, hfails.of_quiet hst, hfault.of_quiet hst⟩

instance (priority := high) bind_unit {p q : Parser Unit} {f g : Unit → Parser β} [Mirrors p q]
    [h : Mirrors (f ()) (g ())] : Mirrors (p >>= f) (q >>= g) := by
  have (u : Unit) : Mirrors (f u) (g u) := h
  exact bind

instance (kind : Kind) : Mirrors (expect kind) (expect kind) := by
  unfold expect
  infer_instance

instance {token : Token} {p q : Parser α} [h : Mirrors p q] :
    Mirrors (noting (.abandoned token) p) (noting (.abandoned token) q) where
  keeps := by
    have := h.keeps
    infer_instance
  ok {s t a} hr := by
    unfold noting at hr
    split at hr
    next b u hp =>
      cases hr
      obtain ⟨hq, hquiet⟩ := h.ok hp
      exact ⟨by rw [noting, hq], hquiet⟩
    next => cases hr
  error {s t d} hr := by
    have hnote (u : State) : u.Quiet (u.note (.abandoned token)) := .event rfl rfl rfl
    unfold noting at hr
    split at hr
    next => cases hr
    next e u hp =>
      cases hr
      obtain ⟨depth, hfails, hfault⟩ := h.error hp
      refine ⟨depth, hfails.quiet (hnote u), ?_⟩
      unfold noting
      rcases hfault with hblame | ⟨v, hv, hfails⟩
      · refine .inl ?_
        split
        next hq => rwa [hq] at hblame
        next e v hq =>
          rw [hq] at hblame
          exact hblame.extends (Frame.note v rfl)
      · rw [hv]
        exact .inr ⟨_, rfl, hfails.quiet (hnote v)⟩

instance {p q : Parser α} [h : Mirrors p q] : Mirrors (nest p) (nest q) where
  keeps := by
    have := h.keeps
    infer_instance
  ok {s t a} hr := by
    unfold nest at hr
    split at hr
    next b u hp =>
      cases hr
      obtain ⟨hq, hquiet⟩ := h.ok hp
      exact ⟨by rw [nest, hq], ((State.Quiet.enter s).trans hquiet).trans (.leave u)⟩
    next => cases hr
  error {s t d} hr := by
    unfold nest at hr
    split at hr
    next => cases hr
    next e u hp =>
      cases hr
      obtain ⟨depth, hfails, hfault⟩ := h.error hp
      refine ⟨depth, (hfails.of_quiet (.enter s)).quiet (.leave u), ?_⟩
      unfold nest
      rcases hfault with hblame | ⟨v, hv, hfails⟩
      · refine .inl ?_
        split
        next v hq =>
          rw [hq] at hblame
          exact (hblame.of_quiet (.enter s)).extends (.leave v)
        next e v hq =>
          rw [hq] at hblame
          exact (hblame.of_quiet (.enter s)).extends (.leave v)
      · rw [hv]
        exact .inr ⟨_, rfl, (hfails.of_quiet (.enter s)).quiet (.leave v)⟩

theorem repeatWhile {goesOn : State → Bool} {round round' : α → Parser α}
    [h : ∀ a, Mirrors (round a) (round' a)] (a : α) :
    Mirrors (Reader.repeatWhile goesOn round a) (Reader.repeatWhile goesOn round' a) where
  keeps := @Keeps.repeatWhile _ _ _ _ _ _ (fun b => (h b).keeps) a
  ok {s t b} hr := by
    induction a, s using repeatWhile_induction goesOn round with
    | next a s c u hgo hc hlt ih =>
      obtain ⟨hc', hsu⟩ := (h a).ok hc
      rw [repeatWhile_of_ok hgo hc hlt] at hr
      rw [repeatWhile_of_ok hgo hc' hlt]
      obtain ⟨hrest, hut⟩ := ih hr
      exact ⟨hrest, hsu.trans hut⟩
    | idle a s c u hgo hc hidle =>
      obtain ⟨hc', hsu⟩ := (h a).ok hc
      cases (repeatWhile_of_idle hgo hc hidle).symm.trans hr
      exact ⟨repeatWhile_of_idle hgo hc' hidle, hsu⟩
    | fail a s e u hgo hc => cases (repeatWhile_of_error hgo hc).symm.trans hr
    | stop a s hgo =>
      cases (repeatWhile_of_stop hgo).symm.trans hr
      exact ⟨repeatWhile_of_stop hgo, .refl _⟩
  error {s t d} hr := by
    induction a, s using repeatWhile_induction goesOn round with
    | next a s c u hgo hc hlt ih =>
      obtain ⟨hc', hsu⟩ := (h a).ok hc
      rw [repeatWhile_of_ok hgo hc hlt] at hr
      rw [repeatWhile_of_ok hgo hc' hlt]
      obtain ⟨depth, hfails, hfault⟩ := ih hr
      exact ⟨depth, hfails.of_quiet hsu, hfault.of_quiet hsu⟩
    | idle a s c u hgo hc hidle => cases (repeatWhile_of_idle hgo hc hidle).symm.trans hr
    | stop a s hgo => cases (repeatWhile_of_stop hgo).symm.trans hr
    | fail a s e u hgo hc =>
      cases (repeatWhile_of_error hgo hc).symm.trans hr
      obtain ⟨depth, hfails, hfault⟩ := (h a).error hc
      refine ⟨depth, hfails, ?_⟩
      rcases hfault with hblame | ⟨v, hv, hfails⟩
      · refine .inl ?_
        cases hq : round' a s with
        | error e v =>
          rw [hq] at hblame
          rwa [repeatWhile_of_error hgo hq]
        | ok c v =>
          rw [hq] at hblame
          by_cases hlt : v.remaining < s.remaining
          · have hkeeps : Keeps State.Extends (Reader.repeatWhile goesOn round' c) :=
              @Keeps.repeatWhile _ _ _ _ _ _ (fun b => (h b).keeps) c
            rw [repeatWhile_of_ok hgo hq hlt]
            exact hblame.extends (hkeeps.final v)
          · rwa [repeatWhile_of_idle hgo hq hlt]
      · exact .inr ⟨v, repeatWhile_of_error hgo hv, hfails⟩

instance {goesOn : State → Bool} {item item' : Parser α} [Mirrors item item'] :
    Mirrors (collect goesOn item) (collect goesOn item') := by
  have (items : Array α) : Mirrors (gather item items) (gather item' items) := by
    unfold gather
    infer_instance
  exact @bind _ _ _ _ _ _ (repeatWhile #[]) inferInstance

end Mirrors

namespace Layer

/-- Both parsers of the first layer do what those of the second do up to the first failure. -/
class Mirrors (below below' : Layer) : Prop where
  expr (floor : Power) : Scriptlet.Mirrors (below.expr floor) (below'.expr floor)
  block : Scriptlet.Mirrors below.block below'.block

attribute [instance] Mirrors.expr Mirrors.block

instance : Scriptlet.Mirrors readName readName := by
  unfold readName
  infer_instance

instance : Scriptlet.Mirrors nextParameter nextParameter := by
  unfold nextParameter
  infer_instance

instance : Scriptlet.Mirrors parameters parameters := by
  unfold parameters
  infer_instance

variable {below below' : Layer} [below.Mirrors below']

instance : Scriptlet.Mirrors below.nextElement below'.nextElement := by
  unfold nextElement
  infer_instance

instance (stop : Kind) : Scriptlet.Mirrors (below.list stop) (below'.list stop) := by
  unfold list
  infer_instance

instance : Scriptlet.Mirrors below.pair below'.pair := by
  unfold pair
  infer_instance

instance : Scriptlet.Mirrors below.pairs below'.pairs := by
  unfold pairs
  infer_instance

instance (form : Opening) : Scriptlet.Mirrors (below.opening form) (below'.opening form) := by
  cases form with
  | name => unfold opening name; infer_instance
  | integer =>
    unfold opening integer
    refine @Scriptlet.Mirrors.bind _ _ _ _ _ _ _ fun token => ?_
    split <;> infer_instance
  | text => unfold opening text; infer_instance
  | boolean => unfold opening boolean; infer_instance
  | unary => unfold opening unary; infer_instance
  | group => unfold opening group; infer_instance
  | array => unfold opening array; infer_instance
  | hash => unfold opening hash; infer_instance
  | conditional => unfold opening conditional; infer_instance
  | function => unfold opening function; infer_instance

instance (form : Joining) (left : Expr) (power : Power) :
    Scriptlet.Mirrors (below.joining form left power) (below'.joining form left power) := by
  cases form with
  | binary => unfold joining binary; infer_instance
  | call => unfold joining call; infer_instance
  | index => unfold joining index; infer_instance

instance (floor : Power) (left : Expr) :
    Scriptlet.Mirrors (below.extend floor left) (below'.extend floor left) := by
  unfold extend
  refine @Scriptlet.Mirrors.bind _ _ _ _ _ _ _ fun next => ?_
  split <;> infer_instance

instance (floor : Power) : Scriptlet.Mirrors (below.climb floor) (below'.climb floor) := by
  unfold climb
  refine @Scriptlet.Mirrors.bind _ _ _ _ _ _ _ fun token => ?_
  split
  · infer_instance
  · exact @Scriptlet.Mirrors.bind _ _ _ _ _ _ _ fun first => .repeatWhile first

instance : Scriptlet.Mirrors below.clause below'.clause := by
  unfold clause
  refine @Scriptlet.Mirrors.bind _ _ _ _ _ _ _ fun token => ?_
  split <;> infer_instance

instance : Scriptlet.Mirrors below.strictStmt below'.strictStmt := by
  unfold strictStmt
  infer_instance

variable (below') in
theorem stmtOrSkip_of_strict {ε : Type} {s t : State} {st : Stmt}
    (h : below.strictStmt s = .ok st t) :
    (below'.stmtOrSkip : Reader ε _) s = .ok (some st) t ∧ s.Quiet t := by
  cases hc : below.clause s with
  | error d u => cases (strictStmt_of_clause_error hc).symm.trans h
  | ok st' u =>
    cases (strictStmt_of_clause hc).symm.trans h
    obtain ⟨hc', hsu⟩ := Scriptlet.Mirrors.ok (q := below'.clause) hc
    have hst := below'.stmtOrSkip_eq (ε := ε) s
    rw [outcome_of_clause hc'] at hst
    exact ⟨hst, (hsu.trans (.skipSemicolon u)).trans (.advance _)⟩

variable (below') in
theorem collect_of_strict {ε : Type} {goesOn : State → Bool} {s t : State} {ss : List Stmt}
    (h : collect goesOn below.strictStmt s = .ok ss t) :
    (collect goesOn below'.stmtOrSkip : Reader ε _) s = .ok (ss.map some) t ∧ s.Quiet t := by
  induction s using collect_induction goesOn below.strictStmt generalizing ss with
  | stop s hgo =>
    cases (collect_of_stop hgo).symm.trans h
    exact ⟨collect_of_stop hgo, .refl _⟩
  | fail s d u hgo hst => cases (collect_of_error hgo hst).symm.trans h
  | idle s st u hgo hst hidle =>
    obtain ⟨hst', hquiet⟩ := stmtOrSkip_of_strict (ε := ε) below' hst
    cases (Settles.collect_of_idle hgo hst hidle).symm.trans h
    exact ⟨Settles.collect_of_idle hgo hst' hidle, hquiet⟩
  | next s st u hgo hst hlt ih =>
    obtain ⟨hst', hquiet⟩ := stmtOrSkip_of_strict (ε := ε) below' hst
    rw [collect_of_ok hgo hst hlt] at h
    rw [collect_of_ok hgo hst' hlt]
    cases hr : collect goesOn below.strictStmt u with
    | error d v => rw [hr] at h; cases h
    | ok ss' v =>
      rw [hr] at h
      cases h
      obtain ⟨hrest, hrestq⟩ := ih hr
      rw [hrest]
      exact ⟨rfl, hquiet.trans hrestq⟩

variable (below') in
/-- Whether the first failure was recorded within a statement or makes the statement fail, it is
recorded behind it. -/
theorem blames_outcome {d : Diagnostic} {s t : State} (h : below.strictStmt s = .error d t) :
    ∃ depth, s.Fails depth d t ∧
      s.Blames depth d (below'.outcome s).2.skipSemicolon.advance := by
  have hend (t : State) : t.Extends t.skipSemicolon.advance :=
    Frame.trans (Scriptlet.Keeps.skipSemicolon_state t) (Frame.advance _)
  cases hc : below.clause s with
  | ok st u => cases (strictStmt_of_clause hc).symm.trans h
  | error e u =>
    cases (strictStmt_of_clause_error hc).symm.trans h
    obtain ⟨depth, hfails, hfault⟩ := Scriptlet.Mirrors.error (q := below'.clause) hc
    refine ⟨depth, hfails, ?_⟩
    cases hc' : below'.clause s with
    | ok st v =>
      rw [hc'] at hfault
      rw [outcome_of_clause hc']
      rcases hfault with hblame | ⟨w, hw, -⟩
      · exact hblame.extends (hend v)
      · cases hw
    | error e' v =>
      rw [hc'] at hfault
      rw [outcome_of_clause_error hc']
      rcases hfault with hblame | ⟨w, hw, hfails⟩
      · exact hblame.extends (Frame.trans (Frame.record v e') (hend _))
      · cases hw
        exact hfails.record.extends (hend _)

variable [below'.Keeps State.Extends]

variable (below') in
/-- The first statement that fails is the first to be recorded. -/
theorem blames_collect_of_strict {ε : Type} {goesOn : State → Bool} {s t : State} {d : Diagnostic}
    (h : collect goesOn below.strictStmt s = .error d t) :
    ∃ depth, s.Fails depth d t ∧
      s.Blames depth d (final ((collect goesOn below'.stmtOrSkip : Reader ε _) s)) := by
  induction s using collect_induction goesOn below.strictStmt with
  | stop s hgo => cases (collect_of_stop hgo).symm.trans h
  | idle s st u hgo hst hidle => cases (Settles.collect_of_idle hgo hst hidle).symm.trans h
  | next s st u hgo hst hlt ih =>
    obtain ⟨hst', hquiet⟩ := stmtOrSkip_of_strict (ε := ε) below' hst
    rw [collect_of_ok hgo hst hlt] at h
    rw [collect_of_ok hgo hst' hlt]
    cases hr : collect goesOn below.strictStmt u with
    | ok ss' v => rw [hr] at h; cases h
    | error e v =>
      rw [hr] at h
      cases h
      obtain ⟨depth, hfails, hblame⟩ := ih hr
      refine ⟨depth, hfails.of_quiet hquiet, ?_⟩
      have hblame := hblame.of_quiet hquiet
      cases hr' : (collect goesOn below'.stmtOrSkip : Reader ε _) u <;> rwa [hr'] at hblame
  | fail s e u hgo hst =>
    cases (collect_of_error hgo hst).symm.trans h
    obtain ⟨depth, hfails, hblame⟩ := blames_outcome below' hst
    refine ⟨depth, hfails, ?_⟩
    have hst := below'.stmtOrSkip_eq (ε := ε) s
    generalize (below'.outcome s).2.skipSemicolon.advance = v at hst hblame
    by_cases hlt : v.remaining < s.remaining
    · rw [collect_of_ok hgo hst hlt]
      have hkeeps : v.Extends (final ((collect goesOn below'.stmtOrSkip : Reader ε _) v)) :=
        Scriptlet.Keeps.final v
      have hblame := hblame.extends hkeeps
      cases hr' : (collect goesOn below'.stmtOrSkip : Reader ε _) v <;> rwa [hr'] at hblame
    · rwa [Settles.collect_of_idle hgo hst hlt]

instance (goesOn : State → Bool) :
    Scriptlet.Mirrors (below.strictStmts goesOn) (below'.stmts goesOn) where
  keeps := inferInstance
  ok h := by
    obtain ⟨hread, hquiet⟩ := collect_of_strict (ε := Diagnostic) below' h
    refine ⟨(bind_of_ok hread).trans ?_, hquiet⟩
    rw [List.filterMap_map, Function.id_comp, List.filterMap_some]
    rfl
  error {s t d} h := by
    obtain ⟨depth, hfails, hblame⟩ := blames_collect_of_strict (ε := Diagnostic) below' h
    refine ⟨depth, hfails, .inl ?_⟩
    rw [stmts]
    cases hr : (collect goesOn below'.stmtOrSkip : Parser _) s with
    | ok read u =>
      rw [hr] at hblame
      rwa [bind_of_ok hr]
    | error e u =>
      rw [hr] at hblame
      rwa [bind_of_error hr]

instance : Scriptlet.Mirrors below.strictBraces below'.braces := by
  rw [braces_eq]
  unfold strictBraces inBraces
  infer_instance

instance (n : Nat) : (strictOfRoom n).Mirrors (ofRoom n) := by
  induction n with
  | zero => constructor <;> unfold strictOfRoom ofRoom deepest <;> infer_instance
  | succ n ih =>
    constructor <;> unfold strictOfRoom ofRoom strictAbove above <;> infer_instance

end Layer

end Scriptlet
