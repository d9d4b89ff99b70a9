import Scriptlet.Proofs.Lockstep
import Scriptlet.Tree.Alike

/-! Whole parsers in lockstep, with recovery and without: runs of a layer from states that agree are
in lockstep if those of the layer below are. -/
namespace Scriptlet

open Reader Scriptlet.Parser Layer

abbrev Expr.Like (e e' : Expr) : Prop := e.alike e' = true

abbrev Block.Like (b b' : Block) : Prop := b.alike b' = true

abbrev Stmt.Like (st st' : Stmt) : Prop := st.alike st' = true

abbrev Name.Like (n n' : Name) : Prop := n.alike n' = true

theorem Expr.allAlike_of_forall₂ {es es' : List Expr} (h : List.Forall₂ Expr.Like es es') :
    Expr.allAlike es es' = true := by
  induction h with
  | nil => rw [Expr.allAlike]
  | cons he _ ih => rw [Expr.allAlike, he, ih, Bool.and_self]

theorem Expr.pairsAlike_of_forall₂ {ps ps' : List (Expr × Expr)}
    (h : List.Forall₂ (fun p p' => p.1.Like p'.1 ∧ p.2.Like p'.2) ps ps') :
    Expr.pairsAlike ps ps' = true := by
  induction h with
  | nil => rw [Expr.pairsAlike]
  | @cons p p' _ _ hp _ ih =>
    obtain ⟨key, value⟩ := p
    obtain ⟨key', value'⟩ := p'
    rw [Expr.pairsAlike, hp.1, hp.2, ih, Bool.and_self, Bool.and_self]

theorem Name.allAlike_of_forall₂ {ns ns' : List Name} (h : List.Forall₂ Name.Like ns ns') :
    Name.allAlike ns ns' = true := by
  induction h with
  | nil => rfl
  | cons hn _ ih => exact Bool.and_eq_true_iff.mpr ⟨hn, ih⟩

theorem Stmt.allAlike_of_forall₂ {ss ss' : List Stmt} (h : List.Forall₂ Stmt.Like ss ss') :
    Stmt.allAlike ss ss' = true := by
  induction h with
  | nil => rw [Stmt.allAlike]
  | cons hs _ ih => rw [Stmt.allAlike, hs, ih, Bool.and_self]

theorem Comparison.alike_name {c : Comparison} {t t' : Token} (h : c.twins t t') :
    Name.Like ⟨t, t.text⟩ ⟨t', t'.text⟩ := by
  rw [Name.Like, Name.alike, alike_of_twins h, text_eq h, beq_self_eq_true, Bool.and_self]

/-- Runs of the layer from states that agree are in lockstep. -/
structure Comparison.Steps (c : Comparison) (below : Layer) : Prop where
  expr {floor : Power} {s s' : State} : c.Agree s s' →
    c.Match Expr.Like (below.expr floor) s (below.expr floor) s'
  block {s s' : State} : c.Agree s s' → c.Match Block.Like below.block s below.block s'

section Behind

variable {below : Layer} [below.Keeps State.Shrinks]

instance : Behind below.nextElement := by
  unfold nextElement
  infer_instance

instance : Behind below.pair := by
  unfold pair
  infer_instance

instance : Behind nextParameter := by
  unfold nextParameter
  infer_instance

instance (floor : Power) (left : Expr) : Behind (below.extend floor left) := by
  unfold extend
  refine @Behind.peek _ _ fun next => ?_
  split <;> infer_instance

end Behind

namespace Comparison.Steps

variable {c : Comparison} {below : Layer} {s s' : State} [below.Keeps State.Shrinks]

theorem remaining_lt_of_comma {α : Type} {p : Parser α} [Keeps State.Shrinks p] {t : State} {a : α}
    (hs : s.Sealed) (hcomma : s.peek.kind = .comma)
    (hr : (Reader.advance >>= fun _ => p) s = .ok a t) : t.remaining < s.remaining := by
  have hle : t.remaining ≤ s.advance.remaining := Keeps.of_ok (R := State.Shrinks) hr
  have hafter := congrArg List.length (hs.after_eq (by rw [hcomma]; decide))
  rw [State.remaining_advance] at hle
  rw [State.after, List.length_tail, List.length_cons, ← State.ahead, ← s.remaining_eq] at hafter
  omega

theorem more (hb : c.Steps below) (h : c.Agree s s') :
    c.Match (List.Forall₂ Expr.Like) (collect (fun s => s.peek.kind = .comma) below.nextElement) s
      (collect (fun s => s.peek.kind = .comma) below.nextElement) s' := by
  apply Match.collect
  · intro s s' hk
    rw [hk]
  · intro e s t hs hgo hr
    exact remaining_lt_of_comma hs (of_decide_eq_true hgo) hr
  · intro s s' h
    exact .advance (.advance (hb.expr h.advance.advance))
  · exact h

theorem list (hb : c.Steps below) (h : c.Agree s s') (stop : Kind) :
    c.Match (List.Forall₂ Expr.Like) (below.list stop) s (below.list stop) s' := by
  refine .peek h fun next next' hnext => .advance ?_
  rw [← kind_eq hnext]
  split
  · exact .pure .nil h.advance
  · refine .bind (hb.expr h.advance) fun e e' t t' he ht => ?_
    refine .bind (hb.more ht) fun es es' u u' hes hu => ?_
    exact .expect hu fun hu => .pure (.cons he hes) hu

theorem pair (hb : c.Steps below) (h : c.Agree s s') :
    c.Match (fun p p' => p.1.Like p'.1 ∧ p.2.Like p'.2) below.pair s below.pair s' := by
  refine .advance (.bind (hb.expr h.advance) fun key key' t t' hkey ht => ?_)
  refine .expect ht fun ht => .advance ?_
  refine .bind (hb.expr ht.advance) fun value value' u u' hvalue hu => ?_
  refine .peek hu fun next next' hnext => ?_
  rw [← kind_eq hnext]
  split
  · exact .expect hu fun hu => .pure ⟨hkey, hvalue⟩ hu
  · exact .pure ⟨hkey, hvalue⟩ hu

theorem pairs [below.Ends] (hb : c.Steps below) (h : c.Agree s s') :
    c.Match (List.Forall₂ fun p p' => p.1.Like p'.1 ∧ p.2.Like p'.2) below.pairs s
      below.pairs s' := by
  have hread : c.Match (List.Forall₂ fun p p' => p.1.Like p'.1 ∧ p.2.Like p'.2)
      (collect (fun s => s.peek.kind ≠ .closeCurly) below.pair) s
      (collect (fun s => s.peek.kind ≠ .closeCurly) below.pair) s' := by
    apply Match.collect
    · intro s s' hk
      rw [hk]
    · intro p s t hs _ hr
      exact remaining_lt_of_pair hs hr
    · intro s s' h
      exact hb.pair h
    · exact h
  exact .bind hread fun ps ps' t t' hps ht => .expect ht fun ht => .pure hps ht

omit [below.Keeps State.Shrinks] in
theorem parameters (h : c.Agree s s') :
    c.Match (List.Forall₂ Name.Like) Layer.parameters s Layer.parameters s' := by
  have hmore {t t' : State} (ht : c.Agree t t') :
      c.Match (List.Forall₂ Name.Like) (collect (fun s => s.peek.kind = .comma) nextParameter) t
        (collect (fun s => s.peek.kind = .comma) nextParameter) t' := by
    apply Match.collect
    · intro s s' hk
      rw [hk]
    · intro name s t hs hgo hr
      exact remaining_lt_of_comma hs (of_decide_eq_true hgo) hr
    · intro s s' h
      refine .advance (.expect h.advance fun h => .current h fun t t' ht => ?_)
      exact .pure (alike_name ht) h
    · exact ht
  refine .peek h fun next next' hnext => ?_
  rw [← kind_eq hnext]
  split
  · exact .advance (.pure .nil h.advance)
  · refine .expect h fun h => .readName h fun t t' ht => ?_
    refine .bind (hmore h) fun names names' u u' hnames hu => ?_
    exact .expect hu fun hu => .pure (.cons (alike_name ht) hnames) hu

theorem conditional (hb : c.Steps below) (h : c.Agree s s') :
    c.Match Expr.Like below.conditional s below.conditional s' := by
  refine .current h fun w w' hw => .expect h fun h => .advance ?_
  refine .bind (hb.expr h.advance) fun e e' t t' he ht => ?_
  refine .expect ht fun ht => .expect ht fun ht => ?_
  refine .bind (hb.block ht) fun b b' u u' hblock hu => .peek hu fun next next' hnext => ?_
  rw [← kind_eq hnext]
  split
  · refine .advance (.expect hu.advance fun hu => ?_)
    refine .bind (hb.block hu) fun a a' v v' ha hv => .pure ?_ hv
    simp [Expr.Like, Expr.alike, alike_of_twins hw, he, hblock, ha]
  · refine .pure ?_ hu
    simp [Expr.Like, Expr.alike, alike_of_twins hw, he, hblock]

theorem function (hb : c.Steps below) (h : c.Agree s s') :
    c.Match Expr.Like below.function s below.function s' := by
  refine .current h fun w w' hw => .expect h fun h => ?_
  refine .bind (parameters h) fun names names' t t' hnames ht => .expect ht fun ht => ?_
  refine .bind (hb.block ht) fun b b' u u' hblock hu => .pure ?_ hu
  simp [Expr.Like, Expr.alike, alike_of_twins hw, Name.allAlike_of_forall₂ hnames, hblock]

theorem opening [below.Ends] (hb : c.Steps below) (h : c.Agree s s') (form : Opening) :
    c.Match Expr.Like (below.opening form) s (below.opening form) s' := by
  cases form with
  | name =>
    refine .current h fun t t' ht => .pure ?_ h
    simp [Expr.Like, Expr.alike, alike_of_twins ht, text_eq ht]
  | integer =>
    refine @Match.current _ _ _ _ _ _ _ (fun token => ?_) h fun t t' ht => ?_
    · split <;> infer_instance
    · rw [← text_eq ht]
      split
      · refine .pure ?_ h
        simp [Expr.Like, Expr.alike, alike_of_twins ht]
      · exact .refuse rfl ht h
  | text =>
    refine .current h fun t t' ht => .pure ?_ h
    simp [Expr.Like, Expr.alike, alike_of_twins ht, text_eq ht]
  | boolean =>
    refine .current h fun t t' ht => .pure ?_ h
    simp [Expr.Like, Expr.alike, alike_of_twins ht, kind_eq ht]
  | unary =>
    refine .current h fun t t' ht => .advance ?_
    refine .bind (hb.expr h.advance) fun e e' u u' he hu => .pure ?_ hu
    simp [Expr.Like, Expr.alike, alike_of_twins ht, text_eq ht, he]
  | group =>
    refine .advance (.bind (hb.expr h.advance) fun e e' t t' he ht => ?_)
    exact .expect ht fun ht => .pure he ht
  | array =>
    refine .current h fun t t' ht => ?_
    refine .bind (hb.list h .closeBracket) fun es es' u u' hes hu => .pure ?_ hu
    simp [Expr.Like, Expr.alike, alike_of_twins ht, Expr.allAlike_of_forall₂ hes]
  | hash =>
    refine .current h fun t t' ht => ?_
    refine .bind (.noting (hb.pairs h)) fun ps ps' u u' hps hu => .pure ?_ hu
    simp [Expr.Like, Expr.alike, alike_of_twins ht, Expr.pairsAlike_of_forall₂ hps]
  | conditional => exact hb.conditional h
  | function => exact hb.function h

theorem joining (hb : c.Steps below) (h : c.Agree s s') (form : Joining) {left left' : Expr}
    (hleft : left.Like left') (power : Power) :
    c.Match Expr.Like (below.joining form left power) s (below.joining form left' power) s' := by
  cases form with
  | binary =>
    refine .current h fun t t' ht => .advance ?_
    refine .bind (hb.expr h.advance) fun e e' u u' he hu => .pure ?_ hu
    simp [Expr.Like, Expr.alike, alike_of_twins ht, text_eq ht, hleft, he]
  | call =>
    refine .current h fun t t' ht => ?_
    refine .bind (hb.list h .closeParen) fun es es' u u' hes hu => .pure ?_ hu
    simp [Expr.Like, Expr.alike, alike_of_twins ht, hleft, Expr.allAlike_of_forall₂ hes]
  | index =>
    refine .current h fun t t' ht => .advance ?_
    refine .bind (hb.expr h.advance) fun e e' u u' he hu => .expect hu fun hu => .pure ?_ hu
    simp [Expr.Like, Expr.alike, alike_of_twins ht, hleft, he]

theorem extend (hb : c.Steps below) (h : c.Agree s s') {left left' : Expr}
    (hleft : left.Like left') (floor : Power) :
    c.Match Expr.Like (below.extend floor left) s (below.extend floor left') s' := by
  refine @Match.peek _ _ _ _ _ _ _ (fun next => ?_) h fun next next' hnext => ?_
  · split <;> infer_instance
  · rw [← kind_eq hnext]
    split
    · exact .pure hleft h
    · exact .note (.advance (hb.joining (h.note _ _).advance _ hleft _))

omit [below.Keeps State.Shrinks] in
theorem extend_of_joining {form : Joining} {power : Power}
    (h : s.peek.kind.joining? = some (form, power)) (floor : Power) (left : Expr) :
    below.extend floor left s =
      below.joining form left power (s.note (.applied s.peek.kind power floor)).advance := by
  have hpeek {f : Token → Parser Expr} : (Reader.peek >>= f) s = f s.peek s := rfl
  rw [Layer.extend, hpeek, h]
  rfl

theorem remaining_lt_of_extend {floor : Power} {left e : Expr} {t : State} (hs : s.Sealed)
    (hgo : binds floor s = true) (hr : below.extend floor left s = .ok e t) :
    t.remaining < s.remaining := by
  simp only [binds, Bool.and_eq_true, decide_eq_true_eq] at hgo
  cases hj : s.peek.kind.joining? with
  | none =>
    have hp : s.peek.kind.power = .lowest := by rw [Kind.power, hj]; rfl
    rw [hp] at hgo
    exact absurd hgo.2 (Nat.not_lt_zero _)
  | some joins =>
    obtain ⟨form, power⟩ := joins
    rw [extend_of_joining hj] at hr
    have hle : t.remaining ≤ (s.note (.applied s.peek.kind power floor)).advance.remaining :=
      Keeps.of_ok (R := State.Shrinks) hr
    have hne : s.peek.kind ≠ .endOfInput := by
      intro hk
      rw [hk] at hj
      cases hj
    have hafter := congrArg List.length (hs.after_eq hne)
    rw [State.remaining_advance] at hle
    rw [State.after, List.length_tail, List.length_cons, ← State.ahead, ← s.remaining_eq] at hafter
    change t.remaining ≤ s.remaining - 1 at hle
    omega

theorem climb [below.Ends] (hb : c.Steps below) (h : c.Agree s s') (floor : Power) :
    c.Match Expr.Like (below.climb floor) s (below.climb floor) s' := by
  have hloop (first : Expr) : Keeps State.Shrinks
      (repeatWhile (binds floor) (below.extend floor) first) := .repeatWhile first
  have hbehind (first : Expr) : Behind
      (repeatWhile (binds floor) (below.extend floor) first) := .repeatWhile first
  refine @Match.current _ _ _ _ _ _ _ (fun token => ?_) h fun t t' ht => ?_
  · split
    · infer_instance
    · exact @Keeps.bind _ _ _ _ _ _ _ _ hloop
  rw [← kind_eq ht, ← text_eq ht]
  split
  · exact .refuse rfl ht h
  · refine @Match.bind _ _ _ _ _ _ _ _ _ _ _ hbehind (hb.opening h _)
      fun first first' u u' hfirst hu => ?_
    apply Match.repeatWhile
    · intro s s' hk
      unfold binds
      rw [hk]
    · intro left e s t hs hgo hr
      exact remaining_lt_of_extend hs hgo hr
    · intro left left' s s' hleft h
      exact hb.extend h hleft floor
    · exact hfirst
    · exact hu

theorem clause (hb : c.Steps below) (h : c.Agree s s') :
    c.Match Stmt.Like below.clause s below.clause s' := by
  refine @Match.current _ _ _ _ _ _ _ (fun token => ?_) h fun w w' hw => ?_
  · split <;> infer_instance
  rw [← kind_eq hw]
  split
  · refine .expect h fun h => .readName h fun t t' ht => .expect h fun h => .advance ?_
    refine .bind (hb.expr h.advance) fun e e' u u' he hu => .pure ?_ hu
    have hname : Name.Like ⟨t, t.text⟩ ⟨t', t'.text⟩ := alike_name ht
    simp [Stmt.Like, Stmt.alike, alike_of_twins hw, hname, he]
  · refine .advance (.bind (hb.expr h.advance) fun e e' u u' he hu => .pure ?_ hu)
    simp [Stmt.Like, Stmt.alike, alike_of_twins hw, he]
  · refine .bind (hb.expr h) fun e e' u u' he hu => .pure ?_ hu
    simp [Stmt.Like, Stmt.alike, he]

omit [below.Keeps State.Shrinks] in
theorem reach_clause_le (below : Layer) (s : State) :
    reach (below.clause s) ≤ (below.outcome s).2.remaining := by
  cases hr : below.clause s with
  | ok st t =>
    rw [outcome_of_clause hr]
    exact Nat.sub_le _ _
  | error d t =>
    rw [outcome_of_clause_error hr]
    show (if d.cause.standsOn then t.remaining else t.remaining - 1) ≤ t.remaining
    split <;> omega

omit [below.Keeps State.Shrinks] in
theorem le_reach_clause (below : Layer) (s : State) :
    (below.outcome s).2.remaining - 1 ≤ reach (below.clause s) := by
  cases hr : below.clause s with
  | ok st t =>
    rw [outcome_of_clause hr]
    exact Nat.le_refl _
  | error d t =>
    rw [outcome_of_clause_error hr]
    show t.remaining - 1 ≤ if d.cause.standsOn then t.remaining else t.remaining - 1
    split <;> omega

/-- Statements in lockstep come to the same. -/
theorem outcome (hb : c.Steps below) (h : c.Agree s s')
    (hnear : c.near (reach (below.clause s))) :
    List.Forall₂ Stmt.Like (below.outcome s).1.toList (below.outcome s').1.toList ∧
      c.Agree (below.outcome s).2 (below.outcome s').2 := by
  have hlink := hb.clause h hnear
  cases hr : below.clause s with
  | ok st t =>
    rw [hr] at hlink
    cases hr' : below.clause s' with
    | error d' t' => rw [hr'] at hlink; exact hlink.elim
    | ok st' t' =>
      rw [hr'] at hlink
      rw [outcome_of_clause hr, outcome_of_clause hr']
      exact ⟨.cons hlink.1 .nil, hlink.2⟩
  | error d t =>
    rw [hr] at hlink
    cases hr' : below.clause s' with
    | ok st' t' => rw [hr'] at hlink; exact hlink.elim
    | error d' t' =>
      rw [hr'] at hlink
      rw [outcome_of_clause_error hr, outcome_of_clause_error hr']
      exact ⟨.nil, hlink.2.record hlink.1⟩

theorem remaining_lt_of_outcome (below : Layer) [below.Keeps State.Shrinks]
    (hs : 0 < s.remaining) :
    (below.outcome s).2.skipSemicolon.advance.remaining < s.remaining := by
  have hle : (below.outcome s).2.remaining ≤ s.remaining := by
    cases hr : below.clause s with
    | ok st t =>
      rw [outcome_of_clause hr]
      exact Keeps.of_ok (R := State.Shrinks) hr
    | error d t =>
      have ht : t.remaining ≤ s.remaining := Keeps.of_error (R := State.Shrinks) hr
      rw [outcome_of_clause_error hr]
      exact ht
  have hskip := (below.outcome s).2.remaining_skipSemicolon_le
  rw [State.remaining_advance]
  omega

omit [below.Keeps State.Shrinks] in
theorem filterMap_id_cons {α : Type} (a : Option α) (as : List (Option α)) :
    (a :: as).filterMap id = a.toList ++ as.filterMap id := by
  cases a <;> rfl

/-- Statements with recovery. The test of the loop looks at the current token only, and the loop
stops at the end of the source. -/
theorem collect_stmtOrSkip {ε : Type} {goesOn : State → Bool} (hb : c.Steps below)
    (hgo : ∀ {s s' : State}, s.current.kind = s'.current.kind → goesOn s = goesOn s')
    (hend : ∀ {s : State}, goesOn s = true → s.current.kind ≠ .endOfInput)
    (h : c.Agree s s') {read : List (Option Stmt)} {t : State}
    (hr : (collect goesOn below.stmtOrSkip : Reader ε _) s = .ok read t)
    (hnear : c.near t.remaining) :
    ∃ read' t', (collect goesOn below.stmtOrSkip : Reader ε _) s' = .ok read' t' ∧
      List.Forall₂ Stmt.Like (read.filterMap id) (read'.filterMap id) ∧ c.Agree t t' := by
  induction hn : s.remaining using Nat.strongRecOn generalizing s s' read with
  | _ n ih =>
    have hle : t.remaining ≤ s.remaining := Keeps.of_ok (R := State.Shrinks) hr
    have hsame := hgo (kind_eq (h.current (c.mono hnear hle)))
    cases hs : goesOn s with
    | false =>
      rw [collect_of_stop hs] at hr
      cases hr
      exact ⟨[], s', collect_of_stop (hsame.symm.trans hs), .nil, h⟩
    | true =>
      have hs' := hsame.symm.trans hs
      have hlt := remaining_lt_of_outcome below (h.sealed.remaining_pos (hend hs))
      have hlt' := remaining_lt_of_outcome below (h.sealed'.remaining_pos (hend hs'))
      rw [collect_of_ok hs (stmtOrSkip_eq below s) hlt] at hr
      rw [collect_of_ok hs' (stmtOrSkip_eq below s') hlt']
      cases hrest : (collect goesOn below.stmtOrSkip : Reader ε _)
          (below.outcome s).2.skipSemicolon.advance with
      | error e u => rw [hrest] at hr; cases hr
      | ok read u =>
        rw [hrest] at hr
        cases hr
        -- The run goes on behind the next token, so this statement looks at near tokens only.
        have hpeek : c.near ((below.outcome s).2.remaining - 1) := by
          have hle : t.remaining ≤ (below.outcome s).2.skipSemicolon.advance.remaining :=
            Keeps.of_ok (R := State.Shrinks) hrest
          have hskip := (below.outcome s).2.remaining_skipSemicolon_le
          rw [State.remaining_advance] at hle
          exact c.mono hnear (by omega)
        obtain ⟨hlike, hagree⟩ := hb.outcome h (c.mono hpeek (le_reach_clause below s))
        obtain ⟨read', t', hrest', hlikes, ht⟩ :=
          ih _ (hn ▸ hlt) (hagree.skipSemicolon hpeek).advance hrest rfl
        rw [hrest']
        refine ⟨_, t', rfl, ?_, ht⟩
        rw [filterMap_id_cons, filterMap_id_cons]
        exact List.rel_append hlike hlikes

omit [below.Keeps State.Shrinks] in
theorem exists_collect {ε α : Type} {item : Reader ε α} (h : ∀ s, ∃ a t, item s = .ok a t)
    (goesOn : State → Bool) (s : State) : ∃ as t, collect goesOn item s = .ok as t := by
  induction s using collect_induction goesOn item with
  | stop s hs => exact ⟨[], s, collect_of_stop hs⟩
  | fail s e t hs hi =>
    obtain ⟨a, u, hu⟩ := h s
    cases hi.symm.trans hu
  | idle s a t hs hi hidle => exact ⟨[a], t, Settles.collect_of_idle hs hi hidle⟩
  | next s a t hs hi hlt ih =>
    obtain ⟨as, u, hu⟩ := ih
    exact ⟨a :: as, u, by rw [collect_of_ok hs hi hlt, hu]⟩

theorem stmts {goesOn : State → Bool} (hb : c.Steps below)
    (hgo : ∀ {s s' : State}, s.current.kind = s'.current.kind → goesOn s = goesOn s')
    (hend : ∀ {s : State}, goesOn s = true → s.current.kind ≠ .endOfInput) (h : c.Agree s s') :
    c.Match (List.Forall₂ Stmt.Like) (below.stmts goesOn) s (below.stmts goesOn) s' := by
  intro hnear
  obtain ⟨read, t, hr⟩ :=
    exists_collect (ε := Diagnostic) (fun s => ⟨_, _, stmtOrSkip_eq below s⟩) goesOn s
  have hs : below.stmts goesOn s = .ok (read.filterMap id) t := bind_of_ok hr
  rw [hs] at hnear ⊢
  obtain ⟨read', t', hr', hlike, ht⟩ :=
    hb.collect_stmtOrSkip hgo hend h hr (c.mono hnear (Nat.sub_le _ _))
  have hs' : below.stmts goesOn s' = .ok (read'.filterMap id) t' := bind_of_ok hr'
  rw [hs']
  exact ⟨hlike, ht⟩

theorem remaining_lt_of_strictStmt {t : State} {st : Stmt} (hs : 0 < s.remaining)
    (hr : below.strictStmt s = .ok st t) : t.remaining < s.remaining := by
  have hlt := remaining_lt_of_outcome below hs
  cases hc : below.clause s with
  | error d u => cases (strictStmt_of_clause_error hc).symm.trans hr
  | ok st' u =>
    cases (strictStmt_of_clause hc).symm.trans hr
    rwa [outcome_of_clause hc] at hlt

/-- A statement ends before the state that it leaves, so it looks at near tokens only if that state
is near. -/
theorem strictStmt_ok (hb : c.Steps below) (h : c.Agree s s') {t : State} {st : Stmt}
    (hr : below.strictStmt s = .ok st t) (hnear : c.near t.remaining) :
    ∃ st' t', below.strictStmt s' = .ok st' t' ∧ st.Like st' ∧ c.Agree t t' := by
  cases hc : below.clause s with
  | error d u => cases (strictStmt_of_clause_error hc).symm.trans hr
  | ok st' u =>
    cases (strictStmt_of_clause hc).symm.trans hr
    have hpeek : c.near (u.remaining - 1) := by
      have hskip := u.remaining_skipSemicolon_le
      rw [State.remaining_advance] at hnear
      exact c.mono hnear (by omega)
    have hlink : c.Linked Stmt.Like (below.clause s) (below.clause s') :=
      hb.clause h (by rw [hc]; exact hpeek)
    rw [hc] at hlink
    cases hc' : below.clause s' with
    | error d' u' => rw [hc'] at hlink; exact hlink.elim
    | ok st'' u' =>
      rw [hc'] at hlink
      exact ⟨st'', _, strictStmt_of_clause hc', hlink.1, (hlink.2.skipSemicolon hpeek).advance⟩

theorem strictStmt_error (hb : c.Steps below) (h : c.Agree s s')
    {t : State} {d : Diagnostic} (hr : below.strictStmt s = .error d t)
    (hnear : c.near (reach (below.strictStmt s))) :
    ∃ d' t', below.strictStmt s' = .error d' t' ∧ c.Similar d d' ∧ c.Agree t t' := by
  cases hc : below.clause s with
  | ok st u => cases (strictStmt_of_clause hc).symm.trans hr
  | error d u =>
    rw [strictStmt_of_clause_error hc] at hnear
    cases (strictStmt_of_clause_error hc).symm.trans hr
    have hlink : c.Linked Stmt.Like (below.clause s) (below.clause s') :=
      hb.clause h (by rw [hc]; exact hnear)
    rw [hc] at hlink
    cases hc' : below.clause s' with
    | ok st' u' => rw [hc'] at hlink; exact hlink.elim
    | error d' u' =>
      rw [hc'] at hlink
      exact ⟨d', u', strictStmt_of_clause_error hc', hlink⟩

theorem strictStmts {goesOn : State → Bool} (hb : c.Steps below)
    (hgo : ∀ {s s' : State}, s.current.kind = s'.current.kind → goesOn s = goesOn s')
    (hend : ∀ {s : State}, goesOn s = true → s.current.kind ≠ .endOfInput) (h : c.Agree s s') :
    c.Match (List.Forall₂ Stmt.Like) (below.strictStmts goesOn) s
      (below.strictStmts goesOn) s' := by
  unfold Match Layer.strictStmts
  intro hnear
  induction s using collect_induction goesOn below.strictStmt generalizing s' with
  | stop s hs =>
    have hsame := hgo (kind_eq (h.current (c.mono hnear (reach_le_remaining s))))
    rw [collect_of_stop hs, collect_of_stop (hsame.symm.trans hs)]
    exact ⟨.nil, h⟩
  | fail s d t hs hr =>
    have hs' := (hgo (kind_eq (h.current (c.mono hnear (reach_le_remaining s))))).symm.trans hs
    rw [collect_of_error hs hr] at hnear ⊢
    obtain ⟨d', t', hr', hd, ht⟩ := hb.strictStmt_error h hr (by rw [hr]; exact hnear)
    rw [collect_of_error hs' hr']
    exact ⟨hd, ht⟩
  | idle s st t hs hr hidle =>
    exact absurd (remaining_lt_of_strictStmt (h.sealed.remaining_pos (hend hs)) hr) hidle
  | next s st t hs hr hlt ih =>
    have hs' := (hgo (kind_eq (h.current (c.mono hnear (reach_le_remaining s))))).symm.trans hs
    rw [collect_of_ok hs hr hlt] at hnear ⊢
    have hnear : c.near (reach (collect goesOn below.strictStmt t)) := by
      cases hc : collect goesOn below.strictStmt t <;> rwa [hc] at hnear
    obtain ⟨st', t', hr', hst, ht⟩ := hb.strictStmt_ok h hr (c.mono hnear (reach_le_remaining t))
    have hlt' := remaining_lt_of_strictStmt (h.sealed'.remaining_pos (hend hs')) hr'
    rw [collect_of_ok hs' hr' hlt']
    have hrest := ih ht hnear
    revert hrest
    cases collect goesOn below.strictStmt t <;>
      cases collect goesOn below.strictStmt t' <;> intro hrest
    · exact ⟨.cons hst hrest.1, hrest.2⟩
    · exact hrest
    · exact hrest
    · exact hrest

/-- Blocks are in lockstep if what stands between their braces is. -/
theorem inBraces {body : Parser (List Stmt)} [Keeps State.Shrinks body] (h : c.Agree s s')
    (hbody : ∀ {s s' : State}, c.Agree s s' → c.Match (List.Forall₂ Stmt.Like) body s body s') :
    c.Match Block.Like (Layer.inBraces body) s (Layer.inBraces body) s' := by
  refine .current h fun t t' ht => .advance ?_
  refine .bind (hbody h.advance) fun ss ss' u u' hss hu => ?_
  refine .current hu fun last last' hlast => ?_
  rw [← kind_eq hlast, ← text_eq hlast]
  split
  · exact .refuse rfl hlast hu
  · refine .pure ?_ hu
    rw [Block.Like, Block.alike, alike_of_twins ht, Stmt.allAlike_of_forall₂ hss, Bool.and_self]

theorem inBlock_eq {s s' : State} (h : s.current.kind = s'.current.kind) :
    inBlock s = inBlock s' := by
  rw [inBlock, h, inBlock]

theorem ne_endOfInput_of_inBlock {s : State} (h : inBlock s = true) :
    s.current.kind ≠ .endOfInput := by
  simpa using (Bool.and_eq_true_iff.mp h).2

end Comparison.Steps

namespace Layer

instance (n : Nat) : (strictOfRoom n).Ends where
  expr_ne_ok hs := by
    cases n with
    | zero =>
      intro hr
      cases hr
    | succ n => exact nest_climb_ne_ok hs

open Comparison.Steps (inBlock_eq ne_endOfInput_of_inBlock)

theorem steps (c : Comparison) (n : Nat) : c.Steps (ofRoom n) := by
  induction n with
  | zero =>
    constructor
    · intro floor s s' h
      exact .current h fun t t' ht => .refuse rfl ht h
    · intro s s' h
      exact .current h fun t t' ht => .refuse rfl ht h
  | succ n ih =>
    constructor
    · intro floor s s' h
      exact .nest (ih.climb h.enter floor)
    · intro s s' h
      refine .nest ?_
      rw [braces_eq]
      exact Comparison.Steps.inBraces h.enter fun h =>
        ih.stmts inBlock_eq ne_endOfInput_of_inBlock h

theorem strictSteps (c : Comparison) (n : Nat) : c.Steps (strictOfRoom n) := by
  induction n with
  | zero =>
    constructor
    · intro floor s s' h
      exact .current h fun t t' ht => .refuse rfl ht h
    · intro s s' h
      exact .current h fun t t' ht => .refuse rfl ht h
  | succ n ih =>
    constructor
    · intro floor s s' h
      exact .nest (ih.climb h.enter floor)
    · intro s s' h
      refine .nest ?_
      exact Comparison.Steps.inBraces h.enter fun h =>
        ih.strictStmts inBlock_eq ne_endOfInput_of_inBlock h

end Layer

abbrev State.unfinished (s : State) : Bool :=
  s.current.kind ≠ .endOfInput

theorem State.unfinished_of_pos {s : State} (hs : s.Sealed) (hpos : 0 < s.remaining) :
    s.unfinished = true := by
  rw [decide_eq_true_eq]
  intro hend
  rw [s.remaining_eq, hs.ahead_eq_nil hend] at hpos
  exact Nat.lt_irrefl 0 hpos

/-- Statements up to the end of the source, with a gap for each that fails. -/
abbrev Layer.readAll (below : Layer) : Reader Empty (List (Option Stmt)) :=
  collect State.unfinished below.stmtOrSkip

theorem Layer.readAll_eq_ok_iff (below : Layer) [below.Keeps State.Shrinks] {s t : State}
    {read : List (Option Stmt)} (hs : s.Sealed) (hpos : 0 < s.remaining) :
    below.readAll s = .ok read t ↔ ∃ more, read = (below.outcome s).1 :: more ∧
      below.readAll (below.outcome s).2.skipSemicolon.advance = .ok more t := by
  have hlt := Comparison.Steps.remaining_lt_of_outcome below hpos
  unfold readAll
  rw [collect_of_ok (State.unfinished_of_pos hs hpos) (stmtOrSkip_eq below s) hlt]
  constructor
  · intro hr
    cases hmore : (collect State.unfinished below.stmtOrSkip : Reader Empty _)
        (below.outcome s).2.skipSemicolon.advance with
    | error e u => exact e.elim
    | ok more u =>
      rw [hmore] at hr
      cases hr
      exact ⟨more, rfl, rfl⟩
  · rintro ⟨more, rfl, hmore⟩
    rw [hmore]

theorem Layer.readAll_of_ahead (below : Layer) {s : State} (hs : s.Sealed) (h : s.ahead = []) :
    below.readAll s = .ok [] s := by
  apply collect_of_stop
  rw [decide_eq_false_iff_not, s.current_eq, h, List.headD_nil, hs.stop]
  decide

/-- Whole runs over statements, as far as the first one looks. -/
theorem Comparison.readAll {c : Comparison} {s s' t : State} {read : List (Option Stmt)}
    (h : c.Agree s s') (hr : (ofRoom maxNesting).readAll s = .ok read t)
    (hnear : c.near t.remaining) :
    ∃ read' t', (ofRoom maxNesting).readAll s' = .ok read' t' ∧
      List.Forall₂ Stmt.Like (read.filterMap id) (read'.filterMap id) ∧ c.Agree t t' := by
  apply (steps c maxNesting).collect_stmtOrSkip _ _ h hr hnear
  · intro s s' hkind
    rw [State.unfinished, hkind]
  · intro s hgo
    exact of_decide_eq_true hgo

/-- A parse as a run over statements. -/
theorem exists_parse (file source : String) :
    ∃ read t, (ofRoom maxNesting).readAll (.ofSource file source) = .ok read t ∧
      parse file source = ⟨⟨read.filterMap id⟩, t.errors.toList, t.trace.toList⟩ := by
  obtain ⟨read, t, hr⟩ := Comparison.Steps.exists_collect (ε := Empty)
    (fun s => ⟨_, _, stmtOrSkip_eq (ofRoom maxNesting) s⟩) State.unfinished (.ofSource file source)
  exact ⟨read, t, hr, parse_eq (bind_of_ok hr)⟩

end Scriptlet
