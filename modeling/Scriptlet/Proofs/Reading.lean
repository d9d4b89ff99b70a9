import Scriptlet.Proofs.Grammar
import Scriptlet.Proofs.Outcome

/-! What the grammar derives, the parser reads. Each production has a lemma that says what the
parser makes of its tokens; the theorem at the end is an induction over derivations. Derivations
are left recursive where the parser loops, so the statement about expressions says how far the
loop has come, not how it ends. -/
namespace Scriptlet

open Reader Scriptlet.Parser Layer

/-- The kinds that a statement can start with. -/
def Kind.StartsStmt (kind : Kind) : Prop :=
  kind.opening?.isSome = true ∨ kind.heading?.isSome = true

/-- What is known of the level and the first token of a phrase. -/
def Phrase.Start : Phrase → Nat → List Token → Prop
  | expr _, n, ts => 1 ≤ n ∧ ∃ t rest, ts = t :: rest ∧ t.kind.opening?.isSome = true
  | list, _, ts => ∀ t ∈ ts.head?, t.kind.opening?.isSome = true
  | more, _, ts => ∀ t ∈ ts.head?, t.kind = .comma
  | pairs, _, ts => ∀ t ∈ ts.head?, t.kind.opening?.isSome = true
  | block, _, ts => ∃ t rest, ts = t :: rest ∧ t.kind = .openCurly
  | stmt, _, ts => ∃ t rest, ts = t :: rest ∧ t.kind.StartsStmt
  | stmts, _, ts => ∀ t ∈ ts.head?, t.kind.StartsStmt

theorem Derives.start {phrase : Phrase} {n : Nat} {ts : List Token} {tree : phrase.Tree}
    (h : Derives phrase n ts tree) : phrase.Start n ts := by
  induction h with
  | tighter _ _ ih => exact ih
  | binary _ _ _ _ ihl _ | call _ _ _ _ ihl _ | index _ _ _ _ ihl _ =>
    obtain ⟨hm, t, rest, rfl, ht⟩ := ihl
    exact ⟨by omega, t, _, rfl, ht⟩
  | unary hop _ ih =>
    exact ⟨by omega, _, _, rfl, by rcases hop with hop | hop <;> rw [hop] <;> rfl⟩
  | name ht | integer ht | text ht | yes ht | no ht =>
    exact ⟨Nat.le_refl 1, _, _, rfl, by rw [ht]; rfl⟩
  | group ho | array ho | hash ho => exact ⟨by omega, _, _, rfl, by rw [ho]; rfl⟩
  | conditional hw | alternative hw | function hw =>
    exact ⟨by omega, _, _, rfl, by rw [hw]; rfl⟩
  | empty | last | noPair | done => nofun
  | first _ _ ih _ | lastPair _ _ _ ih _ | nextPair _ _ _ _ _ ih _ _ =>
    obtain ⟨-, t, rest, rfl, ht⟩ := ih
    rintro _ ⟨⟩
    exact ht
  | next hc =>
    rintro _ ⟨⟩
    exact hc
  | block ho => exact ⟨_, _, rfl, ho⟩
  | binding hw | returning hw => exact ⟨_, _, rfl, .inr (by rw [hw]; rfl)⟩
  | expression _ ih =>
    obtain ⟨-, t, rest, he, ht⟩ := ih
    cases he
    exact ⟨_, _, rfl, .inl ht⟩
  | terminated _ _ _ ih _ | unterminated _ _ _ ih _ =>
    obtain ⟨t, rest, rfl, ht⟩ := ih
    rintro _ ⟨⟩
    exact ht

namespace Tier

/-- The loosest power of a token that joins parts of the tier. -/
def entry : Tier → Power
  | equality => .equality
  | comparison => .comparison
  | sum => .sum
  | product => .product
  | unary => .call
  | suffixed => .call
  | primary => .call

/-- A token that binds tighter than this would go on with an expression of the tier. -/
def limit : Tier → Power
  | equality => .equality
  | comparison => .comparison
  | sum => .sum
  | product => .product
  | unary => .unary
  | suffixed => .index
  | primary => .index

theorem entry_mono {tier next : Tier} (h : tier.tighter? = some next) {floor : Power}
    (hf : floor < tier.entry) : floor < next.entry := by
  cases tier <;> cases h <;> revert hf <;> cases floor <;> decide

theorem joining_of_mem_operators {tier : Tier} {kind : Kind} (h : kind ∈ tier.operators) :
    kind.joining? = some (.binary, tier.entry) ∧ tier.limit = tier.entry := by
  cases tier <;> simp only [operators, List.mem_cons, List.not_mem_nil, or_false] at h <;>
    rcases h with rfl | rfl <;> exact ⟨rfl, rfl⟩

theorem entry_lt_entry {tier next : Tier} {kind : Kind} (h : kind ∈ tier.operators)
    (ht : tier.tighter? = some next) : tier.entry < next.entry := by
  cases tier <;> cases ht <;> first | decide | cases h

end Tier

/-- A token of the kind does not go on with an expression up to the power `limit`. -/
def Kind.Ends (limit : Power) (kind : Kind) : Prop :=
  ¬ limit < kind.power ∧ kind ≠ .elseWord

instance (limit : Power) (kind : Kind) : Decidable (kind.Ends limit) :=
  inferInstanceAs (Decidable (_ ∧ _))

theorem Kind.Ends.tighter {tier next : Tier} (h : tier.tighter? = some next) {kind : Kind}
    (hk : kind.Ends tier.limit) : kind.Ends next.limit := by
  refine ⟨fun hlt => hk.1 ?_, hk.2⟩
  cases tier <;> cases h <;> revert hlt <;> cases kind <;> decide

theorem Kind.Ends.of_lowest {kind : Kind} (h : kind.Ends .lowest) (limit : Power) :
    kind.Ends limit := by
  refine ⟨fun hlt => h.1 ?_, h.2⟩
  exact Nat.lt_of_le_of_lt (Nat.zero_le _) hlt

abbrev Layer.goOn (below : Layer) (floor : Power) (left : Expr) : Parser Expr :=
  repeatWhile (binds floor) (below.extend floor) left

/-- If the nesting suffices, the parser comes to the point where it has read `e` and looks for
what goes on with it; if not, it overruns. -/
structure Climbs (fits : Prop) (below : Layer) (floor : Power) (s : State) (rest : List Token)
    (e : Expr) : Prop where
  reads : fits → ∃ t, s.Reaches rest t ∧ below.climb floor s = below.goOn floor e t
  overruns : ¬ fits → Overrun s (below.climb floor s)

/-- The tokens behind a statement that has no terminator, or behind its terminator. -/
def dropSemicolon : List Token → List Token
  | [] => []
  | t :: ts => if t.kind = .semicolon then ts else t :: ts

/-- What the parser makes of the tokens of a phrase, with any number of levels left. -/
def Phrase.Read : (phrase : Phrase) → Nat → List Token → phrase.Tree → Prop
  | expr tier, k, ts, e => ∀ n floor (s : State) rest, floor < tier.entry →
      (rest.headD s.input.stop).kind.Ends tier.limit → s.ahead = ts ++ rest →
      Climbs (k ≤ n + 1) (ofRoom n) floor s rest e
  | list, k, ts, es => ∀ n stop (s : State) c rest, stop = .closeParen ∨ stop = .closeBracket →
      c.kind = stop → s.after = ts ++ c :: rest → Outcome (k ≤ n) ((ofRoom n).list stop) s rest es
  | more, k, ts, es => ∀ n (s : State) rest, (rest.headD s.input.stop).kind.Ends .lowest →
      (rest.headD s.input.stop).kind ≠ .comma → s.after = ts ++ rest →
      Outcome (k ≤ n) (collect (fun s => s.peek.kind = .comma) (ofRoom n).nextElement) s rest es
  | pairs, k, ts, ps => ∀ n (s : State) c rest, c.kind = .closeCurly →
      s.after = ts ++ c :: rest →
      Outcome (k ≤ n) (collect (fun s => s.peek.kind ≠ .closeCurly) (ofRoom n).pair) s
        (c :: rest) ps
  | block, k, ts, b => ∀ n (s : State) rest, s.ahead = ts ++ rest →
      Outcome (k ≤ n) (ofRoom n).block s rest b
  | stmt, k, ts, st => ∀ n (s : State) rest, (rest.headD s.input.stop).kind.Ends .lowest →
      s.ahead = ts ++ rest → Outcome (k ≤ n) (ofRoom n).stmt s (dropSemicolon rest) st
  | stmts, k, ts, ss => ∀ (ε : Type) n (test : Kind → Bool) (s : State) rest,
      (∀ kind, kind.StartsStmt → test kind = true) →
      test (rest.headD s.input.stop).kind = false →
      (rest.headD s.input.stop).kind.Ends .lowest →
      (rest.headD s.input.stop).kind ≠ .semicolon → s.ahead = ts ++ rest →
      Settles (k ≤ n) (collect (fun s => test s.current.kind) (ofRoom n).stmtOrSkip : Reader ε _)
        s rest (ss.map some)

theorem climb_eq {below : Layer} {floor : Power} {s : State} {form : Opening}
    (h : s.current.kind.opening? = some form) :
    below.climb floor s = (below.opening form >>= below.goOn floor) s := by
  rw [climb, current_bind, h]

theorem Climbs.of_opening {fits : Prop} {below : Layer} [below.Keeps State.Grows] {floor : Power}
    {s : State} {rest : List Token} {e : Expr} {form : Opening}
    (hs : s.current.kind.opening? = some form) (h : Outcome fits (below.opening form) s rest e) :
    Climbs fits below floor s rest e where
  reads hfit := by
    obtain ⟨t, ht, hst⟩ := h.reads hfit
    exact ⟨t, hst, (climb_eq hs).trans (bind_of_ok ht)⟩
  overruns hfit := by
    have hk (left : Expr) : Keeps State.Grows (below.goOn floor left) := .repeatWhile left
    rw [climb_eq hs]
    exact (h.overruns hfit).bind

theorem Climbs.extend {fits more : Prop} {below : Layer} [below.Keeps State.Grows] {floor : Power}
    {s : State} {t : Token} {ts rest : List Token} {l e : Expr}
    (h : Climbs fits below floor s (t :: ts ++ rest) l) (ht : floor < t.kind.power)
    (hx : ∀ u, s.Reaches (t :: ts ++ rest) u → Outcome more (below.extend floor l) u rest e) :
    Climbs (fits ∧ more) below floor s rest e := by
  have hbinds {u : State} (hu : s.Reaches (t :: ts ++ rest) u) : binds floor u = true := by
    have hp : u.peek = t := hu.peek
    rw [binds, hp]
    simp only [ne_eq, decide_not, Bool.and_eq_true, Bool.not_eq_true', decide_eq_false_iff_not,
      decide_eq_true_eq]
    refine ⟨fun hk => ?_, ht⟩
    rw [hk] at ht
    exact absurd ht (Nat.not_lt_zero _)
  constructor
  · rintro ⟨hfit, hmore⟩
    obtain ⟨u, hsu, hu⟩ := h.reads hfit
    obtain ⟨v, hv, huv⟩ := (hx u hsu).reads hmore
    refine ⟨v, hsu.trans huv, hu.trans ?_⟩
    rw [goOn, repeatWhile, if_pos (hbinds hsu), hv]
    exact if_pos (huv.remaining_lt hsu.after (by simp))
  · intro hn
    by_cases hfit : fits
    · obtain ⟨u, hsu, hu⟩ := h.reads hfit
      have ho := (hx u hsu).overruns fun hm => hn ⟨hfit, hm⟩
      rw [hu]
      exact (ho.repeatWhile (hbinds hsu)).of_errors_eq hsu.errors
    · exact h.overruns hfit

theorem Climbs.congr {fits more : Prop} {below : Layer} {floor : Power} {s : State}
    {rest : List Token} {e : Expr} (h : Climbs fits below floor s rest e) (hf : fits ↔ more) :
    Climbs more below floor s rest e :=
  ⟨fun hm => h.reads (hf.mpr hm), fun hm => h.overruns fun hfit => hm (hf.mp hfit)⟩

/-- The loop ends at a token that does not bind tighter than `floor`. -/
theorem Climbs.outcome {fits : Prop} {below : Layer} {floor : Power} {s : State}
    {rest : List Token} {e : Expr} (h : Climbs fits below floor s rest e)
    (hend : ¬ floor < (rest.headD s.input.stop).kind.power) :
    Outcome fits (below.climb floor) s rest e where
  reads hfit := by
    obtain ⟨t, hst, ht⟩ := h.reads hfit
    refine ⟨t, ht.trans (repeatWhile_of_stop ?_), hst⟩
    rw [binds, hst.peek, decide_eq_false hend, Bool.and_false]
  overruns := h.overruns

theorem Phrase.Read.nested {tier : Tier} {k : Nat} {ts : List Token} {e : Expr}
    (h : (Phrase.expr tier).Read k ts e) (hk : 1 ≤ k) {n : Nat} {floor : Power} {s : State}
    {rest : List Token} (hfloor : floor < tier.entry)
    (hends : (rest.headD s.input.stop).kind.Ends tier.limit)
    (hend : ¬ floor < (rest.headD s.input.stop).kind.power) (hs : s.ahead = ts ++ rest) :
    Outcome (k ≤ n) ((ofRoom n).expr floor) s rest e := by
  cases n with
  | zero => exact .current (.refuse_nesting (by omega) _)
  | succ n => exact ((h n floor s.enter rest hfloor hends hs).outcome hend).nest

theorem Phrase.Read.whole {k : Nat} {ts : List Token} {e : Expr}
    (h : (Phrase.expr .equality).Read k ts e) (hk : 1 ≤ k) {n : Nat} {s : State}
    {rest : List Token} (hends : (rest.headD s.input.stop).kind.Ends .lowest)
    (hs : s.ahead = ts ++ rest) : Outcome (k ≤ n) ((ofRoom n).expr .lowest) s rest e :=
  h.nested hk (by decide) (hends.of_lowest _) hends.1 hs

theorem Phrase.Read.upTo {β : Type} {k : Nat} {ts : List Token} {e : Expr}
    (h : (Phrase.expr .equality).Read k ts e) (hk : 1 ≤ k) {n : Nat} {s : State} {c : Token}
    {kind : Kind} {mid rest : List Token} {f : Expr → Unit → Parser β} {b : β} {more : Prop}
    [∀ e u, Keeps State.Grows (f e u)] (hc : c.kind = kind) (hends : kind.Ends .lowest)
    (hs : s.ahead = ts ++ c :: mid)
    (hf : ∀ t, s.Reaches mid t → t.current = c → Outcome more (f e ()) t rest b) :
    Outcome (k ≤ n ∧ more) ((ofRoom n).expr .lowest >>= fun e => expect kind >>= f e) s rest b := by
  subst hc
  have hw : Outcome (k ≤ n) ((ofRoom n).expr .lowest) s (c :: mid) e := h.whole hk hends hs
  refine .bind hw fun t ht => .expect (by rw [ht.peek]; rfl) ?_
  exact hf t.advance ⟨congrArg List.tail ht.after, ht.stop, ht.errors⟩ ht.peek

/-- What a joining token does with the expression before it. -/
theorem Climbs.join {below : Layer} [below.Keeps State.Grows] {floor power : Power} {s : State}
    {op : Token} {ts rest : List Token} {l e : Expr} {fits more : Prop} {form : Joining}
    (hj : op.kind.joining? = some (form, power)) (hfloor : floor < power)
    (hl : Climbs fits below floor s (op :: ts ++ rest) l)
    (h : ∀ u, s.Reaches (ts ++ rest) u → u.current = op →
      Outcome more (below.joining form l power) u rest e) :
    Climbs (fits ∧ more) below floor s rest e := by
  have hpower : op.kind.power = power := by rw [Kind.power, hj]; rfl
  refine hl.extend (hpower ▸ hfloor) fun u hu => .peek ?_
  have hp : u.peek = op := hu.peek
  rw [hp, hj]
  refine .note (.advance ?_)
  have ha : u.after.tail = ts ++ rest := by rw [hu.after]; rfl
  have ho := h (u.note (.applied op.kind power floor)).advance ⟨ha, hu.stop, hu.errors⟩ hp
  exact ho

namespace Phrase.Read

theorem tighter {tier next : Tier} {k : Nat} {ts : List Token} {e : Expr}
    (ht : tier.tighter? = some next) (h : (expr next).Read k ts e) : (expr tier).Read k ts e :=
  fun n floor s rest hfloor hends hs =>
    h n floor s rest (Tier.entry_mono ht hfloor) (hends.tighter ht) hs

theorem binary {tier next : Tier} {op : Token} {m k : Nat} {ls rs : List Token} {l r : Expr}
    (hop : op.kind ∈ tier.operators) (ht : tier.tighter? = some next) (hk : 1 ≤ k)
    (hl : (expr tier).Read m ls l) (hr : (expr next).Read k rs r) :
    (expr tier).Read (max m (k + 1)) (ls ++ op :: rs) (.binary op l op.text r) := by
  intro n floor s rest hfloor hends hs
  obtain ⟨hj, hlimit⟩ := Tier.joining_of_mem_operators hop
  have hpower : op.kind.power = tier.entry := by rw [Kind.power, hj]; rfl
  have hleft : Climbs (m ≤ n + 1) (ofRoom n) floor s (op :: rs ++ rest) l := by
    refine hl n floor s _ hfloor ⟨?_, ?_⟩ (by simpa using hs)
    · change ¬ tier.limit < op.kind.power
      rw [hpower, hlimit]
      exact Nat.lt_irrefl _
    · rintro he
      change op.kind = _ at he
      rw [he] at hj
      cases hj
  have hjoin : Climbs (m ≤ n + 1 ∧ k ≤ n) (ofRoom n) floor s rest
      (.binary op l op.text r) := by
    refine hleft.join hj hfloor fun u hu hc => .current (.advance ?_)
    rw [hc]
    refine .finish ?_ fun t ht => .pure ht.after
    rw [← hu.stop] at hends
    exact hr.nested hk (Tier.entry_lt_entry hop ht) (hends.tighter ht) (hlimit ▸ hends.1) hu.after
  exact hjoin.congr (by omega)

theorem unary {op : Token} {k : Nat} {ts : List Token} {e : Expr}
    (hop : op.kind = .bang ∨ op.kind = .minus) (hk : 1 ≤ k) (h : (expr .unary).Read k ts e) :
    (expr .unary).Read (k + 1) (op :: ts) (.unary op op.text e) := by
  intro n floor s rest _ hends hs
  have hc : s.current = op := by rw [s.current_eq, hs]; rfl
  have hform : s.current.kind.opening? = some .unary := by
    rw [hc]
    rcases hop with hop | hop <;> rw [hop] <;> rfl
  have ho : Outcome (k ≤ n) ((ofRoom n).opening .unary) s rest (.unary op op.text e) := by
    refine .current (.advance ?_)
    rw [hc]
    refine .finish ?_ fun t ht => .pure ht.after
    exact h.nested hk (by decide) hends hends.1 (congrArg List.tail hs)
  exact (Climbs.of_opening hform ho).congr (by omega)

theorem call {o c : Token} {m k : Nat} {fs ts : List Token} {f : Expr} {es : List Expr}
    (ho : o.kind = .openParen) (hc : c.kind = .closeParen) (hf : (expr .suffixed).Read m fs f)
    (h : list.Read k ts es) :
    (expr .suffixed).Read (max m (k + 1)) (fs ++ o :: (ts ++ [c])) (.call o f es) := by
  intro n floor s rest hfloor _ hs
  have hj : o.kind.joining? = some (.call, .call) := by rw [ho]; rfl
  have hleft : Climbs (m ≤ n + 1) (ofRoom n) floor s (o :: (ts ++ [c]) ++ rest) f := by
    refine hf n floor s _ hfloor ?_ (by simpa using hs)
    change o.kind.Ends _
    rw [ho]
    decide
  have hjoin : Climbs (m ≤ n + 1 ∧ k ≤ n) (ofRoom n) floor s rest (.call o f es) := by
    refine hleft.join hj hfloor fun u hu ho => .current ?_
    rw [ho]
    refine .finish ?_ fun t ht => .pure ht.after
    exact h n _ u c rest (.inl rfl) hc (by simpa using hu.after)
  exact hjoin.congr (by omega)

theorem index {o c : Token} {m k : Nat} {ls ts : List Token} {l i : Expr}
    (ho : o.kind = .openBracket) (hc : c.kind = .closeBracket) (hk : 1 ≤ k)
    (hl : (expr .suffixed).Read m ls l) (h : (expr .equality).Read k ts i) :
    (expr .suffixed).Read (max m (k + 1)) (ls ++ o :: (ts ++ [c])) (.index o l i) := by
  intro n floor s rest hfloor _ hs
  have hj : o.kind.joining? = some (.index, .index) := by rw [ho]; rfl
  have hleft : Climbs (m ≤ n + 1) (ofRoom n) floor s (o :: (ts ++ [c]) ++ rest) l := by
    refine hl n floor s _ hfloor ?_ (by simpa using hs)
    change o.kind.Ends _
    rw [ho]
    decide
  have hfloor' : floor < .index := Nat.lt_trans hfloor (by decide)
  have hjoin : Climbs (m ≤ n + 1 ∧ k ≤ n) (ofRoom n) floor s rest (.index o l i) := by
    refine hleft.join hj hfloor' fun u hu ho => .current (.advance ?_)
    rw [ho]
    have ha' : u.advance.ahead = ts ++ c :: rest := by simpa using hu.after
    exact (h.upTo hk hc (by decide) ha' fun t ht _ => .pure ht.after).congr (by simp)
  exact hjoin.congr (by omega)

theorem opened {form : Opening} {tier : Tier} {k : Nat} {t : Token} {ts : List Token} {e : Expr}
    (hform : t.kind.opening? = some form)
    (h : ∀ n (s : State) rest, (rest.headD s.input.stop).kind ≠ .elseWord → s.current = t →
      s.after = ts ++ rest → Outcome (k ≤ n + 1) ((ofRoom n).opening form) s rest e) :
    (expr tier).Read k (t :: ts) e := by
  intro n floor s rest _ hends hs
  have hc : s.current = t := by rw [s.current_eq, hs]; rfl
  exact .of_opening (by rw [hc, hform]) (h n s rest hends.2 hc (congrArg List.tail hs))

theorem name {t : Token} (ht : t.kind = .name) :
    (expr .primary).Read 1 [t] (.name t t.text) := by
  refine opened (by rw [ht]; rfl) fun n s rest _ hc ha => ?_
  refine (Outcome.current ?_).congr (iff_of_true trivial (by omega))
  rw [hc]
  exact .pure ha

theorem text {t : Token} (ht : t.kind = .text) :
    (expr .primary).Read 1 [t] (.text t t.text) := by
  refine opened (by rw [ht]; rfl) fun n s rest _ hc ha => ?_
  refine (Outcome.current ?_).congr (iff_of_true trivial (by omega))
  rw [hc]
  exact .pure ha

theorem boolean {t : Token} {v : Bool} (ht : t.kind.opening? = some .boolean)
    (hv : v = decide (t.kind = .trueWord)) : (expr .primary).Read 1 [t] (.boolean t v) := by
  refine opened ht fun n s rest _ hc ha => ?_
  refine (Outcome.current ?_).congr (iff_of_true trivial (by omega))
  rw [hc, hv]
  exact .pure ha

theorem integer {t : Token} {v : Nat} (ht : t.kind = .number)
    (hv : Text.natural? t.text.toList = some v) (hlt : v < Text.int64Bound) :
    (expr .primary).Read 1 [t] (.integer t v) := by
  have hint : Text.int64? t.text = some (v : Int) := by
    obtain ⟨hne, hd, rfl⟩ := Text.natural?_eq_some_iff.1 hv
    rw [Text.int64?_of_digits hne hd, if_pos hlt]
  refine opened (by rw [ht]; rfl) fun n s rest _ hc ha => ?_
  refine (Outcome.current ?_).congr (iff_of_true trivial (by omega))
  rw [hc, hint]
  exact .pure ha

theorem group {o c : Token} {k : Nat} {ts : List Token} {e : Expr} (ho : o.kind = .openParen)
    (hc : c.kind = .closeParen) (hk : 1 ≤ k) (h : (expr .equality).Read k ts e) :
    (expr .primary).Read (k + 1) (o :: (ts ++ [c])) e := by
  refine opened (by rw [ho]; rfl) fun n s rest _ _ ha => ?_
  have hg : Outcome (k ≤ n) ((ofRoom n).opening .group) s rest e := by
    have ha' : s.advance.ahead = ts ++ c :: rest := by simpa using ha
    refine .advance ?_
    exact (h.upTo hk hc (by decide) ha' fun t ht _ => .pure ht.after).congr (by simp)
  exact hg.congr (by omega)

theorem array {o c : Token} {k : Nat} {ts : List Token} {es : List Expr}
    (ho : o.kind = .openBracket) (hc : c.kind = .closeBracket) (h : list.Read k ts es) :
    (expr .primary).Read (k + 1) (o :: (ts ++ [c])) (.array o es) := by
  refine opened (by rw [ho]; rfl) fun n s rest _ hcur ha => ?_
  have hg : Outcome (k ≤ n) ((ofRoom n).opening .array) s rest (.array o es) := by
    refine .current ?_
    rw [hcur]
    refine .finish (h n _ s c rest (.inr rfl) hc (by simpa using ha)) fun t ht => ?_
    exact .pure ht.after
  exact hg.congr (by omega)

theorem hash {o c : Token} {k : Nat} {ts : List Token} {ps : List (Expr × Expr)}
    (ho : o.kind = .openCurly) (hc : c.kind = .closeCurly) (h : pairs.Read k ts ps) :
    (expr .primary).Read (k + 1) (o :: (ts ++ [c])) (.hash o ps) := by
  refine opened (by rw [ho]; rfl) fun n s rest _ hcur ha => ?_
  have hp : Outcome (k ≤ n) (ofRoom n).pairs s rest ps := by
    refine .finish (h n s c rest hc (by simpa using ha)) fun t ht => .expect ?_ (.pure ?_)
    · rw [ht.peek]
      exact hc
    · exact congrArg List.tail ht.after
  have hg : Outcome (k ≤ n) ((ofRoom n).opening .hash) s rest (.hash o ps) := by
    refine .current ?_
    rw [hcur]
    exact .finish (hp.noting _) fun t ht => .pure ht.after
  exact hg.congr (by omega)

/-- The condition and the first block of a conditional. What comes behind them says which form it
has. -/
theorem consequence {w o c : Token} {m k n : Nat} {ts bs mid rest : List Token} {e e' : Expr}
    {b : Block} {s : State} {more : Prop} (ho : o.kind = .openParen) (hc : c.kind = .closeParen)
    (hm : 1 ≤ m) (hstart : ∃ t rest, bs = t :: rest ∧ t.kind = .openCurly)
    (h : (expr .equality).Read m ts e) (hb : block.Read k bs b) (hcur : s.current = w)
    (ha : s.after = o :: (ts ++ c :: (bs ++ mid)))
    (hf : ∀ u, s.Reaches mid u → Outcome more
      (if u.peek.kind = .elseWord then do
        advance
        expect .openCurly
        let alternative ← (ofRoom n).block
        return .conditional w e b (some alternative)
      else return .conditional w e b none) u rest e') :
    Outcome (m ≤ n ∧ k ≤ n ∧ more) ((ofRoom n).opening .conditional) s rest e' := by
  obtain ⟨x, xs, rfl, hx⟩ := hstart
  have hs : s.advance.advance.ahead = ts ++ c :: x :: (xs ++ mid) := congrArg List.tail ha
  refine .current (.expect (by rw [s.peek_eq, ha]; exact ho) (.advance ?_))
  rw [hcur]
  refine h.upTo hm hc (by decide) hs fun t ht _ => .expect (by rw [ht.peek]; exact hx) ?_
  refine .bind (hb n t.advance mid ht.after) fun u hu => .peek (hf u ?_)
  exact ⟨hu.after, hu.stop.trans ht.stop, hu.errors.trans ht.errors⟩

theorem conditional {w o c : Token} {m k : Nat} {ts bs : List Token} {e : Expr} {b : Block}
    (hw : w.kind = .ifWord) (ho : o.kind = .openParen) (hc : c.kind = .closeParen) (hm : 1 ≤ m)
    (hstart : ∃ t rest, bs = t :: rest ∧ t.kind = .openCurly)
    (h : (expr .equality).Read m ts e) (hb : block.Read k bs b) :
    (expr .primary).Read (max (m + 1) (k + 1)) (w :: o :: (ts ++ c :: bs))
      (.conditional w e b none) := by
  refine opened (by rw [hw]; rfl) fun n s rest hne hcur ha => ?_
  have hg : Outcome (m ≤ n ∧ k ≤ n ∧ True) ((ofRoom n).opening .conditional) s rest
      (.conditional w e b none) := by
    refine consequence ho hc hm hstart h hb hcur (by simpa using ha) fun u hu => ?_
    rw [if_neg (by rwa [hu.peek])]
    exact .pure hu.after
  exact hg.congr (by simp only [and_true]; omega)

theorem alternative {w o c x : Token} {m k l : Nat} {ts bs as : List Token} {e : Expr}
    {b a : Block} (hw : w.kind = .ifWord) (ho : o.kind = .openParen) (hc : c.kind = .closeParen)
    (hx : x.kind = .elseWord) (hm : 1 ≤ m)
    (hstart : ∃ t rest, bs = t :: rest ∧ t.kind = .openCurly)
    (hstart' : ∃ t rest, as = t :: rest ∧ t.kind = .openCurly)
    (h : (expr .equality).Read m ts e) (hb : block.Read k bs b) (ha : block.Read l as a) :
    (expr .primary).Read (max (m + 1) (max (k + 1) (l + 1)))
      (w :: o :: (ts ++ c :: (bs ++ x :: as))) (.conditional w e b (some a)) := by
  obtain ⟨y, ys, rfl, hy⟩ := hstart'
  refine opened (by rw [hw]; rfl) fun n s rest hne hcur hs => ?_
  have hg : Outcome (m ≤ n ∧ k ≤ n ∧ l ≤ n) ((ofRoom n).opening .conditional) s rest
      (.conditional w e b (some a)) := by
    have hs : s.after = o :: (ts ++ c :: (bs ++ x :: y :: (ys ++ rest))) := by simpa using hs
    refine consequence ho hc hm hstart h hb hcur hs fun u hu => ?_
    rw [if_pos (by rw [hu.peek]; exact hx)]
    have hu' : u.advance.after = y :: (ys ++ rest) := congrArg List.tail hu.after
    refine .advance (.expect (by rw [State.peek_eq, hu']; exact hy) ?_)
    exact .finish (ha n u.advance.advance rest hu') fun t ht => .pure ht.after
  exact hg.congr (by omega)

theorem moreNames {ts : List Token} {names : List Name} (h : MoreNames ts names) {s : State}
    {rest : List Token} (hne : (rest.headD s.input.stop).kind ≠ .comma)
    (hs : s.after = ts ++ rest) :
    Outcome True (collect (fun s => s.peek.kind = .comma) nextParameter) s rest names := by
  induction h generalizing s with
  | nil =>
    refine .collect_nil (decide_eq_false ?_) hs
    rwa [s.peek_eq, hs]
  | @cons comma t ts names hc ht _ ih =>
    have hs : s.after = [comma, t] ++ (ts ++ rest) := hs
    have ha : s.advance.after = t :: (ts ++ rest) := congrArg List.tail hs
    have hp : s.advance.peek = t := by rw [State.peek_eq, ha]; rfl
    have hi : Outcome True nextParameter s (ts ++ rest) ⟨t, t.text⟩ := by
      refine .advance (.expect (by rw [hp, ht]) (.current ?_))
      rw [State.current_advance, hp]
      exact .pure (congrArg List.tail ha)
    have hgo : decide (s.peek.kind = .comma) = true := by
      rw [s.peek_eq, hs]
      exact decide_eq_true hc
    refine (hi.collect_cons hgo hs (by simp) fun u hu => ih ?_ hu.after).congr (and_self_iff)
    rwa [hu.stop]

theorem parameters {ts : List Token} {names : List Name} (h : Names ts names) {s : State}
    {c : Token} {rest : List Token} (hc : c.kind = .closeParen) (hs : s.after = ts ++ c :: rest) :
    Outcome True Layer.parameters s rest names := by
  refine .peek ?_
  cases h with
  | nil =>
    rw [if_pos (by rw [s.peek_eq, hs]; exact hc)]
    exact .advance (.pure (congrArg List.tail hs))
  | @cons t ts names ht h =>
    have hp : s.peek = t := by rw [s.peek_eq, hs]; rfl
    rw [hp, if_neg (by rw [ht]; decide)]
    refine .expect (by rw [hp, ht]) (.readName ?_)
    rw [State.current_advance, hp]
    have ha : s.advance.after = ts ++ c :: rest := congrArg List.tail hs
    refine .finish (moreNames h ?_ ha) fun u hu => .expect ?_ (.pure (congrArg List.tail hu.after))
    · change c.kind ≠ _
      rw [hc]
      decide
    · rw [hu.peek]
      exact hc

theorem function {w o c : Token} {k : Nat} {ts bs : List Token} {names : List Name} {b : Block}
    (hw : w.kind = .fnWord) (ho : o.kind = .openParen) (hc : c.kind = .closeParen)
    (h : Names ts names) (hstart : ∃ t rest, bs = t :: rest ∧ t.kind = .openCurly)
    (hb : block.Read k bs b) :
    (expr .primary).Read (k + 1) (w :: o :: (ts ++ c :: bs)) (.function w names b) := by
  obtain ⟨x, xs, rfl, hx⟩ := hstart
  refine opened (by rw [hw]; rfl) fun n s rest _ hcur ha => ?_
  have hg : Outcome (True ∧ k ≤ n) ((ofRoom n).opening .function) s rest
      (.function w names b) := by
    have ha : s.after = o :: (ts ++ c :: (x :: (xs ++ rest))) := by simpa using ha
    have hs : s.advance.after = ts ++ c :: (x :: (xs ++ rest)) := congrArg List.tail ha
    refine .current (.expect (by rw [s.peek_eq, ha]; exact ho) ?_)
    rw [hcur]
    refine .bind (parameters h hc hs) fun t ht => .expect (by rw [ht.peek]; exact hx) ?_
    exact .finish (hb n t.advance rest ht.after) fun u hu => .pure hu.after
  exact hg.congr (by simp)

theorem empty : list.Read 0 [] [] := by
  intro n stop s c rest _ hc hs
  refine (Outcome.peek (.advance ?_)).congr (iff_of_true trivial (Nat.zero_le n))
  rw [if_pos (by rw [s.peek_eq, hs]; exact hc)]
  exact .pure (congrArg List.tail hs)

/-- A phrase that may be empty is followed by its own first token, or by what comes behind. -/
theorem ends_append {ts rest : List Token} {stop : Token}
    (h : ∀ t ∈ ts.head?, t.kind.Ends .lowest) (hr : (rest.headD stop).kind.Ends .lowest) :
    ((ts ++ rest).headD stop).kind.Ends .lowest := by
  cases ts with
  | nil => exact hr
  | cons t ts => exact h t rfl

theorem ends_of_comma {t : Token} (h : t.kind = .comma) : t.kind.Ends .lowest := by
  rw [h]
  decide

theorem first {m k : Nat} {ts rs : List Token} {e : Expr} {es : List Expr} (hm : 1 ≤ m)
    (hstart : ∃ t rest, ts = t :: rest ∧ t.kind.opening?.isSome = true)
    (hmore : ∀ t ∈ rs.head?, t.kind = .comma)
    (h : (expr .equality).Read m ts e) (hr : more.Read k rs es) :
    list.Read (max m k) (ts ++ rs) (e :: es) := by
  intro n stop s c rest hstop hc hs
  have hends : c.kind.Ends .lowest ∧ c.kind ≠ .comma := by
    rw [hc]
    rcases hstop with rfl | rfl <;> decide
  have hne : s.peek.kind ≠ stop := by
    obtain ⟨t, ts, rfl, ht⟩ := hstart
    rw [s.peek_eq, hs]
    change t.kind ≠ stop
    rintro hk
    rw [hk] at ht
    rcases hstop with rfl | rfl <;> cases ht
  have hg : Outcome (m ≤ n ∧ k ≤ n) ((ofRoom n).list stop) s rest (e :: es) := by
    refine .peek (.advance ?_)
    rw [if_neg hne]
    have hs : s.advance.ahead = ts ++ (rs ++ c :: rest) := by simpa using hs
    have hend : ((rs ++ c :: rest).headD s.input.stop).kind.Ends .lowest :=
      ends_append (fun t ht => ends_of_comma (hmore t ht)) hends.1
    refine .bind (h.whole hm hend hs) fun u hu => ?_
    refine .finish (hr n u (c :: rest) hends.1 hends.2 hu.after) fun v hv => .expect ?_ ?_
    · rw [hv.peek]
      exact hc
    · exact .pure (congrArg List.tail hv.after)
  exact hg.congr (by omega)

theorem last : more.Read 0 [] [] := by
  intro n s rest _ hne hs
  refine (Outcome.collect_nil (decide_eq_false ?_) hs).congr (iff_of_true trivial (Nat.zero_le n))
  rwa [s.peek_eq, hs]

theorem next {comma : Token} {m k : Nat} {ts rs : List Token} {e : Expr} {es : List Expr}
    (hc : comma.kind = .comma) (hm : 1 ≤ m) (hmore : ∀ t ∈ rs.head?, t.kind = .comma)
    (h : (expr .equality).Read m ts e) (hr : more.Read k rs es) :
    more.Read (max m k) (comma :: (ts ++ rs)) (e :: es) := by
  intro n s rest hends hne hs
  have hs : s.after = comma :: ts ++ (rs ++ rest) := by simpa using hs
  have hgo : decide (s.peek.kind = .comma) = true := by
    rw [s.peek_eq, hs]
    exact decide_eq_true hc
  have hend := ends_append (fun t ht => ends_of_comma (hmore t ht)) hends
  have hi : Outcome (m ≤ n) (ofRoom n).nextElement s (rs ++ rest) e :=
    .advance (.advance (h.whole hm hend (congrArg List.tail hs)))
  refine (hi.collect_cons hgo hs (by simp) fun u hu => hr n u rest ?_ ?_ hu.after).congr (by omega)
  · rwa [hu.stop]
  · rwa [hu.stop]

theorem noPair : pairs.Read 0 [] [] := by
  intro n s c rest hc hs
  refine (Outcome.collect_nil (decide_eq_false ?_) hs).congr (iff_of_true trivial (Nat.zero_le n))
  rw [s.peek_eq, hs]
  exact not_not_intro hc

/-- A key and its value. What comes behind them says whether the hash goes on. -/
theorem pair {colon : Token} {m k n : Nat} {ks vs mid rest : List Token} {key value : Expr}
    {s : State} (hc : colon.kind = .colon) (hm : 1 ≤ m) (hk : 1 ≤ k)
    (hkey : (expr .equality).Read m ks key) (hvalue : (expr .equality).Read k vs value)
    (hs : s.after = ks ++ colon :: (vs ++ mid)) (hends : (mid.headD s.input.stop).kind.Ends .lowest)
    (hf : ∀ u, s.Reaches mid u → Outcome True
      (if u.peek.kind ≠ .closeCurly then do
        expect .comma
        return (key, value)
      else return (key, value)) u rest (key, value)) :
    Outcome (m ≤ n ∧ k ≤ n) (ofRoom n).pair s rest (key, value) := by
  refine .advance (hkey.upTo hm hc (by decide) hs fun t ht _ => .advance ?_)
  have hstop : t.input.stop = s.input.stop := ht.stop
  rw [← hstop] at hends
  refine .finish (hvalue.whole hk hends ht.after) fun u hu => .peek (hf u ?_)
  exact ⟨hu.after, hu.stop.trans hstop, hu.errors.trans ht.errors⟩

theorem peek_ne_closeCurly {s : State} {ts rest : List Token}
    (hstart : ∃ t rest, ts = t :: rest ∧ t.kind.opening?.isSome = true)
    (hs : s.after = ts ++ rest) : decide (s.peek.kind ≠ .closeCurly) = true := by
  obtain ⟨t, ts, rfl, ht⟩ := hstart
  have hp : s.peek = t := by rw [s.peek_eq, hs]; rfl
  refine decide_eq_true ?_
  rintro hk
  rw [← hp, hk] at ht
  cases ht

theorem lastPair {colon : Token} {m k : Nat} {ks vs : List Token} {key value : Expr}
    (hc : colon.kind = .colon) (hm : 1 ≤ m) (hk : 1 ≤ k)
    (hstart : ∃ t rest, ks = t :: rest ∧ t.kind.opening?.isSome = true)
    (hkey : (expr .equality).Read m ks key) (hvalue : (expr .equality).Read k vs value) :
    pairs.Read (max m k) (ks ++ colon :: vs) [(key, value)] := by
  intro n s c rest hcurly hs
  have hends : c.kind.Ends .lowest := by rw [hcurly]; decide
  have hs' : s.after = ks ++ colon :: (vs ++ c :: rest) := by simpa using hs
  have hi : Outcome (m ≤ n ∧ k ≤ n) (ofRoom n).pair s (c :: rest) (key, value) := by
    refine pair hc hm hk hkey hvalue hs' hends fun u hu => ?_
    rw [if_neg (by rw [hu.peek]; exact not_not_intro hcurly)]
    exact .pure hu.after
  refine (hi.collect_cons (peek_ne_closeCurly hstart hs') hs (by simp) fun u hu =>
    noPair n u c rest hcurly hu.after).congr (by omega)

theorem nextPair {colon comma : Token} {m k l : Nat} {ks vs rs : List Token} {key value : Expr}
    {ps : List (Expr × Expr)} (hc : colon.kind = .colon) (hcomma : comma.kind = .comma)
    (hm : 1 ≤ m) (hk : 1 ≤ k)
    (hstart : ∃ t rest, ks = t :: rest ∧ t.kind.opening?.isSome = true)
    (hkey : (expr .equality).Read m ks key) (hvalue : (expr .equality).Read k vs value)
    (hr : pairs.Read l rs ps) :
    pairs.Read (max (max m k) l) (ks ++ colon :: (vs ++ comma :: rs)) ((key, value) :: ps) := by
  intro n s c rest hcurly hs
  have hs' : s.after = ks ++ colon :: (vs ++ comma :: (rs ++ c :: rest)) := by simpa using hs
  have hi : Outcome (m ≤ n ∧ k ≤ n) (ofRoom n).pair s (rs ++ c :: rest) (key, value) := by
    refine pair hc hm hk hkey hvalue hs' (ends_of_comma hcomma) fun u hu => ?_
    have hp : u.peek.kind = .comma := by rw [hu.peek]; exact hcomma
    rw [if_pos (by rw [hp]; decide)]
    exact .expect hp (.pure (congrArg List.tail hu.after))
  have hts : s.after = (ks ++ colon :: (vs ++ [comma])) ++ (rs ++ c :: rest) := by simpa using hs
  refine (hi.collect_cons (peek_ne_closeCurly hstart hs') hts (by simp) fun u hu =>
    hr n u c rest hcurly hu.after).congr (by omega)

theorem after_skipSemicolon (s : State) : s.skipSemicolon.after = dropSemicolon s.after := by
  unfold State.skipSemicolon
  cases hs : s.after with
  | nil =>
    split
    · exact congrArg List.tail hs
    · exact hs
  | cons t ts =>
    have hp : s.peek = t := by rw [s.peek_eq, hs]; rfl
    rw [hp, dropSemicolon]
    split
    · exact congrArg List.tail hs
    · exact hs

theorem value {k n : Nat} {ts rest : List Token} {e : Expr} {st : Stmt} {s : State}
    {f : Expr → Stmt} (hk : 1 ≤ k) (h : (expr .equality).Read k ts e)
    (hends : (rest.headD s.input.stop).kind.Ends .lowest) (hs : s.ahead = ts ++ rest)
    (hst : f e = st) :
    Outcome (k ≤ n) (do
      let value ← (ofRoom n).expr .lowest
      skipSemicolon
      return f value) s (dropSemicolon rest) st := by
  refine .finish (h.whole hk hends hs) fun t ht => .skipSemicolon ?_
  rw [hst]
  refine .pure ?_
  rw [after_skipSemicolon, ht.after]

theorem binding {w t a : Token} {k : Nat} {ts : List Token} {e : Expr} (hw : w.kind = .letWord)
    (ht : t.kind = .name) (ha : a.kind = .assign) (hk : 1 ≤ k)
    (h : (expr .equality).Read k ts e) :
    stmt.Read k (w :: t :: a :: ts) (.binding w ⟨t, t.text⟩ e) := by
  intro n s rest hends hs
  have hc : s.current = w := by rw [s.current_eq, hs]; rfl
  have hs : s.after = t :: a :: (ts ++ rest) := congrArg List.tail hs
  have hp : s.peek = t := by rw [s.peek_eq, hs]; rfl
  have hs' : s.advance.after = a :: (ts ++ rest) := congrArg List.tail hs
  have hp' : s.advance.peek = a := by rw [State.peek_eq, hs']; rfl
  refine .current ?_
  rw [hc, hw]
  refine .current (.expect (by rw [hp, ht]) (.readName (.expect (by rw [hp', ha]) (.advance ?_))))
  rw [hc, State.current_advance, hp]
  exact h.value hk hends (congrArg List.tail hs') rfl

theorem returning {w : Token} {k : Nat} {ts : List Token} {e : Expr} (hw : w.kind = .returnWord)
    (hk : 1 ≤ k) (h : (expr .equality).Read k ts e) :
    stmt.Read k (w :: ts) (.returning w e) := by
  intro n s rest hends hs
  have hc : s.current = w := by rw [s.current_eq, hs]; rfl
  refine .current ?_
  rw [hc, hw]
  refine .current (.advance ?_)
  rw [hc]
  exact h.value hk hends (congrArg List.tail hs) rfl

theorem expression {t : Token} {k : Nat} {ts : List Token} {e : Expr} (hk : 1 ≤ k)
    (ht : t.kind.opening?.isSome = true) (h : (expr .equality).Read k (t :: ts) e) :
    stmt.Read k (t :: ts) (.expression t e) := by
  intro n s rest hends hs
  have hc : s.current = t := by rw [s.current_eq, hs]; rfl
  have hhead : t.kind.heading? = none := by
    revert ht
    cases t.kind <;> decide
  refine .current ?_
  rw [hc, hhead]
  refine .current ?_
  rw [hc]
  exact h.value hk hends hs rfl

theorem done : stmts.Read 0 [] [] := by
  intro ε n test s rest _ hstop _ _ hs
  have hgo : (fun s : State => test s.current.kind) s = false := by
    dsimp only
    rwa [s.current_eq, hs]
  exact ⟨fun _ => ⟨s, collect_of_stop hgo, hs, rfl, rfl⟩, fun h => absurd (Nat.zero_le n) h⟩

theorem eq_append_dropSemicolon (ts : List Token) : ∃ us, ts = us ++ dropSemicolon ts := by
  cases ts with
  | nil => exact ⟨[], rfl⟩
  | cons t ts =>
    rw [dropSemicolon]
    split
    · exact ⟨[t], rfl⟩
    · exact ⟨[], rfl⟩

theorem stmtCons {ε : Type} {m k n : Nat} {test : Kind → Bool} {s : State}
    {ts rs mid rest : List Token} {st : Stmt} {ss : List Stmt}
    (hstart : ∃ t rest, ts = t :: rest ∧ t.kind.StartsStmt) (h : stmt.Read m ts st)
    (htest : ∀ kind, kind.StartsStmt → test kind = true) (hs : s.ahead = ts ++ mid)
    (hmid : dropSemicolon mid = rs ++ rest) (hends : (mid.headD s.input.stop).kind.Ends .lowest)
    (hr : ∀ t : State, t.ahead = rs ++ rest → t.input.stop = s.input.stop →
      Settles (k ≤ n) (collect (fun s => test s.current.kind) (ofRoom n).stmtOrSkip : Reader ε _)
        t rest (ss.map some)) :
    Settles (max m k ≤ n)
      (collect (fun s => test s.current.kind) (ofRoom n).stmtOrSkip : Reader ε _)
      s rest ((st :: ss).map some) := by
  obtain ⟨us, hus⟩ := eq_append_dropSemicolon mid
  have hone := h n s mid hends hs
  rw [hmid] at hone hus
  rw [hus, ← List.append_assoc] at hs
  obtain ⟨t, ts, rfl, ht⟩ := hstart
  have hgo : (fun s : State => test s.current.kind) s = true := by
    dsimp only
    rw [s.current_eq, hs]
    exact htest _ ht
  have hi : Settles (m ≤ n) ((ofRoom n).stmtOrSkip : Reader ε _) s (rs ++ rest) (some st) :=
    .of_outcome hone
  exact (hi.collect_cons hgo hs (by simp) hr).congr (by omega)

theorem terminated {semicolon : Token} {m k : Nat} {ts rs : List Token} {st : Stmt}
    {ss : List Stmt} (ht : semicolon.kind = .semicolon)
    (hstart : ∃ t rest, ts = t :: rest ∧ t.kind.StartsStmt) (h : stmt.Read m ts st)
    (hr : stmts.Read k rs ss) :
    stmts.Read (max m k) (ts ++ semicolon :: rs) (st :: ss) := by
  intro ε n test s rest htest hstop hends hne hs
  have hs : s.ahead = ts ++ semicolon :: (rs ++ rest) := by simpa using hs
  refine stmtCons hstart h htest hs (if_pos ht) ?_ fun t hts hst => ?_
  · change semicolon.kind.Ends _
    rw [ht]
    decide
  · rw [← hst] at hstop hends hne
    exact hr ε n test t rest htest hstop hends hne hts

/-- A token that starts a statement ends the expression before it, unless it continues it. -/
theorem ends_of_startsStmt {kind : Kind} (h : kind.StartsStmt) (hc : ¬ kind.Continues) :
    kind.Ends .lowest ∧ kind ≠ .semicolon := by
  revert h hc
  unfold Kind.StartsStmt Kind.Continues
  cases kind <;> decide

theorem unterminated {m k : Nat} {ts rs : List Token} {st : Stmt} {ss : List Stmt}
    (ht : ∀ t ∈ rs.head?, ¬ t.kind.Continues)
    (hstart : ∃ t rest, ts = t :: rest ∧ t.kind.StartsStmt)
    (hstarts : ∀ t ∈ rs.head?, t.kind.StartsStmt) (h : stmt.Read m ts st)
    (hr : stmts.Read k rs ss) : stmts.Read (max m k) (ts ++ rs) (st :: ss) := by
  intro ε n test s rest htest hstop hends hne hs
  have hs : s.ahead = ts ++ (rs ++ rest) := by simpa using hs
  have hfirst (t : Token) (hmem : t ∈ rs.head?) := ends_of_startsStmt (hstarts t hmem) (ht t hmem)
  have hmid : dropSemicolon (rs ++ rest) = rs ++ rest := by
    cases rs with
    | cons t rs => exact if_neg (hfirst t rfl).2
    | nil =>
      cases rest with
      | nil => rfl
      | cons t rest => exact if_neg hne
  have hend := ends_append (fun t hmem => (hfirst t hmem).1) hends
  refine stmtCons hstart h htest hs hmid hend fun t hts hst => ?_
  rw [← hst] at hstop hends hne
  exact hr ε n test t rest htest hstop hends hne hts

/-- The statements that were read, without the mark that none of them failed. -/
theorem settles_stmts {fits : Prop} {ε : Type} {below : Layer} {goesOn : State → Bool} {s : State}
    {rest : List Token} {ss : List Stmt} [below.Keeps State.Grows]
    (h : Settles fits (collect goesOn below.stmtOrSkip : Reader ε _) s rest (ss.map some)) :
    Settles fits (below.stmts goesOn : Reader ε _) s rest ss where
  reads hfit := by
    obtain ⟨t, ht, hrest⟩ := h.reads hfit
    refine ⟨t, ?_, hrest⟩
    simp only [Layer.stmts, Bind.bind, EStateM.bind, ht]
    change EStateM.Result.ok _ _ = _
    rw [List.filterMap_map]
    simp
  overruns hfit := by
    have ho := h.overruns hfit
    simp only [Layer.stmts, Bind.bind, EStateM.bind]
    cases hc : (collect goesOn below.stmtOrSkip : Reader ε _) s <;> rw [hc] at ho <;> exact ho

theorem block {o c : Token} {k : Nat} {ts : List Token} {ss : List Stmt}
    (hc : c.kind = .closeCurly) (h : stmts.Read k ts ss) :
    Phrase.block.Read (k + 1) (o :: (ts ++ [c])) (.mk o ss) := by
  intro n s rest hs
  cases n with
  | zero => exact .current (.refuse_nesting (by omega) _)
  | succ n =>
    have hcur : s.enter.current = o := by
      change s.ahead.headD _ = o
      rw [hs]
      rfl
    have ha : s.enter.advance.ahead = ts ++ c :: rest := by
      change s.ahead.tail = _
      rw [hs]
      simp
    have hbody : Settles (k ≤ n) ((ofRoom n).stmts
        fun s => s.current.kind ≠ .closeCurly && s.current.kind ≠ .endOfInput : Parser _)
        s.enter.advance (c :: rest) ss := by
      refine settles_stmts (h _ n (fun kind => kind ≠ .closeCurly && kind ≠ .endOfInput) _ _
        ?_ ?_ ?_ ?_ ha)
      · intro kind
        unfold Kind.StartsStmt
        cases kind <;> decide
      all_goals
        rw [List.headD_cons, hc]
        decide
    have hg : Outcome (k ≤ n ∧ True) (ofRoom n).braces s.enter rest (.mk o ss) := by
      refine .current (.advance ?_)
      rw [hcur]
      refine hbody.bind fun t ht hstop => .current ?_
      have hlast : t.current.kind ≠ .endOfInput := by
        rw [t.current_eq, ht]
        change c.kind ≠ _
        rw [hc]
        decide
      rw [if_neg hlast]
      exact .pure (congrArg List.tail ht)
    exact (Outcome.nest hg).congr (by simp)

end Phrase.Read

/-- What the grammar derives, the parser reads, if there is room for its levels; if not, the
first diagnostic is that the nesting is too deep. -/
theorem Derives.read {phrase : Phrase} {n : Nat} {ts : List Token} {tree : phrase.Tree}
    (h : Derives phrase n ts tree) : phrase.Read n ts tree := by
  induction h with
  | tighter ht _ ih => exact ih.tighter ht
  | binary hop ht _ hr ihl ihr => exact .binary hop ht hr.start.1 ihl ihr
  | unary hop h ih => exact .unary hop h.start.1 ih
  | call ho hc _ _ ihf ih => exact .call ho hc ihf ih
  | index ho hc _ h ihl ih => exact .index ho hc h.start.1 ihl ih
  | name ht => exact .name ht
  | integer ht hv hlt => exact .integer ht hv hlt
  | text ht => exact .text ht
  | yes ht => exact .boolean (by rw [ht]; rfl) (by rw [ht]; rfl)
  | no ht => exact .boolean (by rw [ht]; rfl) (by rw [ht]; rfl)
  | group ho hc h ih => exact .group ho hc h.start.1 ih
  | array ho hc _ ih => exact .array ho hc ih
  | hash ho hc _ ih => exact .hash ho hc ih
  | conditional hw ho hc h hb ih ihb => exact .conditional hw ho hc h.start.1 hb.start ih ihb
  | alternative hw ho hc hx h hb ha ih ihb iha =>
    exact .alternative hw ho hc hx h.start.1 hb.start ha.start ih ihb iha
  | function hw ho hc h hb ihb => exact .function hw ho hc h hb.start ihb
  | empty => exact .empty
  | first h hr ih ihr => exact .first h.start.1 h.start.2 hr.start ih ihr
  | last => exact .last
  | next hc h hr ih ihr => exact .next hc h.start.1 hr.start ih ihr
  | noPair => exact .noPair
  | lastPair hc hk hv ihk ihv =>
    exact .lastPair hc hk.start.1 hv.start.1 hk.start.2 ihk ihv
  | nextPair hc hs hk hv _ ihk ihv ihr =>
    exact .nextPair hc hs hk.start.1 hv.start.1 hk.start.2 ihk ihv ihr
  | block _ hc _ ih => exact .block hc ih
  | binding hw ht ha h ih => exact .binding hw ht ha h.start.1 ih
  | returning hw h ih => exact .returning hw h.start.1 ih
  | expression h ih =>
    obtain ⟨hn, t, rest, he, ht⟩ := h.start
    cases he
    exact .expression hn ht ih
  | done => exact .done
  | terminated ht h _ ih ihr => exact .terminated ht h.start ih ihr
  | unterminated ht h hr ih ihr => exact .unterminated ht h.start hr.start ih ihr

end Scriptlet
