import Scriptlet.Proofs.Acceptance
import Scriptlet.Proofs.Canonical
import Scriptlet.Proofs.Tiling
import Scriptlet.Proofs.Yields

/-! The trees that parsing yields, with or without diagnostics. Every tree is canonical, and its
tokens are tokens of the source in the order of the source: what a parser reads lies between the
states before and after its run, part by part. -/
namespace Scriptlet

open Reader Scriptlet.Parser Layer

mutual

/-- The tokens of the nodes in the order in which they are written: a left operand before its
operator and a right one behind it, a callee before its arguments, a word before its parts. The
first token of a statement that is an expression is often the one of a node within; `heads` says
whether it is listed. -/
def Expr.inOrder (heads : Bool) : Expr → List Token
  | .name t _ => [t]
  | .integer t _ => [t]
  | .boolean t _ => [t]
  | .text t _ => [t]
  | .unary t _ right => t :: right.inOrder heads
  | .binary t left _ right => left.inOrder heads ++ t :: right.inOrder heads
  | .conditional t condition consequence none =>
    t :: (condition.inOrder heads ++ consequence.inOrder heads)
  | .conditional t condition consequence (some alternative) =>
    t :: (condition.inOrder heads ++ (consequence.inOrder heads ++ alternative.inOrder heads))
  | .function t parameters body => t :: (parameters.map Name.token ++ body.inOrder heads)
  | .call t callee arguments => callee.inOrder heads ++ t :: Expr.allInOrder heads arguments
  | .array t elements => t :: Expr.allInOrder heads elements
  | .index t left index => left.inOrder heads ++ t :: index.inOrder heads
  | .hash t pairs => t :: Expr.pairsInOrder heads pairs

def Expr.allInOrder (heads : Bool) : List Expr → List Token
  | [] => []
  | e :: es => e.inOrder heads ++ Expr.allInOrder heads es

def Expr.pairsInOrder (heads : Bool) : List (Expr × Expr) → List Token
  | [] => []
  | (key, value) :: pairs =>
    key.inOrder heads ++ (value.inOrder heads ++ Expr.pairsInOrder heads pairs)

def Block.inOrder (heads : Bool) : Block → List Token
  | .mk t body => t :: Stmt.allInOrder heads body

def Stmt.inOrder (heads : Bool) : Stmt → List Token
  | .binding t name value => t :: name.token :: value.inOrder heads
  | .returning t value => t :: value.inOrder heads
  | .expression t value =>
    if heads then t :: value.inOrder heads else value.inOrder heads
  | .block b => b.inOrder heads

def Stmt.allInOrder (heads : Bool) : List Stmt → List Token
  | [] => []
  | s :: ss => s.inOrder heads ++ Stmt.allInOrder heads ss

end

def Program.inOrder (heads : Bool) (p : Program) : List Token :=
  Stmt.allInOrder heads p.statements

theorem Expr.inOrder_ne_nil (heads : Bool) (e : Expr) : e.inOrder heads ≠ [] := by
  cases e with
  | conditional t condition consequence alternative => cases alternative <;> simp [inOrder]
  | _ => simp [inOrder]

section Lists

variable {heads : Bool}

theorem Expr.allInOrder_concat (es : List Expr) (e : Expr) :
    allInOrder heads (es ++ [e]) = allInOrder heads es ++ e.inOrder heads := by
  induction es with
  | nil => exact List.append_nil _
  | cons d es ih => rw [List.cons_append, allInOrder, ih, allInOrder, List.append_assoc]

theorem Expr.pairsInOrder_concat (ps : List (Expr × Expr)) (p : Expr × Expr) :
    pairsInOrder heads (ps ++ [p]) =
      pairsInOrder heads ps ++ (p.1.inOrder heads ++ p.2.inOrder heads) := by
  induction ps with
  | nil => simp [pairsInOrder]
  | cons q ps ih => simp [pairsInOrder, ih]

theorem Stmt.allInOrder_concat (ss : List Stmt) (st : Stmt) :
    allInOrder heads (ss ++ [st]) = allInOrder heads ss ++ st.inOrder heads := by
  induction ss with
  | nil => exact List.append_nil _
  | cons s ss ih => rw [List.cons_append, allInOrder, ih, allInOrder, List.append_assoc]

theorem Expr.allCanonical_concat {es : List Expr} {e : Expr} (hes : AllCanonical es)
    (he : e.Canonical) : AllCanonical (es ++ [e]) := by
  induction es with
  | nil => exact ⟨he, trivial⟩
  | cons d es ih => exact ⟨hes.1, ih hes.2⟩

theorem Expr.pairsCanonical_concat {ps : List (Expr × Expr)} {p : Expr × Expr}
    (hps : PairsCanonical ps) (hp : p.1.Canonical ∧ p.2.Canonical) :
    PairsCanonical (ps ++ [p]) := by
  induction ps with
  | nil => exact ⟨hp.1, hp.2, trivial⟩
  | cons q ps ih => exact ⟨hps.1, hps.2.1, ih hps.2.2⟩

theorem Stmt.allCanonical_concat {ss : List Stmt} {st : Stmt} (hss : AllCanonical ss)
    (hst : st.Canonical) : AllCanonical (ss ++ [st]) := by
  induction ss with
  | nil => exact ⟨hst, trivial⟩
  | cons s ss ih => exact ⟨hss.1, ih hss.2⟩

end Lists

/-- The tokens are among those read, and each stands before the ones listed behind it. With
`heads`, a token may be listed again. -/
structure Within (heads : Bool) (ts read : List Token) : Prop where
  mem : ∀ t ∈ ts, t ∈ read
  order : ts.Pairwise fun t u => heads = true ∧ t = u ∨ [t, u].Sublist read

namespace Within

variable {heads : Bool} {ts us read more : List Token} {t : Token}

theorem nil : Within heads [] read :=
  ⟨fun _ h => absurd h List.not_mem_nil, .nil⟩

theorem single (h : t ∈ read) : Within heads [t] read :=
  ⟨fun _ hu => List.mem_singleton.mp hu ▸ h, List.pairwise_singleton _ _⟩

theorem append (ht : Within heads ts read) (hu : Within heads us more) :
    Within heads (ts ++ us) (read ++ more) := by
  constructor
  · intro t h
    rcases List.mem_append.mp h with h | h
    · exact List.mem_append_left _ (ht.mem t h)
    · exact List.mem_append_right _ (hu.mem t h)
  · refine List.pairwise_append.mpr ⟨ht.order.imp ?_, hu.order.imp ?_, ?_⟩
    · exact Or.imp_right fun h => h.trans (List.sublist_append_left _ _)
    · exact Or.imp_right fun h => h.trans (List.sublist_append_right _ _)
    · intro t h u h'
      exact .inr ((List.singleton_sublist.mpr (ht.mem t h)).append
        (List.singleton_sublist.mpr (hu.mem u h')))

theorem head (h : Within true ts (t :: read)) : Within true (t :: ts) (t :: read) := by
  constructor
  · intro u hu
    rcases List.mem_cons.mp hu with rfl | hu
    · exact List.mem_cons_self
    · exact h.mem u hu
  · refine List.pairwise_cons.mpr ⟨fun u hu => ?_, h.order⟩
    rcases List.mem_cons.mp (h.mem u hu) with rfl | hmem
    · exact .inl ⟨rfl, rfl⟩
    · exact .inr (.cons_cons t (List.singleton_sublist.mpr hmem))

end Within

/-- The tokens lie between two states: behind the start of the first one and before the current
token of the second one. -/
def Covers (heads : Bool) (s : State) (ts : List Token) (t : State) : Prop :=
  ∃ read, s.ahead = read ++ t.ahead ∧ Within heads ts read

namespace Covers

variable {heads : Bool} {s t u : State} {ts us : List Token}

theorem append (hst : Covers heads s ts t) (htu : Covers heads t us u) :
    Covers heads s (ts ++ us) u := by
  obtain ⟨read, hread, hts⟩ := hst
  obtain ⟨more, hmore, hus⟩ := htu
  exact ⟨read ++ more, by rw [hread, hmore, List.append_assoc], hts.append hus⟩

theorem of_passes (h : s.Passes t) : Covers heads s [] t := by
  obtain ⟨read, hread⟩ := h
  exact ⟨read, hread.symm, .nil⟩

theorem skip (h : Covers heads s ts t) (hp : t.Passes u) : Covers heads s ts u := by
  have hskip := h.append (of_passes hp)
  rwa [List.append_nil] at hskip

theorem advance (h : Covers heads s ts t) : Covers heads s ts t.advance :=
  h.skip (Frame.advance t)

theorem current (hs : s.Sealed) (hne : s.current.kind ≠ .endOfInput) :
    Covers heads s [s.current] s.advance :=
  ⟨[s.current], hs.ahead_eq hne, .single (List.mem_singleton_self _)⟩

theorem cons (hs : s.Sealed) (hne : s.current.kind ≠ .endOfInput)
    (h : Covers heads s.advance ts t) : Covers heads s (s.current :: ts) t :=
  (current hs hne).append h

end Covers

theorem Covers.head {s t : State} {ts : List Token} (h : Covers true s ts t) (hne : ts ≠ []) :
    Covers true s (s.current :: ts) t := by
  obtain ⟨read, hread, hts⟩ := h
  cases read with
  | nil =>
    obtain ⟨u, hu⟩ := List.exists_mem_of_ne_nil ts hne
    exact absurd (hts.mem u hu) List.not_mem_nil
  | cons c read =>
    have hc : s.current = c := by rw [s.current_eq, hread]; rfl
    rw [hc]
    exact ⟨c :: read, hread, hts.head⟩

/-- Something canonical that was read between two states. -/
structure Lies {α : Type} (canonical : α → Prop) (inOrder : Bool → α → List Token) (s : State)
    (a : α) (t : State) : Prop where
  canonical : canonical a
  covers (heads : Bool) : Covers heads s (inOrder heads a) t

namespace Lies

variable {α : Type} {canonical : α → Prop} {inOrder : Bool → α → List Token} {s t u : State}
  {a : α}

theorem skip (h : Lies canonical inOrder s a t) (hp : t.Passes u) : Lies canonical inOrder s a u :=
  ⟨h.canonical, fun heads => (h.covers heads).skip hp⟩

theorem advance (h : Lies canonical inOrder s a t) : Lies canonical inOrder s a t.advance :=
  h.skip (Frame.advance t)

/-- What was read behind the current token was read from that token on. -/
theorem later (h : Lies canonical inOrder s.advance a t) : Lies canonical inOrder s a t :=
  ⟨h.canonical, fun heads => (Covers.of_passes (Frame.advance s)).append (h.covers heads)⟩

theorem nest (h : Lies canonical inOrder s.enter a t.advance) :
    Lies canonical inOrder s a t.leave.advance :=
  ⟨h.canonical, h.covers⟩

end Lies

abbrev Expr.Lies : State → Expr → State → Prop :=
  Scriptlet.Lies Expr.Canonical Expr.inOrder

abbrev Expr.AllLie : State → List Expr → State → Prop :=
  Scriptlet.Lies Expr.AllCanonical Expr.allInOrder

abbrev Expr.PairsLie : State → List (Expr × Expr) → State → Prop :=
  Scriptlet.Lies Expr.PairsCanonical Expr.pairsInOrder

abbrev Name.AllLie : State → List Name → State → Prop :=
  Scriptlet.Lies (fun names => ∀ p ∈ names, p.Canonical) fun _ names => names.map Name.token

abbrev Block.Lies : State → Block → State → Prop :=
  Scriptlet.Lies Block.Canonical Block.inOrder

abbrev Stmt.Lies : State → Stmt → State → Prop :=
  Scriptlet.Lies Stmt.Canonical Stmt.inOrder

abbrev Stmt.AllLie : State → List Stmt → State → Prop :=
  Scriptlet.Lies Stmt.AllCanonical Stmt.allInOrder

theorem State.Sealed.is {s : State} {kind : Kind} (h : s.Sealed) (hk : s.current.kind = kind)
    (hne : kind ≠ .endOfInput) : s.current.Is kind := by
  refine ⟨hk, (h.ahead _ ?_).1⟩
  rw [h.ahead_eq (by rwa [hk])]
  exact List.mem_cons_self

/-- What a layer reads lies between the states before and after its run. -/
structure Orderly (n : Nat) : Prop where
  expr {floor : Power} {s : State} : s.Sealed →
    Yields ((ofRoom n).expr floor) s fun e t => e.Lies s t.advance
  block {s : State} : s.Sealed → s.current.kind = .openCurly →
    Yields (ofRoom n).block s fun b t => b.Lies s t.advance

namespace Orderly

variable {n : Nat} {s : State}

theorem nextElement (h : Orderly n) (hs : s.Sealed) :
    Yields (ofRoom n).nextElement s fun e t => e.Lies s.advance t.advance :=
  .advance (.advance ((h.expr hs.advance.advance).imp fun _ _ he => he.later))

theorem more (h : Orderly n) (hs : s.Sealed) :
    Yields (collect (fun s => s.peek.kind = .comma) (ofRoom n).nextElement) s
      fun es t => Expr.AllLie s.advance es t.advance := by
  refine .collect (fun es u hu _ hes => ?_) hs ⟨trivial, fun _ => .of_passes (Frame.refl _)⟩
  refine (h.nextElement hu).imp fun e t he => ?_
  refine ⟨Expr.allCanonical_concat hes.canonical he.canonical, fun heads => ?_⟩
  rw [Expr.allInOrder_concat]
  exact (hes.covers heads).append (he.covers heads)

theorem list (h : Orderly n) (hs : s.Sealed) (stop : Kind) :
    Yields ((ofRoom n).list stop) s fun es t => Expr.AllLie s.advance es t.advance := by
  refine .peek (.advance ?_)
  split
  next => exact .pure ⟨trivial, fun _ => .of_passes (Frame.advance _)⟩
  next =>
    refine .bind hs.advance (h.expr hs.advance) fun first t ht hfirst => ?_
    refine .bind ht (h.more ht) fun others u hu hothers => .expect fun _ => .pure ?_
    refine ⟨⟨hfirst.canonical, hothers.canonical⟩, fun heads => ?_⟩
    exact ((hfirst.covers heads).append (hothers.covers heads)).advance

theorem pair (h : Orderly n) (hs : s.Sealed) :
    Yields (ofRoom n).pair s fun p t =>
      (p.1.Canonical ∧ p.2.Canonical) ∧ ∀ heads,
        Covers heads s.advance (p.1.inOrder heads ++ p.2.inOrder heads) t.advance := by
  refine .advance (.bind hs.advance (h.expr hs.advance) fun key t ht hkey => .expect fun _ => ?_)
  refine .advance (.bind ht.advance.advance (h.expr ht.advance.advance) fun value u hu hvalue => ?_)
  have hboth (heads : Bool) :
      Covers heads s.advance (key.inOrder heads ++ value.inOrder heads) u.advance :=
    (hkey.covers heads).append (hvalue.later.covers heads)
  refine .peek ?_
  split
  next => exact .expect fun _ => .pure ⟨⟨hkey.1, hvalue.1⟩, fun heads => (hboth heads).advance⟩
  next => exact .pure ⟨⟨hkey.1, hvalue.1⟩, hboth⟩

theorem pairs (h : Orderly n) (hs : s.Sealed) :
    Yields (ofRoom n).pairs s fun ps t => Expr.PairsLie s.advance ps t.advance := by
  have hread : Yields (collect (fun s => s.peek.kind ≠ .closeCurly) (ofRoom n).pair) s
      fun ps t => Expr.PairsLie s.advance ps t.advance := by
    refine .collect (fun ps u hu _ hps => ?_) hs ⟨trivial, fun _ => .of_passes (Frame.refl _)⟩
    refine (h.pair hu).imp fun p t hp => ?_
    refine ⟨Expr.pairsCanonical_concat hps.canonical hp.1, fun heads => ?_⟩
    rw [Expr.pairsInOrder_concat]
    exact (hps.covers heads).append (hp.2 heads)
  exact .bind hs hread fun ps t _ hps => .expect fun _ => .pure hps.advance

theorem conditional (h : Orderly n) (hs : s.Sealed) (hw : s.current.kind = .ifWord) :
    Yields (ofRoom n).conditional s fun e t => e.Lies s t.advance := by
  have hne : s.current.kind ≠ .endOfInput := by rw [hw]; decide
  refine .current (.expect fun _ => .advance ?_)
  refine .bind hs.advance.advance (h.expr hs.advance.advance) fun condition t ht hc => ?_
  refine .expect fun _ => .expect fun hcurly => ?_
  have ht := ht.advance
  refine .bind ht.advance (h.block ht.advance hcurly) fun consequence u hu hb => .peek ?_
  have hparts (heads : Bool) : Covers heads s.advance
      (condition.inOrder heads ++ consequence.inOrder heads) u.advance :=
    (hc.later.covers heads).append (hb.later.covers heads)
  split
  next =>
    refine .advance (.expect fun hcurly => ?_)
    have hu := hu.advance
    refine .bind hu.advance (h.block hu.advance hcurly) fun alternative v _ ha => .pure ?_
    refine ⟨⟨hs.is hw (by decide), hc.1, hb.1, ha.1⟩, fun heads => .cons hs hne ?_⟩
    rw [← List.append_assoc]
    exact (hparts heads).append (ha.later.covers heads)
  next =>
    exact .pure ⟨⟨hs.is hw (by decide), hc.1, hb.1⟩, fun heads => .cons hs hne (hparts heads)⟩

theorem parameters (hs : s.Sealed) :
    Yields Layer.parameters s fun names t => Name.AllLie s.advance names t.advance := by
  refine .peek ?_
  split
  next => exact .advance (.pure ⟨nofun, fun _ => .of_passes (Frame.advance _)⟩)
  next =>
    refine .expect fun hname => .readName ?_
    have hs := hs.advance
    have hne : s.advance.current.kind ≠ .endOfInput := by
      rw [State.current_advance, hname]
      decide
    have hothers : Yields (collect (fun s => s.peek.kind = .comma) nextParameter) s.advance
        fun names t => Name.AllLie s.advance.advance names t.advance := by
      refine .collect (fun names u hu _ hnames => ?_) hs ⟨nofun, fun _ => .of_passes (Frame.refl _)⟩
      refine .advance (.expect fun hname => .current (.pure ⟨?_, fun heads => ?_⟩))
      · intro p hp
        rcases List.mem_append.mp hp with hp | hp
        · exact hnames.canonical p hp
        · rw [List.mem_singleton.mp hp]
          exact ⟨hu.advance.advance.is hname (by decide), rfl⟩
      · rw [List.map_append]
        refine (hnames.covers heads).advance.append ?_
        refine .current hu.advance.advance ?_
        rw [State.current_advance, hname]
        decide
    refine .bind hs hothers fun others t _ hothers => .expect fun _ => .pure ⟨?_, fun heads => ?_⟩
    · exact List.forall_mem_cons.mpr ⟨⟨hs.is hname (by decide), rfl⟩, hothers.canonical⟩
    · exact .cons hs hne (hothers.advance.covers heads)

theorem function (h : Orderly n) (hs : s.Sealed) (hw : s.current.kind = .fnWord) :
    Yields (ofRoom n).function s fun e t => e.Lies s t.advance := by
  have hne : s.current.kind ≠ .endOfInput := by rw [hw]; decide
  refine .current (.expect fun _ => ?_)
  refine .bind hs.advance (parameters hs.advance) fun names t ht hnames => .expect fun hcurly => ?_
  refine .bind ht.advance (h.block ht.advance hcurly) fun body u _ hb => .pure ?_
  refine ⟨⟨hs.is hw (by decide), hnames.1, hb.1⟩, fun heads => .cons hs hne ?_⟩
  exact (hnames.later.covers heads).append (hb.covers heads)

theorem leaf {e : Expr} (hs : s.Sealed) (hne : s.current.kind ≠ .endOfInput) (hc : e.Canonical)
    (htoken : ∀ heads, e.inOrder heads = [s.current]) : e.Lies s s.advance := by
  refine ⟨hc, fun heads => ?_⟩
  rw [htoken]
  exact .current hs hne

theorem integer (hs : s.Sealed) (hk : s.current.kind = .number) :
    Yields Layer.integer s fun e t => e.Lies s t.advance := by
  have hnum := (hs.is hk (by decide)).spelled.number hk
  have hint := Text.int64?_of_digits hnum.nonempty hnum.digits
  refine .current ?_
  split at hint
  next hlt =>
    rw [hint]
    refine .pure (leaf hs (by rw [hk]; decide) ⟨hk, _, ?_, hlt, rfl⟩ fun _ => rfl)
    exact Text.natural?_eq_some_iff.2 ⟨hnum.nonempty, hnum.digits, rfl⟩
  next =>
    rw [hint]
    exact .refuse

theorem unary (h : Orderly n) (hs : s.Sealed)
    (hop : s.current.kind = .bang ∨ s.current.kind = .minus) :
    Yields (ofRoom n).unary s fun e t => e.Lies s t.advance := by
  have hne : s.current.kind ≠ .endOfInput := by rcases hop with hk | hk <;> rw [hk] <;> decide
  refine .current (.advance (.bind hs.advance (h.expr hs.advance) fun right t _ hr => .pure ?_))
  refine ⟨⟨⟨?_, (hs.is rfl hne).spelled⟩, rfl, hr.1⟩, fun heads => .cons hs hne (hr.covers heads)⟩
  simpa [Kind.unaryOperators] using hop

theorem opening (h : Orderly n) (hs : s.Sealed) {form : Opening}
    (hform : s.current.kind.opening? = some form) :
    Yields ((ofRoom n).opening form) s fun e t => e.Lies s t.advance := by
  have hne : s.current.kind ≠ .endOfInput := by
    intro hk
    rw [hk] at hform
    cases hform
  cases hk : s.current.kind <;> rw [hk] at hform <;> cases hform
  case name =>
    exact .current (.pure (leaf hs hne ⟨hs.is hk (by decide), rfl⟩ fun _ => rfl))
  case number => exact integer hs hk
  case text => exact .current (.pure (leaf hs hne ⟨hk, rfl⟩ fun _ => rfl))
  case trueWord | falseWord =>
    refine .current (.pure (leaf hs hne ?_ fun _ => rfl))
    rw [hk]
    exact hs.is hk (by decide)
  case bang => exact h.unary hs (.inl hk)
  case minus => exact h.unary hs (.inr hk)
  case openParen =>
    refine .advance (.bind hs.advance (h.expr hs.advance) fun inner t _ hi => ?_)
    exact .expect fun _ => .pure hi.later.advance
  case openBracket =>
    refine .current (.bind hs (h.list hs .closeBracket) fun es t _ hes => .pure ?_)
    exact ⟨⟨hs.is hk (by decide), hes.1⟩, fun heads => .cons hs hne (hes.covers heads)⟩
  case openCurly =>
    refine .current (.bind hs (.noting (h.pairs hs)) fun ps t _ hps => .pure ?_)
    exact ⟨⟨hs.is hk (by decide), hps.1⟩, fun heads => .cons hs hne (hps.covers heads)⟩
  case ifWord => exact h.conditional hs hk
  case fnWord => exact h.function hs hk

/-- The joining token has been stepped onto, and what was read before it is the first operand. -/
theorem joining (h : Orderly n) {form : Joining} {power : Power} {left : Expr} {u : State}
    (hu : u.Sealed) (hj : u.current.kind.joining? = some (form, power)) (hl : left.Lies s u) :
    Yields ((ofRoom n).joining form left power) u fun e t => e.Lies s t.advance := by
  have hne : u.current.kind ≠ .endOfInput := by
    intro hk
    rw [hk] at hj
    cases hj
  cases form with
  | binary =>
    obtain ⟨tier, next, hop, -⟩ := Tier.exists_of_joining hj
    refine .current (.advance (.bind hu.advance (h.expr hu.advance) fun right t _ hr => .pure ?_))
    refine ⟨⟨⟨Tier.mem_binaryOperators hop, (hu.is rfl hne).spelled⟩, rfl, hl.1, hr.1⟩, ?_⟩
    exact fun heads => (hl.covers heads).append (.cons hu hne (hr.covers heads))
  | call =>
    obtain ⟨ho, -⟩ := Kind.eq_of_joining?_call hj
    refine .current (.bind hu (h.list hu .closeParen) fun es t _ hes => .pure ?_)
    refine ⟨⟨hu.is ho (by decide), hl.1, hes.1⟩, fun heads => ?_⟩
    exact (hl.covers heads).append (.cons hu hne (hes.covers heads))
  | index =>
    obtain ⟨ho, -⟩ := Kind.eq_of_joining?_index hj
    refine .current (.advance (.bind hu.advance (h.expr hu.advance) fun index t _ hi => ?_))
    refine .expect fun _ => .pure ⟨⟨hu.is ho (by decide), hl.1, hi.1⟩, fun heads => ?_⟩
    exact (hl.covers heads).append (.cons hu hne (hi.advance.covers heads))

theorem extend (h : Orderly n) {floor : Power} {left : Expr} {u : State} (hu : u.Sealed)
    (hl : left.Lies s u.advance) :
    Yields ((ofRoom n).extend floor left) u fun e t => e.Lies s t.advance := by
  refine .peek ?_
  split
  next => exact .pure hl
  next form power hj =>
    exact .note (.advance (h.joining (hu.note _).advance hj ⟨hl.canonical, hl.covers⟩))

theorem climb (h : Orderly n) (hs : s.Sealed) {floor : Power} :
    Yields ((ofRoom n).climb floor) s fun e t => e.Lies s t.advance := by
  refine .current ?_
  split
  next => exact .refuse
  next form hform =>
    refine .bind hs (h.opening hs hform) fun first t ht hfirst => ?_
    -- Round after round, what was read so far lies between the start and the next token.
    exact .repeatWhile (fun left u hu _ hleft => h.extend hu hleft) ht hfirst

theorem passes_skipSemicolon (s : State) : s.advance.Passes s.skipSemicolon.advance := by
  unfold State.skipSemicolon
  split
  · exact Frame.advance _
  · exact Frame.refl _

theorem stmt (h : Orderly n) (hs : s.Sealed) :
    Yields (ofRoom n).stmt s fun st t => st.Lies s t.advance := by
  refine .current ?_
  cases hform : s.current.kind.heading? with
  | none =>
    refine .current (.bind hs (h.expr hs) fun value t _ hv => .skipSemicolon (.pure ?_))
    have hv := hv.skip (passes_skipSemicolon t)
    refine ⟨hv.canonical, fun heads => ?_⟩
    cases heads with
    | false => exact hv.covers false
    | true => exact (hv.covers true).head (value.inOrder_ne_nil true)
  | some form =>
    cases form with
    | binding =>
      have hw : s.current.kind = .letWord := by
        cases hk : s.current.kind <;> rw [hk] at hform <;> cases hform
      refine .current (.expect fun hname => .readName (.expect fun _ => .advance ?_))
      refine .bind hs.advance.advance.advance (h.expr hs.advance.advance.advance)
        fun value t _ hv => .skipSemicolon (.pure ?_)
      have hv := hv.skip (passes_skipSemicolon t)
      refine ⟨⟨hs.is hw (by decide), ⟨hs.advance.is hname (by decide), rfl⟩, hv.1⟩, fun heads => ?_⟩
      refine .cons hs (by rw [hw]; decide) (.cons hs.advance ?_ (hv.later.covers heads))
      rw [State.current_advance, hname]
      decide
    | returning =>
      have hw : s.current.kind = .returnWord := by
        cases hk : s.current.kind <;> rw [hk] at hform <;> cases hform
      refine .current (.advance (.bind hs.advance (h.expr hs.advance) fun value t _ hv => ?_))
      refine .skipSemicolon (.pure ?_)
      have hv := hv.skip (passes_skipSemicolon t)
      refine ⟨⟨hs.is hw (by decide), hv.1⟩, fun heads => ?_⟩
      exact .cons hs (by rw [hw]; decide) (hv.covers heads)

theorem stmtOrSkip {ε : Type} (h : Orderly n) (hs : s.Sealed) :
    Yields ((ofRoom n).stmtOrSkip : Reader ε _) s fun st? t => ∀ st ∈ st?, st.Lies s t :=
  .bind hs (.recovering (h.stmt hs)) fun _ _ _ hst => .advance (.pure hst)

theorem stmts {ε : Type} (h : Orderly n) (hs : s.Sealed) (goesOn : State → Bool) :
    Yields ((ofRoom n).stmts goesOn : Reader ε _) s fun ss t => Stmt.AllLie s ss t := by
  have hread : Yields (collect goesOn (ofRoom n).stmtOrSkip : Reader ε _) s
      fun read t => Stmt.AllLie s (read.filterMap id) t := by
    refine .collect (fun read u hu _ hss => ?_) hs ⟨trivial, fun _ => .of_passes (Frame.refl _)⟩
    refine ((h.stmtOrSkip hu).and (.keeps State.Passes)).imp fun st? t ⟨hst, hpass⟩ => ?_
    rw [List.filterMap_append]
    cases st? with
    | none => exact (List.append_nil _).symm ▸ hss.skip hpass
    | some st =>
      have hst := hst st rfl
      refine ⟨Stmt.allCanonical_concat hss.canonical hst.canonical, fun heads => ?_⟩
      change Covers heads s (Stmt.allInOrder heads (_ ++ [st])) t
      rw [Stmt.allInOrder_concat]
      exact (hss.covers heads).append (hst.covers heads)
  exact .bind hs hread fun read t _ hss => .pure hss

theorem braces (h : Orderly n) (hs : s.Sealed) (ho : s.current.kind = .openCurly) :
    Yields (ofRoom n).braces s fun b t => b.Lies s t.advance := by
  refine .current (.advance (.bind hs.advance (h.stmts hs.advance _) fun body t _ hbody => ?_))
  refine .current ?_
  split
  next => exact .refuse
  next =>
    refine .pure ⟨⟨hs.is ho (by decide), hbody.1⟩, fun heads => ?_⟩
    exact .cons hs (by rw [ho]; decide) (hbody.advance.covers heads)

theorem succ (h : Orderly n) : Orderly (n + 1) where
  expr hs := .nest ((h.climb hs.enter).imp fun _ _ he => he.nest)
  block hs ho := .nest ((h.braces hs.enter ho).imp fun _ _ hb => hb.nest)

end Orderly

theorem Layer.orderly (n : Nat) : Orderly n := by
  induction n with
  | zero => exact ⟨fun _ => .current .refuse, fun _ _ => .current .refuse⟩
  | succ n ih => exact ih.succ

/-- The program is canonical and was read from the tokens in their order. -/
structure Program.InSourceOrder (p : Program) (ts : List Token) : Prop where
  canonical : p.Canonical
  /-- The tokens of all nodes are among those read, with their spans. -/
  mem : ∀ t ∈ p.inOrder true, t ∈ ts
  /-- No token belongs to two nodes, and none stands before the ones that should precede it. -/
  strict : (p.inOrder false).Pairwise (·.span.start < ·.span.start)
  /-- The first token of a statement that is an expression stands before it or is in it. -/
  heads : (p.inOrder true).Pairwise (·.span.start ≤ ·.span.start)

/-- Every tree that parsing yields, errors or not, is canonical and in the order of the source. -/
theorem parse_in_source_order (file source : String)
    (hsize : Text.byteSize source.toList ≤ maxOffset) :
    (parse file source).program.InSourceOrder (tokenize file source) := by
  obtain ⟨ss, t, ht⟩ := exists_wholeStmts (.ofSource file source)
  have hlies := (Layer.orderly maxNesting).stmts (State.ofSource_sealed file source) _ ss t ht
  have hwithin (heads : Bool) :
      Within heads (Stmt.allInOrder heads ss) (tokenize file source) := by
    obtain ⟨read, hread, hss⟩ := hlies.covers heads
    have hnone : Within heads [] (t.ahead ++ [t.input.stop]) := .nil
    have hsource := hss.append hnone
    rw [← List.append_assoc, ← hread, List.append_nil] at hsource
    have hstop : (State.ofSource file source).input.stop = t.input.stop :=
      Keeps.of_ok (R := fun s t => s.input.stop = t.input.stop) ht
    rwa [← hstop] at hsource
  have horder {t u : Token} (h : [t, u].Sublist (tokenize file source)) :
      t.span.start < u.span.start := by
    have hinc := (Cursor.tiled_tokens file ⟨0, source.toList⟩ (by simpa using hsize)).increasing
    exact (List.rel_of_pairwise_cons (hinc.sublist h) (List.mem_singleton_self u)).1
  rw [parse_eq ht]
  refine ⟨hlies.canonical, (hwithin true).mem, ?_, ?_⟩
  · refine (hwithin false).order.imp fun h => ?_
    rcases h with ⟨hfalse, -⟩ | h
    · cases hfalse
    · exact horder h
  · refine (hwithin true).order.imp fun h => ?_
    rcases h with ⟨-, rfl⟩ | h
    · exact Nat.le_refl _
    · exact Nat.le_of_lt (horder h)

/-- A bracket that begins a statement without being the token of a node, a statement that is given
up in the middle, and one behind it. -/
theorem parse_in_source_order_recovered :
    Text.byteSize "(1) + f(2); let = 3; if (a) \x7b b \x7d".toList ≤ maxOffset ∧
      (parse "f" "(1) + f(2); let = 3; if (a) \x7b b \x7d").program.InSourceOrder
        (tokenize "f" "(1) + f(2); let = 3; if (a) \x7b b \x7d") := by
  have hsize : Text.byteSize "(1) + f(2); let = 3; if (a) \x7b b \x7d".toList ≤ maxOffset := by
    decide
  exact ⟨hsize, parse_in_source_order _ _ hsize⟩

end Scriptlet
