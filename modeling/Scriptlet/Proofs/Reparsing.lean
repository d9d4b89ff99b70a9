import Scriptlet.Proofs.Acceptance
import Scriptlet.Proofs.Words
import Scriptlet.Tree.Alike

/-! Printing and parsing again. The words of a canonical tree derive a tree that is alike, and the
parentheses that the printer adds fix how many levels that takes. So a printed program is read back
if and only if those levels stay within the limit. -/
namespace Scriptlet

mutual

/-- How many levels the printed form of an expression takes. The printer puts parentheses around
operators and indexing, and each pair of them takes a level. -/
def Expr.level : Expr → Nat
  | .name .. => 1
  | .integer .. => 1
  | .boolean .. => 1
  | .text .. => 1
  | .unary _ _ right => right.level + 2
  | .binary _ left _ right => max (left.level + 1) (right.level + 2)
  | .conditional _ condition consequence none =>
    max (condition.level + 1) (consequence.level + 1)
  | .conditional _ condition consequence (some alternative) =>
    max (condition.level + 1) (max (consequence.level + 1) (alternative.level + 1))
  | .function _ _ body => body.level + 1
  | .call _ callee arguments => max callee.level (Expr.maxLevel arguments + 1)
  | .array _ elements => Expr.maxLevel elements + 1
  | .index _ left index => max (left.level + 1) (index.level + 2)
  | .hash _ pairs => Expr.maxPairLevel pairs + 1

def Expr.maxLevel : List Expr → Nat
  | [] => 0
  | e :: es => max e.level (Expr.maxLevel es)

def Expr.maxPairLevel : List (Expr × Expr) → Nat
  | [] => 0
  | (key, value) :: pairs => max (max key.level value.level) (Expr.maxPairLevel pairs)

def Block.level : Block → Nat
  | .mk _ body => Stmt.maxLevel body + 1

def Stmt.level : Stmt → Nat
  | .binding _ _ value => value.level
  | .returning _ value => value.level
  | .expression _ value => value.level
  | .block b => b.level

def Stmt.maxLevel : List Stmt → Nat
  | [] => 0
  | s :: ss => max s.level (Stmt.maxLevel ss)

end

theorem Stmt.maxLevel_le_iff {ss : List Stmt} {n : Nat} :
    Stmt.maxLevel ss ≤ n ↔ ∀ s ∈ ss, s.level ≤ n := by
  induction ss with
  | nil => simp [Stmt.maxLevel]
  | cons s ss ih => simp only [Stmt.maxLevel, Nat.max_le, List.forall_mem_cons, ih]

namespace Token

variable {t u : Token} {kind : Kind}

theorem kind_of_word (h : t.word = kind.word) : t.kind = kind :=
  congrArg Prod.fst h

theorem kind_eq_of_word (h : t.word = u.word) : t.kind = u.kind :=
  congrArg Prod.fst h

theorem kind_of_is (h : u.word = t.word) (ht : t.Is kind) : u.kind = kind :=
  (kind_eq_of_word h).trans ht.kind

theorem text_eq_of_word (h : t.word = u.word) : t.text = u.text :=
  congrArg Prod.snd h

theorem alike_of_word (h : t.word = u.word) : t.alike u = true :=
  alike_iff.2 ⟨kind_eq_of_word h, text_eq_of_word h⟩

end Token

theorem commaWords_cons (words : List Word) (items : List (List Word)) :
    commaWords (words :: items) = words ++ items.flatMap (Kind.comma.word :: ·) := by
  induction items generalizing words with
  | nil => simp [commaWords]
  | cons words' items ih =>
    have hcons : commaWords (words :: words' :: items) =
        words ++ Kind.comma.word :: commaWords (words' :: items) := by
      simp [commaWords]
    rw [hcons, ih, List.flatMap_cons]
    rfl

theorem MoreNames.of_words {names : List Name} (h : ∀ p ∈ names, p.Canonical) {ts : List Token}
    (hts : ts.map Token.word = (names.map fun p => [p.token.word]).flatMap (Kind.comma.word :: ·)) :
    ∃ names', MoreNames ts names' ∧ Name.allAlike names' names = true := by
  induction names generalizing ts with
  | nil =>
    obtain rfl : ts = [] := by simpa using hts
    exact ⟨[], .nil, rfl⟩
  | cons p names ih =>
    obtain ⟨hp, hnames⟩ := List.forall_mem_cons.mp h
    simp only [List.map_cons, List.flatMap_cons, List.cons_append, List.nil_append,
      List.map_eq_cons_iff] at hts
    obtain ⟨comma, _, rfl, hcomma, t, ts, rfl, ht, hts⟩ := hts
    obtain ⟨names', hmore, halike⟩ := ih hnames hts
    have hkind : t.kind = .name := Token.kind_of_is ht hp.token
    refine ⟨⟨t, t.text⟩ :: names', .cons (Token.kind_of_word hcomma) hkind hmore, ?_⟩
    simp [Name.allAlike, Name.alike, halike, Token.alike_of_word ht, hp.value,
      Token.text_eq_of_word ht]

theorem Names.of_words {names : List Name} (h : ∀ p ∈ names, p.Canonical) {ts : List Token}
    (hts : ts.map Token.word = commaWords (names.map fun p => [p.token.word])) :
    ∃ names', Names ts names' ∧ Name.allAlike names' names = true := by
  cases names with
  | nil =>
    obtain rfl : ts = [] := by simpa [commaWords] using hts
    exact ⟨[], .nil, rfl⟩
  | cons p names =>
    obtain ⟨hp, hnames⟩ := List.forall_mem_cons.mp h
    rw [List.map_cons, commaWords_cons, List.singleton_append, List.map_eq_cons_iff] at hts
    obtain ⟨t, ts, rfl, ht, hts⟩ := hts
    obtain ⟨names', hmore, halike⟩ := MoreNames.of_words hnames hts
    have hkind : t.kind = .name := Token.kind_of_is ht hp.token
    refine ⟨⟨t, t.text⟩ :: names', .cons hkind hmore, ?_⟩
    simp [Name.allAlike, Name.alike, halike, Token.alike_of_word ht, hp.value,
      Token.text_eq_of_word ht]

theorem Derives.cast {phrase : Phrase} {m n : Nat} {ts : List Token} {tree : phrase.Tree}
    (h : Derives phrase m ts tree) (hmn : m = n) : Derives phrase n ts tree :=
  hmn ▸ h

theorem Derives.suffixed {n : Nat} {ts : List Token} {e : Expr}
    (h : Derives (.expr .primary) n ts e) : Derives (.expr .suffixed) n ts e :=
  .tighter rfl h

theorem Derives.equality {n : Nat} {ts : List Token} {e : Expr}
    (h : Derives (.expr .suffixed) n ts e) : Derives (.expr .equality) n ts e :=
  h.loosen (by decide)

theorem Kind.joining?_of_mem_binaryOperators {kind : Kind} (h : kind ∈ binaryOperators) :
    ∃ power, kind.joining? = some (.binary, power) := by
  simp only [binaryOperators, List.mem_cons, List.not_mem_nil, or_false] at h
  rcases h with rfl | rfl | rfl | rfl | rfl | rfl | rfl | rfl <;> exact ⟨_, rfl⟩

/-- Any expression in the parentheses that the printer puts around it. -/
theorem Derives.parenthesized {tier : Tier} {n : Nat} {o c : Token} {ts : List Token} {e : Expr}
    (ho : o.word = Kind.openParen.word) (hc : c.word = Kind.closeParen.word)
    (h : Derives (.expr tier) n ts e) : Derives (.expr .suffixed) (n + 1) (o :: (ts ++ [c])) e :=
  .suffixed (.group (Token.kind_of_word ho) (Token.kind_of_word hc) (h.loosen (Nat.zero_le _)))

theorem Derives.operation {m n : Nat} {op : Token} {ls rs : List Token} {l r : Expr}
    (hop : op.kind ∈ Kind.binaryOperators) (hl : Derives (.expr .suffixed) m ls l)
    (hr : Derives (.expr .suffixed) n rs r) :
    ∃ tier : Tier, Derives (.expr tier) (max m (n + 1)) (ls ++ op :: rs)
      (.binary op l op.text r) := by
  obtain ⟨power, hj⟩ := Kind.joining?_of_mem_binaryOperators hop
  obtain ⟨tier, next, hmem, hnext, -, -⟩ := Tier.exists_of_joining hj
  obtain ⟨htier, htighter⟩ := Tier.rank_le_suffixed hmem hnext
  exact ⟨tier, .binary hmem hnext (hl.loosen htier) (hr.loosen htighter)⟩

mutual

/-- The words of a canonical expression derive an expression that is alike, and take the printed
level of it. -/
theorem Expr.derives : (e : Expr) → e.Canonical → ∀ {ts : List Token},
    ts.map Token.word = e.words →
    ∃ e' : Expr, Derives (.expr .suffixed) e.level ts e' ∧ e'.alike e = true
  | .name t value, ⟨ht, hvalue⟩, ts, hts => by
    simp only [Expr.words, List.map_eq_singleton_iff] at hts
    obtain ⟨u, rfl, hu⟩ := hts
    have hkind : u.kind = .name := Token.kind_of_is hu ht
    refine ⟨.name u u.text, .suffixed (.name hkind), ?_⟩
    simp [Expr.alike, Token.alike_of_word hu, Token.text_eq_of_word hu, hvalue]
  | .integer t value, ⟨ht, n, hn, hlt, hvalue⟩, ts, hts => by
    simp only [Expr.words, List.map_eq_singleton_iff] at hts
    obtain ⟨u, rfl, hu⟩ := hts
    have hkind : u.kind = .number := (Token.kind_eq_of_word hu).trans ht
    rw [← Token.text_eq_of_word hu] at hn
    refine ⟨.integer u n, .suffixed (.integer hkind hn hlt), ?_⟩
    simp [Expr.alike, Token.alike_of_word hu, hvalue]
  | .boolean t true, ht, ts, hts => by
    simp only [Expr.words, List.map_eq_singleton_iff] at hts
    obtain ⟨u, rfl, hu⟩ := hts
    refine ⟨.boolean u true, .suffixed (.yes (Token.kind_of_is hu ht)), ?_⟩
    simp [Expr.alike, Token.alike_of_word hu]
  | .boolean t false, ht, ts, hts => by
    simp only [Expr.words, List.map_eq_singleton_iff] at hts
    obtain ⟨u, rfl, hu⟩ := hts
    refine ⟨.boolean u false, .suffixed (.no (Token.kind_of_is hu ht)), ?_⟩
    simp [Expr.alike, Token.alike_of_word hu]
  | .text t value, ⟨ht, hvalue⟩, ts, hts => by
    simp only [Expr.words, List.map_eq_singleton_iff] at hts
    obtain ⟨u, rfl, hu⟩ := hts
    refine ⟨.text u u.text, .suffixed (.text ((Token.kind_eq_of_word hu).trans ht)), ?_⟩
    simp [Expr.alike, Token.alike_of_word hu, Token.text_eq_of_word hu, hvalue]
  | .unary t operator right, ⟨ht, hop, hright⟩, ts, hts => by
    simp only [Expr.words, List.map_eq_cons_iff, List.map_eq_append_iff, List.map_eq_nil_iff] at hts
    obtain ⟨o, _, rfl, ho, u, _, rfl, hu, rs, _, rfl, hrs, c, _, rfl, hc, rfl⟩ := hts
    obtain ⟨right', hd, halike⟩ := right.derives hright hrs
    have hkind : u.kind = .bang ∨ u.kind = .minus := by
      rw [Token.kind_eq_of_word hu]
      simpa [Kind.unaryOperators] using ht.kind
    have hunary : Derives (.expr .unary) (right.level + 1) (u :: rs) (.unary u u.text right') :=
      .unary hkind (hd.loosen (by decide))
    refine ⟨.unary u u.text right', hunary.parenthesized ho hc, ?_⟩
    simp [Expr.alike, Token.alike_of_word hu, Token.text_eq_of_word hu, hop, halike]
  | .binary t left operator right, ⟨ht, hop, hleft, hright⟩, ts, hts => by
    simp only [Expr.words, List.map_eq_cons_iff, List.map_eq_append_iff, List.map_eq_nil_iff] at hts
    obtain ⟨o, _, rfl, ho, ls, _, rfl, hls, u, _, rfl, hu, rs, _, rfl, hrs, c, _, rfl, hc, rfl⟩ :=
      hts
    obtain ⟨left', hl, hleft'⟩ := left.derives hleft hls
    obtain ⟨right', hr, hright'⟩ := right.derives hright hrs
    have hop' : u.kind ∈ Kind.binaryOperators := by
      rw [Token.kind_eq_of_word hu]
      exact ht.kind
    obtain ⟨tier, hbinary⟩ := Derives.operation hop' hl hr
    have hgroup := hbinary.parenthesized ho hc
    refine ⟨.binary u left' u.text right', ?_, ?_⟩
    · rw [List.append_assoc, List.cons_append] at hgroup
      refine hgroup.cast ?_
      simp only [Expr.level]
      omega
    · simp [Expr.alike, Token.alike_of_word hu, Token.text_eq_of_word hu, hop, hleft', hright']
  | .conditional t condition consequence none, ⟨ht, hcondition, hconsequence⟩, ts, hts => by
    simp only [Expr.words, List.map_eq_cons_iff, List.map_eq_append_iff] at hts
    obtain ⟨w, _, rfl, hw, o, _, rfl, ho, cs, _, rfl, hcs, c, bs, rfl, hc, hbs⟩ := hts
    obtain ⟨condition', hd, hcondition'⟩ := condition.derives hcondition hcs
    obtain ⟨consequence', hb, hconsequence'⟩ := consequence.derives hconsequence hbs
    refine ⟨.conditional w condition' consequence' none, .suffixed (.conditional
      (Token.kind_of_is hw ht) (Token.kind_of_word ho) (Token.kind_of_word hc) hd.equality hb), ?_⟩
    simp [Expr.alike, Token.alike_of_word hw, hcondition', hconsequence']
  | .conditional t condition consequence (some alternative),
    ⟨ht, hcondition, hconsequence, halternative⟩, ts, hts => by
    simp only [Expr.words, List.map_eq_cons_iff, List.map_eq_append_iff] at hts
    obtain ⟨w, _, rfl, hw, o, _, rfl, ho, cs, _, rfl, hcs, c, _, rfl, hc, bs, _, rfl, hbs, x, as,
      rfl, hx, has⟩ := hts
    obtain ⟨condition', hd, hcondition'⟩ := condition.derives hcondition hcs
    obtain ⟨consequence', hb, hconsequence'⟩ := consequence.derives hconsequence hbs
    obtain ⟨alternative', ha, halternative'⟩ := alternative.derives halternative has
    refine ⟨.conditional w condition' consequence' (some alternative'), .suffixed (.alternative
      (Token.kind_of_is hw ht) (Token.kind_of_word ho) (Token.kind_of_word hc)
      (Token.kind_of_word hx) hd.equality hb ha), ?_⟩
    simp [Expr.alike, Token.alike_of_word hw, hcondition', hconsequence', halternative']
  | .function t parameters body, ⟨ht, hparameters, hbody⟩, ts, hts => by
    simp only [Expr.words, List.map_eq_cons_iff, List.map_eq_append_iff] at hts
    obtain ⟨w, _, rfl, hw, o, _, rfl, ho, ps, _, rfl, hps, c, bs, rfl, hc, hbs⟩ := hts
    obtain ⟨parameters', hnames, hparameters'⟩ := Names.of_words hparameters hps
    obtain ⟨body', hb, hbody'⟩ := body.derives hbody hbs
    refine ⟨.function w parameters' body', .suffixed (.function
      (Token.kind_of_is hw ht) (Token.kind_of_word ho) (Token.kind_of_word hc) hnames hb), ?_⟩
    simp [Expr.alike, Token.alike_of_word hw, hparameters', hbody']
  | .call t callee arguments, ⟨ht, hcallee, harguments⟩, ts, hts => by
    simp only [Expr.words, List.map_eq_cons_iff, List.map_eq_append_iff, List.map_eq_nil_iff] at hts
    obtain ⟨fs, _, rfl, hfs, o, _, rfl, ho, as, _, rfl, has, c, _, rfl, hc, rfl⟩ := hts
    obtain ⟨callee', hf, hcallee'⟩ := callee.derives hcallee hfs
    obtain ⟨arguments', ha, harguments'⟩ := Expr.derivesList arguments harguments has
    refine ⟨.call o callee' arguments', .call (Token.kind_of_is ho ht) (Token.kind_of_word hc) hf
      ha, ?_⟩
    simp [Expr.alike, Token.alike_of_word ho, hcallee', harguments']
  | .array t elements, ⟨ht, helements⟩, ts, hts => by
    simp only [Expr.words, List.map_eq_cons_iff, List.map_eq_append_iff, List.map_eq_nil_iff] at hts
    obtain ⟨o, _, rfl, ho, es, _, rfl, hes, c, _, rfl, hc, rfl⟩ := hts
    obtain ⟨elements', he, helements'⟩ := Expr.derivesList elements helements hes
    refine ⟨.array o elements', .suffixed (.array (Token.kind_of_is ho ht)
      (Token.kind_of_word hc) he), ?_⟩
    simp [Expr.alike, Token.alike_of_word ho, helements']
  | .index t left index, ⟨ht, hleft, hindex⟩, ts, hts => by
    simp only [Expr.words, List.map_eq_cons_iff, List.map_eq_append_iff, List.map_eq_nil_iff] at hts
    obtain ⟨p, _, rfl, hp, ls, _, rfl, hls, o, _, rfl, ho, is, _, rfl, his, c, _, rfl, hc, q, _,
      rfl, hq, rfl⟩ := hts
    obtain ⟨left', hl, hleft'⟩ := left.derives hleft hls
    obtain ⟨index', hi, hindex'⟩ := index.derives hindex his
    have hinner := Derives.index (Token.kind_of_is ho ht) (Token.kind_of_word hc) hl hi.equality
    have hgroup := hinner.parenthesized hp hq
    refine ⟨.index o left' index', ?_, ?_⟩
    · simp only [List.append_assoc, List.cons_append, List.nil_append] at hgroup
      refine hgroup.cast ?_
      simp only [Expr.level]
      omega
    · simp [Expr.alike, Token.alike_of_word ho, hleft', hindex']
  | .hash t pairs, ⟨ht, hpairs⟩, ts, hts => by
    simp only [Expr.words, List.map_eq_cons_iff, List.map_eq_append_iff, List.map_eq_nil_iff] at hts
    obtain ⟨o, _, rfl, ho, ps, _, rfl, hps, c, _, rfl, hc, rfl⟩ := hts
    obtain ⟨pairs', hp, hpairs'⟩ := Expr.derivesPairs pairs hpairs hps
    refine ⟨.hash o pairs', .suffixed (.hash (Token.kind_of_is ho ht)
      (Token.kind_of_word hc) hp), ?_⟩
    simp [Expr.alike, Token.alike_of_word ho, hpairs']

theorem Expr.derivesList : (es : List Expr) → Expr.AllCanonical es → ∀ {ts : List Token},
    ts.map Token.word = commaWords (Expr.allWords es) →
    ∃ es' : List Expr, Derives .list (Expr.maxLevel es) ts es' ∧ Expr.allAlike es' es = true
  | [], _, ts, hts => by
    obtain rfl : ts = [] := by simpa [Expr.allWords, commaWords] using hts
    exact ⟨[], .empty, by simp [Expr.allAlike]⟩
  | e :: es, ⟨he, hes⟩, ts, hts => by
    rw [Expr.allWords, commaWords_cons, List.map_eq_append_iff] at hts
    obtain ⟨us, vs, rfl, hus, hvs⟩ := hts
    obtain ⟨e', hd, halike⟩ := e.derives he hus
    obtain ⟨es', hr, hrest⟩ := Expr.derivesMore es hes hvs
    exact ⟨e' :: es', .first hd.equality hr, by simp [Expr.allAlike, halike, hrest]⟩

theorem Expr.derivesMore : (es : List Expr) → Expr.AllCanonical es → ∀ {ts : List Token},
    ts.map Token.word = (Expr.allWords es).flatMap (Kind.comma.word :: ·) →
    ∃ es' : List Expr, Derives .more (Expr.maxLevel es) ts es' ∧ Expr.allAlike es' es = true
  | [], _, ts, hts => by
    obtain rfl : ts = [] := by simpa [Expr.allWords] using hts
    exact ⟨[], .last, by simp [Expr.allAlike]⟩
  | e :: es, ⟨he, hes⟩, ts, hts => by
    rw [Expr.allWords, List.flatMap_cons, List.cons_append, List.map_eq_cons_iff] at hts
    obtain ⟨comma, _, rfl, hcomma, hts⟩ := hts
    obtain ⟨us, vs, rfl, hus, hvs⟩ := List.map_eq_append_iff.mp hts
    obtain ⟨e', hd, halike⟩ := e.derives he hus
    obtain ⟨es', hr, hrest⟩ := Expr.derivesMore es hes hvs
    refine ⟨e' :: es', .next (Token.kind_of_word hcomma) hd.equality hr, ?_⟩
    simp [Expr.allAlike, halike, hrest]

theorem Expr.derivesPairs : (pairs : List (Expr × Expr)) → Expr.PairsCanonical pairs →
    ∀ {ts : List Token}, ts.map Token.word = commaWords (Expr.pairWords pairs) →
    ∃ pairs' : List (Expr × Expr), Derives .pairs (Expr.maxPairLevel pairs) ts pairs' ∧
      Expr.pairsAlike pairs' pairs = true
  | [], _, ts, hts => by
    obtain rfl : ts = [] := by simpa [Expr.pairWords, commaWords] using hts
    exact ⟨[], .noPair, by simp [Expr.pairsAlike]⟩
  | [(key, value)], ⟨hkey, hvalue, _⟩, ts, hts => by
    simp only [Expr.pairWords, commaWords, List.intercalate_singleton, List.map_eq_append_iff,
      List.map_eq_cons_iff] at hts
    obtain ⟨ks, _, rfl, hks, colon, vs, rfl, hcolon, hvs⟩ := hts
    obtain ⟨key', hk, hkey'⟩ := key.derives hkey hks
    obtain ⟨value', hv, hvalue'⟩ := value.derives hvalue hvs
    refine ⟨[(key', value')], ?_, ?_⟩
    · refine (Derives.lastPair (Token.kind_of_word hcolon) hk.equality hv.equality).cast ?_
      simp [Expr.maxPairLevel]
    · simp [Expr.pairsAlike, hkey', hvalue']
  | (key, value) :: pair :: pairs, ⟨hkey, hvalue, hpairs⟩, ts, hts => by
    have hwords : commaWords (Expr.pairWords ((key, value) :: pair :: pairs)) =
        key.words ++ Kind.colon.word :: (value.words ++ Kind.comma.word ::
          commaWords (Expr.pairWords (pair :: pairs))) := by
      simp [Expr.pairWords, commaWords]
    simp only [hwords, List.map_eq_append_iff, List.map_eq_cons_iff] at hts
    obtain ⟨ks, _, rfl, hks, colon, _, rfl, hcolon, vs, _, rfl, hvs, comma, rs, rfl, hcomma, hrs⟩ :=
      hts
    obtain ⟨key', hk, hkey'⟩ := key.derives hkey hks
    obtain ⟨value', hv, hvalue'⟩ := value.derives hvalue hvs
    obtain ⟨pairs', hr, hpairs'⟩ := Expr.derivesPairs (pair :: pairs) hpairs hrs
    refine ⟨(key', value') :: pairs', .nextPair (Token.kind_of_word hcolon)
      (Token.kind_of_word hcomma) hk.equality hv.equality hr, ?_⟩
    simp [Expr.pairsAlike, hkey', hvalue', hpairs']

theorem Block.derives : (b : Block) → b.Canonical → ∀ {ts : List Token},
    ts.map Token.word = b.words →
    ∃ b' : Block, Derives .block b.level ts b' ∧ b'.alike b = true
  | .mk t body, ⟨ht, hbody⟩, ts, hts => by
    simp only [Block.words, List.map_eq_cons_iff, List.map_eq_append_iff,
      List.map_eq_nil_iff] at hts
    obtain ⟨o, _, rfl, ho, bs, _, rfl, hbs, c, _, rfl, hc, rfl⟩ := hts
    obtain ⟨body', hd, halike⟩ := Stmt.derivesAll body hbody hbs
    refine ⟨.mk o body', .block (Token.kind_of_is ho ht) (Token.kind_of_word hc) hd, ?_⟩
    simp [Block.alike, Token.alike_of_word ho, halike]

theorem Stmt.derives : (s : Stmt) → s.Canonical → ∀ {ts : List Token},
    ts.map Token.word = s.words →
    ∃ (us : List Token) (semicolon : Token) (s' : Stmt), ts = us ++ [semicolon] ∧
      semicolon.kind = .semicolon ∧ Derives .stmt s.level us s' ∧ s'.alike s = true
  | .binding t name value, ⟨ht, hname, hvalue⟩, ts, hts => by
    simp only [Stmt.words, List.map_eq_cons_iff, List.map_eq_append_iff, List.map_eq_nil_iff] at hts
    obtain ⟨w, _, rfl, hw, n, _, rfl, hn, a, _, rfl, ha, vs, _, rfl, hvs, c, _, rfl, hc, rfl⟩ := hts
    obtain ⟨value', hd, halike⟩ := value.derives hvalue hvs
    refine ⟨w :: n :: a :: vs, c, .binding w ⟨n, n.text⟩ value', rfl, Token.kind_of_word hc,
      .binding (Token.kind_of_is hw ht) (Token.kind_of_is hn hname.token) (Token.kind_of_word ha)
        hd.equality, ?_⟩
    simp [Stmt.alike, Name.alike, Token.alike_of_word hw, Token.alike_of_word hn,
      Token.text_eq_of_word hn, hname.value, halike]
  | .returning t value, ⟨ht, hvalue⟩, ts, hts => by
    simp only [Stmt.words, List.map_eq_cons_iff, List.map_eq_append_iff, List.map_eq_nil_iff] at hts
    obtain ⟨w, _, rfl, hw, vs, _, rfl, hvs, c, _, rfl, hc, rfl⟩ := hts
    obtain ⟨value', hd, halike⟩ := value.derives hvalue hvs
    refine ⟨w :: vs, c, .returning w value', rfl, Token.kind_of_word hc,
      .returning (Token.kind_of_is hw ht) hd.equality, ?_⟩
    simp [Stmt.alike, Token.alike_of_word hw, halike]
  | .expression t value, hvalue, ts, hts => by
    simp only [Stmt.words, List.map_eq_cons_iff, List.map_eq_append_iff, List.map_eq_nil_iff] at hts
    obtain ⟨vs, _, rfl, hvs, c, _, rfl, hc, rfl⟩ := hts
    obtain ⟨value', hd, halike⟩ := value.derives hvalue hvs
    obtain ⟨-, first, vs, rfl, -⟩ := hd.start
    exact ⟨first :: vs, c, .expression first value', rfl, Token.kind_of_word hc,
      .expression hd.equality, by simp [Stmt.alike, halike]⟩

theorem Stmt.derivesAll : (ss : List Stmt) → Stmt.AllCanonical ss → ∀ {ts : List Token},
    ts.map Token.word = Stmt.allWords ss →
    ∃ ss' : List Stmt, Derives .stmts (Stmt.maxLevel ss) ts ss' ∧ Stmt.allAlike ss' ss = true
  | [], _, ts, hts => by
    obtain rfl : ts = [] := by simpa [Stmt.allWords] using hts
    exact ⟨[], .done, by simp [Stmt.allAlike]⟩
  | s :: ss, ⟨hs, hss⟩, ts, hts => by
    rw [Stmt.allWords, List.map_eq_append_iff] at hts
    obtain ⟨us, vs, rfl, hus, hvs⟩ := hts
    obtain ⟨us, semicolon, s', rfl, hsemi, hd, halike⟩ := s.derives hs hus
    obtain ⟨ss', hr, hrest⟩ := Stmt.derivesAll ss hss hvs
    refine ⟨s' :: ss', ?_, by simp [Stmt.allAlike, halike, hrest]⟩
    rw [List.append_assoc]
    exact .terminated hsemi hd hr

end

theorem tokenize_map_word (file source : String) :
    (tokenize file source).dropLast.map Token.word = lexemes source.toList := by
  rw [dropLast_tokenize]
  exact Cursor.map_word_tokens file ⟨0, source.toList⟩

theorem Program.Canonical.derives_print {p : Program} (h : p.Canonical) (file : String) :
    ∃ ss : List Stmt,
      Derives .stmts (Stmt.maxLevel p.statements) (tokenize file p.print).dropLast ss ∧
      Stmt.allAlike ss p.statements = true := by
  apply Stmt.derivesAll _ h
  rw [tokenize_map_word, Program.lexemes_print h]

theorem Program.Canonical.reparses {p : Program} (h : p.Canonical) (file : String)
    (hlevel : ∀ s ∈ p.statements, s.level ≤ maxNesting) :
    (parse file p.print).errors = [] ∧ (parse file p.print).program.alike p = true := by
  obtain ⟨ss, hd, halike⟩ := h.derives_print file
  obtain ⟨herr, hprogram⟩ := parse_of_derives hd (Stmt.maxLevel_le_iff.mpr hlevel)
  rw [hprogram]
  exact ⟨herr, halike⟩

theorem Program.Canonical.overruns {p : Program} (h : p.Canonical) (file : String)
    (hlevel : ∃ s ∈ p.statements, maxNesting < s.level) :
    ∃ d ds, (parse file p.print).errors = d :: ds ∧ d.cause = .nestingTooDeep maxNesting := by
  obtain ⟨ss, hd, -⟩ := h.derives_print file
  obtain ⟨s, hs, hlt⟩ := hlevel
  refine nestingTooDeep_of_derives hd (Nat.lt_of_not_le fun hle => ?_)
  exact Nat.not_le_of_lt hlt (Stmt.maxLevel_le_iff.mp hle s hs)

theorem canonical_of_accepted {file source : String} (h : (parse file source).errors = []) :
    (parse file source).program.Canonical := by
  obtain ⟨k, -, hd⟩ := derives_of_parse h
  refine hd.canonical fun t ht => ?_
  rw [dropLast_tokenize] at ht
  exact ((State.ofSource_sealed file source).ahead t ht).1

/-- The printed form of a canonical program is read back as a program that is alike if every
statement stays within the limit, and only then: if one does not, the first diagnostic says so. -/
theorem parse_print_of_canonical (file : String) (p : Program) (h : p.Canonical) :
    ((∀ s ∈ p.statements, s.level ≤ maxNesting) →
      (parse file p.print).errors = [] ∧ (parse file p.print).program.alike p = true) ∧
    ((∃ s ∈ p.statements, maxNesting < s.level) →
      ∃ d ds, (parse file p.print).errors = d :: ds ∧ d.cause = .nestingTooDeep maxNesting) :=
  ⟨h.reparses file, h.overruns file⟩

/-- A string with a character that is escaped, and a block. -/
theorem parse_print_of_canonical_forms :
    (parse "f" "let s = \"a\\n\"; if (-s == 1) \x7b x[0](y) \x7d").program.Canonical ∧
    (parse "f" (parse "f"
      "let s = \"a\\n\"; if (-s == 1) \x7b x[0](y) \x7d").program.print).errors = [] := by
  have haccepted : (parse "f"
      "let s = \"a\\n\"; if (-s == 1) \x7b x[0](y) \x7d").errors = [] := by
    decide +kernel
  have hlevel : Stmt.maxLevel (parse "f"
      "let s = \"a\\n\"; if (-s == 1) \x7b x[0](y) \x7d").program.statements ≤ maxNesting := by
    decide +kernel
  have hcanonical := canonical_of_accepted haccepted
  have hread := (parse_print_of_canonical "f" _ hcanonical).1 (Stmt.maxLevel_le_iff.mp hlevel)
  exact ⟨hcanonical, hread.1⟩

/-- What was parsed without a diagnostic is read back from its printed form, as far as the
parentheses of that form stay within the limit. -/
theorem parse_print_of_accepted (file source : String) (h : (parse file source).errors = []) :
    ((∀ s ∈ (parse file source).program.statements, s.level ≤ maxNesting) →
      (parse file (parse file source).program.print).errors = [] ∧
      (parse file (parse file source).program.print).program.alike
        (parse file source).program = true) ∧
    ((∃ s ∈ (parse file source).program.statements, maxNesting < s.level) →
      ∃ d ds, (parse file (parse file source).program.print).errors = d :: ds ∧
        d.cause = .nestingTooDeep maxNesting) :=
  ⟨(canonical_of_accepted h).reparses file, (canonical_of_accepted h).overruns file⟩

/-- A sum of an array element and a product. -/
theorem parse_print_of_accepted_sum :
    (parse "f" "[1, x][0] + 2 * y").errors = [] ∧
    (parse "f" (parse "f" "[1, x][0] + 2 * y").program.print).errors = [] := by
  have haccepted : (parse "f" "[1, x][0] + 2 * y").errors = [] := by decide +kernel
  have hlevel : Stmt.maxLevel (parse "f" "[1, x][0] + 2 * y").program.statements ≤ maxNesting := by
    decide +kernel
  have hreparsed := (parse_print_of_accepted "f" _ haccepted).1 (Stmt.maxLevel_le_iff.mp hlevel)
  exact ⟨haccepted, hreparsed.1⟩

/-- Thirty-two signs before a name are accepted, but not in their printed form: each sign takes one
level in the source, and two with the parentheses around it. -/
theorem signs_not_read_back :
    (parse "f" "!!!!!!!!!!!!!!!!!!!!!!!!!!!!!!!!x").errors = [] ∧
    (parse "f" (parse "f" "!!!!!!!!!!!!!!!!!!!!!!!!!!!!!!!!x").program.print).errors ≠ [] := by
  have haccepted : (parse "f" "!!!!!!!!!!!!!!!!!!!!!!!!!!!!!!!!x").errors = [] := by decide +kernel
  have hlevel : ¬ Stmt.maxLevel
      (parse "f" "!!!!!!!!!!!!!!!!!!!!!!!!!!!!!!!!x").program.statements ≤ maxNesting := by
    decide +kernel
  have hdeep : ∃ s ∈ (parse "f" "!!!!!!!!!!!!!!!!!!!!!!!!!!!!!!!!x").program.statements,
      maxNesting < s.level := by
    simpa [Stmt.maxLevel_le_iff] using hlevel
  obtain ⟨d, ds, herrors, -⟩ := (canonical_of_accepted haccepted).overruns "f" hdeep
  refine ⟨haccepted, ?_⟩
  rw [herrors]
  exact List.cons_ne_nil d ds

end Scriptlet
