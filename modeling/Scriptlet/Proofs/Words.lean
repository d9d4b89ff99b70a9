import Mathlib.Data.List.Forall2
import Scriptlet.Proofs.Canonical
import Scriptlet.Proofs.Pieces
import Scriptlet.Tree.Printer

/-! Words: tokens without the places where they stand. The words of a text depend only on its
characters, and the printed form of a canonical tree is read as the words of the tree. No two
pieces of it run together, whatever the tree. -/
namespace Scriptlet

abbrev Word := Kind × String

def Token.word (t : Token) : Word := (t.kind, t.text)

def Kind.word (kind : Kind) : Word := (kind, kind.spelling?.getD "")

theorem Token.Is.word_eq {t : Token} {kind : Kind} {text : String} (h : t.Is kind)
    (hk : kind.spelling? = some text) : t.word = kind.word := by
  obtain ⟨rfl, hs⟩ := h
  rw [Token.word, Kind.word, hk, hs.fixed hk]
  rfl

/-- The words of a text, wherever it stands. -/
def lexemes : List Char → List Word
  | [] => []
  | c :: cs => (Piece.cut c cs).1.meaning?.toList ++ lexemes (Piece.cut c cs).2
termination_by cs => cs.length
decreasing_by exact Piece.length_cut_lt c cs

theorem Cursor.map_word_tokens (file : String) (c : Cursor) :
    (c.tokens file).ahead.map Token.word = lexemes c.rest := by
  fun_induction Cursor.tokens file c with
  | case1 offset =>
    rw [lexemes]
    rfl
  | case2 offset c cs cut after token h ih =>
    obtain ⟨⟨kind, text⟩, hm, rfl⟩ := Option.map_eq_some_iff.1 h
    rw [lexemes, hm]
    exact congrArg _ ih
  | case3 offset c cs cut after h ih =>
    have hm : cut.1.meaning? = none := Option.map_eq_none_iff.1 h
    rw [lexemes, hm]
    exact ih

theorem lexemes_of_first {cs l r : List Char} {rule : Rule}
    (h : Rule.first? cs = some (rule, l, r)) :
    lexemes cs = (rule.meaning? l).toList ++ lexemes r := by
  cases cs with
  | nil => cases h
  | cons c cs => rw [lexemes, Piece.cut, h]

theorem lexemes_word {word : String} {rest : List Char}
    (hs : word.toList.head?.any Rule.isWordStart = true)
    (hp : word.toList.all Rule.isWordPart = true) (hrest : Apart rest) :
    lexemes (word.toList ++ rest) = (Kind.ofWord word, word) :: lexemes rest := by
  rw [lexemes_of_first (Rule.first?_word hs hp hrest)]
  simp [Rule.meaning?]

theorem lexemes_numeral {word : String} {rest : List Char} (h : IsNumeral word)
    (hrest : Apart rest) :
    lexemes (word.toList ++ rest) = (Kind.number, word) :: lexemes rest := by
  have hstop (c : Char) (hc : c ∈ rest.head?) : c.isDigit = false :=
    (of_isWordPart (hrest c hc)).2
  rw [lexemes_of_first (Rule.first?_number h.nonempty h.digits hstop)]
  simp [Rule.meaning?]

theorem lexemes_literal (text : String) (rest : List Char) :
    lexemes ((Text.literal text).toList ++ rest) = (Kind.text, text) :: lexemes rest := by
  have htext : (Text.literal text).toList ++ rest =
      '"' :: (Text.escape text.toList ++ '"' :: rest) := by
    simp [Text.literal]
  rw [htext, lexemes_of_first (Rule.first?_literal (Text.denotes_escape text.toList) rest)]
  simp [Rule.meaning?]

theorem lexemes_blank {c : Char} (hc : Text.isBlank c = true) (rest : List Char) :
    lexemes (c :: rest) = lexemes rest := by
  have hrun {c : Char} (hc : Text.isBlank c = true) (rest : List Char) :
      lexemes (c :: rest) = lexemes (rest.dropWhile Text.isBlank) := by
    have hf : Rule.first? (c :: rest) =
        some (.blanks, c :: rest.takeWhile Text.isBlank, rest.dropWhile Text.isBlank) := by
      obtain ⟨hstart, hdigit⟩ := of_isWordPart (isWordPart_of_isBlank hc)
      simp [Rule.first?, Rule.table, Rule.split?, Rule.splitRun?, hstart, hdigit, hc]
    rw [lexemes_of_first hf]
    rfl
  rw [hrun hc]
  cases rest with
  | nil => rfl
  | cons d rest =>
    rw [List.dropWhile_cons]
    split
    next hd => exact (hrun hd rest).symm
    next => rfl

theorem lexemes_mark {kind : Kind} {text : String} {rest : List Char}
    (h : kind.spelling? = some text) (hfree : Kind.reserved? text = none)
    (hrest : kind.EndsAt rest) :
    lexemes (text.toList ++ rest) = kind.word :: lexemes rest := by
  rw [lexemes_of_first (Rule.first?_mark h hfree hrest)]
  simp [Rule.meaning?, Kind.word, h]

theorem lexemes_fixed (kind : Kind) {text : String} {rest : List Char}
    (h : kind.spelling? = some text) (hrest : kind.EndsAt rest) :
    lexemes (text.toList ++ rest) = kind.word :: lexemes rest := by
  cases kind <;> cases h
  case letWord | fnWord | returnWord | ifWord | elseWord | trueWord | falseWord =>
    exact lexemes_word (by decide) (by decide) hrest
  all_goals exact lexemes_mark rfl (by decide) hrest

theorem lexemes_spaced (kind : Kind) {text : String} (h : kind.spelling? = some text)
    (rest : List Char) : lexemes (text.toList ++ ' ' :: rest) = kind.word :: lexemes rest := by
  have hends : kind.EndsAt (' ' :: rest) := by
    cases kind <;> first | trivial | exact apart_cons rfl rest | exact nofun
  rw [lexemes_fixed kind h hends, lexemes_blank rfl]

def commaWords (items : List (List Word)) : List Word :=
  [Kind.comma.word].intercalate items

mutual

/-- The words of the printed form of a tree. -/
def Expr.words : Expr → List Word
  | .name t _ => [t.word]
  | .integer t _ => [t.word]
  | .boolean t _ => [t.word]
  | .text t _ => [t.word]
  | .unary t _ right => Kind.openParen.word :: t.word :: (right.words ++ [Kind.closeParen.word])
  | .binary t left _ right =>
    Kind.openParen.word :: (left.words ++ t.word :: (right.words ++ [Kind.closeParen.word]))
  | .conditional t condition consequence none =>
    t.word :: Kind.openParen.word ::
      (condition.words ++ Kind.closeParen.word :: consequence.words)
  | .conditional t condition consequence (some alternative) =>
    t.word :: Kind.openParen.word :: (condition.words ++ Kind.closeParen.word ::
      (consequence.words ++ Kind.elseWord.word :: alternative.words))
  | .function t parameters body =>
    t.word :: Kind.openParen.word :: (commaWords (parameters.map fun p => [p.token.word]) ++
      Kind.closeParen.word :: body.words)
  | .call t callee arguments =>
    callee.words ++ t.word :: (commaWords (Expr.allWords arguments) ++ [Kind.closeParen.word])
  | .array t elements =>
    t.word :: (commaWords (Expr.allWords elements) ++ [Kind.closeBracket.word])
  | .index t left index =>
    Kind.openParen.word :: (left.words ++ t.word ::
      (index.words ++ [Kind.closeBracket.word, Kind.closeParen.word]))
  | .hash t pairs => t.word :: (commaWords (Expr.pairWords pairs) ++ [Kind.closeCurly.word])

def Expr.allWords : List Expr → List (List Word)
  | [] => []
  | e :: es => e.words :: Expr.allWords es

def Expr.pairWords : List (Expr × Expr) → List (List Word)
  | [] => []
  | (key, value) :: pairs =>
    (key.words ++ Kind.colon.word :: value.words) :: Expr.pairWords pairs

def Block.words : Block → List Word
  | .mk t body => t.word :: (Stmt.allWords body ++ [Kind.closeCurly.word])

def Stmt.words : Stmt → List Word
  | .binding t name value =>
    t.word :: name.token.word :: Kind.assign.word :: (value.words ++ [Kind.semicolon.word])
  | .returning t value => t.word :: (value.words ++ [Kind.semicolon.word])
  | .expression _ value => value.words ++ [Kind.semicolon.word]
  | .block b => b.words

def Stmt.allWords : List Stmt → List Word
  | [] => []
  | s :: ss => s.words ++ Stmt.allWords ss

end

/-- Before any text that does not run into it, the text is read as the words. -/
def Spells (text : String) (words : List Word) : Prop :=
  ∀ rest, Apart rest → lexemes (text.toList ++ rest) = words ++ lexemes rest

theorem Spells.commaSeparated {texts : List String} {items : List (List Word)}
    (h : List.Forall₂ Spells texts items) {rest : List Char} (hrest : Apart rest) :
    lexemes ((commaSeparated texts).toList ++ rest) = commaWords items ++ lexemes rest := by
  induction h with
  | nil => simp [Scriptlet.commaSeparated, commaWords]
  | @cons text words texts items h htexts ih =>
    cases htexts with
    | nil => simpa [Scriptlet.commaSeparated, commaWords] using h rest hrest
    | @cons text' words' texts items h' htexts =>
      have htext : (Scriptlet.commaSeparated (text :: text' :: texts)).toList ++ rest =
          text.toList ++ (",".toList ++ ' ' ::
            ((Scriptlet.commaSeparated (text' :: texts)).toList ++ rest)) := by
        simp [Scriptlet.commaSeparated, String.intercalate_cons_cons]
      have hwords : commaWords (words :: words' :: items) =
          words ++ Kind.comma.word :: commaWords (words' :: items) := by
        simp [commaWords]
      have hapart (rest : List Char) : Apart (",".toList ++ rest) := apart_cons rfl rest
      rw [htext, h _ (hapart _), lexemes_spaced .comma rfl, ih, hwords]
      simp

theorem Name.Canonical.spells {n : Name} (h : n.Canonical) : Spells n.value [n.token.word] := by
  obtain ⟨⟨hkind, hspelled⟩, hvalue⟩ := h
  obtain ⟨hstart, hparts, hfree⟩ := hspelled.name hkind
  intro rest hrest
  rw [hvalue, lexemes_word hstart hparts hrest, Kind.ofWord, hfree, Token.word, hkind]
  rfl

theorem apart_mark {text : String} (h : text.toList.head?.any (!Rule.isWordPart ·) = true)
    (rest : List Char) : Apart (text.toList ++ rest) := by
  intro c hc
  cases ht : text.toList with
  | nil =>
    rw [ht] at h
    cases h
  | cons d ds =>
    rw [ht] at h hc
    cases hc
    simpa using h

theorem Kind.isSome_spelling? : ∀ kind ∈ binaryOperators, kind.spelling?.isSome = true := by decide

theorem lexemes_operator {t : Token} (h : t.IsOneOf Kind.binaryOperators) (rest : List Char) :
    lexemes (' ' :: (t.text.toList ++ ' ' :: rest)) = t.word :: lexemes rest := by
  obtain ⟨hkind, hspelled⟩ := h
  obtain ⟨text, htext⟩ := Option.isSome_iff_exists.mp (Kind.isSome_spelling? _ hkind)
  rw [lexemes_blank rfl, hspelled.fixed htext, lexemes_spaced _ htext,
    Token.Is.word_eq ⟨rfl, hspelled⟩ htext]

/-- A sign before its operand, which starts with no sign of equality. -/
theorem lexemes_sign {t : Token} (h : t.IsOneOf Kind.unaryOperators) {rest : List Char}
    (hrest : rest.head? ≠ some '=') :
    lexemes (t.text.toList ++ rest) = t.word :: lexemes rest := by
  obtain ⟨hkind, hspelled⟩ := h
  simp only [Kind.unaryOperators, List.mem_cons, List.not_mem_nil, or_false] at hkind
  rcases hkind with hkind | hkind
  · rw [hspelled.fixed (hkind ▸ rfl : t.kind.spelling? = some "!"),
      lexemes_fixed .bang rfl hrest, Token.Is.word_eq ⟨hkind, hspelled⟩ rfl]
  · rw [hspelled.fixed (hkind ▸ rfl : t.kind.spelling? = some "-"),
      lexemes_fixed .minus rfl trivial, Token.Is.word_eq ⟨hkind, hspelled⟩ rfl]

/-- No printed expression starts with a sign of equality. -/
theorem Expr.head?_print_ne : (e : Expr) → e.Canonical → ∀ rest : List Char,
    (e.print.toList ++ rest).head? ≠ some '='
  | .name t value, ⟨⟨hkind, hspelled⟩, hvalue⟩, rest => by
    obtain ⟨hstart, -, -⟩ := hspelled.name hkind
    rw [Expr.print, hvalue]
    cases ht : t.text.toList with
    | nil =>
      rw [ht] at hstart
      cases hstart
    | cons c cs =>
      rw [ht] at hstart
      rintro ⟨⟩
      cases hstart
  | .integer t value, ⟨_, n, hn, _⟩, rest => by
    obtain ⟨hne, hdigits, -⟩ := Text.natural?_eq_some_iff.1 hn
    rw [Expr.print]
    cases ht : t.text.toList with
    | nil => exact absurd ht hne
    | cons c cs =>
      rw [ht] at hdigits
      rintro ⟨⟩
      cases hdigits
  | .boolean t true, _, rest => by simp [Expr.print]
  | .boolean t false, _, rest => by simp [Expr.print]
  | .text t value, _, rest => by simp [Expr.print, Text.literal]
  | .unary .., _, rest => by simp [Expr.print]
  | .binary .., _, rest => by simp [Expr.print]
  | .conditional _ _ _ none, _, rest => by simp [Expr.print]
  | .conditional _ _ _ (some _), _, rest => by simp [Expr.print]
  | .function .., _, rest => by simp [Expr.print]
  | .call t callee arguments, ⟨_, hcallee, _⟩, rest => by
    simp only [Expr.print, String.toList_append, List.append_assoc]
    exact callee.head?_print_ne hcallee _
  | .array .., _, rest => by simp [Expr.print]
  | .index .., _, rest => by simp [Expr.print]
  | .hash .., _, rest => by simp [Expr.print]

mutual

/-- The printed form of a canonical tree is read as the words of the tree. -/
theorem Expr.spells_print : (e : Expr) → e.Canonical → Spells e.print e.words
  | .name t value, ⟨ht, hvalue⟩ => Name.Canonical.spells (n := ⟨t, value⟩) ⟨ht, hvalue⟩
  | .integer t value, ⟨hkind, n, hn, _⟩ => by
    obtain ⟨hne, hdigits, -⟩ := Text.natural?_eq_some_iff.1 hn
    intro rest hrest
    rw [Expr.print, lexemes_numeral ⟨hne, hdigits⟩ hrest, Expr.words, Token.word, hkind]
    rfl
  | .boolean t true, ht => by
    intro rest hrest
    rw [Expr.words, ht.word_eq rfl]
    exact lexemes_fixed .trueWord rfl hrest
  | .boolean t false, ht => by
    intro rest hrest
    rw [Expr.words, ht.word_eq rfl]
    exact lexemes_fixed .falseWord rfl hrest
  | .text t value, ⟨hkind, hvalue⟩ => by
    intro rest _
    rw [Expr.print, lexemes_literal, Expr.words, Token.word, hkind, hvalue]
    rfl
  | .unary t operator right, ⟨ht, hop, hright⟩ => by
    intro rest _
    have htext : (Expr.unary t operator right).print.toList ++ rest =
        "(".toList ++ (t.text.toList ++ (right.print.toList ++ (")".toList ++ rest))) := by
      simp [Expr.print, hop]
    rw [htext, lexemes_fixed .openParen rfl trivial,
      lexemes_sign ht (right.head?_print_ne hright _),
      right.spells_print hright _ (apart_mark rfl _), lexemes_fixed .closeParen rfl trivial]
    simp [Expr.words]
  | .binary t left operator right, ⟨ht, hop, hleft, hright⟩ => by
    intro rest _
    have htext : (Expr.binary t left operator right).print.toList ++ rest =
        "(".toList ++ (left.print.toList ++ ' ' :: (t.text.toList ++ ' ' ::
          (right.print.toList ++ (")".toList ++ rest)))) := by
      simp [Expr.print, hop]
    rw [htext, lexemes_fixed .openParen rfl trivial,
      left.spells_print hleft _ (apart_cons (c := ' ') rfl _), lexemes_operator ht,
      right.spells_print hright _ (apart_mark rfl _), lexemes_fixed .closeParen rfl trivial]
    simp [Expr.words]
  | .conditional t condition consequence none, ⟨ht, hcondition, hconsequence⟩ => by
    intro rest hrest
    have htext : (Expr.conditional t condition consequence none).print.toList ++ rest =
        "if".toList ++ ' ' :: ("(".toList ++ (condition.print.toList ++ (")".toList ++ ' ' ::
          (consequence.print.toList ++ rest)))) := by
      simp [Expr.print]
    rw [htext, lexemes_spaced .ifWord rfl, lexemes_fixed .openParen rfl trivial,
      condition.spells_print hcondition _ (apart_mark rfl _), lexemes_spaced .closeParen rfl,
      consequence.spells_print hconsequence _ hrest]
    simp [Expr.words, ht.word_eq rfl]
  | .conditional t condition consequence (some alternative),
    ⟨ht, hcondition, hconsequence, halternative⟩ => by
    intro rest hrest
    have htext :
        (Expr.conditional t condition consequence (some alternative)).print.toList ++ rest =
        "if".toList ++ ' ' :: ("(".toList ++ (condition.print.toList ++ (")".toList ++ ' ' ::
          (consequence.print.toList ++ ' ' :: ("else".toList ++ ' ' ::
            (alternative.print.toList ++ rest)))))) := by
      simp [Expr.print]
    rw [htext, lexemes_spaced .ifWord rfl, lexemes_fixed .openParen rfl trivial,
      condition.spells_print hcondition _ (apart_mark rfl _), lexemes_spaced .closeParen rfl,
      consequence.spells_print hconsequence _ (apart_cons (c := ' ') rfl _), lexemes_blank rfl,
      lexemes_spaced .elseWord rfl, alternative.spells_print halternative _ hrest]
    simp [Expr.words, ht.word_eq rfl]
  | .function t parameters body, ⟨ht, hparameters, hbody⟩ => by
    intro rest hrest
    have hnames : List.Forall₂ Spells (parameters.map Name.value)
        (parameters.map fun p => [p.token.word]) := by
      rw [List.forall₂_map_left_iff, List.forall₂_map_right_iff, List.forall₂_same]
      exact fun p hp => (hparameters p hp).spells
    have htext : (Expr.function t parameters body).print.toList ++ rest =
        "fn".toList ++ ("(".toList ++ ((commaSeparated (parameters.map Name.value)).toList ++
          (")".toList ++ ' ' :: (body.print.toList ++ rest)))) := by
      simp [Expr.print]
    rw [htext, lexemes_fixed .fnWord rfl (apart_mark rfl _), lexemes_fixed .openParen rfl trivial,
      Spells.commaSeparated hnames (apart_mark rfl _), lexemes_spaced .closeParen rfl,
      body.spells_print hbody _ hrest]
    simp [Expr.words, ht.word_eq rfl]
  | .call t callee arguments, ⟨ht, hcallee, harguments⟩ => by
    intro rest _
    have htext : (Expr.call t callee arguments).print.toList ++ rest =
        callee.print.toList ++ ("(".toList ++ ((commaSeparated (Expr.printAll arguments)).toList ++
          (")".toList ++ rest))) := by
      simp [Expr.print]
    rw [htext, callee.spells_print hcallee _ (apart_mark rfl _),
      lexemes_fixed .openParen rfl trivial,
      Spells.commaSeparated (Expr.spells_printAll arguments harguments) (apart_mark rfl _),
      lexemes_fixed .closeParen rfl trivial]
    simp [Expr.words, ht.word_eq rfl]
  | .array t elements, ⟨ht, helements⟩ => by
    intro rest _
    have htext : (Expr.array t elements).print.toList ++ rest =
        "[".toList ++ ((commaSeparated (Expr.printAll elements)).toList ++
          ("]".toList ++ rest)) := by
      simp [Expr.print]
    rw [htext, lexemes_fixed .openBracket rfl trivial,
      Spells.commaSeparated (Expr.spells_printAll elements helements) (apart_mark rfl _),
      lexemes_fixed .closeBracket rfl trivial]
    simp [Expr.words, ht.word_eq rfl]
  | .index t left index, ⟨ht, hleft, hindex⟩ => by
    intro rest _
    have htext : (Expr.index t left index).print.toList ++ rest =
        "(".toList ++ (left.print.toList ++ ("[".toList ++ (index.print.toList ++
          ("]".toList ++ (")".toList ++ rest))))) := by
      simp [Expr.print]
    rw [htext, lexemes_fixed .openParen rfl trivial, left.spells_print hleft _ (apart_mark rfl _),
      lexemes_fixed .openBracket rfl trivial, index.spells_print hindex _ (apart_mark rfl _),
      lexemes_fixed .closeBracket rfl trivial, lexemes_fixed .closeParen rfl trivial]
    simp [Expr.words, ht.word_eq rfl]
  | .hash t pairs, ⟨ht, hpairs⟩ => by
    intro rest _
    have htext : (Expr.hash t pairs).print.toList ++ rest =
        "\x7b".toList ++ ((commaSeparated (Expr.printPairs pairs)).toList ++
          ("\x7d".toList ++ rest)) := by
      simp [Expr.print]
    rw [htext, lexemes_fixed .openCurly rfl trivial,
      Spells.commaSeparated (Expr.spells_printPairs pairs hpairs) (apart_mark rfl _),
      lexemes_fixed .closeCurly rfl trivial]
    simp [Expr.words, ht.word_eq rfl]

theorem Expr.spells_printAll : (es : List Expr) → Expr.AllCanonical es →
    List.Forall₂ Spells (Expr.printAll es) (Expr.allWords es)
  | [], _ => .nil
  | e :: es, ⟨he, hes⟩ => .cons (e.spells_print he) (Expr.spells_printAll es hes)

theorem Expr.spells_printPairs : (pairs : List (Expr × Expr)) → Expr.PairsCanonical pairs →
    List.Forall₂ Spells (Expr.printPairs pairs) (Expr.pairWords pairs)
  | [], _ => .nil
  | (key, value) :: pairs, ⟨hkey, hvalue, hpairs⟩ => by
    refine .cons ?_ (Expr.spells_printPairs pairs hpairs)
    intro rest hrest
    have htext : (key.print ++ ": " ++ value.print).toList ++ rest =
        key.print.toList ++ (":".toList ++ ' ' :: (value.print.toList ++ rest)) := by
      simp
    rw [htext, key.spells_print hkey _ (apart_mark rfl _), lexemes_spaced .colon rfl,
      value.spells_print hvalue _ hrest]
    simp

theorem Block.spells_print : (b : Block) → b.Canonical → Spells b.print b.words
  | .mk t body, ⟨ht, hbody⟩ => by
    intro rest _
    have htext : (Block.mk t body).print.toList ++ rest =
        "\x7b".toList ++ ' ' :: ((Block.printBody body).toList ++ ("\x7d".toList ++ rest)) := by
      simp [Block.print]
    rw [htext, lexemes_spaced .openCurly rfl, Stmt.lexemes_printBody body hbody,
      lexemes_fixed .closeCurly rfl trivial]
    simp [Block.words, ht.word_eq rfl]

theorem Stmt.spells_print : (s : Stmt) → s.Canonical → Spells s.print s.words
  | .binding t name value, ⟨ht, hname, hvalue⟩ => by
    intro rest _
    have htext : (Stmt.binding t name value).print.toList ++ rest =
        "let".toList ++ ' ' :: (name.value.toList ++ ' ' :: ("=".toList ++ ' ' ::
          (value.print.toList ++ (";".toList ++ rest)))) := by
      simp [Stmt.print]
    rw [htext, lexemes_spaced .letWord rfl, hname.spells _ (apart_cons (c := ' ') rfl _),
      lexemes_blank rfl, lexemes_spaced .assign rfl,
      value.spells_print hvalue _ (apart_mark rfl _), lexemes_fixed .semicolon rfl trivial]
    simp [Stmt.words, ht.word_eq rfl]
  | .returning t value, ⟨ht, hvalue⟩ => by
    intro rest _
    have htext : (Stmt.returning t value).print.toList ++ rest =
        "return".toList ++ ' ' :: (value.print.toList ++ (";".toList ++ rest)) := by
      simp [Stmt.print]
    rw [htext, lexemes_spaced .returnWord rfl, value.spells_print hvalue _ (apart_mark rfl _),
      lexemes_fixed .semicolon rfl trivial]
    simp [Stmt.words, ht.word_eq rfl]
  | .expression t value, hvalue => by
    intro rest _
    have htext : (Stmt.expression t value).print.toList ++ rest =
        value.print.toList ++ (";".toList ++ rest) := by
      simp [Stmt.print]
    rw [htext, value.spells_print hvalue _ (apart_mark rfl _),
      lexemes_fixed .semicolon rfl trivial]
    simp [Stmt.words]

theorem Stmt.lexemes_printBody : (ss : List Stmt) → Stmt.AllCanonical ss → ∀ rest : List Char,
    lexemes ((Block.printBody ss).toList ++ rest) = Stmt.allWords ss ++ lexemes rest
  | [], _, rest => by simp [Block.printBody, Stmt.allWords]
  | s :: ss, ⟨hs, hss⟩, rest => by
    have htext : (Block.printBody (s :: ss)).toList ++ rest =
        s.print.toList ++ ' ' :: ((Block.printBody ss).toList ++ rest) := by
      simp [Block.printBody]
    rw [htext, s.spells_print hs _ (apart_cons (c := ' ') rfl _), lexemes_blank rfl,
      Stmt.lexemes_printBody ss hss]
    simp [Stmt.allWords]

end

theorem Program.lexemes_print {p : Program} (h : p.Canonical) :
    lexemes p.print.toList = Stmt.allWords p.statements := by
  obtain ⟨ss⟩ := p
  unfold Program.print
  induction ss with
  | nil => simp [Stmt.allWords, lexemes]
  | cons s ss ih =>
    obtain ⟨hs, hss⟩ := h
    have hapart : Apart [] := nofun
    cases ss with
    | nil =>
      have hprint := s.spells_print hs [] hapart
      simpa [Stmt.allWords, lexemes] using hprint
    | cons s' ss =>
      have htext : ("\n".intercalate ((s :: s' :: ss).map Stmt.print)).toList =
          s.print.toList ++ '\n' :: ("\n".intercalate ((s' :: ss).map Stmt.print)).toList := by
        simp [String.intercalate_cons_cons]
      rw [htext, s.spells_print hs _ (apart_cons (c := '\n') rfl _), lexemes_blank rfl]
      exact congrArg (s.words ++ ·) (ih hss)

end Scriptlet
