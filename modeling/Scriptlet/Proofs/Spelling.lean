import Scriptlet.Lexing.Tokenize

/-! How tokens are spelled. The text of a mark or a reserved word is fixed by its kind, and names
and numerals are known by their characters. Every token of a source is spelled that way. -/
namespace Scriptlet

/-- The text of the kinds that have only one. -/
def Kind.spelling? : Kind → Option String
  | endOfInput => none
  | illegal => none
  | number => none
  | text => none
  | name => none
  | openBracket => some "["
  | closeBracket => some "]"
  | openCurly => some "\x7b"
  | closeCurly => some "\x7d"
  | openParen => some "("
  | closeParen => some ")"
  | assign => some "="
  | equal => some "=="
  | bang => some "!"
  | notEqual => some "!="
  | less => some "<"
  | greater => some ">"
  | semicolon => some ";"
  | colon => some ":"
  | comma => some ","
  | plus => some "+"
  | minus => some "-"
  | slash => some "/"
  | star => some "*"
  | letWord => some "let"
  | fnWord => some "fn"
  | returnWord => some "return"
  | ifWord => some "if"
  | elseWord => some "else"
  | trueWord => some "true"
  | falseWord => some "false"

/-- A word that is not reserved. -/
structure IsName (word : String) : Prop where
  start : word.toList.head?.any Rule.isWordStart = true
  parts : word.toList.all Rule.isWordPart = true
  free : Kind.reserved? word = none

structure IsNumeral (word : String) : Prop where
  nonempty : word.toList ≠ []
  digits : word.toList.all Char.isDigit = true

/-- The text of the token is one that its kind allows. -/
structure Token.WellSpelled (t : Token) : Prop where
  fixed {word : String} : t.kind.spelling? = some word → t.text = word
  name : t.kind = .name → IsName t.text
  number : t.kind = .number → IsNumeral t.text

theorem Kind.spelling?_of_reserved? {word : String} {kind : Kind} (h : reserved? word = some kind) :
    kind.spelling? = some word := by
  unfold reserved? at h
  repeat' split at h
  all_goals simp_all only [Option.some.injEq, reduceCtorEq]
  all_goals
    subst h
    rfl

theorem Kind.ofWord_cases (word : String) :
    (ofWord word).spelling? = some word ∨ ofWord word = name ∧ reserved? word = none := by
  unfold ofWord
  cases h : reserved? word with
  | none => exact .inr ⟨rfl, rfl⟩
  | some kind => exact .inl (spelling?_of_reserved? h)

namespace Token.WellSpelled

theorem of_fixed {t : Token} (h : t.kind.spelling? = some t.text) : t.WellSpelled where
  fixed hw := Option.some.inj (h.symm.trans hw)
  name hk := by
    rw [hk] at h
    cases h
  number hk := by
    rw [hk] at h
    cases h

theorem of_name {t : Token} (hk : t.kind = .name) (h : IsName t.text) : t.WellSpelled where
  fixed hw := by
    rw [hk] at hw
    cases hw
  name _ := h
  number hn := by
    rw [hk] at hn
    cases hn

theorem of_number {t : Token} (hk : t.kind = .number) (h : IsNumeral t.text) :
    t.WellSpelled where
  fixed hw := by
    rw [hk] at hw
    cases hw
  name hn := by
    rw [hk] at hn
    cases hn
  number _ := h

theorem of_any {t : Token} (hk : t.kind = .text ∨ t.kind = .illegal) : t.WellSpelled where
  fixed hw := by rcases hk with hk | hk <;> rw [hk] at hw <;> cases hw
  name hn := by rcases hk with hk | hk <;> rw [hk] at hn <;> cases hn
  number hn := by rcases hk with hk | hk <;> rw [hk] at hn <;> cases hn

theorem of_word {word : String} (hs : word.toList.head?.any Rule.isWordStart = true)
    (hp : word.toList.all Rule.isWordPart = true) (span : Span) :
    WellSpelled ⟨.ofWord word, word, span⟩ := by
  rcases Kind.ofWord_cases word with h | ⟨hk, hf⟩
  · exact of_fixed h
  · exact of_name hk ⟨hs, hp, hf⟩

end Token.WellSpelled

namespace Rule

theorem all_of_splitRun? {p : Char → Bool} {cs l r : List Char}
    (h : splitRun? p cs = some (l, r)) : l ≠ [] ∧ l.all p = true ∧ l.head? = cs.head? := by
  obtain ⟨hcs, hne⟩ := splitRun?_append h
  unfold splitRun? at h
  split at h
  · cases h
  · cases h
    refine ⟨hne, List.all_takeWhile, ?_⟩
    cases cs with
    | nil => rfl
    | cons c cs =>
      rw [List.takeWhile_cons] at hne ⊢
      split
      · rfl
      next hc => rw [if_neg hc] at hne; exact absurd rfl hne

theorem spelling?_of_mem_table {kind : Kind} {text : List Char} (h : mark kind text ∈ table) :
    kind.spelling? = some (String.ofList text) := by
  have hall : table.all (fun
      | mark kind text => kind.spelling? == some (String.ofList text)
      | _ => true) = true := by decide
  exact eq_of_beq (List.all_eq_true.mp hall _ h)

/-- What a rule of the table reads is spelled as its kind says. -/
theorem wellSpelled {rule : Rule} (hr : rule ∈ table) {cs l r : List Char}
    (hs : rule.split? cs = some (l, r)) {kind : Kind} {text : String}
    (hm : rule.meaning? l = some (kind, text)) (span : Span) :
    Token.WellSpelled ⟨kind, text, span⟩ := by
  cases rule with
  | word =>
    simp only [meaning?, Option.some.injEq, Prod.mk.injEq] at hm
    obtain ⟨rfl, rfl⟩ := hm
    simp only [split?] at hs
    split at hs
    next hstart =>
      obtain ⟨-, hall, hhead⟩ := all_of_splitRun? hs
      exact .of_word (by rwa [String.toList_ofList, hhead]) (by rwa [String.toList_ofList]) span
    next => cases hs
  | number =>
    simp only [meaning?, Option.some.injEq, Prod.mk.injEq] at hm
    obtain ⟨rfl, rfl⟩ := hm
    obtain ⟨hne, hall, -⟩ := all_of_splitRun? hs
    exact .of_number rfl ⟨by rwa [String.toList_ofList], by rwa [String.toList_ofList]⟩
  | blanks => cases hm
  | literal =>
    simp only [meaning?, Option.some.injEq, Prod.mk.injEq] at hm
    obtain ⟨rfl, rfl⟩ := hm
    exact .of_any (.inl rfl)
  | comment => cases hm
  | mark kind' text' =>
    simp only [meaning?, Option.some.injEq, Prod.mk.injEq] at hm
    obtain ⟨rfl, rfl⟩ := hm
    exact .of_fixed (spelling?_of_mem_table hr)

end Rule

theorem Piece.wellSpelled {c : Char} {cs : List Char} {kind : Kind} {text : String}
    (h : (cut c cs).1.meaning? = some (kind, text)) (span : Span) :
    Token.WellSpelled ⟨kind, text, span⟩ := by
  unfold cut at h
  split at h
  next hf =>
    obtain ⟨hmem, hsplit⟩ := Rule.first?_eq_some hf
    exact Rule.wellSpelled hmem hsplit h span
  next =>
    cases h
    exact .of_any (.inr rfl)

/-- Every token before the end of a source is spelled as its kind says and does not end the
source; the one behind them does. -/
theorem Cursor.tokens_wellSpelled (file : String) (c : Cursor) :
    (c.tokens file).stop.kind = .endOfInput ∧
      ∀ t ∈ (c.tokens file).ahead, t.WellSpelled ∧ t.kind ≠ .endOfInput := by
  fun_induction Cursor.tokens file c with
  | case1 offset => exact ⟨rfl, nofun⟩
  | case2 offset c cs cut after token h ih =>
    refine ⟨ih.1, fun t ht => ?_⟩
    rcases List.mem_cons.mp ht with rfl | ht
    · obtain ⟨⟨kind, text⟩, hm, rfl⟩ := Option.map_eq_some_iff.1 h
      exact ⟨Piece.wellSpelled hm _, Piece.kind_cut_ne_endOfInput hm⟩
    · exact ih.2 t ht
  | case3 offset c cs cut after h ih => exact ih

end Scriptlet
