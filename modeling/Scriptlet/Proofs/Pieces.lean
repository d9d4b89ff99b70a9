import Scriptlet.Proofs.Spelling

/-! What the first piece of a text is. A piece is known by its characters and by what comes behind
them: `Piece.Reads` says how for each class of lexemes, and the table of rules cuts exactly the
pieces that it describes. -/
namespace Scriptlet

namespace Text

/-- The escapes of a literal: the character behind the backslash and what the pair stands for. -/
def escapes : List (Char × Char) :=
  [('n', '\n'), ('t', '\t'), ('r', '\r'), ('\\', '\\'), ('"', '"'), ('0', '\x00')]

/-- `Denotes body value`: the text between the quotes of a literal, read from left to right, stands
for the value. A backslash pair that is no escape stands for itself. -/
inductive Denotes : List Char → List Char → Prop
  | nil : Denotes [] []
  | plain {c : Char} {body value : List Char} (hq : c ≠ '"') (hb : c ≠ '\\')
      (h : Denotes body value) : Denotes (c :: body) (c :: value)
  | escaped {c d : Char} {body value : List Char} (hc : (c, d) ∈ escapes)
      (h : Denotes body value) : Denotes ('\\' :: c :: body) (d :: value)
  | verbatim {c : Char} {body value : List Char} (hc : ∀ d, (c, d) ∉ escapes) (hn : c ≠ '\n')
      (h : Denotes body value) : Denotes ('\\' :: c :: body) ('\\' :: c :: value)

theorem escaped?_eq_some_iff {c d : Char} : escaped? c = some d ↔ (c, d) ∈ escapes := by
  unfold escaped? escapes
  simp only [List.mem_cons, Prod.mk.injEq, List.not_mem_nil, or_false]
  constructor
  · intro h
    repeat' split at h
    all_goals simp_all [eq_comm]
  · rintro (⟨rfl, rfl⟩ | ⟨rfl, rfl⟩ | ⟨rfl, rfl⟩ | ⟨rfl, rfl⟩ | ⟨rfl, rfl⟩ | ⟨rfl, rfl⟩) <;> decide

/-- A body that is split off is one that denotes a value, and the value is found by unescaping. -/
theorem denotes_of_splitBody? {cs body rest : List Char}
    (h : splitBody? cs = some (body, rest)) : Denotes body (unescape body) := by
  fun_induction splitBody? cs generalizing body rest with
  | case1 => cases h
  | case2 =>
    cases h
    exact .nil
  | case3 => cases h
  | case4 =>
    cases h
    exact .nil
  | case5 => cases h
  | case6 d cs hd _ ih =>
    obtain ⟨⟨b, r⟩, hb, heq⟩ := Option.map_eq_some_iff.1 h
    cases heq
    have hrest := ih hb
    cases he : escaped? d with
    | some e =>
      have hmem := escaped?_eq_some_iff.mp he
      simpa [unescape, he] using Denotes.escaped hmem hrest
    | none =>
      have hmem (e : Char) : (d, e) ∉ escapes := by
        intro hmem
        rw [escaped?_eq_some_iff.mpr hmem] at he
        cases he
      simpa [unescape, he] using Denotes.verbatim hmem hd hrest
  | case7 c d cs hq hb ih =>
    obtain ⟨⟨b, r⟩, hsplit, heq⟩ := Option.map_eq_some_iff.1 h
    cases heq
    rw [unescape_cons_of_ne hb]
    exact .plain hq hb (ih hsplit)

theorem denotes_escape (value : List Char) : Denotes (escape value) value := by
  have hbody := denotes_of_splitBody? (splitBody?_escape value [])
  rwa [unescape_escape] at hbody

/-- A body ends at the quote behind it, whatever follows. -/
theorem Denotes.splitBody? {body value : List Char} (h : Denotes body value) (rest : List Char) :
    splitBody? (body ++ '"' :: rest) = some (body, rest) := by
  induction h with
  | nil => cases rest <;> simp [Text.splitBody?]
  | plain hq hb _ ih =>
    rw [List.cons_append, splitBody?_cons_of_ne hq hb, ih]
    rfl
  | @escaped c d body value hc _ ih =>
    have hn : c ≠ '\n' := by
      rintro rfl
      simp [escapes] at hc
    simp [Text.splitBody?, hn, ih]
  | verbatim _ hn _ ih => simp [Text.splitBody?, hn, ih]

theorem Denotes.unescape_eq {body value : List Char} (h : Denotes body value) :
    unescape body = value := by
  induction h with
  | nil => rfl
  | plain _ hb _ ih => rw [unescape_cons_of_ne hb, ih]
  | escaped hc _ ih => simp [unescape, escaped?_eq_some_iff.mpr hc, ih]
  | @verbatim c body value hc _ _ ih =>
    have he : escaped? c = none := by
      cases he : escaped? c with
      | none => rfl
      | some d => exact absurd (escaped?_eq_some_iff.mp he) (hc d)
    simp [unescape, he, ih]

end Text

theorem isDigit_iff {c : Char} : c.isDigit = true ↔ 48 ≤ c.toNat ∧ c.toNat ≤ 57 :=
  Char.isDigit_iff_toNat

theorem isAlpha_iff {c : Char} :
    c.isAlpha = true ↔ (65 ≤ c.toNat ∧ c.toNat ≤ 90) ∨ (97 ≤ c.toNat ∧ c.toNat ≤ 122) := by
  change (decide (65 ≤ c.toNat ∧ c.toNat ≤ 90) ||
    (decide (97 ≤ c.toNat) && decide (c.toNat ≤ 122))) = true ↔ _
  simp only [Bool.or_eq_true, Bool.and_eq_true, decide_eq_true_eq]

theorem isWordStart_of_isDigit {c : Char} (h : c.isDigit = true) : Rule.isWordStart c = false := by
  have hne : c ≠ '_' := by
    rintro rfl
    cases h
  have halpha : c.isAlpha = false := by
    rw [Bool.eq_false_iff, ne_eq, isAlpha_iff]
    rw [isDigit_iff] at h
    omega
  rw [Rule.isWordStart, halpha, beq_eq_false_iff_ne.mpr hne]
  rfl

theorem isWordPart_of_isBlank {c : Char} (h : Text.isBlank c = true) :
    Rule.isWordPart c = false := by
  have hne : c ≠ '_' := by
    rintro rfl
    cases h
  simp only [Text.isBlank, Bool.or_eq_true, Bool.and_eq_true, decide_eq_true_eq, beq_iff_eq] at h
  have halpha : c.isAlpha = false := by
    rw [Bool.eq_false_iff, ne_eq, isAlpha_iff]
    omega
  have hdigit : c.isDigit = false := by
    rw [Bool.eq_false_iff, ne_eq, isDigit_iff]
    omega
  rw [Rule.isWordPart, Char.isAlphanum, halpha, hdigit, beq_eq_false_iff_ne.mpr hne]
  rfl

theorem of_isWordPart {c : Char} (h : Rule.isWordPart c = false) :
    Rule.isWordStart c = false ∧ c.isDigit = false := by
  simp only [Rule.isWordPart, Char.isAlphanum, Bool.or_eq_false_iff] at h
  obtain ⟨⟨halpha, hdigit⟩, hunder⟩ := h
  exact ⟨by rw [Rule.isWordStart, halpha, hunder]; rfl, hdigit⟩

/-- The text does not go on with a word before it. -/
def Apart (rest : List Char) : Prop :=
  ∀ c ∈ rest.head?, Rule.isWordPart c = false

theorem apart_cons {c : Char} (h : Rule.isWordPart c = false) (rest : List Char) :
    Apart (c :: rest) := by
  rintro _ ⟨⟩
  exact h

theorem splitRun?_of_stop {p : Char → Bool} {cs rest : List Char} (hne : cs ≠ [])
    (hall : cs.all p = true) (hrest : ∀ c ∈ rest.head?, p c = false) :
    Rule.splitRun? p (cs ++ rest) = some (cs, rest) := by
  have hpos : ∀ c ∈ cs, p c = true := List.all_eq_true.mp hall
  have hstop : rest.takeWhile p = [] ∧ rest.dropWhile p = rest := by
    cases rest with
    | nil => exact ⟨rfl, rfl⟩
    | cons c rest =>
      rw [List.takeWhile_cons, List.dropWhile_cons, hrest c rfl]
      exact ⟨rfl, rfl⟩
  rw [Rule.splitRun?, List.takeWhile_append_of_pos hpos, List.dropWhile_append_of_pos hpos,
    hstop.1, hstop.2, List.append_nil, if_neg (by simpa using hne)]

/-- A token of the kind ends where the text starts: the text makes no other token of it. -/
def Kind.EndsAt (kind : Kind) (rest : List Char) : Prop :=
  match kind with
  | .bang | .assign => rest.head? ≠ some '='
  | .slash => rest.head? ≠ some '/'
  | .letWord | .fnWord | .returnWord | .ifWord | .elseWord | .trueWord | .falseWord => Apart rest
  | _ => True

namespace Rule

variable {l rest : List Char}

theorem first?_word (hs : l.head?.any isWordStart = true) (hp : l.all isWordPart = true)
    (hrest : Apart rest) : first? (l ++ rest) = some (.word, l, rest) := by
  have hne : l ≠ [] := by
    rintro rfl
    cases hs
  have hhead : (l ++ rest).head?.any isWordStart = true := by
    rwa [List.head?_append, Option.or_of_isSome (by simpa using hne)]
  rw [first?, table, List.findSome?_cons, split?, if_pos hhead, splitRun?_of_stop hne hp hrest]
  rfl

theorem first?_number (hne : l ≠ []) (hd : l.all Char.isDigit = true)
    (hrest : ∀ c ∈ rest.head?, c.isDigit = false) :
    first? (l ++ rest) = some (.number, l, rest) := by
  have hsplit := splitRun?_of_stop hne hd hrest
  have hhead : ¬ (l ++ rest).head?.any isWordStart = true := by
    cases l with
    | nil => exact absurd rfl hne
    | cons c cs =>
      rw [List.all_cons, Bool.and_eq_true] at hd
      rw [List.cons_append, List.head?_cons, Option.any_some, isWordStart_of_isDigit hd.1]
      exact Bool.false_ne_true
  rw [first?, table, List.findSome?_cons, split?, if_neg hhead, Option.map_none]
  dsimp only
  rw [List.findSome?_cons, split?, hsplit]
  rfl

theorem first?_blanks (hne : l ≠ []) (hb : l.all Text.isBlank = true)
    (hrest : ∀ c ∈ rest.head?, Text.isBlank c = false) :
    first? (l ++ rest) = some (.blanks, l, rest) := by
  have hsplit := splitRun?_of_stop hne hb hrest
  cases l with
  | nil => exact absurd rfl hne
  | cons c cs =>
    rw [List.all_cons, Bool.and_eq_true] at hb
    obtain ⟨hstart, hdigit⟩ := of_isWordPart (isWordPart_of_isBlank hb.1)
    rw [List.cons_append] at hsplit ⊢
    have hnumber : splitRun? Char.isDigit (c :: (cs ++ rest)) = none := by
      simp [splitRun?, hdigit]
    simp [first?, table, split?, hstart, hnumber, hsplit]

theorem first?_literal {body value : List Char} (h : Text.Denotes body value)
    (rest : List Char) :
    first? ('"' :: (body ++ '"' :: rest)) = some (.literal, '"' :: body ++ ['"'], rest) := by
  simp [first?, table, split?, splitRun?, isWordStart, Text.isBlank, h.splitBody? rest]

theorem first?_comment {body : List Char} (hb : ∀ c ∈ body, c ≠ '\n')
    (hrest : ∀ c ∈ rest.head?, c = '\n') :
    first? ('/' :: '/' :: (body ++ rest)) = some (.comment, '/' :: '/' :: body, rest) := by
  have hsplit : splitRun? (· != '\n') (('/' :: '/' :: body) ++ rest) = _ :=
    splitRun?_of_stop (by simp) (by simpa using hb) (by simpa using hrest)
  simp only [splitRun?, List.cons_append, Option.ite_none_left_eq_some, Option.some.injEq,
    Prod.mk.injEq] at hsplit
  obtain ⟨-, htake, hdrop⟩ := hsplit
  have hcomment : split? .comment ('/' :: '/' :: (body ++ rest)) =
      some ('/' :: '/' :: body, rest) := by
    rw [split?, if_pos (by simp), htake, hdrop]
  have hearlier : ∀ rule ∈ [word, number, blanks, literal],
      rule.split? ('/' :: '/' :: (body ++ rest)) = none := by
    simp [split?, splitRun?, isWordStart, Text.isBlank]
  simp only [List.forall_mem_cons] at hearlier
  obtain ⟨hword, hnumber, hblanks, hliteral, -⟩ := hearlier
  simp only [first?, table, List.findSome?_cons, hword, hnumber, hblanks, hliteral, hcomment,
    Option.map_none, Option.map_some]

/-- A mark is read unless what follows makes a longer mark or a comment of it. -/
theorem first?_mark {kind : Kind} {text : String} (h : kind.spelling? = some text)
    (hfree : Kind.reserved? text = none) (hrest : kind.EndsAt rest) :
    first? (text.toList ++ rest) = some (.mark kind text.toList, text.toList, rest) := by
  cases kind <;> cases h
  case letWord | fnWord | returnWord | ifWord | elseWord | trueWord | falseWord => cases hfree
  case bang | assign | slash =>
    cases rest with
    | nil => rfl
    | cons c rest =>
      have hc : c ≠ _ := fun hc => hrest (congrArg some hc)
      simp [first?, table, split?, splitRun?, isWordStart, Text.isBlank, Ne.symm hc]
  all_goals rfl

theorem reserved?_of_mem_table {kind : Kind} (h : mark kind l ∈ table) :
    Kind.reserved? (String.ofList l) = none := by
  have hall : table.all (fun
      | mark _ text => (Kind.reserved? (String.ofList text)).isNone
      | _ => true) = true := by decide
  exact Option.isNone_iff_eq_none.mp (List.all_eq_true.mp hall _ h)

theorem exists_short_mark {kind : Kind} {c : Char} (h : mark kind l ∈ table)
    (hc : l.head? = some c) : ∃ kind', mark kind' [c] ∈ table := by
  have hall : table.all (fun
      | mark _ (c :: _) => table.any fun
        | mark _ [d] => c == d
        | _ => false
      | _ => true) = true := by decide
  have hany := List.all_eq_true.mp hall _ h
  obtain ⟨l, rfl⟩ := List.head?_eq_some_iff.mp hc
  obtain ⟨rule, hmem, hrule⟩ := List.any_eq_true.mp hany
  split at hrule
  next kind' d =>
    rw [eq_of_beq hrule]
    exact ⟨kind', hmem⟩
  next => cases hrule

end Rule

/-- `p.Reads rest`: with `rest` behind it, the piece is what is read first. -/
inductive Piece.Reads : Piece → List Char → Prop
  | word {l rest : List Char} (hs : l.head?.any Rule.isWordStart = true)
      (hp : l.all Rule.isWordPart = true) (hrest : Apart rest) :
      Reads ⟨l, some (.ofWord (String.ofList l), String.ofList l)⟩ rest
  | number {l rest : List Char} (hne : l ≠ []) (hd : l.all Char.isDigit = true)
      (hrest : ∀ c ∈ rest.head?, c.isDigit = false) :
      Reads ⟨l, some (.number, String.ofList l)⟩ rest
  | blanks {l rest : List Char} (hne : l ≠ []) (hb : l.all Text.isBlank = true)
      (hrest : ∀ c ∈ rest.head?, Text.isBlank c = false) : Reads ⟨l, none⟩ rest
  | literal {body value rest : List Char} (h : Text.Denotes body value) :
      Reads ⟨'"' :: (body ++ ['"']), some (.text, String.ofList value)⟩ rest
  | comment {body rest : List Char} (hb : ∀ c ∈ body, c ≠ '\n')
      (hrest : ∀ c ∈ rest.head?, c = '\n') : Reads ⟨'/' :: '/' :: body, none⟩ rest
  | mark {kind : Kind} {text : String} {rest : List Char} (h : kind.spelling? = some text)
      (hfree : Kind.reserved? text = none) (hrest : kind.EndsAt rest) :
      Reads ⟨text.toList, some (kind, text)⟩ rest
  | illegal {c : Char} {rest : List Char} (hw : Rule.isWordStart c = false)
      (hd : c.isDigit = false) (hb : Text.isBlank c = false)
      (hm : ∀ kind l, Rule.mark kind l ∈ Rule.table → l.head? ≠ some c)
      (hq : c = '"' → Text.splitBody? rest = none) :
      Reads ⟨[c], some (.illegal, String.singleton c)⟩ rest

namespace Piece

open Rule

theorem stop_of_splitRun? {p : Char → Bool} {cs l r : List Char}
    (h : splitRun? p cs = some (l, r)) : ∀ c ∈ r.head?, p c = false := by
  unfold splitRun? at h
  split at h
  · cases h
  · cases h
    intro c hc
    have hfirst := List.head?_dropWhile_not p cs
    rw [Option.mem_def.mp hc] at hfirst
    simpa using hfirst

/-- No rule of the table reads at a character that starts no lexeme. -/
theorem first?_illegal {c : Char} {rest : List Char} (hw : isWordStart c = false)
    (hd : c.isDigit = false) (hb : Text.isBlank c = false)
    (hm : ∀ kind l, Rule.mark kind l ∈ table → l.head? ≠ some c)
    (hq : c = '"' → Text.splitBody? rest = none) : first? (c :: rest) = none := by
  refine List.findSome?_eq_none_iff.mpr fun rule hr => ?_
  rw [Option.map_eq_none_iff]
  cases rule with
  | word => simp [split?, hw]
  | number => simp [split?, splitRun?, hd]
  | blanks => simp [split?, splitRun?, hb]
  | literal =>
    rw [split?]
    split
    next hc => rw [hq hc, Option.map_none]
    next => rfl
  | comment =>
    have hslash : '/' ≠ c := by
      rintro rfl
      exact hm .slash ['/'] (by decide) rfl
    simp [split?, hslash]
  | mark kind l =>
    rw [split?, if_neg]
    intro hp
    obtain ⟨t, ht⟩ := List.isPrefixOf_iff_prefix.mp hp
    cases l with
    | nil => simp [table] at hr
    | cons d l =>
      cases ht
      exact hm kind _ hr rfl

/-- A mark that was read is not the start of a longer mark or of a comment. -/
theorem endsAt_of_first? {kind : Kind} {text : String} {rest : List Char}
    (hspell : kind.spelling? = some text) (hfree : Kind.reserved? text = none)
    (h : first? (text.toList ++ rest) = some (.mark kind text.toList, text.toList, rest)) :
    kind.EndsAt rest := by
  cases kind <;> cases hspell
  case letWord | fnWord | returnWord | ifWord | elseWord | trueWord | falseWord => cases hfree
  case bang | assign | slash =>
    intro hhead
    obtain ⟨rest, rfl⟩ := List.head?_eq_some_iff.mp hhead
    simp [first?, table, split?, splitRun?, isWordStart, Text.isBlank] at h
  all_goals trivial

theorem reads_of_first? {rule : Rule} {cs l r : List Char} (h : first? cs = some (rule, l, r)) :
    Reads ⟨l, rule.meaning? l⟩ r := by
  obtain ⟨hmem, hsplit⟩ := first?_eq_some h
  cases rule with
  | word =>
    simp only [split?] at hsplit
    split at hsplit
    next hstart =>
      obtain ⟨-, hall, hhead⟩ := all_of_splitRun? hsplit
      exact .word (by rwa [hhead]) hall (stop_of_splitRun? hsplit)
    next => cases hsplit
  | number =>
    obtain ⟨hne, hall, -⟩ := all_of_splitRun? hsplit
    exact .number hne hall (stop_of_splitRun? hsplit)
  | blanks =>
    obtain ⟨hne, hall, -⟩ := all_of_splitRun? hsplit
    exact .blanks hne hall (stop_of_splitRun? hsplit)
  | literal =>
    cases cs with
    | nil => cases hsplit
    | cons c cs =>
      simp only [split?] at hsplit
      split at hsplit
      next hc =>
        obtain ⟨⟨body, rest⟩, hb, heq⟩ := Option.map_eq_some_iff.1 hsplit
        cases heq
        subst hc
        have hm : Rule.meaning? .literal ('"' :: (body ++ ['"'])) =
            some (.text, String.ofList (Text.unescape body)) := by
          simp [Rule.meaning?]
        rw [List.cons_append, hm]
        exact .literal (Text.denotes_of_splitBody? hb)
      next => cases hsplit
  | comment =>
    simp only [split?] at hsplit
    split at hsplit
    next hp =>
      obtain ⟨body, rfl⟩ := List.isPrefixOf_iff_prefix.mp hp
      have hrun : splitRun? (· != '\n') (['/', '/'] ++ body) = some (l, r) := by
        rw [splitRun?, if_neg (by simp)]
        exact hsplit
      obtain ⟨-, hall, -⟩ := all_of_splitRun? hrun
      have hstop := stop_of_splitRun? hrun
      have hl : l = '/' :: '/' :: body.takeWhile (· != '\n') := (congrArg Prod.fst
        (Option.some.inj hsplit)).symm
      subst hl
      refine Reads.comment ?_ (by simpa using hstop)
      simp only [List.all_cons, Bool.and_eq_true, List.all_eq_true, bne_iff_ne] at hall
      exact hall.2.2
    next => cases hsplit
  | mark kind text =>
    obtain ⟨text, rfl⟩ : ∃ word : String, text = word.toList := ⟨String.ofList text, by simp⟩
    have hspell := spelling?_of_mem_table hmem
    have hfree := reserved?_of_mem_table hmem
    simp only [split?] at hsplit
    split at hsplit
    next hp =>
      cases hsplit
      obtain ⟨r, rfl⟩ := List.isPrefixOf_iff_prefix.mp hp
      rw [String.ofList_toList] at hspell hfree
      rw [List.drop_left] at h ⊢
      have hm : Rule.meaning? (.mark kind text.toList) text.toList = some (kind, text) := by
        simp [Rule.meaning?]
      rw [hm]
      exact .mark hspell hfree (endsAt_of_first? hspell hfree h)
    next => cases hsplit

/-- Every cut is described by `Reads`. -/
theorem reads_cut (c : Char) (cs : List Char) : (cut c cs).1.Reads (cut c cs).2 := by
  unfold cut
  split
  next h => exact reads_of_first? h
  next h =>
    have hnone := List.findSome?_eq_none_iff.mp h
    simp only [Option.map_eq_none_iff] at hnone
    refine .illegal ?_ ?_ ?_ (fun kind l hmem hhead => ?_) (fun hc => ?_)
    · refine Bool.eq_false_iff.mpr fun hw => ?_
      have hpart : isWordPart c = true := by
        refine Bool.of_not_eq_false fun hpart => ?_
        rw [(of_isWordPart hpart).1] at hw
        cases hw
      have hword := hnone .word (by decide)
      simp [split?, splitRun?, hw, hpart] at hword
    · simpa [split?, splitRun?, List.takeWhile_cons] using hnone .number (by decide)
    · simpa [split?, splitRun?, List.takeWhile_cons] using hnone .blanks (by decide)
    · obtain ⟨kind', hshort⟩ := exists_short_mark hmem hhead
      have hmark := hnone _ hshort
      simp [split?] at hmark
    · have hliteral := hnone .literal (by decide)
      rwa [split?, if_pos hc, Option.map_eq_none_iff] at hliteral

theorem Reads.cut_eq {p : Piece} {rest : List Char} (h : p.Reads rest) {c : Char}
    {cs : List Char} (hcs : c :: cs = p.lexeme ++ rest) : cut c cs = (p, rest) := by
  have hrule (rule : Rule) (hm : rule.meaning? p.lexeme = p.meaning?)
      (hf : first? (p.lexeme ++ rest) = some (rule, p.lexeme, rest)) :
      cut c cs = (p, rest) := by
    rw [cut, hcs, hf]
    simp only [hm]
  cases h with
  | word hs hp hrest => exact hrule .word rfl (first?_word hs hp hrest)
  | number hne hd hrest => exact hrule .number rfl (first?_number hne hd hrest)
  | blanks hne hb hrest => exact hrule .blanks rfl (first?_blanks hne hb hrest)
  | @literal body value rest hd =>
    refine hrule .literal (by simp [Rule.meaning?, hd.unescape_eq]) ?_
    simpa using first?_literal hd rest
  | comment hb hrest => exact hrule .comment rfl (first?_comment hb hrest)
  | mark hspell hfree hrest =>
    exact hrule (.mark _ _) (by simp [Rule.meaning?]) (first?_mark hspell hfree hrest)
  | illegal hw hd hb hm hq =>
    obtain ⟨rfl, rfl⟩ := List.cons.inj hcs
    rw [cut, first?_illegal hw hd hb hm hq]

end Piece

end Scriptlet
