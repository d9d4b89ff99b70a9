import Scriptlet.Proofs.Window

/-! The table of rules is a longest-match lexer. Each rule has a class of lexemes, given apart from
how the rule reads. An earlier rule of the table takes more than a later one wherever both can read,
so the first rule that reads is the only one that reads as much, and the order of the rules does not
matter to a lexer that takes the longest lexeme. -/
namespace Scriptlet

open Text (byteSize)

/-- Whether the text closes a literal: a raw body and the quote behind it. In the body a backslash
makes a pair with the next character, which is no newline, and no quote stands alone. -/
def Text.closesLiteral : List Char → Bool
  | [] => false
  | [c] => c == '"'
  | c :: d :: cs =>
    if c = '\\' then d != '\n' && closesLiteral cs else c != '"' && closesLiteral (d :: cs)

namespace Rule

/-- Whether the lexeme belongs to the class of the rule. -/
def accepts : Rule → List Char → Bool
  | word, l => l.head?.any isWordStart && l.all isWordPart
  | number, l => !l.isEmpty && l.all Char.isDigit
  | blanks, l => !l.isEmpty && l.all Text.isBlank
  | literal, l => l.head? == some '"' && Text.closesLiteral l.tail
  | comment, l => ['/', '/'].isPrefixOf l && l.all (· != '\n')
  | mark _ text, l => l == text

/-- At the head of the text the rule accepts the lexeme, and nothing else that a rule of the table
accepts there is as long. -/
structure Longest (text : List Char) (rule : Rule) (l : List Char) : Prop where
  mem : rule ∈ table
  accepts : rule.accepts l = true
  head : l <+: text
  unique : ∀ other ∈ table, ∀ l', l' <+: text → other.accepts l' = true →
    l'.length < l.length ∨ other = rule ∧ l' = l

theorem Longest.eq {text l l' : List Char} {rule other : Rule} (h : Longest text rule l)
    (h' : Longest text other l') : other = rule ∧ l' = l := by
  rcases h.unique other h'.mem l' h'.head h'.accepts with hlt | heq
  · rcases h'.unique rule h.mem l h.head h.accepts with hlt' | ⟨rfl, rfl⟩
    · omega
    · exact ⟨rfl, rfl⟩
  · exact heq

end Rule

theorem Text.Denotes.closesLiteral {body value : List Char} (h : Denotes body value) :
    closesLiteral (body ++ ['"']) = true := by
  induction h with
  | nil => rfl
  | @plain c body value hq hb _ ih =>
    cases body <;> simp_all [Text.closesLiteral]
  | @escaped c d body value hc _ ih =>
    have hn : c ≠ '\n' := by
      rintro rfl
      simp [escapes] at hc
    simpa [Text.closesLiteral, hn] using ih
  | verbatim _ hn _ ih => simpa [Text.closesLiteral, hn] using ih

theorem Text.splitBody?_of_closesLiteral {l : List Char} (h : closesLiteral l = true)
    (rest : List Char) : splitBody? (l ++ rest) = some (l.dropLast, rest) := by
  fun_induction closesLiteral l with
  | case1 => simp at h
  | case2 c =>
    obtain rfl : c = '"' := by simpa using h
    cases rest <;> simp [splitBody?]
  | case3 d cs ih =>
    simp only [Bool.and_eq_true, bne_iff_ne, ne_eq] at h
    have hcs : cs ≠ [] := by
      rintro rfl
      simp [closesLiteral] at h
    simp [splitBody?, h.1, ih h.2, List.dropLast_cons_of_ne_nil, hcs]
  | case4 c d cs hb ih =>
    simp only [Bool.and_eq_true, bne_iff_ne, ne_eq] at h
    rw [List.cons_append, splitBody?_cons_of_ne h.1 hb, ih h.2]
    simp [List.dropLast_cons_of_ne_nil]

namespace Rule

theorem splitRun?_of_all {p : Char → Bool} {l : List Char} (hne : l ≠ [])
    (hall : l.all p = true) (rest : List Char) :
    splitRun? p (l ++ rest) = some (l ++ rest.takeWhile p, rest.dropWhile p) := by
  have hpos : ∀ c ∈ l, p c = true := List.all_eq_true.mp hall
  rw [splitRun?, List.takeWhile_append_of_pos hpos, List.dropWhile_append_of_pos hpos,
    if_neg (by simp [hne])]

theorem accepts_of_split? {rule : Rule} {text l r : List Char}
    (h : rule.split? text = some (l, r)) : rule.accepts l = true := by
  cases rule with
  | word =>
    simp only [split?] at h
    split at h
    next hstart =>
      obtain ⟨-, hall, hhead⟩ := all_of_splitRun? h
      simp [accepts, hhead, hstart, hall]
    next => simp at h
  | number =>
    obtain ⟨hne, hall, -⟩ := all_of_splitRun? h
    simp [accepts, hne, hall]
  | blanks =>
    obtain ⟨hne, hall, -⟩ := all_of_splitRun? h
    simp [accepts, hne, hall]
  | literal =>
    cases text with
    | nil => simp [split?] at h
    | cons c cs =>
      simp only [split?] at h
      split at h
      next hc =>
        obtain ⟨⟨body, rest⟩, hb, heq⟩ := Option.map_eq_some_iff.1 h
        cases heq
        simpa [accepts, hc] using (Text.denotes_of_splitBody? hb).closesLiteral
      next => simp at h
  | comment =>
    simp only [split?] at h
    split at h
    next hp =>
      cases h
      obtain ⟨rest, rfl⟩ := List.isPrefixOf_iff_prefix.mp hp
      simp [accepts]
    next => simp at h
  | mark kind lexeme =>
    simp only [split?] at h
    split at h
    next =>
      cases h
      simp [accepts]
    next => simp at h

/-- Where a text starts with something of its class, the rule reads at least as much. -/
theorem exists_split?_of_accepts {rule : Rule} {l : List Char} (h : rule.accepts l = true)
    (rest : List Char) :
    ∃ l' r, rule.split? (l ++ rest) = some (l', r) ∧ l.length ≤ l'.length := by
  cases rule with
  | word =>
    simp only [accepts, Bool.and_eq_true] at h
    have hne : l ≠ [] := by
      rintro rfl
      simp at h
    have hhead : (l ++ rest).head?.any isWordStart = true := by
      simpa [List.head?_append, Option.or_of_isSome, hne] using h.1
    rw [split?, if_pos hhead, splitRun?_of_all hne h.2]
    exact ⟨_, _, rfl, by simp⟩
  | number =>
    simp only [accepts, Bool.and_eq_true, Bool.not_eq_true', List.isEmpty_eq_false_iff] at h
    exact ⟨_, _, splitRun?_of_all h.1 h.2 rest, by simp⟩
  | blanks =>
    simp only [accepts, Bool.and_eq_true, Bool.not_eq_true', List.isEmpty_eq_false_iff] at h
    exact ⟨_, _, splitRun?_of_all h.1 h.2 rest, by simp⟩
  | literal =>
    cases l with
    | nil => simp [accepts] at h
    | cons c cs =>
      simp only [accepts, List.head?_cons, List.tail_cons, Bool.and_eq_true, beq_iff_eq,
        Option.some.injEq] at h
      obtain ⟨rfl, hcs⟩ := h
      have hsplit := Text.splitBody?_of_closesLiteral hcs rest
      refine ⟨'"' :: cs.dropLast ++ ['"'], rest, by simp [split?, hsplit], ?_⟩
      simp only [List.length_append, List.length_cons, List.length_dropLast]
      omega
  | comment =>
    simp only [accepts, Bool.and_eq_true] at h
    obtain ⟨hp, hall⟩ := h
    have hslashes : ['/', '/'].isPrefixOf (l ++ rest) = true := by
      obtain ⟨cs, rfl⟩ := List.isPrefixOf_iff_prefix.mp hp
      simp
    have htake : (l ++ rest).takeWhile (· != '\n') = l ++ rest.takeWhile (· != '\n') :=
      List.takeWhile_append_of_pos (List.all_eq_true.mp hall)
    exact ⟨_, _, by rw [split?, if_pos hslashes, htake], by simp⟩
  | mark kind text =>
    obtain rfl : l = text := by simpa [accepts] using h
    exact ⟨l, rest, by simp [split?], Nat.le_refl _⟩

theorem length_lt_or_eq_of_split? {rule : Rule} (hr : rule ∈ table) {text l r : List Char}
    (h : rule.split? text = some (l, r)) {l' : List Char} (hl' : l' <+: text)
    (hacc : rule.accepts l' = true) : l'.length < l.length ∨ l' = l := by
  have hhead : l <+: text := ⟨r, (split?_append hr h).1.symm⟩
  obtain ⟨rest, rfl⟩ := hl'
  obtain ⟨l'', r', hsplit, hle⟩ := exists_split?_of_accepts hacc rest
  obtain ⟨rfl, rfl⟩ := Prod.mk.inj (Option.some.inj (h.symm.trans hsplit))
  have hshorter := List.prefix_of_prefix_length_le (List.prefix_append l' rest) hhead hle
  rcases Nat.lt_or_eq_of_le hle with hlt | heq
  · exact .inl hlt
  · exact .inr (hshorter.eq_of_length heq)

/-- Wherever both rules accept something, the first one accepts more. -/
def Outreads (a b : Rule) : Prop :=
  ∀ text l l', l <+: text → l' <+: text → a.accepts l = true → b.accepts l' = true →
    l'.length < l.length

/-- Where a rule stands in the table. Comments and marks stand together: they may start with the
same character. -/
def rank : Rule → Nat
  | word => 0
  | number => 1
  | blanks => 2
  | literal => 3
  | comment => 4
  | mark .. => 4

/-- The rank of the rules whose lexemes start with the character. -/
def rankOf (c : Char) : Nat :=
  if isWordStart c then 0
  else if c.isDigit then 1
  else if Text.isBlank c then 2
  else if c = '"' then 3
  else 4

/-- What every lexeme of a comment or mark starts with; a mark is nothing else. -/
def stem : Rule → List Char
  | comment => ['/', '/']
  | mark _ text => text
  | _ => []

theorem rankOf_of_mark {kind : Kind} {c : Char} {l : List Char} (h : mark kind (c :: l) ∈ table) :
    rankOf c = 4 := by
  have hall : table.all (fun rule => rule.stem.head?.all (rankOf · == 4)) = true := by decide
  simpa [stem] using List.all_eq_true.mp hall _ h

theorem ne_nil_of_accepts {rule : Rule} (hr : rule ∈ table) {l : List Char}
    (h : rule.accepts l = true) : l ≠ [] := by
  rintro rfl
  obtain ⟨l', r, hsplit, -⟩ := exists_split?_of_accepts h []
  obtain ⟨happ, hne⟩ := split?_append hr hsplit
  exact hne (List.append_eq_nil_iff.mp happ.symm).1

/-- The first character of a lexeme tells the rank of its rule. -/
theorem rank_of_accepts {rule : Rule} (hr : rule ∈ table) {c : Char} {l : List Char}
    (h : rule.accepts (c :: l) = true) : rule.rank = rankOf c := by
  cases rule with
  | word =>
    have hc : isWordStart c = true := by simp_all [accepts]
    simp [rank, rankOf, hc]
  | number =>
    have hc : c.isDigit = true := by simp_all [accepts]
    simp [rank, rankOf, isWordStart_of_isDigit hc, hc]
  | blanks =>
    have hc : Text.isBlank c = true := by simp_all [accepts]
    obtain ⟨hstart, hdigit⟩ := of_isWordPart (isWordPart_of_isBlank hc)
    simp [rank, rankOf, hstart, hdigit, hc]
  | literal =>
    obtain rfl : c = '"' := by simp_all [accepts]
    decide
  | comment =>
    have hp := List.isPrefixOf_iff_prefix.mp (Bool.and_eq_true_iff.mp h).1
    obtain rfl : '/' = c := (List.cons_prefix_cons.mp hp).1
    decide
  | mark kind text =>
    obtain rfl : c :: l = text := by simpa [accepts] using h
    exact (rankOf_of_mark hr).symm

theorem stem_of_accepts {rule : Rule} {l : List Char} (hr : rule.rank = 4)
    (h : rule.accepts l = true) : rule.stem <+: l ∧ (rule ≠ comment → l = rule.stem) := by
  cases rule with
  | comment =>
    have hp := (Bool.and_eq_true_iff.mp h).1
    exact ⟨List.isPrefixOf_iff_prefix.mp hp, fun hne => absurd rfl hne⟩
  | mark kind text =>
    obtain rfl : l = text := by simpa [accepts] using h
    exact ⟨List.prefix_rfl, fun _ => rfl⟩
  | _ => simp [rank] at hr

theorem table_pairwise : table.Pairwise fun a b =>
    a.rank < b.rank ∨ a.rank = 4 ∧ b.rank = 4 ∧ b ≠ comment ∧ ¬ a.stem <+: b.stem := by
  decide

/-- An earlier rule of the table takes more than a later one wherever both can read. -/
theorem table_outreads : table.Pairwise Outreads := by
  apply table_pairwise.imp_of_mem
  intro a b ha hb hab text l l' hl hl' hacc hacc'
  rcases hab with hlt | ⟨hra, hrb, hne, hstem⟩
  · -- The two lexemes start with the same character, so the rules have one rank.
    obtain ⟨c, cs, rfl⟩ := List.exists_cons_of_ne_nil (ne_nil_of_accepts ha hacc)
    obtain ⟨d, ds, rfl⟩ := List.exists_cons_of_ne_nil (ne_nil_of_accepts hb hacc')
    obtain ⟨rest, rfl⟩ := hl
    obtain rfl : d = c := (List.cons_prefix_cons.mp hl').1
    have hrank := (rank_of_accepts ha hacc).trans (rank_of_accepts hb hacc').symm
    omega
  · have hstem' : a.stem <+: l := (stem_of_accepts hra hacc).1
    obtain rfl : l' = b.stem := (stem_of_accepts hrb hacc').2 hne
    rcases List.prefix_or_prefix_of_prefix (hstem'.trans hl) hl' with hp | hp
    · exact absurd hp hstem
    · have hlength : b.stem.length ≠ a.stem.length := by
        intro heq
        exact hstem (hp.eq_of_length heq ▸ List.prefix_rfl)
      have := hp.length_le
      have := hstem'.length_le
      omega

/-- No rule of the table accepts anything at the head of the text. -/
def Unread (text : List Char) : Prop :=
  ∀ rule ∈ table, ∀ l, l <+: text → rule.accepts l = false

theorem split?_eq_none_iff {rule : Rule} (hr : rule ∈ table) {text : List Char} :
    rule.split? text = none ↔ ∀ l, l <+: text → rule.accepts l = false := by
  constructor
  · rintro h l ⟨rest, rfl⟩
    by_contra hacc
    obtain ⟨l', r, hsplit, -⟩ := exists_split?_of_accepts (Bool.of_not_eq_false hacc) rest
    rw [h] at hsplit
    cases hsplit
  · intro h
    cases hsplit : rule.split? text with
    | none => rfl
    | some split =>
      obtain ⟨l, r⟩ := split
      have hacc := h l ⟨r, (split?_append hr hsplit).1.symm⟩
      rw [accepts_of_split? hsplit] at hacc
      cases hacc

theorem first?_eq_none_iff {text : List Char} : first? text = none ↔ Unread text := by
  simp only [first?, List.findSome?_eq_none_iff, Option.map_eq_none_iff]
  exact forall₂_congr fun rule hr => split?_eq_none_iff hr

/-- The first rule that reads takes more than any other could, and all that it could itself. -/
theorem longest_of_first? {text l r : List Char} {rule : Rule}
    (h : first? text = some (rule, l, r)) : Longest text rule l := by
  obtain ⟨hmem, hsplit⟩ := first?_eq_some h
  have hhead : l <+: text := ⟨r, (split?_append hmem hsplit).1.symm⟩
  refine ⟨hmem, accepts_of_split? hsplit, hhead, ?_⟩
  intro other hother l' hl' hacc
  obtain ⟨earlier, found, later, htable, hfound, hnone⟩ := List.findSome?_eq_some_iff.mp h
  obtain ⟨split, -, heq⟩ := Option.map_eq_some_iff.mp hfound
  cases heq
  simp only [Option.map_eq_none_iff] at hnone
  rw [htable, List.mem_append, List.mem_cons] at hother
  rcases hother with hearlier | rfl | hlater
  · -- An earlier rule accepts nothing here, as it did not read.
    have hunread := (split?_eq_none_iff (htable ▸ List.mem_append_left _ hearlier)).mp
      (hnone other hearlier) l' hl'
    rw [hacc] at hunread
    cases hunread
  · simpa using length_lt_or_eq_of_split? hmem hsplit hl' hacc
  · have houtreads := table_outreads
    rw [htable, List.pairwise_append, List.pairwise_cons] at houtreads
    exact .inl (houtreads.2.1.1 other hlater text l l' hhead hl' (accepts_of_split? hsplit) hacc)

theorem Longest.not_unread {text l : List Char} {rule : Rule} (h : Longest text rule l) :
    ¬ Unread text := by
  intro hunread
  have hacc := hunread rule h.mem l h.head
  rw [h.accepts] at hacc
  cases hacc

theorem first?_eq_some_iff {text l r : List Char} {rule : Rule} :
    first? text = some (rule, l, r) ↔ Longest text rule l ∧ text = l ++ r := by
  constructor
  · intro h
    obtain ⟨hmem, hsplit⟩ := first?_eq_some h
    exact ⟨longest_of_first? h, (split?_append hmem hsplit).1⟩
  · rintro ⟨hlongest, htext⟩
    cases hfirst : first? text with
    | none => exact absurd (first?_eq_none_iff.mp hfirst) hlongest.not_unread
    | some found =>
      obtain ⟨other, l', r'⟩ := found
      obtain ⟨rfl, rfl⟩ := hlongest.eq (longest_of_first? hfirst)
      obtain ⟨hmem, hsplit⟩ := first?_eq_some hfirst
      have hr : l' ++ r' = l' ++ r := (split?_append hmem hsplit).1.symm.trans htext
      rw [List.append_cancel_left hr]

/-- The rules of the table in some order. -/
structure Order where
  rules : List Rule
  perm : rules.Perm table

namespace Order

variable (order : Order)

/-- The longest lexeme of at most `n` characters at the head of the text, with the first rule that
accepts it. Longer lexemes are tried before shorter ones. -/
def longest? (text : List Char) : Nat → Option (Rule × List Char)
  | 0 => none
  | n + 1 =>
    match order.rules.find? (·.accepts (text.take (n + 1))) with
    | some rule => some (rule, text.take (n + 1))
    | none => longest? text n

theorem longest?_of_unread {text : List Char} (h : Unread text) (n : Nat) :
    order.longest? text n = none := by
  induction n with
  | zero => rfl
  | succ n ih =>
    have hfind : order.rules.find? (·.accepts (text.take (n + 1))) = none := by
      apply List.find?_eq_none.mpr
      intro rule hr
      simp [h rule (order.perm.mem_iff.mp hr) _ (List.take_prefix _ _)]
    rw [longest?, hfind]
    exact ih

theorem longest?_of_longest {text l : List Char} {rule : Rule} (h : Longest text rule l)
    {n : Nat} (hl : l.length ≤ n) (hn : n ≤ text.length) :
    order.longest? text n = some (rule, l) := by
  induction n with
  | zero =>
    have hne := List.length_pos_iff.mpr (ne_nil_of_accepts h.mem h.accepts)
    omega
  | succ n ih =>
    have hlength : (text.take (n + 1)).length = n + 1 := List.length_take_of_le hn
    rw [longest?]
    split
    next other hfind =>
      have hmem := order.perm.mem_iff.mp (List.mem_of_find?_eq_some hfind)
      have hacc := List.find?_some hfind
      rcases h.unique other hmem _ (List.take_prefix _ _) hacc with hlt | ⟨rfl, heq⟩
      · omega
      · rw [heq]
    next hfind =>
      have hne : l.length ≠ n + 1 := by
        intro heq
        have htake : l = text.take (n + 1) := heq ▸ List.prefix_iff_eq_take.mp h.head
        have hacc := List.find?_eq_none.mp hfind rule (order.perm.mem_iff.mpr h.mem)
        exact hacc (htake ▸ h.accepts)
      exact ih (by omega) (by omega)

def cut (c : Char) (cs : List Char) : Piece × List Char :=
  match order.longest? (c :: cs) (c :: cs).length with
  | some (rule, lexeme) => (⟨lexeme, rule.meaning? lexeme⟩, (c :: cs).drop lexeme.length)
  | none => (⟨[c], some (.illegal, String.singleton c)⟩, cs)

theorem cut_eq (c : Char) (cs : List Char) : order.cut c cs = Piece.cut c cs := by
  unfold cut Piece.cut
  cases hfirst : first? (c :: cs) with
  | none => rw [order.longest?_of_unread (first?_eq_none_iff.mp hfirst)]
  | some found =>
    obtain ⟨rule, l, r⟩ := found
    obtain ⟨hlongest, htext⟩ := first?_eq_some_iff.mp hfirst
    rw [order.longest?_of_longest hlongest hlongest.head.length_le (Nat.le_refl _)]
    simp [htext]

def tokens (file : String) : Cursor → TokenStream
  | ⟨offset, []⟩ => .ended (.atEnd file offset)
  | ⟨offset, c :: cs⟩ =>
    let cut := order.cut c cs
    let after := tokens file ⟨offset + byteSize cut.1.lexeme, cut.2⟩
    match cut.1.token? file offset with
    | some token => after.push token
    | none => after
termination_by c => c.rest.length
decreasing_by
  rw [order.cut_eq]
  exact Piece.length_cut_lt c cs

theorem tokens_eq (file : String) (c : Cursor) : order.tokens file c = c.tokens file := by
  fun_induction Cursor.tokens file c with
  | case1 offset => rw [tokens]
  | case2 offset c cs cut after token htoken ih =>
    rw [tokens, order.cut_eq, ih]
    simp only [cut, htoken]
    rfl
  | case3 offset c cs cut after hgap ih =>
    rw [tokens, order.cut_eq, ih]
    simp only [cut, hgap]
    rfl

def tokenize (file source : String) : List Token :=
  (order.tokens file ⟨0, source.toList⟩).toList

theorem tokenize_eq (file source : String) :
    order.tokenize file source = Scriptlet.tokenize file source := by
  rw [tokenize, order.tokens_eq]
  rfl

end Order

end Rule

/-- The token written as `l` with `rest` behind it is the longest there is. -/
structure Token.Munched (t : Token) (l rest : List Char) : Prop where
  /-- One rule accepts what is written, and none accepts more or as much. -/
  longest : t.kind ≠ .illegal →
    ∃ rule, Rule.Longest (l ++ rest) rule l ∧ rule.meaning? l = some (t.kind, t.text)
  illegal : t.kind = .illegal ↔ Rule.Unread (l ++ rest)
  /-- A token is of the kind of a reserved word exactly if all of the run of letters, digits and
  underscores from its start on is that word. -/
  keyword : ∀ word kind, Kind.reserved? word = some kind →
    (t.kind = kind ↔ String.ofList ((l ++ rest).takeWhile Rule.isWordPart) = word)
  number : t.kind = .number → ∀ c ∈ rest.head?, c.isDigit = false
  sign : t.kind = .assign ∨ t.kind = .bang → rest.head? ≠ some '='
  slash : t.kind = .slash → rest.head? ≠ some '/'
  /-- A quote is illegal exactly where no literal starts. -/
  quote : t.kind = .illegal ∧ t.text = "\"" ↔
    (l ++ rest).head? = some '"' ∧ ∀ l', l' <+: l ++ rest → Rule.literal.accepts l' = false

theorem Kind.isWordStart_of_reserved? {word : String} {kind : Kind}
    (h : reserved? word = some kind) : word.toList.head?.any Rule.isWordStart = true := by
  have hspell := spelling?_of_reserved? h
  cases kind <;> cases hspell
  case letWord | fnWord | returnWord | ifWord | elseWord | trueWord | falseWord => decide
  all_goals cases h

theorem Kind.ofWord_eq_iff {word other : String} {kind : Kind} (h : reserved? word = some kind) :
    ofWord other = kind ↔ other = word := by
  have hspell := spelling?_of_reserved? h
  constructor
  · rintro rfl
    rcases ofWord_cases other with hother | ⟨hname, -⟩
    · exact Option.some.inj (hother.symm.trans hspell)
    · rw [hname] at hspell
      cases hspell
  · rintro rfl
    rw [ofWord, h]
    rfl

theorem ofList_takeWhile_ne_of_reserved? {word : String} {kind : Kind}
    (h : Kind.reserved? word = some kind) {text : List Char}
    (htext : text.head?.any Rule.isWordStart = false) :
    String.ofList (text.takeWhile Rule.isWordPart) ≠ word := by
  rintro rfl
  have hstart := Kind.isWordStart_of_reserved? h
  rw [String.toList_ofList] at hstart
  cases text with
  | nil => simp at hstart
  | cons c cs =>
    rw [List.takeWhile_cons] at hstart
    split at hstart
    · simp_all
    · simp at hstart

theorem Kind.isWordStart_of_mark {kind : Kind} {text : String} (h : kind.spelling? = some text)
    (hfree : reserved? text = none) (rest : List Char) :
    (text.toList ++ rest).head?.any Rule.isWordStart = false := by
  cases kind <;> cases h
  case letWord | fnWord | returnWord | ifWord | elseWord | trueWord | falseWord => cases hfree
  all_goals rfl

theorem Kind.endsAt_ofWord {rest : List Char} (h : Apart rest) (word : String) :
    (ofWord word).EndsAt rest := by
  unfold ofWord reserved?
  repeat' split
  all_goals first | exact h | trivial

namespace Piece

variable {p : Piece} {kind : Kind} {text : String}

theorem Reads.reserved_iff {rest : List Char} (hp : p.Reads rest)
    (hm : p.meaning? = some (kind, text)) {word : String} {reserved : Kind}
    (h : Kind.reserved? word = some reserved) :
    kind = reserved ↔ String.ofList ((p.lexeme ++ rest).takeWhile Rule.isWordPart) = word := by
  have hspell := Kind.spelling?_of_reserved? h
  cases hp <;> cases hm
  case word l hs hall hrest =>
    have hrun : (l ++ rest).takeWhile Rule.isWordPart = l := by
      rw [List.takeWhile_append_of_pos (List.all_eq_true.mp hall)]
      cases rest with
      | nil => simp
      | cons c rest => simp [hrest c rfl]
    rw [hrun]
    exact Kind.ofWord_eq_iff h
  case number l hne hd hrest =>
    refine iff_of_false ?_ (ofList_takeWhile_ne_of_reserved? h ?_)
    · rintro rfl
      cases hspell
    · obtain ⟨c, cs, rfl⟩ := List.exists_cons_of_ne_nil hne
      rw [List.all_cons, Bool.and_eq_true] at hd
      simpa using isWordStart_of_isDigit hd.1
  case literal body value hd =>
    refine iff_of_false ?_ (ofList_takeWhile_ne_of_reserved? h rfl)
    rintro rfl
    cases hspell
  case mark hrest hfree hmark =>
    refine iff_of_false ?_ (ofList_takeWhile_ne_of_reserved? h
      (Kind.isWordStart_of_mark hmark hfree rest))
    rintro rfl
    rw [Option.some.inj (hmark.symm.trans hspell), h] at hfree
    cases hfree
  case illegal c hw hd hb hm hq =>
    refine iff_of_false ?_ (ofList_takeWhile_ne_of_reserved? h (by simpa using hw))
    rintro rfl
    cases hspell

theorem Reads.endsAt {rest : List Char} (hp : p.Reads rest)
    (hm : p.meaning? = some (kind, text)) : kind.EndsAt rest := by
  cases hp <;> cases hm
  case word hs hall hrest => exact Kind.endsAt_ofWord hrest _
  case mark hrest hfree hmark => exact hrest
  case number | literal | illegal => trivial

theorem Reads.not_isDigit {rest : List Char} (hp : p.Reads rest)
    (hm : p.meaning? = some (.number, text)) : ∀ c ∈ rest.head?, c.isDigit = false := by
  cases hp
  case number hne hd hrest => exact hrest
  case word hs hall hrest =>
    have hk : Kind.ofWord _ = .number := congrArg Prod.fst (Option.some.inj hm)
    exact absurd hk (Kind.ofWord_ne _ rfl nofun)
  case mark hspell hfree hrest =>
    cases hm
    cases hspell
  case blanks | literal | comment | illegal => cases hm

theorem kind_ne_illegal {rule : Rule} (hr : rule ∈ Rule.table) {l : List Char}
    (h : rule.meaning? l = some (kind, text)) : kind ≠ .illegal := by
  rintro rfl
  cases rule with
  | word =>
    have hk : Kind.ofWord _ = .illegal := congrArg Prod.fst (Option.some.inj h)
    exact absurd hk (Kind.ofWord_ne _ rfl nofun)
  | mark kind l =>
    cases h
    cases Rule.spelling?_of_mem_table hr
  | number | blanks | literal | comment => cases h

theorem unread_quote_iff {cs : List Char} :
    Rule.Unread ('"' :: cs) ↔ ∀ l, l <+: '"' :: cs → Rule.literal.accepts l = false := by
  constructor
  · intro h
    exact h .literal (by decide)
  · intro h rule hr l hl
    by_contra hacc
    rw [Bool.not_eq_false] at hacc
    obtain ⟨d, l, rfl⟩ := List.exists_cons_of_ne_nil (Rule.ne_nil_of_accepts hr hacc)
    obtain rfl : d = '"' := (List.cons_prefix_cons.mp hl).1
    have hrank : rule.rank = 3 := Rule.rank_of_accepts hr hacc
    cases rule with
    | literal =>
      rw [h _ hl] at hacc
      cases hacc
    | _ => cases hrank

theorem cut_cases (c : Char) (cs : List Char) :
    (∃ rule, Rule.Longest (c :: cs) rule (cut c cs).1.lexeme ∧
      rule.meaning? (cut c cs).1.lexeme = (cut c cs).1.meaning?) ∨
    Rule.Unread (c :: cs) ∧ (cut c cs).1 = ⟨[c], some (.illegal, String.singleton c)⟩ := by
  unfold cut
  cases hfirst : Rule.first? (c :: cs) with
  | none => exact .inr ⟨Rule.first?_eq_none_iff.mp hfirst, rfl⟩
  | some found =>
    obtain ⟨rule, l, r⟩ := found
    exact .inl ⟨rule, Rule.longest_of_first? hfirst, rfl⟩

theorem munched_cut {c : Char} {cs : List Char}
    (hm : (cut c cs).1.meaning? = some (kind, text)) (span : Span) :
    Token.Munched ⟨kind, text, span⟩ (cut c cs).1.lexeme (cut c cs).2 := by
  have hp := reads_cut c cs
  have hends := hp.endsAt hm
  constructor
  case keyword =>
    intro word reserved h
    exact hp.reserved_iff hm h
  case number =>
    rintro rfl
    exact hp.not_isDigit hm
  case sign =>
    rintro (rfl | rfl)
    · exact hends
    · exact hends
  case slash =>
    rintro rfl
    exact hends
  all_goals
    rw [← (cut_append c cs).1]
    rcases cut_cases c cs with ⟨rule, hlongest, hmeaning⟩ | ⟨hunread, hcut⟩
  case longest.inl => exact fun _ => ⟨rule, hlongest, hmeaning.trans hm⟩
  case longest.inr =>
    intro hk
    rw [hcut] at hm
    cases hm
    exact absurd rfl hk
  case illegal.inl =>
    have hread := hlongest.not_unread
    have hk := kind_ne_illegal hlongest.mem (hmeaning.trans hm)
    exact iff_of_false hk hread
  case illegal.inr =>
    rw [hcut] at hm
    cases hm
    exact iff_of_true rfl hunread
  case quote.inl =>
    have hk := kind_ne_illegal hlongest.mem (hmeaning.trans hm)
    refine iff_of_false (fun h => hk h.1) ?_
    rintro ⟨hc, hnone⟩
    obtain rfl : c = '"' := by simpa using hc
    exact hlongest.not_unread (unread_quote_iff.mpr hnone)
  case quote.inr =>
    rw [hcut] at hm
    cases hm
    constructor
    · rintro ⟨-, htext⟩
      obtain rfl : c = '"' := by simpa using congrArg String.toList htext
      exact ⟨rfl, unread_quote_iff.mp hunread⟩
    · rintro ⟨hc, -⟩
      obtain rfl : c = '"' := by simpa using hc
      exact ⟨rfl, rfl⟩

end Piece

/-- The next token is the longest there is behind the gap at the cursor. -/
theorem Cursor.next_munched (file : String) (c : Cursor)
    (h : (c.next file).1.kind ≠ .endOfInput) :
    ∃ gap l, c.rest = gap ++ (l ++ (c.next file).2.rest) ∧ Gap gap (l ++ (c.next file).2.rest) ∧
      (c.next file).1.span = .ofSize file (c.offset + byteSize gap) (byteSize l) ∧
      (c.next file).1.Munched l (c.next file).2.rest := by
  fun_induction next file c with
  | case1 offset => exact absurd rfl h
  | case2 offset c cs cut after token htoken =>
    obtain ⟨⟨kind, text⟩, hm, rfl⟩ := Option.map_eq_some_iff.mp htoken
    exact ⟨[], cut.1.lexeme, (Piece.cut_append c cs).1, .nil, rfl, Piece.munched_cut hm _⟩
  | case3 offset c cs cut after hgap ih =>
    obtain ⟨gap, l, hrest, hg, hspan, hmunched⟩ := ih h
    have hm : cut.1.meaning? = none := Option.map_eq_none_iff.mp hgap
    refine ⟨cut.1.lexeme ++ gap, l, ?_, ?_, ?_, hmunched⟩
    · rw [List.append_assoc, ← hrest]
      exact (Piece.cut_append c cs).1
    · apply Piece.Reads.gap _ hm hg
      rw [← hrest]
      exact Piece.reads_cut c cs
    · rw [hspan, Text.byteSize_append, ← Nat.add_assoc]

/-- A scanner that yields a token before the end of its source stands on a character boundary. -/
theorem Scanner.exists_at_of_next? {s after : Scanner} {t : Token}
    (h : s.next? = some (t, after)) (hk : t.kind ≠ .endOfInput) :
    ∃ rest, s.At ⟨s.position, rest⟩ := by
  unfold next? at h
  split at h
  next =>
    cases h
    exact absurd rfl hk
  next =>
    obtain ⟨rest, hrest, -⟩ := Option.map_eq_some_iff.mp h
    exact ⟨rest, rfl, hrest⟩

/-- The table of rules lexes by longest match. At the head of any text the first rule that reads is
the one rule with the longest lexeme, and none reads exactly where no rule accepts anything, so the
tokens are those of a lexer that takes the longest lexeme, whatever the order of its rules. Wherever
a scanner stands, the token that it yields is the longest behind the gap at its position. -/
theorem lexing_is_maximal_munch (file source : String) :
    (∀ text rule l r, Rule.first? text = some (rule, l, r) ↔
      Rule.Longest text rule l ∧ text = l ++ r) ∧
    (∀ text, Rule.first? text = none ↔ Rule.Unread text) ∧
    (∀ order : Rule.Order, order.tokenize file source = tokenize file source) ∧
    ∀ position t after, (⟨file, source, position⟩ : Scanner).next? = some (t, after) →
      t.kind ≠ .endOfInput → ∃ gap l rest,
        (⟨file, source, position⟩ : Scanner).rest? = some (gap ++ (l ++ rest)) ∧
        after.rest? = some rest ∧ Gap gap (l ++ rest) ∧
        t.span = .ofSize file (position + byteSize gap) (byteSize l) ∧ t.Munched l rest := by
  refine ⟨fun _ _ _ _ => Rule.first?_eq_some_iff, fun _ => Rule.first?_eq_none_iff,
    fun order => order.tokenize_eq file source, ?_⟩
  intro position t after hnext hk
  obtain ⟨rest, hat⟩ := Scanner.exists_at_of_next? hnext hk
  obtain ⟨rfl, rfl⟩ := Prod.mk.inj (Option.some.inj (hat.next?.symm.trans hnext))
  obtain ⟨gap, l, hrest, hg, hspan, hmunched⟩ := Cursor.next_munched file ⟨position, rest⟩ hk
  exact ⟨gap, l, _, hat.rest.trans (congrArg some hrest), hat.after.rest, hg, hspan, hmunched⟩

/-- A name that starts like a reserved word, a reserved word behind a digit and a quote that opens no
literal, with the rules tried from the last to the first. -/
theorem lexing_is_maximal_munch_reversed :
    let source := "lets==1let \"a"
    let order : Rule.Order := ⟨Rule.table.reverse, Rule.table.reverse_perm⟩
    (tokenize "f" source).map Token.kind =
        [.name, .equal, .number, .letWord, .illegal, .name, .endOfInput] ∧
      order.tokenize "f" source = tokenize "f" source ∧
      ∃ t l rest, t ∈ tokenize "f" source ∧ t.kind = .illegal ∧ t.Munched l rest := by
  intro source order
  let s : Scanner := ⟨"f", source, 10⟩
  obtain ⟨⟨t, after⟩, hnext, hmem, hk⟩ : ∃ next, s.next? = some next ∧
      next.1 ∈ tokenize "f" source ∧ next.1.kind = .illegal := by
    refine ⟨s.next?.get (by decide +kernel), by simp, by decide +kernel, by decide +kernel⟩
  have hend : t.kind ≠ .endOfInput := by
    intro he
    cases hk.symm.trans he
  obtain ⟨-, -, horder, hlongest⟩ := lexing_is_maximal_munch "f" source
  obtain ⟨gap, l, rest, -, -, -, -, hmunched⟩ := hlongest 10 t after hnext hend
  exact ⟨by decide +kernel, horder order, t, l, rest, hmem, hk, hmunched⟩

end Scriptlet
