/-! String literals: the escapes inside them, how a value is written and how one is read. -/
namespace Scriptlet.Text

/-- The character that a backslash followed by `c` stands for. -/
def escaped? (c : Char) : Option Char :=
  if c = 'n' then some '\n'
  else if c = 't' then some '\t'
  else if c = 'r' then some '\r'
  else if c = '\\' then some '\\'
  else if c = '"' then some '"'
  else if c = '0' then some '\x00'
  else none

/-- A character as it is written inside a literal. -/
def escapeChar (c : Char) : List Char :=
  if c = '\n' then ['\\', 'n']
  else if c = '\t' then ['\\', 't']
  else if c = '\r' then ['\\', 'r']
  else if c = '\x00' then ['\\', '0']
  else if c = '\\' then ['\\', '\\']
  else if c = '"' then ['\\', '"']
  else [c]

def escape (cs : List Char) : List Char :=
  cs.flatMap escapeChar

/-- Replaces the known escapes from left to right; every other backslash pair stays as it is. -/
def unescape : List Char → List Char
  | [] => []
  | [c] => [c]
  | c :: d :: cs =>
    if c = '\\' then
      match escaped? d with
      | some e => e :: unescape cs
      | none => c :: d :: unescape cs
    else c :: unescape (d :: cs)

/-- Splits what follows an opening quote into the raw body of the literal and what follows its
closing quote. A backslash takes the next character with it, which may not be a newline. -/
def splitBody? : List Char → Option (List Char × List Char)
  | [] => none
  | [c] => if c = '"' then some ([], []) else none
  | c :: d :: cs =>
    if c = '"' then some ([], d :: cs)
    else if c = '\\' then
      if d = '\n' then none
      else (splitBody? cs).map fun (body, rest) => (c :: d :: body, rest)
    else (splitBody? (d :: cs)).map fun (body, rest) => (c :: body, rest)

/-- The literal that denotes `s`. -/
def literal (s : String) : String :=
  "\"" ++ String.ofList (escape s.toList) ++ "\""

theorem unescape_cons_of_ne {c : Char} (h : c ≠ '\\') (cs : List Char) :
    unescape (c :: cs) = c :: unescape cs := by
  cases cs <;> simp [unescape, h]

theorem splitBody?_cons_of_ne {c : Char} (hq : c ≠ '"') (hb : c ≠ '\\') (cs : List Char) :
    splitBody? (c :: cs) = (splitBody? cs).map fun (body, rest) => (c :: body, rest) := by
  cases cs <;> simp [splitBody?, hq, hb]

/-- A character is written as itself, or as a backslash pair that denotes it. -/
theorem escapeChar_cases (c : Char) :
    (escapeChar c = [c] ∧ c ≠ '"' ∧ c ≠ '\\') ∨
      ∃ e, escapeChar c = ['\\', e] ∧ escaped? e = some c ∧ e ≠ '\n' := by
  by_cases hn : c = '\n'
  · exact .inr ⟨'n', by simp [escapeChar, hn, escaped?]⟩
  by_cases ht : c = '\t'
  · exact .inr ⟨'t', by simp [escapeChar, ht, escaped?]⟩
  by_cases hr : c = '\r'
  · exact .inr ⟨'r', by simp [escapeChar, hr, escaped?]⟩
  by_cases hz : c = '\x00'
  · exact .inr ⟨'0', by simp [escapeChar, hz, escaped?]⟩
  by_cases hb : c = '\\'
  · exact .inr ⟨'\\', by simp [escapeChar, hb, escaped?]⟩
  by_cases hq : c = '"'
  · exact .inr ⟨'"', by simp [escapeChar, hq, escaped?]⟩
  · exact .inl ⟨by simp [escapeChar, hn, ht, hr, hz, hb, hq], hq, hb⟩

@[simp] theorem unescape_escape (cs : List Char) : unescape (escape cs) = cs := by
  induction cs with
  | nil => rfl
  | cons c cs ih =>
    rw [escape, List.flatMap_cons, ← escape]
    rcases escapeChar_cases c with ⟨h, -, hb⟩ | ⟨e, h, he, -⟩
    · rw [h, List.singleton_append, unescape_cons_of_ne hb, ih]
    · simp [h, unescape, he, ih]

theorem splitBody?_escape (cs rest : List Char) :
    splitBody? (escape cs ++ '"' :: rest) = some (escape cs, rest) := by
  induction cs with
  | nil => cases rest <;> simp [escape, splitBody?]
  | cons c cs ih =>
    rw [escape, List.flatMap_cons, ← escape, List.append_assoc]
    rcases escapeChar_cases c with ⟨h, hq, hb⟩ | ⟨e, h, -, he⟩
    · rw [h, List.singleton_append, splitBody?_cons_of_ne hq hb, ih]
      rfl
    · simp [h, splitBody?, he, ih]

theorem splitBody?_append {cs body rest : List Char} (h : splitBody? cs = some (body, rest)) :
    cs = body ++ '"' :: rest := by
  fun_induction splitBody? cs generalizing body rest with
  | case1 => simp at h
  | case2 => simp_all
  | case3 => simp at h
  | case4 => simp_all
  | case5 => simp at h
  | case6 d cs _ _ ih =>
    obtain ⟨⟨b, r⟩, hb, heq⟩ := Option.map_eq_some_iff.1 h
    cases heq
    rw [ih hb]
    rfl
  | case7 c d cs _ _ ih =>
    obtain ⟨⟨b, r⟩, hb, heq⟩ := Option.map_eq_some_iff.1 h
    cases heq
    rw [ih hb]
    rfl

end Scriptlet.Text
