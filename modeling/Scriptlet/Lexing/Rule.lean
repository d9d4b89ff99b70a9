import Scriptlet.Text.Blank
import Scriptlet.Text.Literal
import Scriptlet.Token.Kind

/-! The lexical rules: each one reads a lexeme at the head of a text, and the first rule of the
table that can read decides. -/
namespace Scriptlet

inductive Rule
  | word
  | number
  | blanks
  | literal
  | comment
  | mark (kind : Kind) (text : List Char)
  deriving DecidableEq, Repr

namespace Rule

def isWordStart (c : Char) : Bool :=
  c.isAlpha || c == '_'

def isWordPart (c : Char) : Bool :=
  c.isAlphanum || c == '_'

/-- Splits off the longest run of characters that satisfy `p`, if there is one. -/
def splitRun? (p : Char → Bool) (cs : List Char) : Option (List Char × List Char) :=
  if (cs.takeWhile p).isEmpty then none else some (cs.takeWhile p, cs.dropWhile p)

/-- Splits a text into the lexeme that the rule reads at its head and the rest. -/
def split? : Rule → List Char → Option (List Char × List Char)
  | word, cs => if cs.head?.any isWordStart then splitRun? isWordPart cs else none
  | number, cs => splitRun? Char.isDigit cs
  | blanks, cs => splitRun? Text.isBlank cs
  | literal, [] => none
  | literal, c :: cs =>
    if c = '"' then (Text.splitBody? cs).map fun (body, rest) => (c :: body ++ ['"'], rest)
    else none
  | comment, cs =>
    if ['/', '/'].isPrefixOf cs then some (cs.takeWhile (· != '\n'), cs.dropWhile (· != '\n'))
    else none
  | mark _ text, cs => if text.isPrefixOf cs then some (text, cs.drop text.length) else none

/-- What a lexeme that the rule has read stands for; blanks and comments stand for nothing. -/
def meaning? : Rule → List Char → Option (Kind × String)
  | word, lexeme => let text := String.ofList lexeme; some (.ofWord text, text)
  | number, lexeme => some (.number, String.ofList lexeme)
  | blanks, _ => none
  | literal, lexeme => some (.text, String.ofList (Text.unescape lexeme.tail.dropLast))
  | comment, _ => none
  | mark kind text, _ => some (kind, String.ofList text)

/-- The rules in the order in which they are tried. -/
def table : List Rule :=
  [word, number, blanks, literal, comment,
   mark .openBracket ['['], mark .closeBracket [']'],
   mark .openCurly ['\x7b'], mark .closeCurly ['\x7d'],
   mark .openParen ['('], mark .closeParen [')'],
   mark .equal ['=', '='], mark .notEqual ['!', '='], mark .bang ['!'], mark .assign ['='],
   mark .less ['<'], mark .greater ['>'],
   mark .semicolon [';'], mark .colon [':'], mark .comma [','],
   mark .plus ['+'], mark .minus ['-'], mark .slash ['/'], mark .star ['*']]

theorem splitRun?_append {p : Char → Bool} {cs l r : List Char} (h : splitRun? p cs = some (l, r)) :
    cs = l ++ r ∧ l ≠ [] := by
  unfold splitRun? at h
  split at h
  · simp at h
  next hne =>
    cases h
    exact ⟨List.takeWhile_append_dropWhile.symm, by simpa using hne⟩

/-- A rule of the table reads a non-empty lexeme and leaves the rest untouched. -/
theorem split?_append {rule : Rule} (hr : rule ∈ table) {cs l r : List Char}
    (h : rule.split? cs = some (l, r)) : cs = l ++ r ∧ l ≠ [] := by
  cases rule with
  | word =>
    simp only [split?] at h
    split at h
    · exact splitRun?_append h
    · simp at h
  | number => exact splitRun?_append h
  | blanks => exact splitRun?_append h
  | literal =>
    cases cs with
    | nil => simp [split?] at h
    | cons c cs =>
      simp only [split?] at h
      split at h
      next hc =>
        obtain ⟨⟨body, rest⟩, hb, heq⟩ := Option.map_eq_some_iff.1 h
        cases heq
        exact ⟨by simp [Text.splitBody?_append hb], by simp⟩
      next => simp at h
  | comment =>
    simp only [split?] at h
    split at h
    next hp =>
      cases h
      refine ⟨List.takeWhile_append_dropWhile.symm, ?_⟩
      cases cs with
      | nil => simp at hp
      | cons c cs =>
        have hc : '/' = c := (by simpa using hp : '/' = c ∧ _).1
        simp [← hc]
    next => simp at h
  | mark kind text =>
    simp only [split?] at h
    split at h
    next hp =>
      cases h
      obtain ⟨t, rfl⟩ := List.isPrefixOf_iff_prefix.1 hp
      refine ⟨by simp, ?_⟩
      rintro rfl
      simp [table] at hr
    next => simp at h

theorem kind_ne_endOfInput {rule : Rule} (hr : rule ∈ table) {l : List Char} {kind : Kind}
    {text : String} (h : rule.meaning? l = some (kind, text)) : kind ≠ .endOfInput := by
  rintro rfl
  cases rule with
  | word => exact Kind.ofWord_ne_endOfInput (congrArg Prod.fst (Option.some.inj h))
  | number => simp [meaning?] at h
  | blanks => simp [meaning?] at h
  | literal => simp [meaning?] at h
  | comment => simp [meaning?] at h
  | mark kind text =>
    simp only [meaning?, Option.some.injEq, Prod.mk.injEq] at h
    simp [table, h.1] at hr

end Rule

end Scriptlet
