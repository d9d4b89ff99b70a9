import Scriptlet.Proofs.LockstepLayers
import Scriptlet.Proofs.PrintedForm
import Scriptlet.Proofs.Window

/-! Layout reaches the result of a parse only through positions. Two sources whose tokens differ at
most in where they stand are parsed in lockstep from the first token to the last: nothing that a
parser decides depends on a span, and a diagnostic stands at a token of the same index. -/
namespace Scriptlet

/-- The tokens of the two streams differ at most in where they stand. -/
def TokenStream.Alike (ts ts' : TokenStream) : Prop :=
  List.Forall₂ (fun t t' => t.alike t' = true) ts.toList ts'.toList

namespace TokenStream.Alike

variable {ts ts' : TokenStream}

/-- What stands at an index of both streams has one index in both lists of tokens. -/
theorem exists_index (h : ts.Alike ts') (i : Nat) :
    ∃ j : Nat, ts.toList[j]? = some (ts.nth i) ∧ ts'.toList[j]? = some (ts'.nth i) := by
  refine ⟨min i (ts.toList.length - 1), ts.getElem?_toList_min i, ?_⟩
  rw [h.length_eq]
  exact ts'.getElem?_toList_min i

theorem nth (h : ts.Alike ts') (i : Nat) : (ts.nth i).alike (ts'.nth i) = true := by
  obtain ⟨j, hj, hj'⟩ := h.exists_index i
  obtain ⟨hlt, heq⟩ := List.getElem?_eq_some_iff.mp hj
  obtain ⟨hlt', heq'⟩ := List.getElem?_eq_some_iff.mp hj'
  have halike := List.Forall₂.get h hlt hlt'
  simpa [heq, heq'] using halike

end TokenStream.Alike

/-- Runs over sources that differ in layout are compared from end to end. -/
def Comparison.ofLayouts {ts ts' : TokenStream} (h : ts.Alike ts') : Comparison where
  source := ts
  source' := ts'
  near _ := True
  mono _ _ := trivial
  alike {i} _ := h.nth i
  earlier := []
  earlier' := []

/-- The diagnostics have the same cause, and stand at tokens with the same index in the two
lists. -/
structure Diagnostic.Corresponds (ts ts' : List Token) (d d' : Diagnostic) : Prop where
  cause : d.cause = d'.cause
  place : ∃ (i : Nat) (t t' : Token), ts[i]? = some t ∧ ts'[i]? = some t' ∧
    d.position = t.position ∧ d'.position = t'.position

theorem Comparison.Similar.corresponds {ts ts' : TokenStream} {h : ts.Alike ts'}
    {d d' : Diagnostic} (hd : (Comparison.ofLayouts h).Similar d d') :
    d.Corresponds ts.toList ts'.toList d' := by
  obtain ⟨hcause, t, t', ⟨i, -, ht, ht'⟩, hpos, hpos'⟩ := hd
  obtain ⟨j, hj, hj'⟩ := h.exists_index i
  rw [ht] at hpos
  rw [ht'] at hpos'
  exact ⟨hcause, j, _, _, hj, hj', hpos, hpos'⟩

/-- Sources whose tokens agree in kind and text, whatever their names and their layout, parse to
programs that are alike and are printed alike. They have the same number of errors, and each has
the same cause as its counterpart and stands at a token with the same index. -/
theorem parse_of_alike_tokens (file file' source source' : String)
    (h : List.Forall₂ (fun t t' => t.alike t' = true) (tokenize file source)
      (tokenize file' source')) :
    (parse file source).program.alike (parse file' source').program = true ∧
      (parse file source).program.print = (parse file' source').program.print ∧
      (parse file source).errors.length = (parse file' source').errors.length ∧
      List.Forall₂ (Diagnostic.Corresponds (tokenize file source) (tokenize file' source'))
        (parse file source).errors (parse file' source').errors := by
  have hts : (TokenStream.ofSource file source).Alike (.ofSource file' source') := h
  obtain ⟨read, t, hr, hparse⟩ := exists_parse file source
  have hagree : (Comparison.ofLayouts hts).Agree (.ofSource file source)
      (.ofSource file' source') :=
    ⟨State.ofSource_sealed file source, State.ofSource_sealed file' source', rfl, rfl,
      ⟨0, rfl, rfl⟩, [], [], rfl, rfl, .nil⟩
  obtain ⟨read', t', hr', hlike, ht⟩ := Comparison.readAll hagree hr trivial
  have hparse' : parse file' source' = ⟨⟨read'.filterMap id⟩, t'.errors.toList, t'.trace.toList⟩ :=
    parse_eq (Reader.bind_of_ok hr')
  have halike : (parse file source).program.alike (parse file' source').program = true := by
    rw [hparse, hparse']
    exact Stmt.allAlike_of_forall₂ hlike
  have herrors : List.Forall₂
      (Diagnostic.Corresponds (tokenize file source) (tokenize file' source'))
      (parse file source).errors (parse file' source').errors := by
    obtain ⟨ds, ds', hds, hds', hsimilar⟩ := ht.errors
    rw [hparse, hparse']
    simp only [hds, hds', Comparison.ofLayouts, List.nil_append]
    exact hsimilar.imp fun d d' hd => hd.corresponds
  exact ⟨halike, Program.print_eq_of_alike halike, herrors.length_eq, herrors⟩

/-- A comment, a newline inside a hash and another name, with a statement that fails in between. -/
theorem parse_of_alike_tokens_failure :
    List.Forall₂ (fun t t' => t.alike t' = true)
        (tokenize "f" "let x 5; \x7b\"k\": 1\x7d[ ; y")
        (tokenize "g" "let  x // no sign\n 5\n;\x7b\"k\"\n:1\x7d\t[;y") ∧
      (parse "f" "let x 5; \x7b\"k\": 1\x7d[ ; y").errors =
        [⟨.tokenMismatch .assign .number "5", ⟨6, "f"⟩⟩,
          ⟨.unexpectedToken .semicolon ";", ⟨19, "f"⟩⟩] ∧
      List.Forall₂ (Diagnostic.Corresponds (tokenize "f" "let x 5; \x7b\"k\": 1\x7d[ ; y")
        (tokenize "g" "let  x // no sign\n 5\n;\x7b\"k\"\n:1\x7d\t[;y"))
        (parse "f" "let x 5; \x7b\"k\": 1\x7d[ ; y").errors
        (parse "g" "let  x // no sign\n 5\n;\x7b\"k\"\n:1\x7d\t[;y").errors := by
  have htokens : List.Forall₂ (fun t t' => t.alike t' = true)
      (tokenize "f" "let x 5; \x7b\"k\": 1\x7d[ ; y")
      (tokenize "g" "let  x // no sign\n 5\n;\x7b\"k\"\n:1\x7d\t[;y") := by decide +kernel
  exact ⟨htokens, by decide +kernel, (parse_of_alike_tokens "f" "g" _ _ htokens).2.2.2⟩

end Scriptlet
