import Scriptlet.Proofs.Refusals

/-! Every diagnostic describes a token of the source, and what it says of the token is so. -/
namespace Scriptlet

def Kind.openings : List Kind :=
  [.name, .number, .text, .trueWord, .falseWord, .bang, .minus, .openParen, .openBracket,
    .openCurly, .ifWord, .fnWord]

theorem Kind.not_mem_openings_iff {kind : Kind} : kind ∉ openings ↔ kind.opening? = none := by
  cases kind <;> decide

/-- What the cause says of the token is so. A closing brace is missed only at the end of the
source. -/
def Cause.TrueOf (t : Token) : Cause → Prop
  | unexpectedToken kind text => kind = t.kind ∧ text = t.text ∧ t.kind ∉ Kind.openings
  | tokenMismatch expected found text => found = t.kind ∧ text = t.text ∧ expected ≠ found ∧
      (expected = .closeCurly → t.kind = .endOfInput)
  | integerOutOfRange text => t.kind = .number ∧ text = t.text ∧
      ∃ n, Text.natural? text.toList = some n ∧ Text.int64Bound ≤ n
  | nestingTooDeep limit => limit = 64

/-- The diagnostic stands where the token starts and is true of it. -/
def Diagnostic.Describes (d : Diagnostic) (t : Token) : Prop :=
  d.position = t.position ∧ d.cause.TrueOf t

namespace TokenStream

theorem current_mem (ts : TokenStream) : ts.current ∈ ts.toList := by
  unfold current toList
  cases ts.ahead <;> simp

theorem toList_advance_subset (ts : TokenStream) : ts.advance.toList ⊆ ts.toList := by
  intro t ht
  rcases List.mem_append.mp ht with ht | ht
  · exact List.mem_append_left _ (List.mem_of_mem_tail ht)
  · exact List.mem_append_right _ ht

theorem peek_mem (ts : TokenStream) : ts.peek ∈ ts.toList :=
  ts.toList_advance_subset ts.advance.current_mem

end TokenStream

theorem Refusal.describes {d : Diagnostic} {ts : TokenStream} (h : Refusal d ts) :
    ∃ t ∈ ts.toList, d.Describes t := by
  cases h with
  | unexpected hnone =>
    exact ⟨_, ts.current_mem, rfl, rfl, rfl, Kind.not_mem_openings_iff.mpr hnone⟩
  | mismatch hne hbrace =>
    exact ⟨_, ts.peek_mem, rfl, rfl, rfl, hne.symm, fun h => absurd h hbrace⟩
  | unclosed hend =>
    exact ⟨_, ts.current_mem, rfl, hend.symm, rfl, by decide, fun _ => hend⟩
  | outOfRange hk hn hbound => exact ⟨_, ts.current_mem, rfl, hk, rfl, _, hn, hbound⟩
  | nesting => exact ⟨_, ts.current_mem, rfl, rfl⟩

/-- The tokens to read are among the given ones, and every diagnostic describes one of these. -/
structure Describing (tokens : List Token) (ts : TokenStream) (ds : List Diagnostic) : Prop where
  among : ts.toList ⊆ tokens
  describe : ∀ d ∈ ds, ∃ t ∈ tokens, d.Describes t

instance (tokens : List Token) : Invariant (Describing tokens) where
  advance {ts _} h := ⟨List.Subset.trans ts.toList_advance_subset h.among, h.describe⟩
  recover {ts ds d} h hd := by
    constructor
    · exact List.Subset.trans ts.toList_advance_subset h.among
    · intro e he
      rcases List.mem_append.mp he with he | he
      · exact h.describe e he
      · obtain ⟨t, ht, hdesc⟩ := hd.describes
        rw [List.mem_singleton.mp he]
        exact ⟨t, h.among ht, hdesc⟩

theorem Cursor.file_tokens (file : String) (c : Cursor) :
    ∀ t ∈ (c.tokens file).toList, t.span.file = file := by
  fun_induction Cursor.tokens file c with
  | case1 offset =>
    intro t ht
    rw [List.mem_singleton.mp ht]
    rfl
  | case2 offset c cs cut after token h ih =>
    obtain ⟨m, -, rfl⟩ := Option.map_eq_some_iff.mp h
    intro t ht
    rcases List.mem_cons.mp ht with rfl | ht
    · rfl
    · exact ih t ht
  | case3 offset c cs cut after h ih => exact ih

/-- Every diagnostic stands where a token of the source starts, and what it says of that token is
so. -/
theorem diagnostics_describe (file source : String) :
    ∀ d ∈ (parse file source).errors, d.position.file = file ∧
      ∃ t ∈ tokenize file source, d.position.offset = t.span.start ∧ d.cause.TrueOf t := by
  obtain ⟨ts, h⟩ := Invariant.parse (I := Describing (tokenize file source)) file source
    ⟨List.Subset.refl _, by simp⟩
  intro d hd
  obtain ⟨t, ht, hpos, htrue⟩ := h.describe d hd
  rw [hpos]
  exact ⟨Cursor.file_tokens file _ t ht, t, ht, rfl, htrue⟩

/-- A numeral that is too large by one, in a block that is not closed. -/
theorem diagnostics_describe_numeral :
    (⟨.integerOutOfRange "9223372036854775808", ⟨9, "f"⟩⟩ : Diagnostic) ∈
      (parse "f" "if (x) \x7b 9223372036854775808").errors ∧
    ∃ t ∈ tokenize "f" "if (x) \x7b 9223372036854775808", 9 = t.span.start ∧
      (Cause.integerOutOfRange "9223372036854775808").TrueOf t := by
  have hmem : (⟨.integerOutOfRange "9223372036854775808", ⟨9, "f"⟩⟩ : Diagnostic) ∈
      (parse "f" "if (x) \x7b 9223372036854775808").errors := by
    decide +kernel
  exact ⟨hmem, (diagnostics_describe "f" _ _ hmem).2⟩

end Scriptlet
