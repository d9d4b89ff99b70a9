import Scriptlet.Proofs.LockstepLayers
import Scriptlet.Proofs.Window

/-! Parsing ends, because it makes progress on tokens. No operation takes a token back, and every
round of a loop that runs to its end reads one, recovery from a failed statement included. So the
rule that a round without progress is the last one never applies: the loops end by themselves, also
at the end of the source. -/
namespace Scriptlet

open Reader Layer Scriptlet.Parser

namespace State

/-- The state stands somewhere in the source, at any depth and with any diagnostics. -/
def Over (file source : String) (s : State) : Prop :=
  s.input.toList <:+ tokenize file source

/-- How many tokens from the current one on do not end the source. -/
def pending (s : State) : Nat :=
  s.input.toList.countP fun t => t.kind ≠ .endOfInput

theorem Over.sealed {file source : String} {s : State} (h : s.Over file source) : s.Sealed := by
  obtain ⟨before, hbefore⟩ := h
  have hsource := ofSource_sealed file source
  rw [TokenStream.toList, tokenize, TokenStream.toList, ← List.append_assoc] at hbefore
  obtain ⟨hahead, hstop⟩ := List.append_inj' hbefore rfl
  constructor
  · rw [List.singleton_inj.mp hstop]
    exact hsource.stop
  · intro t ht
    apply hsource.ahead t
    have hmem : t ∈ before ++ s.input.ahead := List.mem_append_right before ht
    rwa [hahead] at hmem

theorem Sealed.pending_eq {s : State} (h : s.Sealed) : s.pending = s.remaining := by
  have hahead : s.input.ahead.countP (fun t => t.kind ≠ .endOfInput) = s.input.ahead.length := by
    apply List.countP_eq_length.mpr
    intro t ht
    simpa using (h.ahead t ht).2
  rw [pending, TokenStream.toList, List.countP_append, hahead, s.remaining_eq]
  simp [h.stop, State.ahead]

end State

namespace Reader

variable {ε α : Type}

/-- `Rounds goesOn round k a s r`: from `a` and `s` on, the loop comes to `r` after `k` rounds that
ran to their end. It stops only where the state says so, or where a round fails. -/
inductive Rounds (goesOn : State → Bool) (round : α → Reader ε α) :
    Nat → α → State → EStateM.Result ε State α → Prop
  | stop {a : α} {s : State} (hs : goesOn s = false) : Rounds goesOn round 0 a s (.ok a s)
  | fail {a : α} {s t : State} {e : ε} (hs : goesOn s = true) (hr : round a s = .error e t) :
      Rounds goesOn round 0 a s (.error e t)
  | next {k : Nat} {a b : α} {s t : State} {r : EStateM.Result ε State α} (hs : goesOn s = true)
      (hr : round a s = .ok b t) (h : Rounds goesOn round k b t r) :
      Rounds goesOn round (k + 1) a s r

/-- A round from the state on that runs to its end reads a token, and the loop ends by itself,
after no more rounds than there are tokens. -/
structure Progresses (goesOn : State → Bool) (round : α → Reader ε α) (s : State) : Prop where
  reads : ∀ a b t, goesOn s = true → round a s = .ok b t → t.pending < s.pending
  ends : ∀ a, ∃ k ≤ s.pending, Rounds goesOn round k a s (repeatWhile goesOn round a s)

namespace Progresses

variable {goesOn : State → Bool} {s : State}

theorem of_reads {round : α → Reader ε α} [hk : ∀ a, Keeps State.Seals (round a)]
    (hread : ∀ {a b : α} {s t : State}, s.Sealed → goesOn s = true → round a s = .ok b t →
      t.remaining < s.remaining) (hs : s.Sealed) : Progresses goesOn round s := by
  constructor
  · intro a b t hgo hr
    have ht : t.Sealed := (hk a).of_ok hr hs
    rw [ht.pending_eq, hs.pending_eq]
    exact hread hs hgo hr
  · intro a
    rw [hs.pending_eq]
    induction a, s using repeatWhile_induction goesOn round with
    | stop a s hgo =>
      rw [repeatWhile_of_stop hgo]
      exact ⟨0, Nat.zero_le _, .stop hgo⟩
    | fail a s e t hgo hr =>
      rw [repeatWhile_of_error hgo hr]
      exact ⟨0, Nat.zero_le _, .fail hgo hr⟩
    | idle a s b t hgo hr hidle => exact absurd (hread hs hgo hr) hidle
    | next a s b t hgo hr hlt ih =>
      obtain ⟨k, hle, hrounds⟩ := ih ((hk a).of_ok hr hs)
      rw [repeatWhile_of_ok hgo hr hlt]
      exact ⟨k + 1, by omega, .next hgo hr hrounds⟩

theorem gather {item : Reader ε α} [Keeps State.Seals item]
    (hread : ∀ {a : α} {s t : State}, s.Sealed → goesOn s = true → item s = .ok a t →
      t.remaining < s.remaining) (hs : s.Sealed) : Progresses goesOn (gather item) s := by
  have hk (items : Array α) : Keeps State.Seals (Reader.gather item items) := by
    unfold Reader.gather
    infer_instance
  apply of_reads _ hs
  intro items items' s t hs hgo hr
  cases hi : item s with
  | error e u => cases (gather_of_error hi).symm.trans hr
  | ok a u =>
    cases (gather_of_ok hi).symm.trans hr
    exact hread hs hgo hi

end Progresses

end Reader

/-- The loops of a parser make progress from the state on: over the statements of a program and of a
block, over the operators of an expression, over the parameters of a function, over the elements of
a list, and over the pairs of a hash. -/
structure Layer.Progresses (below : Layer) (s : State) : Prop where
  program : Reader.Progresses (fun s => s.current.kind ≠ .endOfInput)
    (gather (below.stmtOrSkip : Reader Empty _)) s
  block : Reader.Progresses (fun s => s.current.kind ≠ .closeCurly && s.current.kind ≠ .endOfInput)
    (gather (below.stmtOrSkip : Parser _)) s
  climb (floor : Power) : Reader.Progresses (binds floor) (below.extend floor) s
  parameters : Reader.Progresses (fun s => s.peek.kind = .comma) (gather nextParameter) s
  list : Reader.Progresses (fun s => s.peek.kind = .comma) (gather below.nextElement) s
  hash : Reader.Progresses (fun s => s.peek.kind ≠ .closeCurly) (gather below.pair) s

open Comparison.Steps in
theorem Layer.progresses (n : Nat) {s : State} (hs : s.Sealed) : (ofRoom n).Progresses s where
  program := by
    refine .gather ?_ hs
    intro st? s t hs hgo hr
    exact Fair.remaining_lt_of_stmtOrSkip (hs.remaining_pos (of_decide_eq_true hgo)) hr
  block := by
    refine .gather ?_ hs
    intro st? s t hs hgo hr
    exact Fair.remaining_lt_of_stmtOrSkip (hs.remaining_pos (ne_endOfInput_of_inBlock hgo)) hr
  climb floor := by
    refine .of_reads ?_ hs
    intro left e s t hs hgo hr
    exact remaining_lt_of_extend hs hgo hr
  parameters := by
    refine .gather ?_ hs
    intro name s t hs hgo hr
    exact remaining_lt_of_comma hs (of_decide_eq_true hgo) hr
  list := by
    refine .gather ?_ hs
    intro e s t hs hgo hr
    exact remaining_lt_of_comma hs (of_decide_eq_true hgo) hr
  hash := by
    refine .gather ?_ hs
    intro pair s t hs _ hr
    exact remaining_lt_of_pair hs hr

/-- Wherever a parser stands in a source, no operation adds to the tokens that are left, whether it
succeeds or fails, and all loops make progress, however much room there is for nesting. -/
theorem parsing_progresses (file source : String) (s : State) (hs : s.Over file source) :
    (∀ op : Operation, (op.run s).pending ≤ s.pending) ∧ ∀ n, (ofRoom n).Progresses s := by
  constructor
  · intro op
    have hsealed : (op.run s).Sealed := op.keeps (R := State.Seals) s hs.sealed
    rw [hsealed.pending_eq, hs.sealed.pending_eq]
    exact op.keeps (R := State.Shrinks) s
  · intro n
    exact Layer.progresses n hs.sealed

/-- At the end of a source, in a hash that nothing closes. -/
theorem parsing_progresses_unclosed :
    (State.ofSource "f" "\x7b 1: 2,").advance.advance.advance.advance.advance.Over "f"
        "\x7b 1: 2," ∧
      Reader.Progresses (fun s => s.peek.kind ≠ .closeCurly) (gather (ofRoom 9).pair)
        (State.ofSource "f" "\x7b 1: 2,").advance.advance.advance.advance.advance := by
  have hover : (State.ofSource "f" "\x7b 1: 2,").advance.advance.advance.advance.advance.Over "f"
      "\x7b 1: 2," := by
    unfold State.Over
    decide +kernel
  exact ⟨hover, ((parsing_progresses "f" _ _ hover).2 9).hash⟩

end Scriptlet
