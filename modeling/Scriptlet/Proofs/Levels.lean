import Scriptlet.Proofs.Window

/-! Levels of nesting are balanced. Every event carries its depth, so the trace of a run says at
which depths it was: whatever is done with a parser, and whether it succeeds or fails, the run comes
back to the depth at which it began, never rises above the limit of nesting, and leaves a level only
where it has entered one. -/
namespace Scriptlet

open Layer Scriptlet.Parser

def Event.changesDepth : Event → Bool
  | opened _ => true
  | closed _ => true
  | _ => false

theorem Event.changesDepth_of_isRemark {e : Event} (h : e.isRemark = true) :
    e.changesDepth = false := by
  cases e <;> simp_all [isRemark, changesDepth]

/-- `Levels low high d es d'`: the events lead from the depth `d` to the depth `d'`. A level is
entered only below `high`, and left only above `low`; each change is noted with the depth of the
level that is entered or left. -/
inductive Levels (low high : Nat) : Nat → List Event → Nat → Prop
  | done {d : Nat} : Levels low high d [] d
  | stay {d d' : Nat} {e : Event} {es : List Event} (he : e.changesDepth = false)
      (h : Levels low high d es d') : Levels low high d (e :: es) d'
  | opened {d d' : Nat} {es : List Event} (hd : d < high) (h : Levels low high (d + 1) es d') :
      Levels low high d (.opened (d + 1) :: es) d'
  | closed {d d' : Nat} {es : List Event} (hd : low ≤ d) (h : Levels low high d es d') :
      Levels low high (d + 1) (.closed (d + 1) :: es) d'

namespace Levels

variable {low high d d' d'' : Nat} {es es' : List Event}

theorem append (h : Levels low high d es d') (h' : Levels low high d' es' d'') :
    Levels low high d (es ++ es') d'' := by
  induction h with
  | done => exact h'
  | stay he _ ih => exact .stay he (ih h')
  | opened hd _ ih => exact .opened hd (ih h')
  | closed hd _ ih => exact .closed hd (ih h')

theorem mono {low' high' : Nat} (h : Levels low high d es d') (hlow : low' ≤ low)
    (hhigh : high ≤ high') : Levels low' high' d es d' := by
  induction h with
  | done => exact .done
  | stay he _ ih => exact .stay he ih
  | opened hd _ ih => exact .opened (Nat.lt_of_lt_of_le hd hhigh) ih
  | closed hd _ ih => exact .closed (Nat.le_trans hlow hd) ih

/-- What happens one level deeper, with the level entered before it and left behind it. -/
theorem wrap (h : Levels (d + 1) high (d + 1) es (d + 1)) (hd : d < high) :
    Levels d high d (.opened (d + 1) :: (es ++ [.closed (d + 1)])) d := by
  have hinner := h.mono (Nat.le_succ d) (Nat.le_refl high)
  exact .opened hd (hinner.append (.closed (Nat.le_refl d) .done))

/-- At any point of the trace the depth is between the bounds. -/
theorem of_append (h : Levels low high d (es ++ es') d') (hlow : low ≤ d) (hhigh : d ≤ high) :
    ∃ m, Levels low high d es m ∧ low ≤ m ∧ m ≤ high := by
  induction es generalizing d with
  | nil => exact ⟨d, .done, hlow, hhigh⟩
  | cons e es ih =>
    cases h with
    | stay he h =>
      obtain ⟨m, hm, hbounds⟩ := ih h hlow hhigh
      exact ⟨m, .stay he hm, hbounds⟩
    | opened hd h =>
      obtain ⟨m, hm, hbounds⟩ := ih h (by omega) (by omega)
      exact ⟨m, .opened hd hm, hbounds⟩
    | closed hd h =>
      obtain ⟨m, hm, hbounds⟩ := ih h hd (by omega)
      exact ⟨m, .closed hd hm, hbounds⟩

theorem lt_of_closed (h : Levels low high d es d') {m : Nat} (hm : .closed m ∈ es) : low < m := by
  induction h with
  | done => simp at hm
  | stay he _ ih =>
    rcases List.mem_cons.mp hm with rfl | hm
    · simp [Event.changesDepth] at he
    · exact ih hm
  | opened _ _ ih => exact ih (by simpa using hm)
  | closed hd _ ih =>
    rcases List.mem_cons.mp hm with heq | hm
    · cases heq
      omega
    · exact ih hm

end Levels

/-- Between the states a run came back to the depth at which it began. It rose by at most `room`
levels, and it never fell below that depth. -/
structure State.Balanced (room : Nat) (s t : State) : Prop where
  depth : t.depth = s.depth
  events : ∃ es, t.trace.toList = s.trace.toList ++ es ∧
    Levels s.depth (s.depth + room) s.depth es s.depth

namespace State.Balanced

variable {room : Nat} {s t u : State}

theorem event {e : Event} (htrace : t.trace = s.trace.push e) (hdepth : t.depth = s.depth)
    (he : e.changesDepth = false) : s.Balanced room t :=
  ⟨hdepth, [e], by simp [htrace], .stay he .done⟩

theorem trans (hst : s.Balanced room t) (htu : t.Balanced room u) : s.Balanced room u := by
  obtain ⟨es, hes, hlevels⟩ := hst.events
  obtain ⟨es', hes', hlevels'⟩ := htu.events
  rw [hst.depth] at hlevels'
  exact ⟨htu.depth.trans hst.depth, es ++ es', by simp [hes', hes], hlevels.append hlevels'⟩

instance (room : Nat) : Stepwise (State.Balanced room) where
  refl _ := ⟨rfl, [], by simp, .done⟩
  trans := trans
  advance s := event (e := .advanced s.peek) rfl rfl rfl
  note s e he := event (e := e) rfl rfl (Event.changesDepth_of_isRemark he)
  record s d := event (e := .recorded s.current d) rfl rfl rfl

theorem nest (h : s.enter.Balanced room t) : s.Balanced (room + 1) t.leave := by
  obtain ⟨es, hes, hlevels⟩ := h.events
  have hdepth : t.depth = s.depth + 1 := h.depth
  have hinner : Levels (s.depth + 1) (s.depth + (room + 1)) (s.depth + 1) es (s.depth + 1) :=
    hlevels.mono (Nat.le_refl _) (Nat.le_of_eq (by simp only [State.enter]; omega))
  refine ⟨by simp [State.leave, hdepth], .opened (s.depth + 1) :: (es ++ [.closed (s.depth + 1)]),
    ?_, hinner.wrap (by omega)⟩
  simp [State.leave, State.enter, hdepth, hes]

end State.Balanced

instance {room : Nat} {α : Type} {p : Parser α} [Keeps (State.Balanced room) p] :
    Keeps (State.Balanced (room + 1)) (nest p) where
  final s := by
    unfold Parser.nest
    split
    next a t hr => exact State.Balanced.nest (Keeps.of_ok hr)
    next d t hr => exact State.Balanced.nest (Keeps.of_error hr)

/-- A layer with room for `n` levels rises by at most `n` levels. -/
instance Layer.keeps_balanced (n : Nat) : (ofRoom n).Keeps (State.Balanced n) := by
  induction n with
  | zero => constructor <;> unfold ofRoom deepest <;> infer_instance
  | succ n ih => constructor <;> unfold ofRoom above <;> infer_instance

/-- Whatever is done with a parser that stands at most as deep as the limit, it comes back to its
depth, whether it succeeds or fails. In between it is never deeper than the limit, and it leaves a
level only where there is one. -/
theorem nesting_is_balanced (op : Operation) (s : State) (hs : s.depth ≤ maxNesting) :
    (op.run s).depth = s.depth ∧
      ∃ es, (op.run s).trace.toList = s.trace.toList ++ es ∧
        Levels s.depth maxNesting s.depth es s.depth ∧
        (∀ before, before <+: es → ∃ d ≤ maxNesting, Levels s.depth maxNesting s.depth before d) ∧
        ∀ d, .closed d ∈ es → 0 < d := by
  obtain ⟨hdepth, es, hes, hlevels⟩ :=
    op.keeps_of_layer (R := State.Balanced (maxNesting - s.depth)) s
  rw [Nat.add_sub_cancel' hs] at hlevels
  refine ⟨hdepth, es, hes, hlevels, ?_, ?_⟩
  · rintro before ⟨after, rfl⟩
    obtain ⟨d, hd, -, hle⟩ := hlevels.of_append (Nat.le_refl _) hs
    exact ⟨d, hle, hd⟩
  · intro d hd
    exact Nat.zero_lt_of_lt (hlevels.lt_of_closed hd)

/-- Two levels below the limit, a group in a group is refused at the limit itself. -/
theorem nesting_is_balanced_refusal :
    let s : State := { State.ofSource "f" "((1))" with depth := 62 }
    s.depth ≤ maxNesting ∧
      (Operation.stmt.run s).trace.toList.contains
        (.refused 64 ⟨.nestingTooDeep 64, ⟨2, "f"⟩⟩) = true ∧
      (Operation.stmt.run s).depth = 62 := by
  intro s
  have hs : s.depth ≤ maxNesting := by decide
  exact ⟨hs, by decide +kernel, (nesting_is_balanced .stmt s hs).1⟩

end Scriptlet
