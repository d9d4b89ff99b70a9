import Scriptlet.Parsing.Reader

/-! Loops of readers. Every round but the last one reads a token, so a loop ends. -/
namespace Scriptlet.Reader

variable {ε α : Type}

/-- Runs `round` as long as the state allows. A round that reads no token is the last one, so the
loop ends. -/
def repeatWhile (goesOn : State → Bool) (round : α → Reader ε α) (a : α) (s : State) :
    EStateM.Result ε State α :=
  if goesOn s then
    -- Taken beforehand, so that the round is the only user of the state.
    let before := s.remaining
    match round a s with
    | .ok b t => if t.remaining < before then repeatWhile goesOn round b t else .ok b t
    | .error e t => .error e t
  else .ok a s
termination_by s.remaining

/-- Adds what `item` reads to what was read before. -/
def gather (item : Reader ε α) (items : Array α) : Reader ε (Array α) := do
  return items.push (← item)

/-- What `item` reads, as long as the state allows. -/
def collect (goesOn : State → Bool) (item : Reader ε α) : Reader ε (List α) := do
  let items ← repeatWhile goesOn (gather item) #[]
  return items.toList

theorem repeatWhile_of_stop {goesOn : State → Bool} {round : α → Reader ε α} {a : α} {s : State}
    (h : goesOn s = false) : repeatWhile goesOn round a s = .ok a s := by
  rw [repeatWhile, if_neg (by simp [h])]

theorem repeatWhile_of_ok {goesOn : State → Bool} {round : α → Reader ε α} {a b : α}
    {s t : State} (h : goesOn s = true) (hr : round a s = .ok b t)
    (ht : t.remaining < s.remaining) :
    repeatWhile goesOn round a s = repeatWhile goesOn round b t := by
  rw [repeatWhile, if_pos h, hr]
  exact if_pos ht

/-- A round that reads no token is the last one. -/
theorem repeatWhile_of_idle {goesOn : State → Bool} {round : α → Reader ε α} {a b : α}
    {s t : State} (h : goesOn s = true) (hr : round a s = .ok b t)
    (ht : ¬ t.remaining < s.remaining) : repeatWhile goesOn round a s = .ok b t := by
  rw [repeatWhile, if_pos h, hr]
  exact if_neg ht

theorem repeatWhile_of_error {goesOn : State → Bool} {round : α → Reader ε α} {a : α}
    {s t : State} {e : ε} (h : goesOn s = true) (hr : round a s = .error e t) :
    repeatWhile goesOn round a s = .error e t := by
  rw [repeatWhile, if_pos h, hr]

/-- Induction over the rounds of a loop, from the last one on. -/
theorem repeatWhile_induction (goesOn : State → Bool) (round : α → Reader ε α)
    {motive : α → State → Prop} (stop : ∀ a s, goesOn s = false → motive a s)
    (fail : ∀ a s e t, goesOn s = true → round a s = .error e t → motive a s)
    (idle : ∀ a s b t, goesOn s = true → round a s = .ok b t → ¬ t.remaining < s.remaining →
      motive a s)
    (next : ∀ a s b t, goesOn s = true → round a s = .ok b t → t.remaining < s.remaining →
      motive b t → motive a s) (a : α) (s : State) : motive a s := by
  induction a, s using repeatWhile.induct goesOn round with
  | case1 a s hs _ b t hr ht ih => exact next a s b t hs hr ht ih
  | case2 a s hs _ b t hr ht => exact idle a s b t hs hr ht
  | case3 a s hs e t hr => exact fail a s e t hs hr
  | case4 a s hs => exact stop a s (Bool.of_not_eq_true hs)

theorem collect_of_stop {goesOn : State → Bool} {item : Reader ε α} {s : State}
    (h : goesOn s = false) : collect goesOn item s = .ok [] s := by
  simp [collect, bind, EStateM.bind, pure, EStateM.pure, repeatWhile_of_stop h]

theorem gather_of_ok {item : Reader ε α} {items : Array α} {s t : State} {a : α}
    (h : item s = .ok a t) : gather item items s = .ok (items.push a) t := by
  simp [gather, bind, EStateM.bind, pure, EStateM.pure, h]

theorem gather_of_error {item : Reader ε α} {items : Array α} {s t : State} {e : ε}
    (h : item s = .error e t) : gather item items s = .error e t := by
  simp [gather, bind, EStateM.bind, h]

/-- What was read before does not change how a loop runs. -/
theorem repeatWhile_gather_append {goesOn : State → Bool} {item : Reader ε α}
    (before items : Array α) (s : State) :
    repeatWhile goesOn (gather item) (before ++ items) s =
      match repeatWhile goesOn (gather item) items s with
      | .ok read t => .ok (before ++ read) t
      | .error e t => .error e t := by
  induction h : s.remaining using Nat.strongRecOn generalizing items s with
  | _ n ih =>
    by_cases hs : goesOn s = true
    · cases hi : item s with
      | ok a t =>
        by_cases ht : t.remaining < s.remaining
        · rw [repeatWhile_of_ok hs (gather_of_ok hi) ht, repeatWhile_of_ok hs (gather_of_ok hi) ht,
            ← Array.append_push]
          exact ih _ (h ▸ ht) _ t rfl
        · rw [repeatWhile_of_idle hs (gather_of_ok hi) ht,
            repeatWhile_of_idle hs (gather_of_ok hi) ht, ← Array.append_push]
      | error e t =>
        rw [repeatWhile_of_error hs (gather_of_error hi),
          repeatWhile_of_error hs (gather_of_error hi)]
    · have hs : goesOn s = false := by simpa using hs
      rw [repeatWhile_of_stop hs, repeatWhile_of_stop hs]

theorem collect_of_ok {goesOn : State → Bool} {item : Reader ε α} {s t : State} {a : α}
    (h : goesOn s = true) (hi : item s = .ok a t) (ht : t.remaining < s.remaining) :
    collect goesOn item s =
      match collect goesOn item t with
      | .ok items u => .ok (a :: items) u
      | .error e u => .error e u := by
  have hr : repeatWhile goesOn (gather item) #[] s =
      repeatWhile goesOn (gather item) (#[a] ++ #[]) t :=
    repeatWhile_of_ok h (gather_of_ok hi) ht
  rw [repeatWhile_gather_append] at hr
  simp only [collect, bind, EStateM.bind, pure, EStateM.pure, hr]
  cases repeatWhile goesOn (gather item) #[] t <;> simp

theorem collect_of_error {goesOn : State → Bool} {item : Reader ε α} {s t : State} {e : ε}
    (h : goesOn s = true) (hi : item s = .error e t) : collect goesOn item s = .error e t := by
  have hr : repeatWhile goesOn (gather item) #[] s = .error e t :=
    repeatWhile_of_error h (gather_of_error hi)
  simp only [collect, bind, EStateM.bind, hr]

theorem collect_induction (goesOn : State → Bool) (item : Reader ε α) {motive : State → Prop}
    (stop : ∀ s, goesOn s = false → motive s)
    (fail : ∀ s e t, goesOn s = true → item s = .error e t → motive s)
    (idle : ∀ s a t, goesOn s = true → item s = .ok a t → ¬ t.remaining < s.remaining → motive s)
    (next : ∀ s a t, goesOn s = true → item s = .ok a t → t.remaining < s.remaining → motive t →
      motive s) (s : State) : motive s := by
  induction hn : s.remaining using Nat.strongRecOn generalizing s with
  | _ n ih =>
    cases hs : goesOn s with
    | false => exact stop s hs
    | true =>
      cases hi : item s with
      | error e t => exact fail s e t hs hi
      | ok a t =>
        by_cases ht : t.remaining < s.remaining
        · exact next s a t hs hi ht (ih _ (hn ▸ ht) t rfl)
        · exact idle s a t hs hi ht

end Scriptlet.Reader
