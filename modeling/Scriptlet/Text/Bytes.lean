/-! Texts measured and cut in UTF-8 bytes. A cut exists only on a character boundary. -/
namespace Scriptlet.Text

def byteSize (cs : List Char) : Nat :=
  cs.foldr (fun c n => c.utf8Size + n) 0

@[simp] theorem byteSize_nil : byteSize [] = 0 := rfl

@[simp] theorem byteSize_cons (c : Char) (cs : List Char) :
    byteSize (c :: cs) = c.utf8Size + byteSize cs := rfl

@[simp] theorem byteSize_append (cs ds : List Char) :
    byteSize (cs ++ ds) = byteSize cs + byteSize ds := by
  induction cs with
  | nil => simp
  | cons c cs ih => rw [List.cons_append, byteSize_cons, byteSize_cons, ih, Nat.add_assoc]

/-- What is left after exactly `n` bytes; nothing if the text is shorter or a character straddles
the cut. -/
def dropBytes? (n : Nat) : List Char → Option (List Char)
  | [] => if n = 0 then some [] else none
  | c :: cs =>
    if n = 0 then some (c :: cs)
    else if c.utf8Size ≤ n then dropBytes? (n - c.utf8Size) cs
    else none

/-- The characters that fill exactly the first `n` bytes. -/
def takeBytes? (n : Nat) : List Char → Option (List Char)
  | [] => if n = 0 then some [] else none
  | c :: cs =>
    if n = 0 then some []
    else if c.utf8Size ≤ n then (takeBytes? (n - c.utf8Size) cs).map (c :: ·)
    else none

theorem dropBytes?_eq_some_iff {n : Nat} {cs r : List Char} :
    dropBytes? n cs = some r ↔ ∃ p, cs = p ++ r ∧ byteSize p = n := by
  induction cs generalizing n with
  | nil =>
    constructor
    · intro h
      by_cases hn : n = 0 <;> simp_all [dropBytes?]
    · rintro ⟨p, hp, rfl⟩
      obtain ⟨rfl, rfl⟩ := List.append_eq_nil_iff.1 hp.symm
      simp [dropBytes?]
  | cons c cs ih =>
    have hc := c.utf8Size_pos
    constructor
    · intro h
      rw [dropBytes?] at h
      split at h
      next hn => exact ⟨[], by simpa using h, by simp [hn]⟩
      next hn =>
        split at h
        next hle =>
          obtain ⟨p, rfl, hp⟩ := ih.1 h
          exact ⟨c :: p, rfl, by simp only [byteSize_cons]; omega⟩
        next => simp at h
    · rintro ⟨p, hp, rfl⟩
      cases p with
      | nil => simp_all [dropBytes?]
      | cons d p =>
        simp only [List.cons_append, List.cons.injEq] at hp
        obtain ⟨rfl, rfl⟩ := hp
        rw [dropBytes?, if_neg (by simp only [byteSize_cons]; omega),
          if_pos (by simp only [byteSize_cons]; omega)]
        exact ih.2 ⟨p, rfl, by simp only [byteSize_cons]; omega⟩

theorem takeBytes?_of_append (p r : List Char) : takeBytes? (byteSize p) (p ++ r) = some p := by
  induction p with
  | nil => cases r <;> rfl
  | cons c p ih =>
    have hc := c.utf8Size_pos
    rw [List.cons_append, takeBytes?, if_neg (by simp only [byteSize_cons]; omega),
      if_pos (by simp only [byteSize_cons]; omega), byteSize_cons, Nat.add_sub_cancel_left, ih]
    rfl

end Scriptlet.Text
