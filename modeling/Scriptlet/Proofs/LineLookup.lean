import Scriptlet.Text.Line

/-! The line of a byte offset. Lookup passes the lines one by one and stops at the first that ends
behind the offset. Which line that is can be told from the newlines of the text alone, and from the
line the offset can be had back. -/
namespace Scriptlet.Text

/-- `Lined cs ls`: the text is cut into lines behind each newline and at its end. -/
inductive Lined : List Char → List (List Char) → Prop
  | nil : Lined [] []
  | last {l : List Char} (hne : l ≠ []) (hl : '\n' ∉ l) : Lined l [l]
  | line {l cs : List Char} {ls : List (List Char)} (hl : '\n' ∉ l) (h : Lined cs ls) :
      Lined (l ++ '\n' :: cs) ((l ++ ['\n']) :: ls)

theorem lines_of_not_mem {l : List Char} (hne : l ≠ []) (h : '\n' ∉ l) : lines l = [l] := by
  induction l with
  | nil => exact absurd rfl hne
  | cons c l ih =>
    rw [List.mem_cons, not_or] at h
    rw [lines, if_neg (Ne.symm h.1)]
    cases l with
    | nil => rfl
    | cons d l => rw [ih (List.cons_ne_nil d l) h.2]

theorem lines_append_newline {l : List Char} (h : '\n' ∉ l) (cs : List Char) :
    lines (l ++ '\n' :: cs) = (l ++ ['\n']) :: lines cs := by
  induction l with
  | nil => rw [List.nil_append, lines, if_pos rfl, List.nil_append]
  | cons c l ih =>
    rw [List.mem_cons, not_or] at h
    rw [List.cons_append, lines, if_neg (Ne.symm h.1), ih h.2]
    rfl

theorem lined_lines (cs : List Char) : Lined cs (lines cs) := by
  induction cs with
  | nil => exact .nil
  | cons c cs ih =>
    by_cases hc : c = '\n'
    · rw [lines, if_pos hc, hc]
      exact .line (l := []) List.not_mem_nil ih
    · have hmem {l : List Char} (hl : '\n' ∉ l) : '\n' ∉ c :: l := by simp [Ne.symm hc, hl]
      rw [lines, if_neg hc]
      generalize lines cs = ls at ih ⊢
      cases ih with
      | nil => exact .last (List.cons_ne_nil c []) (hmem List.not_mem_nil)
      | last hne hl => exact .last (List.cons_ne_nil c cs) (hmem hl)
      | line hl h => exact .line (hmem hl) h

/-- A text is cut into lines in one way only. -/
theorem lined_iff {cs : List Char} {ls : List (List Char)} : Lined cs ls ↔ ls = lines cs := by
  constructor
  · intro h
    induction h with
    | nil => rfl
    | last hne hl => exact (lines_of_not_mem hne hl).symm
    | line hl _ ih => rw [lines_append_newline hl, ih]
  · rintro rfl
    exact lined_lines cs

theorem Lined.ne_nil {cs l : List Char} {ls : List (List Char)} (h : Lined cs (l :: ls)) :
    cs ≠ [] := by
  cases h with
  | last hne => exact hne
  | line => simp

theorem Lined.flatten {cs : List Char} {ls : List (List Char)} (h : Lined cs ls) :
    ls.flatten = cs := by
  rw [lined_iff.mp h, flatten_lines]

/-- From one of its lines on, a text is cut into the lines from that one on, and the newlines before
that line are as many as the lines. -/
theorem Lined.from_line {cs l : List Char} {before after : List (List Char)}
    (h : Lined cs (before ++ l :: after)) :
    ∃ rest, cs = before.flatten ++ rest ∧ Lined rest (l :: after) ∧
      before.flatten.count '\n' = before.length := by
  induction before generalizing cs with
  | nil => exact ⟨cs, rfl, h, rfl⟩
  | cons first before ih =>
    rw [List.cons_append] at h
    generalize hls : before ++ l :: after = ls at h
    cases h with
    | last => simp at hls
    | @line body cs' _ hl h =>
      subst hls
      obtain ⟨rest, rfl, hrest, hcount⟩ := ih h
      refine ⟨rest, by simp, hrest, ?_⟩
      have hbody : body.count '\n' = 0 := List.count_eq_zero.mpr hl
      simp [hbody, hcount]

/-- The characters that start before a byte offset. -/
def startingBefore : Nat → List Char → List Char
  | _, [] => []
  | offset, c :: cs => if offset = 0 then [] else c :: startingBefore (offset - c.utf8Size) cs

@[simp] theorem startingBefore_zero (cs : List Char) : startingBefore 0 cs = [] := by
  cases cs <;> simp [startingBefore]

theorem startingBefore_append (cs rest : List Char) (offset : Nat) :
    startingBefore (byteSize cs + offset) (cs ++ rest) = cs ++ startingBefore offset rest := by
  induction cs with
  | nil => simp
  | cons c cs ih =>
    have hc := c.utf8Size_pos
    rw [byteSize_cons, List.cons_append, startingBefore, if_neg (by omega), Nat.add_assoc,
      Nat.add_sub_cancel_left, ih, List.cons_append]

theorem startingBefore_subset {cs : List Char} {offset : Nat} (h : offset ≤ byteSize cs)
    (rest : List Char) : startingBefore offset (cs ++ rest) ⊆ cs := by
  induction cs generalizing offset with
  | nil =>
    obtain rfl : offset = 0 := by simpa using h
    simp
  | cons c cs ih =>
    rw [byteSize_cons] at h
    rw [List.cons_append, startingBefore]
    split
    · exact List.nil_subset _
    · exact List.cons_subset_cons c (ih (by omega))

theorem count_startingBefore {cs : List Char} {offset : Nat} (hcs : '\n' ∉ cs)
    (h : offset ≤ byteSize cs) (rest : List Char) :
    (startingBefore offset (cs ++ rest)).count '\n' = 0 :=
  List.count_eq_zero.mpr fun hmem => hcs (startingBefore_subset h rest hmem)

/-- Where lookup stops that starts at the number `first`: the lines `before` are passed and the
lines `after` are left. -/
structure Line.Stops (first offset : Nat) (before after : List (List Char)) (l : Line) : Prop where
  number : l.number = first + before.length
  place : byteSize before.flatten + l.offset = offset
  within : l.offset < byteSize l.text ∨ after = [] ∧ l.offset = byteSize l.text

theorem Line.find_stops {ls : List (List Char)} (hne : ls ≠ []) (first offset : Nat)
    (h : offset ≤ byteSize ls.flatten) :
    ∃ before after, ls = before ++ (find first offset ls).text :: after ∧
      (find first offset ls).Stops first offset before after := by
  fun_induction find first offset ls with
  | case1 => exact absurd rfl hne
  | case2 first offset line =>
    have hle : offset ≤ byteSize line := by simpa using h
    refine ⟨[], [], rfl, rfl, by simp, ?_⟩
    exact (Nat.lt_or_eq_of_le hle).imp id fun heq => ⟨rfl, heq⟩
  | case3 first offset line next rest hlt =>
    exact ⟨[], next :: rest, rfl, rfl, by simp, .inl hlt⟩
  | case4 first offset line next rest hge ih =>
    rw [List.flatten_cons, byteSize_append] at h
    obtain ⟨before, after, hls, hstops⟩ := ih (List.cons_ne_nil next rest) (by omega)
    have hplace := hstops.place
    refine ⟨line :: before, after, congrArg (line :: ·) hls, ?_, ?_, hstops.within⟩
    · rw [hstops.number, List.length_cons]
      omega
    · rw [List.flatten_cons, byteSize_append]
      omega

/-- The line is the one of a byte offset in a text, and the offset can be had back from it. An empty
text counts as one empty line. -/
structure Line.Locates (cs : List Char) (offset : Nat) (l : Line) : Prop where
  text : cs = [] ∧ l.number = 1 ∧ l.text = [] ∨
    1 ≤ l.number ∧ (lines cs)[l.number - 1]? = some l.text
  place : byteSize ((lines cs).take (l.number - 1)).flatten + l.offset = offset
  inside : offset < byteSize cs → l.offset < byteSize l.text
  atEnd : offset = byteSize cs → l.offset = byteSize l.text
  /-- Every newline before the offset ends an earlier line. -/
  number : ¬ (offset = byteSize cs ∧ cs.getLast? = some '\n') →
    l.number = 1 + (startingBefore offset cs).count '\n'
  /-- The newline at the end of a text ends no earlier line. -/
  last : offset = byteSize cs → cs.getLast? = some '\n' → l.number = cs.count '\n'

variable {cs text : List Char} {after : List (List Char)} {offset : Nat}

/-- No newline starts before an offset in the first line, unless it ends the text. -/
theorem Lined.count_first (h : Lined cs (text :: after))
    (hwithin : offset < byteSize text ∨ after = [] ∧ offset = byteSize text)
    (hend : ¬ (offset = byteSize cs ∧ cs.getLast? = some '\n')) :
    (startingBefore offset cs).count '\n' = 0 := by
  cases h with
  | last hne hl =>
    have hle : offset ≤ byteSize cs := by omega
    have hcount := count_startingBefore hl hle []
    rwa [List.append_nil] at hcount
  | @line body cs' _ hl h =>
    refine count_startingBefore hl ?_ _
    rcases hwithin with hlt | ⟨rfl, heq⟩
    · rw [byteSize_append] at hlt
      exact Nat.le_of_lt_succ hlt
    · cases h
      exact absurd ⟨heq, by simp⟩ hend

theorem Lined.count_last (h : Lined cs [text]) (hlast : cs.getLast? = some '\n') :
    cs.count '\n' = 1 := by
  cases h with
  | last hne hl => exact absurd (List.mem_of_getLast? hlast) hl
  | @line body cs' _ hl h =>
    cases h
    simp [List.count_eq_zero.mpr hl]

theorem Line.Stops.locates {before : List (List Char)} {l : Line}
    (h : l.Stops 1 offset before after) (hls : lines cs = before ++ l.text :: after) :
    l.Locates cs offset := by
  have hlined := lined_lines cs
  rw [hls] at hlined
  obtain ⟨rest, rfl, hrest, hcount⟩ := hlined.from_line
  have hindex : l.number - 1 = before.length := by
    rw [h.number]
    omega
  have hnumber : l.number = 1 + before.flatten.count '\n' := by rw [h.number, hcount]
  have hplace := h.place
  have hsize : byteSize rest = byteSize l.text + byteSize after.flatten := by
    rw [← hrest.flatten, List.flatten_cons, byteSize_append]
  have hwithin := h.within
  have hlast : (before.flatten ++ rest).getLast? = rest.getLast? := by
    rw [List.getLast?_append, Option.or_of_isSome (by simpa using hrest.ne_nil)]
  constructor
  case text => exact .inr ⟨by omega, by simp [hindex, hls]⟩
  case place => rwa [hindex, hls, List.take_left]
  case inside =>
    intro hlt
    rw [byteSize_append] at hlt
    rcases hwithin with hwithin | ⟨rfl, heq⟩
    · exact hwithin
    · rw [List.flatten_nil, byteSize_nil] at hsize
      omega
  case atEnd =>
    intro heq
    rw [byteSize_append] at heq
    omega
  case number =>
    intro hend
    rw [hlast, byteSize_append] at hend
    have hfirst := hrest.count_first hwithin fun ⟨heq, hnewline⟩ => hend ⟨by omega, hnewline⟩
    rw [← hplace, startingBefore_append, List.count_append, hfirst]
    exact hnumber
  case last =>
    intro heq hnewline
    rw [hlast] at hnewline
    rw [byteSize_append] at heq
    obtain ⟨rfl, -⟩ : after = [] ∧ l.offset = byteSize l.text :=
      hwithin.resolve_left (by omega)
    rw [List.count_append, hrest.count_last hnewline, hnumber, Nat.add_comm]

theorem Line.Locates.split {l : Line} (h : l.Locates cs offset) (hcs : cs ≠ []) :
    ∃ before after, cs = before ++ (l.text ++ after) ∧ byteSize before + l.offset = offset := by
  obtain ⟨hnil, -⟩ | ⟨-, hget⟩ := h.text
  · exact absurd hnil hcs
  · obtain ⟨hlt, htext⟩ := List.getElem?_eq_some_iff.mp hget
    refine ⟨_, ((lines cs).drop (l.number - 1 + 1)).flatten, ?_, h.place⟩
    rw [← htext, ← List.flatten_cons, ← List.drop_eq_getElem_cons hlt, ← List.flatten_append,
      List.take_append_drop, flatten_lines]

theorem Line.find_locates (h : offset ≤ byteSize cs) :
    (find 1 offset (lines cs)).Locates cs offset := by
  by_cases hcs : cs = []
  · subst hcs
    obtain rfl : offset = 0 := by simpa using h
    exact ⟨.inl ⟨rfl, rfl, rfl⟩, rfl, nofun, fun _ => rfl, fun _ => rfl, nofun⟩
  · have hne : lines cs ≠ [] := by
      intro hnil
      have hflatten := flatten_lines cs
      rw [hnil] at hflatten
      exact hcs hflatten.symm
    obtain ⟨before, after, hls, hstops⟩ := find_stops hne 1 offset (by rwa [flatten_lines])
    exact hstops.locates hls

/-- Lookup inverts offsets. It fails exactly past the end of the text, and elsewhere it finds the
line that holds the offset: as the lines are told by the newlines, so is the number of the line, and
the lines before it and the offset in it add up to the offset in the text. -/
theorem lookup_inverts_offset (cs : List Char) (offset : Nat) :
    (∀ ls, Lined cs ls ↔ ls = lines cs) ∧
    (lineAt? cs offset = none ↔ byteSize cs < offset) ∧
    (offset ≤ byteSize cs → ∃ l, lineAt? cs offset = some l ∧ l.Locates cs offset) := by
  refine ⟨fun ls => lined_iff, lineAt?_eq_none_iff, fun h => ?_⟩
  exact ⟨_, if_pos h, Line.find_locates h⟩

-- Before and behind the newline that ends the text.
example : lineAt? ['é', '\n', '\n'] 3 = some ⟨2, ['\n'], 0⟩ ∧
    lineAt? ['é', '\n', '\n'] 4 = some ⟨2, ['\n'], 1⟩ := by decide

end Scriptlet.Text
