import Scriptlet.Diagnostic.Render
import Scriptlet.Proofs.Window

/-! Reading and reporting by byte offsets. Here every text is cut out of the source by its offsets,
and a cut that is out of range or inside a character makes the whole fail, as does an offset below
zero. Cut out in this way, tokens and reports are what they are elsewhere: a cut fails only where a
scanner is put inside a character, and no cut of a report ever fails. -/
namespace Scriptlet

open Text (byteSize)

namespace Text

/-- The offset stands between two characters of the text, or at one of its ends. -/
def OnBoundary (cs : List Char) (n : Nat) : Prop :=
  ∃ before after, cs = before ++ after ∧ byteSize before = n

/-- The text from one offset up to another. There is none if the offsets are out of order, if one
of them is past the end, or if a character straddles one of them. -/
def between? (start stop : Nat) (cs : List Char) : Option (List Char) :=
  if start ≤ stop then slice? start stop cs else none

theorem between?_of_append (before l after : List Char) :
    between? (byteSize before) (byteSize before + byteSize l) (before ++ (l ++ after)) = some l := by
  rw [between?, if_pos (Nat.le_add_right _ _)]
  exact slice?_of_append before l after

theorem dropBytes?_eq_none_iff {n : Nat} {cs : List Char} :
    dropBytes? n cs = none ↔ ¬ OnBoundary cs n := by
  rw [Option.eq_none_iff_forall_ne_some]
  constructor
  · rintro h ⟨before, after, hcs, hsize⟩
    exact h after (dropBytes?_eq_some_iff.mpr ⟨before, hcs, hsize⟩)
  · intro h after hdrop
    obtain ⟨before, hcs, hsize⟩ := dropBytes?_eq_some_iff.mp hdrop
    exact h ⟨before, after, hcs, hsize⟩

theorem OnBoundary.le {n : Nat} {cs : List Char} (h : OnBoundary cs n) : n ≤ byteSize cs := by
  obtain ⟨before, after, rfl, rfl⟩ := h
  simp

/-- A cut up to the end of the text needs only its first offset to be on a boundary. -/
theorem between?_byteSize (n : Nat) (cs : List Char) :
    between? n (byteSize cs) cs = dropBytes? n cs := by
  cases hdrop : dropBytes? n cs with
  | none =>
    unfold between? slice?
    simp [hdrop]
  | some rest =>
    obtain ⟨before, rfl, rfl⟩ := dropBytes?_eq_some_iff.mp hdrop
    simpa using between?_of_append before rest []

end Text

namespace Rule

open Text (between?)

/-- The first rule of the table that reads at the head of a text, and how many bytes it reads. -/
def firstWidth? (cs : List Char) : Option (Rule × Nat) :=
  (first? cs).map fun (rule, lexeme, _) => (rule, byteSize lexeme)

/-- What the rule makes of the first bytes of a text, cut out by offsets. Of a literal only what
stands between its quotes is cut out. -/
def meaningOf? (rule : Rule) (width : Nat) (cs : List Char) : Option (Option (Kind × String)) :=
  match rule with
  | word | number => (between? 0 width cs).map rule.meaning?
  | literal =>
    if width = 0 then none
    else (between? 1 (width - 1) cs).map fun body =>
      some (.text, String.ofList (Text.unescape body))
  | blanks | comment | mark _ _ => some (rule.meaning? [])

theorem width_pos {cs : List Char} {rule : Rule} {width : Nat}
    (h : firstWidth? cs = some (rule, width)) : 0 < width := by
  obtain ⟨⟨rule', l, r⟩, hfirst, heq⟩ := Option.map_eq_some_iff.mp h
  cases heq
  obtain ⟨hmem, hsplit⟩ := first?_eq_some hfirst
  exact Text.byteSize_pos (split?_append hmem hsplit).2

/-- The quotes of a literal are two bytes, so what stands between them can be cut out. -/
theorem meaningOf?_literal {cs l r : List Char} (h : literal.split? cs = some (l, r)) :
    literal.meaningOf? (byteSize l) cs = some (literal.meaning? l) := by
  cases cs with
  | nil => simp [split?] at h
  | cons c cs =>
    simp only [split?] at h
    split at h
    next hc =>
      obtain ⟨⟨body, rest⟩, hbody, heq⟩ := Option.map_eq_some_iff.mp h
      cases heq
      have hquote : byteSize ['"'] = 1 := by decide
      have hsize : byteSize (c :: body ++ ['"']) = 1 + byteSize body + 1 := by
        rw [hc, List.cons_append, Text.byteSize_cons, Text.byteSize_append, hquote,
          ← Nat.add_assoc]
        rfl
      have hcut : between? 1 (1 + byteSize body) (c :: cs) = some body := by
        rw [hc, Text.splitBody?_append hbody]
        exact Text.between?_of_append ['"'] body ('"' :: rest)
      rw [meaningOf?, hsize, if_neg (Nat.succ_ne_zero _), Nat.add_sub_cancel, hcut]
      simp [meaning?]
    next => simp at h

theorem meaningOf?_eq {cs l r : List Char} {rule : Rule} (h : first? cs = some (rule, l, r)) :
    rule.meaningOf? (byteSize l) cs = some (rule.meaning? l) := by
  obtain ⟨hmem, hsplit⟩ := first?_eq_some h
  have hcut : between? 0 (byteSize l) cs = some l := by
    rw [(split?_append hmem hsplit).1]
    simpa using Text.between?_of_append [] l r
  cases rule with
  | word => simp [meaningOf?, hcut]
  | number => simp [meaningOf?, hcut]
  | literal => exact meaningOf?_literal hsplit
  | blanks | comment | mark => rfl

end Rule

theorem Cursor.offset_lt_next (file : String) (offset : Nat) (d : Char) (ds : List Char) :
    offset < ((⟨offset, d :: ds⟩ : Cursor).next file).2.offset := by
  have hpos := Text.byteSize_pos (Piece.cut_append d ds).2
  rw [Cursor.next]
  split
  · dsimp only
    omega
  · obtain ⟨read, -, hoffset⟩ := Cursor.next_append file
      ⟨offset + byteSize (Piece.cut d ds).1.lexeme, (Piece.cut d ds).2⟩
    rw [hoffset]
    dsimp only
    omega

namespace Scanner

open Text (between?)

theorem atEnd_iff {s : Scanner} : s.atEnd = true ↔ byteSize s.source.toList ≤ s.position :=
  decide_eq_true_iff

/-- Reads the next token by offsets. It fails if a cut fails. -/
def nextBySlices? (s : Scanner) : Option (Token × Scanner) :=
  if _hend : s.atEnd then some (.atEnd s.file s.position, s)
  else
    match between? s.position (byteSize s.source.toList) s.source.toList with
    | none => none
    | some rest =>
      match _hwidth : Rule.firstWidth? rest with
      | none =>
        let c := rest.headD '\x00'
        some (⟨.illegal, String.singleton c, s.spanOf c.utf8Size⟩, s.skip c.utf8Size)
      | some (rule, width) =>
        match rule.meaningOf? width rest with
        | none => none
        | some (some (kind, text)) => some (⟨kind, text, s.spanOf width⟩, s.skip width)
        | some none => nextBySlices? (s.skip width)
termination_by byteSize s.source.toList - s.position
decreasing_by
  have hpos := Rule.width_pos _hwidth
  rw [atEnd_iff] at _hend
  simp only [skip]
  omega

variable {s : Scanner} {c : Cursor}

theorem nextBySlices?_of_le (h : byteSize s.source.toList ≤ s.position) :
    s.nextBySlices? = some (.atEnd s.file s.position, s) := by
  rw [nextBySlices?, dif_pos (atEnd_iff.mpr h)]

theorem At.atEnd_iff (h : s.At c) : s.atEnd = true ↔ c.rest = [] := by
  obtain ⟨before, hsource, hsize⟩ := Text.dropBytes?_eq_some_iff.mp h.rest
  rw [Scanner.atEnd_iff, hsource, Text.byteSize_append, hsize]
  cases hrest : c.rest with
  | nil => simp
  | cons d ds =>
    have hpos := Text.byteSize_pos (List.cons_ne_nil d ds)
    simp only [reduceCtorEq, iff_false]
    omega

/-- One round of reading by offsets cuts off one piece. -/
theorem At.nextBySlices?_cut {offset : Nat} {d : Char} {ds : List Char}
    (h : s.At ⟨offset, d :: ds⟩) :
    s.nextBySlices? =
      match (Piece.cut d ds).1.token? s.file offset with
      | some token => some (token, s.skip (byteSize (Piece.cut d ds).1.lexeme))
      | none => (s.skip (byteSize (Piece.cut d ds).1.lexeme)).nextBySlices? := by
  have hend : ¬ s.atEnd = true := by simp [h.atEnd_iff]
  have hrest : between? s.position (byteSize s.source.toList) s.source.toList =
      some (d :: ds) := (Text.between?_byteSize _ _).trans h.rest
  have hposition : s.position = offset := h.position
  rw [nextBySlices?, dif_neg hend, hrest]
  dsimp only
  split
  next hwidth =>
    have hfirst : Rule.first? (d :: ds) = none := Option.map_eq_none_iff.mp hwidth
    simp [Piece.cut, hfirst, Piece.token?, spanOf, hposition]
  next rule width hwidth =>
    obtain ⟨⟨rule, l, r⟩, hfirst, heq⟩ := Option.map_eq_some_iff.mp hwidth
    cases heq
    have hmeaning := Rule.meaningOf?_eq hfirst
    cases hm : rule.meaning? l with
    | none => simp [hmeaning, hm, Piece.cut, hfirst, Piece.token?]
    | some meaning =>
      simp [hmeaning, hm, Piece.cut, hfirst, Piece.token?, spanOf, hposition]

theorem At.skip_cut {offset : Nat} {d : Char} {ds : List Char} (h : s.At ⟨offset, d :: ds⟩) :
    (s.skip (byteSize (Piece.cut d ds).1.lexeme)).At
      ⟨offset + byteSize (Piece.cut d ds).1.lexeme, (Piece.cut d ds).2⟩ := by
  obtain ⟨before, hsource, hsize⟩ := Text.dropBytes?_eq_some_iff.mp h.rest
  constructor
  · simp [skip, h.position]
  · apply Text.dropBytes?_eq_some_iff.mpr
    refine ⟨before ++ (Piece.cut d ds).1.lexeme, ?_, ?_⟩
    · rw [List.append_assoc, ← (Piece.cut_append d ds).1]
      exact hsource
    · simp [skip, hsize]

theorem nextBySlices?_of_at (file : String) (c : Cursor) :
    ∀ s : Scanner, s.At c → s.file = file →
      s.nextBySlices? =
        some ((c.next file).1, { s with position := (c.next file).2.offset }) := by
  fun_induction Cursor.next file c with
  | case1 offset =>
    intro s hat hfile
    have hposition : s.position = offset := hat.position
    subst hposition hfile
    rw [nextBySlices?, dif_pos (hat.atEnd_iff.mpr rfl)]
  | case2 offset d ds cut after token htoken =>
    intro s hat hfile
    have hposition : s.position = offset := hat.position
    subst hfile
    rw [hat.nextBySlices?_cut, htoken]
    simp [skip, hposition, after, cut]
  | case3 offset d ds cut after hgap ih =>
    intro s hat hfile
    subst hfile
    rw [hat.nextBySlices?_cut, hgap]
    exact ih _ hat.skip_cut rfl

theorem nextBySlices?_eq_next? (s : Scanner) : s.nextBySlices? = s.next? := by
  cases hrest : s.rest? with
  | some rest =>
    have hat : s.At ⟨s.position, rest⟩ := ⟨rfl, hrest⟩
    rw [nextBySlices?_of_at s.file _ s hat rfl, hat.next?]
  | none =>
    have hslice : between? s.position (byteSize s.source.toList) s.source.toList = none :=
      (Text.between?_byteSize _ _).trans hrest
    unfold nextBySlices? next?
    by_cases hend : s.atEnd = true
    · simp [hend]
    · simp [hend, hslice, hrest]

/-- There is no token exactly where the scanner is inside a character. -/
theorem nextBySlices?_eq_none_iff (s : Scanner) :
    s.nextBySlices? = none ↔
      s.position < byteSize s.source.toList ∧ ¬ Text.OnBoundary s.source.toList s.position := by
  rw [nextBySlices?_eq_next?, next?, ← Text.dropBytes?_eq_none_iff]
  by_cases hend : s.atEnd = true
  · simp [hend, Nat.not_lt.mpr (atEnd_iff.mp hend)]
  · simp [hend, Nat.not_le.mp (mt atEnd_iff.mpr hend), rest?]

-- The first byte of a character of two bytes has been skipped.
example : (skip 1 (ofSource "f" "é = 1")).next? = none := by decide

/-- How a scanner moves when it yields a token. At the end of the source and past it the scanner
stays, elsewhere it moves on to a boundary of the source. -/
structure Moves (s after : Scanner) : Prop where
  file : after.file = s.file
  source : after.source = s.source
  stays : byteSize s.source.toList ≤ s.position → after.position = s.position
  advances : s.position < byteSize s.source.toList →
    s.position < after.position ∧ after.position ≤ byteSize s.source.toList ∧
      Text.OnBoundary s.source.toList after.position

theorem At.onBoundary (h : s.At c) : Text.OnBoundary s.source.toList s.position := by
  obtain ⟨before, hsource, hsize⟩ := Text.dropBytes?_eq_some_iff.mp h.rest
  exact ⟨before, c.rest, hsource, hsize⟩

theorem At.moves (h : s.At c) (hlt : s.position < byteSize s.source.toList) :
    s.Moves { s with position := (c.next s.file).2.offset } := by
  obtain ⟨offset, rest⟩ := c
  have hposition : s.position = offset := h.position
  have hboundary := h.after.onBoundary
  have hend : ¬ s.atEnd = true := mt Scanner.atEnd_iff.mp (Nat.not_le.mpr hlt)
  cases rest with
  | nil => exact absurd (h.atEnd_iff.mpr rfl) hend
  | cons d ds =>
    refine ⟨rfl, rfl, fun hle => absurd hle (Nat.not_le.mpr hlt), fun _ => ⟨?_, ?_, hboundary⟩⟩
    · rw [hposition]
      exact Cursor.offset_lt_next s.file offset d ds
    · exact hboundary.le

theorem moves_of_nextBySlices? {token : Token} {after : Scanner}
    (h : s.nextBySlices? = some (token, after)) : s.Moves after := by
  rcases Nat.lt_or_ge s.position (byteSize s.source.toList) with hlt | hle
  · cases hrest : s.rest? with
    | none =>
      have hnone := s.nextBySlices?_eq_none_iff.mpr ⟨hlt, Text.dropBytes?_eq_none_iff.mp hrest⟩
      simp [hnone] at h
    | some rest =>
      have hat : s.At ⟨s.position, rest⟩ := ⟨rfl, hrest⟩
      rw [nextBySlices?_eq_next?, hat.next?] at h
      cases h
      exact hat.moves hlt
  · rw [nextBySlices?_of_le hle] at h
    cases h
    exact ⟨rfl, rfl, fun _ => rfl, fun hlt => absurd hle (Nat.not_le.mpr hlt)⟩

def streamBySlices? (s : Scanner) : Option TokenStream :=
  match _hnext : s.nextBySlices? with
  | none => none
  | some (token, after) =>
    if _hend : token.kind = .endOfInput then some (.ended token)
    else after.streamBySlices?.map (.push token)
termination_by byteSize s.source.toList - s.position
decreasing_by
  have hmoves := moves_of_nextBySlices? _hnext
  have hlt : s.position < byteSize s.source.toList := by
    by_contra hge
    rw [nextBySlices?_of_le (Nat.not_lt.mp hge)] at _hnext
    cases _hnext
    exact _hend rfl
  have hadvances := hmoves.advances hlt
  rw [hmoves.source]
  omega

theorem streamBySlices?_of_at (s : Scanner) :
    ∀ c : Cursor, s.At c → s.streamBySlices? = some (c.tokens s.file) := by
  fun_induction streamBySlices? s with
  | case1 s hnext =>
    intro c hat
    simp [nextBySlices?_of_at s.file c s hat rfl] at hnext
  | case2 s token after hnext hend =>
    intro c hat
    rw [nextBySlices?_of_at s.file c s hat rfl] at hnext
    cases hnext
    rcases c.tokens_eq_next s.file with ⟨-, heq⟩ | ⟨hne, -⟩
    · rw [heq]
    · exact absurd hend hne
  | case3 s token after hnext hend ih =>
    intro c hat
    rw [nextBySlices?_of_at s.file c s hat rfl] at hnext
    cases hnext
    rcases c.tokens_eq_next s.file with ⟨h, -⟩ | ⟨-, heq⟩
    · exact absurd h hend
    · simp [ih _ hat.after, heq]

theorem streamBySlices?_ofSource (file source : String) :
    (ofSource file source).streamBySlices? = some (.ofSource file source) :=
  streamBySlices?_of_at _ _ (at_ofSource file source)

end Scanner

def tokenizeBySlices? (file source : String) : Option (List Token) :=
  (Scanner.ofSource file source).streamBySlices?.map TokenStream.toList

def parseBySlices? (file source : String) : Option Parsed :=
  (Scanner.ofSource file source).streamBySlices?.map fun input =>
    let (program, s) := Reader.run Reader.program (.ofStream input)
    ⟨program, s.errors.toList, s.trace.toList⟩

namespace Text

/-- The line without its indentation, and the size of the indentation, which is the difference of
two sizes. -/
def unindent? (line : List Char) : Option (List Char × Nat) :=
  let size := byteSize line
  let shown := byteSize (line.dropWhile isIndent)
  if shown ≤ size then (between? (size - shown) size line).map (·, size - shown) else none

theorem unindent?_eq (line : List Char) :
    unindent? line =
      some (line.dropWhile isIndent, byteSize (line.takeWhile isIndent)) := by
  have happend : line.takeWhile isIndent ++ line.dropWhile isIndent = line :=
    List.takeWhile_append_dropWhile
  have hsize : byteSize line =
      byteSize (line.takeWhile isIndent) + byteSize (line.dropWhile isIndent) := by
    rw [← byteSize_append, happend]
  have hcut := dropBytes?_eq_some_iff.mpr ⟨line.takeWhile isIndent, happend.symm, rfl⟩
  rw [← between?_byteSize] at hcut
  simp only [unindent?]
  rw [if_pos (by omega), Nat.sub_eq_of_eq_add hsize, hcut]
  rfl

/-- How many characters stand between the indentation and the place. Where the place is inside the
indentation or inside a character, nothing can be cut out and none are counted. -/
def Line.columnBehind (indent : Nat) (l : Line) : Nat :=
  ((between? indent l.offset l.text).map List.length).getD 0

theorem Line.columnBehind_eq (l : Line) :
    l.columnBehind (byteSize (l.text.takeWhile isIndent)) = l.column := by
  have hcut := dropBytes?_eq_some_iff.mpr
    ⟨l.text.takeWhile isIndent, (List.takeWhile_append_dropWhile (p := isIndent)).symm, rfl⟩
  unfold columnBehind column between? slice?
  by_cases hlt : l.offset < byteSize (l.text.takeWhile isIndent)
  · simp [hlt, Nat.not_le.mpr hlt]
  · simp [hlt, Nat.not_lt.mp hlt, hcut]

def Line.excerptBySlices? (l : Line) : Option String :=
  (unindent? l.text).map fun (shown, indent) =>
    layout l.number (trimEnd shown) (l.columnBehind indent)

theorem Line.excerptBySlices?_eq (l : Line) : l.excerptBySlices? = some l.excerpt := by
  simp [excerptBySlices?, unindent?_eq, columnBehind_eq, excerpt, row]

end Text

namespace Diagnostic

def renderBySlices? (source : String) (d : Diagnostic) : Option String :=
  let body? :=
    match Text.lineAt? source.toList d.position.offset with
    | none => some ("   " ++ d.message ++ "\n")
    | some line => line.excerptBySlices?
  body?.map (d.heading ++ "-> " ++ d.position.file ++ "\n" ++ ·)

theorem renderBySlices?_eq (source : String) (d : Diagnostic) :
    d.renderBySlices? source = some (d.render source) := by
  unfold renderBySlices? render
  cases Text.lineAt? source.toList d.position.offset with
  | none => rfl
  | some line => simp [Text.Line.excerptBySlices?_eq]

end Diagnostic

/-- No text makes reading or reporting fail. A scanner fails exactly where it has been put inside a
character; where it does not fail it moves on to a boundary, or stays at the end. All tokens can be
read from the start of a source, at once or one by one as a parser asks for them, and a diagnostic
can be reported against any source, wherever its position falls there. -/
theorem no_slice_fails :
    (∀ s : Scanner,
      s.nextBySlices? = s.next? ∧
      (s.nextBySlices? = none ↔
        s.position < byteSize s.source.toList ∧
          ¬ Text.OnBoundary s.source.toList s.position) ∧
      ∀ token after, s.nextBySlices? = some (token, after) → s.Moves after) ∧
    (∀ file source : String,
      tokenizeBySlices? file source = some (tokenize file source) ∧
      parseBySlices? file source = some (parse file source) ∧
      ∀ k, (Scanner.ofSource file source).pull? k =
        some ((State.ofSource file source).input.nth k)) ∧
    ∀ (source : String) (d : Diagnostic), d.renderBySlices? source = some (d.render source) := by
  refine ⟨fun s => ⟨?_, ?_, ?_⟩, fun file source => ⟨?_, ?_, ?_⟩, ?_⟩
  · exact s.nextBySlices?_eq_next?
  · exact s.nextBySlices?_eq_none_iff
  · intro token after h
    exact Scanner.moves_of_nextBySlices? h
  · rw [tokenizeBySlices?, Scanner.streamBySlices?_ofSource]
    rfl
  · rw [parseBySlices?, Scanner.streamBySlices?_ofSource]
    rfl
  · exact Scanner.pull?_ofSource file source
  · intro source d
    exact d.renderBySlices?_eq source

end Scriptlet
