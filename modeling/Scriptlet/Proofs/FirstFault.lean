import Scriptlet.Proofs.Completion
import Scriptlet.Proofs.LockstepLayers
import Scriptlet.Proofs.Seams
import Scriptlet.Proofs.Tiling
import Scriptlet.Proofs.Words

/-! Where the first diagnostic points: at the first token that no program without a diagnostic can
have there. The tokens before it can be completed, and whatever follows it, the diagnostic stays the
same. -/
namespace Scriptlet

open Reader Scriptlet.Parser Layer

def Parsed.faultDepth? (p : Parsed) : Option Nat :=
  (p.trace.findSome? Event.refusal?).map Prod.fst

/-- The statements of a source, up to the first failure. -/
abbrev Layer.readStrictly : Parser (List Stmt) :=
  (strictOfRoom maxNesting).strictStmts State.unfinished

theorem State.Raises.findSome? {depth : Nat} {d : Diagnostic} {s t : State}
    (h : s.Raises depth d t) (hs : s.trace = #[]) :
    t.trace.toList.findSome? Event.refusal? = some (depth, d) := by
  obtain ⟨u, hquiet, more, hmore⟩ := h
  obtain ⟨es, hes, hnone⟩ := hquiet.trace
  have htrace : t.trace.toList = es ++ .refused depth d :: more := by
    rw [← hmore, State.note, Array.toList_push, hes, hs, List.append_assoc]
    rfl
  rw [htrace, List.findSome?_append, List.findSome?_eq_none_iff.mpr hnone]
  rfl

/-- A strict run that fails fails with the first diagnostic of the parse. -/
theorem parse_of_readStrictly {file source : String} {d : Diagnostic} {t : State}
    (h : readStrictly (.ofSource file source) = .error d t) :
    (parse file source).errors.head? = some d ∧ ∃ depth,
      (State.ofSource file source).Raises depth d t ∧
      (parse file source).faultDepth? = some depth := by
  obtain ⟨depth, hfails, hblames⟩ := blames_collect_of_strict (ε := Empty) (ofRoom maxNesting) h
  obtain ⟨read, u, hr, hparse⟩ := exists_parse file source
  have hblames : (State.ofSource file source).Blames depth d
      (final ((ofRoom maxNesting).readAll (.ofSource file source))) := hblames
  rw [hr] at hblames
  rw [hparse, Parsed.faultDepth?]
  obtain ⟨ds, hds⟩ := hblames.errors
  refine ⟨?_, depth, hfails.raises, ?_⟩
  · have hds : u.errors.toList = d :: ds := hds.symm
    rw [hds]
    rfl
  · have hraises : (State.ofSource file source).Raises depth d u := hblames.raises
    rw [hraises.findSome? rfl]
    rfl

theorem exists_readStrictly {file source : String} {d : Diagnostic}
    (h : (parse file source).errors.head? = some d) :
    ∃ t, readStrictly (.ofSource file source) = .error d t := by
  cases hr : readStrictly (.ofSource file source) with
  | error e t =>
    have hfirst := (parse_of_readStrictly hr).1
    rw [h] at hfirst
    cases hfirst
    exact ⟨t, rfl⟩
  | ok ss t =>
    obtain ⟨hread, hquiet⟩ := collect_of_strict (ε := Empty) (ofRoom maxNesting) hr
    have hnone : t.errors = #[] := hquiet.errors
    rw [parse_eq (bind_of_ok hread), hnone] at h
    cases h

theorem State.blamed_suffix {s t : State} (h : s.Passes t) (d : Diagnostic) :
    t.blamed d <:+ s.ahead := by
  unfold State.blamed
  split
  · exact h
  · exact (List.tail_suffix _).trans h

theorem reach_error {α : Type} (d : Diagnostic) (t : State) :
    reach (.error d t : EStateM.Result Diagnostic State α) = (t.blamed d).length := by
  rw [reach, State.blamed]
  split
  · exact t.remaining_eq
  · rw [State.after, List.length_tail, ← t.input.remaining_eq]
    rfl

/-- A strict run fails at a token of the source, and below the limit of nesting the tokens before
that one can be completed. -/
theorem exists_fault {file source : String} {d : Diagnostic} {t : State}
    (h : readStrictly (.ofSource file source) = .error d t)
    (hdepth : ∀ depth ∈ (parse file source).faultDepth?, depth < maxNesting) :
    ∃ i ≤ (TokenStream.ofSource file source).remaining,
      d.position = ((TokenStream.ofSource file source).nth i).position ∧
      reach (readStrictly (.ofSource file source)) =
        (TokenStream.ofSource file source).remaining - i ∧
      Completable (Derivable .stmts maxNesting) (TokenStream.ofSource file source).ahead
        ((TokenStream.ofSource file source).ahead.drop i) := by
  obtain ⟨-, depth, hraises, hfault⟩ := parse_of_readStrictly h
  have hready : (State.ofSource file source).Ready maxNesting :=
    ⟨State.ofSource_sealed file source, rfl⟩
  obtain ⟨hpos, depth', hraises', hcomplete⟩ :=
    (Layer.completing maxNesting).stmts hready State.unfinished d t h
  -- Both depths are that of the first refusal of the run.
  have hsame : some (depth', d) = some (depth, d) := by
    rw [← hraises.findSome? rfl, ← hraises'.findSome? rfl]
  cases hsame
  have hstop : (TokenStream.ofSource file source).stop = t.input.stop :=
    Keeps.of_error (R := fun s t : State => s.input.stop = t.input.stop) h
  have hsuffix : t.blamed d <:+ (TokenStream.ofSource file source).ahead :=
    State.blamed_suffix (Keeps.of_error h) d
  have hdrop := List.suffix_iff_eq_drop.mp hsuffix
  have hle := hsuffix.length_le
  rw [← TokenStream.remaining_eq] at hdrop hle
  refine ⟨_, Nat.sub_le _ (t.blamed d).length, ?_, ?_, ?_⟩
  · rw [hpos, ← hstop, ← TokenStream.headD_drop, ← hdrop]
  · rw [h, reach_error]
    omega
  · rw [← hdrop]
    exact hcomplete (hdepth depth hfault)

/-- A text of tokens of the kinds, with a space behind each. -/
def sampleText : List Kind → List Char
  | [] => []
  | kind :: kinds => (kind.sample?.getD "").toList ++ ' ' :: sampleText kinds

theorem Kind.sample?_of_ne_name {kind : Kind} (h : kind ≠ .name) :
    kind.sample? = kind.spelling? := by
  cases kind <;> first | rfl | exact absurd rfl h

theorem map_fst_lexemes_sampleText {kinds : List Kind}
    (h : kinds.all (·.sample?.isSome) = true) :
    (lexemes (sampleText kinds)).map Prod.fst = kinds := by
  induction kinds with
  | nil =>
    rw [sampleText, lexemes]
    rfl
  | cons kind kinds ih =>
    rw [List.all_cons, Bool.and_eq_true] at h
    obtain ⟨text, htext⟩ := Option.isSome_iff_exists.mp h.1
    have hword : ∃ text, lexemes (sampleText (kind :: kinds)) =
        (kind, text) :: lexemes (sampleText kinds) := by
      rw [sampleText, htext, Option.getD_some]
      by_cases hname : kind = .name
      · subst hname
        cases htext
        have hx : lexemes ("x".toList ++ ' ' :: sampleText kinds) = _ :=
          lexemes_word rfl rfl (apart_cons rfl _)
        rw [lexemes_blank rfl] at hx
        exact ⟨"x", hx⟩
      · rw [Kind.sample?_of_ne_name hname] at htext
        exact ⟨_, lexemes_spaced kind htext _⟩
    obtain ⟨text, hword⟩ := hword
    rw [hword, List.map_cons, ih h.2]

theorem MoreNames.legal {ts : List Token} {names : List Name} (h : MoreNames ts names) :
    ∀ t ∈ ts, t.kind ≠ .illegal := by
  induction h with
  | nil => simp
  | cons hc ht _ ih => simpa [hc, ht] using ih

theorem Names.legal {ts : List Token} {names : List Name} (h : Names ts names) :
    ∀ t ∈ ts, t.kind ≠ .illegal := by
  cases h with
  | nil => simp
  | cons ht h => simpa [ht] using h.legal

theorem Derives.legal {phrase : Phrase} {n : Nat} {ts : List Token} {tree : phrase.Tree}
    (h : Derives phrase n ts tree) : ∀ t ∈ ts, t.kind ≠ .illegal := by
  induction h with
  | @binary tier _ op _ _ _ _ _ _ hop _ _ _ ihl ihr =>
    have hop : op.kind ≠ .illegal := by
      intro hk
      rw [hk] at hop
      revert hop
      cases tier <;> decide
    simpa [or_imp, forall_and, hop] using And.intro ihl ihr
  | unary hop _ ih =>
    rcases hop with hop | hop <;> simpa [hop] using ih
  | function hw ho hc h _ ihb =>
    have hnames := h.legal
    simp_all [or_imp]
  | _ => simp_all [or_imp, forall_and]

theorem map_kind_tokens_sampleText (file : String) (offset : Nat) {kinds : List Kind}
    (h : kinds.all (·.sample?.isSome) = true) :
    (Cursor.tokens file ⟨offset, sampleText kinds⟩).ahead.map Token.kind = kinds := by
  have hwords := Cursor.map_word_tokens file ⟨offset, sampleText kinds⟩
  calc (Cursor.tokens file ⟨offset, sampleText kinds⟩).ahead.map Token.kind
    _ = ((Cursor.tokens file ⟨offset, sampleText kinds⟩).ahead.map Token.word).map Prod.fst := by
      rw [List.map_map]
      rfl
    _ = (lexemes (sampleText kinds)).map Prod.fst := by rw [hwords]
    _ = kinds := map_fst_lexemes_sampleText h

theorem Completable.legal {n : Nat} {xs rest : List Token}
    (h : Completable (Derivable .stmts n) xs rest) {read : List Token} (hxs : xs = read ++ rest) :
    ∀ t ∈ read, t.kind ≠ .illegal := by
  obtain ⟨read', kinds, hread, -, hfill⟩ := h
  obtain rfl : read = read' := List.append_cancel_right (hxs.symm.trans hread)
  -- Any tokens of the kinds complete what was read to a derivation, and those are legal.
  let ts : List Token := kinds.map fun kind => ⟨kind, "", ⟨0, 0, ""⟩⟩
  have hts : ts.map Token.kind = kinds := by simp [ts, Function.comp_def]
  obtain ⟨k, ss, -, hd⟩ := hfill.of_map hts
  intro t ht
  exact hd.legal t (List.mem_append_left _ ht)

/-- The text before a token can be completed if the tokens before it can. -/
theorem exists_completion {file source : String} {i : Nat} {t : Token}
    (hsize : Text.byteSize source.toList ≤ maxOffset)
    (ht : (tokenize file source)[i]? = some t)
    (h : Completable (Derivable .stmts maxNesting) (TokenStream.ofSource file source).ahead
      ((TokenStream.ofSource file source).ahead.drop i)) :
    ∃ before c, Text.takeBytes? t.span.start source.toList = some before ∧
      (parse file (String.ofList before ++ "\n" ++ c)).errors = [] := by
  obtain ⟨before, rest, hsource, hscans, hstart, -⟩ :=
    Cursor.scans_tokens file ⟨0, source.toList⟩ i t ht
  have hsource : source.toList = before ++ rest := hsource
  have hlegal := h.legal (List.take_append_drop i _).symm
  obtain ⟨read, kinds, hread, hkinds, hfill⟩ := h
  obtain rfl : (TokenStream.ofSource file source).ahead.take i = read :=
    List.append_cancel_right ((List.take_append_drop i _).trans hread)
  have hstart : t.span.start = Text.byteSize before := by
    rw [hstart, Nat.zero_add, clampOffset_of_le]
    rw [hsource, Text.byteSize_append] at hsize
    omega
  obtain ⟨c, hc⟩ : ∃ c : String, c.toList = sampleText kinds := ⟨_, String.toList_ofList⟩
  have hjoin := hscans.ofSource_newline (fun u hu hquote => hlegal u hu hquote.1) c
  have hahead : (tokenize file (String.ofList before ++ "\n" ++ c)).dropLast =
      (TokenStream.ofSource file source).ahead.take i ++
        (Cursor.tokens file ⟨Text.byteSize before + 1, sampleText kinds⟩).ahead := by
    rw [tokenize, hjoin, hc, TokenStream.toList, List.dropLast_concat, TokenStream.ahead_prepend]
    rfl
  obtain ⟨k, ss, hk, hd⟩ := hfill.of_map (map_kind_tokens_sampleText file _ hkinds)
  rw [← hahead] at hd
  refine ⟨before, c, ?_, (parse_of_derives hd hk).1⟩
  rw [hstart, hsource, Text.takeBytes?_of_append]

theorem eq_of_start {file source : String} (hsize : Text.byteSize source.toList ≤ maxOffset)
    {j k : Nat} {u v : Token} (hj : (tokenize file source)[j]? = some u)
    (hk : (tokenize file source)[k]? = some v) (h : u.span.start = v.span.start) : j = k := by
  have htiled := Cursor.tiled_tokens file ⟨0, source.toList⟩ (by simpa using hsize)
  have hlt := List.pairwise_iff_getElem.mp htiled.increasing
  obtain ⟨hj', rfl⟩ := List.getElem?_eq_some_iff.mp hj
  obtain ⟨hk', rfl⟩ := List.getElem?_eq_some_iff.mp hk
  rcases Nat.lt_trichotomy j k with hjk | hjk | hjk
  · have hstart := (hlt j k hj' hk' hjk).1
    exact absurd h (Nat.ne_of_lt hstart)
  · exact hjk
  · have hstart := (hlt k j hk' hj' hjk).1
    exact absurd h (Nat.ne_of_gt hstart)

/-- Two streams begin with the same tokens, up to the index, and one of them ends there only if the
other one does. -/
structure TokenStream.Begins (ts ts' : TokenStream) (i : Nat) : Prop where
  le : i ≤ ts.remaining
  le' : i ≤ ts'.remaining
  alike : ∀ j ≤ i, (ts.nth j).alike (ts'.nth j) = true
  ends : ts.remaining = i → ts'.remaining = i

namespace TokenStream.Begins

variable {ts ts' : TokenStream} {i j : Nat}

theorem of_forall₂ (hs : (State.ofStream ts).Sealed) (hs' : (State.ofStream ts').Sealed)
    (hi : i ≤ ts.remaining)
    (h : List.Forall₂ (fun u u' => u.alike u' = true) (ts.toList.take (i + 1))
      (ts'.toList.take (i + 1))) : ts.Begins ts' i := by
  have hlength {us : TokenStream} : us.toList.length = us.remaining + 1 := by
    rw [toList, List.length_append, ← us.remaining_eq]
    rfl
  obtain ⟨hsame, hget⟩ := List.forall₂_iff_get.mp h
  have hi' : i ≤ ts'.remaining := by
    rw [List.length_take, List.length_take, hlength, hlength] at hsame
    omega
  have halike : ∀ j ≤ i, (ts.nth j).alike (ts'.nth j) = true := by
    intro j hj
    obtain ⟨hlt, heq⟩ := List.getElem?_eq_some_iff.mp (getElem?_toList (Nat.le_trans hj hi))
    obtain ⟨hlt', heq'⟩ := List.getElem?_eq_some_iff.mp (getElem?_toList (Nat.le_trans hj hi'))
    have hj := hget j (by rw [List.length_take]; omega) (by rw [List.length_take]; omega)
    simp only [List.get_eq_getElem, List.getElem_take] at hj
    rwa [heq, heq'] at hj
  refine ⟨hi, hi', halike, fun hend => ?_⟩
  by_contra hne
  have hlt : i < ts'.ahead.length := by
    rw [← ts'.remaining_eq]
    omega
  have hkind := (Token.alike_iff.mp (halike i (Nat.le_refl i))).1
  rw [nth_of_le (Nat.le_of_eq hend), nth, List.getD_eq_getElem?_getD,
    List.getElem?_eq_getElem hlt] at hkind
  exact (hs'.ahead _ (List.getElem_mem hlt)).2 (hkind.symm.trans hs.stop)

theorem exists_le (h : ts.Begins ts' i) (hnear : ts.remaining - i ≤ ts.remaining - j) :
    ∃ k ≤ i, ts.nth j = ts.nth k ∧ ts'.nth j = ts'.nth k := by
  rcases Nat.le_total j i with hj | hj
  · exact ⟨j, hj, rfl, rfl⟩
  · rcases Nat.lt_or_eq_of_le hj with hlt | rfl
    · have hend : ts.remaining = i := by
        have hle := h.le
        omega
      have hend' := h.ends hend
      refine ⟨i, Nat.le_refl i, ?_, ?_⟩
      · rw [nth_of_le (by omega), nth_of_le (Nat.le_of_eq hend)]
      · rw [nth_of_le (by omega), nth_of_le (Nat.le_of_eq hend')]
    · exact ⟨i, Nat.le_refl i, rfl, rfl⟩

end TokenStream.Begins

/-- Two streams that begin with the same tokens are compared as far as these tokens go. -/
def Comparison.ofBegins {ts ts' : TokenStream} {i : Nat} (h : ts.Begins ts' i) : Comparison where
  source := ts
  source' := ts'
  near m := ts.remaining - i ≤ m
  mono := Nat.le_trans
  alike hnear := by
    obtain ⟨k, hk, hj, hj'⟩ := h.exists_le hnear
    rw [hj, hj']
    exact h.alike k hk
  earlier := []
  earlier' := []

/-- Where a strict run fails, another one over the same tokens fails for the same cause. -/
theorem exists_similar {file source file' source' : String} {d : Diagnostic} {t : State} {i : Nat}
    (hsize : Text.byteSize source.toList ≤ maxOffset)
    (h : readStrictly (.ofSource file source) = .error d t)
    (hpos : d.position = ((TokenStream.ofSource file source).nth i).position)
    (hreach : reach (readStrictly (.ofSource file source)) =
      (TokenStream.ofSource file source).remaining - i)
    (hbegins : (TokenStream.ofSource file source).Begins (.ofSource file' source') i) :
    ∃ d', (parse file' source').errors.head? = some d' ∧ d'.cause = d.cause ∧
      d'.position = ((TokenStream.ofSource file' source').nth i).position := by
  let c := Comparison.ofBegins hbegins
  have hagree : c.Agree (.ofSource file source) (.ofSource file' source') :=
    ⟨State.ofSource_sealed file source, State.ofSource_sealed file' source', rfl, rfl,
      ⟨0, rfl, rfl⟩, [], [], rfl, rfl, .nil⟩
  have hlinked : c.Linked (List.Forall₂ Stmt.Like) (readStrictly (.ofSource file source))
      (readStrictly (.ofSource file' source')) := by
    refine (strictSteps c maxNesting).strictStmts ?_ ?_ hagree (Nat.le_of_eq hreach.symm)
    · intro s s' hkind
      rw [State.unfinished, hkind]
    · intro s hgo
      exact of_decide_eq_true hgo
  rw [h] at hlinked
  cases hr : readStrictly (.ofSource file' source') with
  | ok ss t' =>
    rw [hr] at hlinked
    exact hlinked.elim
  | error d' t' =>
    rw [hr] at hlinked
    obtain ⟨⟨hcause, u, u', ⟨j, hnear, rfl, rfl⟩, hd, hd'⟩, -⟩ := hlinked
    obtain ⟨k, hk, hj, hj'⟩ := hbegins.exists_le hnear
    -- Both runs fail at their token `k`, and the first one at its token `i`.
    have hki : k = i := by
      have hstart := hd.symm.trans hpos
      refine eq_of_start hsize (TokenStream.getElem?_toList (Nat.le_trans hk hbegins.le))
        (TokenStream.getElem?_toList hbegins.le) ?_
      rw [← hj]
      exact congrArg Position.offset hstart
    refine ⟨d', (parse_of_readStrictly hr).1, hcause.symm, ?_⟩
    rw [hd', ← hki, ← hj']
    rfl

/-- The diagnostic points at the token with the index, which is the first one that no program
without a diagnostic can have there. -/
structure Diagnostic.PointsAt (d : Diagnostic) (file source : String) (i : Nat) : Prop where
  token : ∃ t, (tokenize file source)[i]? = some t ∧ t.position = d.position
  /-- No other token starts there. -/
  unique : ∀ j u, (tokenize file source)[j]? = some u → u.span.start = d.position.offset → j = i
  /-- What stands before the token can be completed. -/
  viable : ∃ before c, Text.takeBytes? d.position.offset source.toList = some before ∧
    (parse file (String.ofList before ++ "\n" ++ c)).errors = []
  /-- Whatever follows the token, it is refused for the same cause. -/
  stable : ∀ file' source', List.Forall₂ (fun u u' => u.alike u' = true)
      ((tokenize file source).take (i + 1)) ((tokenize file' source').take (i + 1)) →
    ∃ d' t', (parse file' source').errors.head? = some d' ∧ d'.cause = d.cause ∧
      (tokenize file' source')[i]? = some t' ∧ d'.position = t'.position

/-- The first diagnostic of a source points at the first token that no program without a diagnostic
can have there, if it arose below the limit of nesting. -/
theorem first_diagnostic_points (file source : String) {d : Diagnostic}
    (hsize : Text.byteSize source.toList ≤ maxOffset)
    (hd : (parse file source).errors.head? = some d)
    (hdepth : ∀ depth ∈ (parse file source).faultDepth?, depth < maxNesting) :
    ∃ i, d.PointsAt file source i := by
  obtain ⟨t, hr⟩ := exists_readStrictly hd
  obtain ⟨i, hi, hpos, hreach, hcomplete⟩ := exists_fault hr hdepth
  have htoken : (tokenize file source)[i]? = some ((TokenStream.ofSource file source).nth i) :=
    TokenStream.getElem?_toList hi
  refine ⟨i, ⟨_, htoken, hpos.symm⟩, ?_, ?_, ?_⟩
  · intro j u hu hstart
    rw [hpos] at hstart
    exact eq_of_start hsize hu htoken hstart
  · rw [hpos]
    exact exists_completion hsize htoken hcomplete
  · intro file' source' hsame
    have hbegins : (TokenStream.ofSource file source).Begins (.ofSource file' source') i :=
      .of_forall₂ (State.ofSource_sealed file source) (State.ofSource_sealed file' source') hi hsame
    obtain ⟨d', hd', hcause, hpos'⟩ := exists_similar hsize hr hpos hreach hbegins
    exact ⟨d', _, hd', hcause, TokenStream.getElem?_toList hbegins.le', hpos'⟩

/-- An operator in a block within a call, where the group, the list and the block are still open. -/
theorem first_diagnostic_points_nested :
    Text.byteSize "f(1, fn(x) { [x, +3] }".toList ≤ maxOffset ∧
      (parse "f" "f(1, fn(x) { [x, +3] }").errors.head? =
        some ⟨.unexpectedToken .plus "+", ⟨17, "f"⟩⟩ ∧
      (parse "f" "f(1, fn(x) { [x, +3] }").faultDepth? = some 5 ∧
      ∃ i, Diagnostic.PointsAt ⟨.unexpectedToken .plus "+", ⟨17, "f"⟩⟩ "f"
        "f(1, fn(x) { [x, +3] }" i := by
  have hsize : Text.byteSize "f(1, fn(x) { [x, +3] }".toList ≤ maxOffset := by decide
  have hd : (parse "f" "f(1, fn(x) { [x, +3] }").errors.head? =
      some ⟨.unexpectedToken .plus "+", ⟨17, "f"⟩⟩ := by decide +kernel
  have hdepth : (parse "f" "f(1, fn(x) { [x, +3] }").faultDepth? = some 5 := by decide +kernel
  refine ⟨hsize, hd, hdepth, first_diagnostic_points _ _ hsize hd ?_⟩
  rw [hdepth]
  rintro _ ⟨⟩
  decide

end Scriptlet
