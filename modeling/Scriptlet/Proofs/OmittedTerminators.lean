import Scriptlet.Proofs.Layout

/-! Terminators are optional except before three kinds of token. A derivation keeps no terminator in
its tree, and it needs one only where the next token would go on with the statement. So any other
terminators, at any depth and as many as one likes, can be left out of a source that parses without
a diagnostic: it parses to a program that is alike. -/
namespace Scriptlet

open Reader Layer

/-- `Omits ts us`: leaving some terminators out of the tokens `ts` gives the tokens `us`. None of
them stands directly before a token that would go on with the statement. -/
inductive Omits : List Token → List Token → Prop
  | nil : Omits [] []
  | keep {t : Token} {ts us : List Token} (h : Omits ts us) : Omits (t :: ts) (t :: us)
  | drop {semicolon : Token} {ts us : List Token} (hk : semicolon.kind = .semicolon)
      (hnext : ∀ t ∈ ts.head?, ¬ t.kind.Continues) (h : Omits ts us) : Omits (semicolon :: ts) us

instance (kind : Kind) : Decidable kind.Continues :=
  inferInstanceAs (Decidable (_ ∨ _ ∨ _))

namespace Omits

variable {t o c : Token} {ts rs us : List Token}

theorem nil_iff : Omits [] us ↔ us = [] := by
  constructor
  · rintro ⟨⟩
    rfl
  · rintro rfl
    exact .nil

/-- The first token is kept, or it is a terminator that can be left out. -/
theorem cons_iff : Omits (t :: ts) us ↔ us.head? = some t ∧ Omits ts us.tail ∨
    t.kind = .semicolon ∧ (∀ u ∈ ts.head?, ¬ u.kind.Continues) ∧ Omits ts us := by
  constructor
  · intro h
    cases h with
    | keep h => exact .inl ⟨rfl, h⟩
    | drop hk hnext h => exact .inr ⟨hk, hnext, h⟩
  · rintro (⟨ht, h⟩ | ⟨hk, hnext, h⟩)
    · obtain ⟨us, rfl⟩ := List.head?_eq_some_iff.mp ht
      exact .keep h
    · exact .drop hk hnext h

instance decidable : (ts us : List Token) → Decidable (Omits ts us)
  | [], _ => decidable_of_iff' _ nil_iff
  | _ :: ts, us =>
    have := decidable ts us.tail
    have := decidable ts us
    decidable_of_iff' _ cons_iff

theorem sublist (h : Omits ts us) : us.Sublist ts := by
  induction h with
  | nil => exact .slnil
  | keep _ ih => exact .cons_cons _ ih
  | drop _ _ _ ih => exact .cons _ ih

/-- What stands before a place and what stands behind it are left without terminators apart from
each other. -/
theorem append (h : Omits (ts ++ rs) us) :
    ∃ ts' rs', us = ts' ++ rs' ∧ Omits ts ts' ∧ Omits rs rs' := by
  induction ts generalizing us with
  | nil => exact ⟨[], us, rfl, .nil, h⟩
  | cons t ts ih =>
    cases h with
    | keep h =>
      obtain ⟨ts', rs', rfl, hts, hrs⟩ := ih h
      exact ⟨t :: ts', rs', rfl, .keep hts, hrs⟩
    | drop hk hnext h =>
      obtain ⟨ts', rs', rfl, hts, hrs⟩ := ih h
      refine ⟨ts', rs', rfl, .drop hk ?_ hts, hrs⟩
      intro u hu
      apply hnext
      simp [Option.mem_def.mp hu]

/-- Only terminators are left out. -/
theorem cons (h : Omits (t :: ts) us) (ht : t.kind ≠ .semicolon) :
    ∃ us', us = t :: us' ∧ Omits ts us' := by
  cases h with
  | keep h => exact ⟨_, rfl, h⟩
  | drop hk => exact absurd hk ht

theorem split (h : Omits (ts ++ t :: rs) us) (ht : t.kind ≠ .semicolon) :
    ∃ ts' rs', us = ts' ++ t :: rs' ∧ Omits ts ts' ∧ Omits rs rs' := by
  obtain ⟨ts', us', rfl, hts, hus⟩ := h.append
  obtain ⟨rs', rfl, hrs⟩ := hus.cons ht
  exact ⟨ts', rs', rfl, hts, hrs⟩

theorem bracketed (h : Omits (o :: (ts ++ [c])) us) (ho : o.kind ≠ .semicolon)
    (hc : c.kind ≠ .semicolon) : ∃ ts', us = o :: (ts' ++ [c]) ∧ Omits ts ts' := by
  obtain ⟨us', rfl, hus⟩ := h.cons ho
  obtain ⟨ts', rs', rfl, hts, hrs⟩ := hus.split hc
  cases hrs
  exact ⟨ts', rfl, hts⟩

theorem header {w : Token} (h : Omits (w :: o :: (ts ++ c :: rs)) us) (hw : w.kind ≠ .semicolon)
    (ho : o.kind ≠ .semicolon) (hc : c.kind ≠ .semicolon) :
    ∃ ts' rs', us = w :: o :: (ts' ++ c :: rs') ∧ Omits ts ts' ∧ Omits rs rs' := by
  obtain ⟨us', rfl, hus⟩ := h.cons hw
  obtain ⟨vs, rfl, hvs⟩ := hus.cons ho
  obtain ⟨ts', rs', rfl, hts, hrs⟩ := hvs.split hc
  exact ⟨ts', rs', rfl, hts, hrs⟩

theorem eq_of_forall (h : Omits ts us) (hts : ∀ t ∈ ts, t.kind ≠ .semicolon) : us = ts := by
  induction h with
  | nil => rfl
  | keep _ ih => rw [ih (List.forall_mem_cons.mp hts).2]
  | drop hk => exact absurd hk (List.forall_mem_cons.mp hts).1

theorem head?_eq (h : Omits ts us) (hts : ∀ t ∈ ts.head?, t.kind ≠ .semicolon) :
    us.head? = ts.head? := by
  cases h with
  | nil => rfl
  | keep => rfl
  | drop hk => exact absurd hk (hts _ rfl)

end Omits

theorem Kind.ne_semicolon_of_opening? {kind : Kind} (h : kind.opening?.isSome = true) :
    kind ≠ .semicolon := by
  rintro rfl
  simp [opening?] at h

theorem Kind.ne_semicolon_of_startsStmt {kind : Kind} (h : kind.StartsStmt) :
    kind ≠ .semicolon := by
  rintro rfl
  simp [StartsStmt, opening?, heading?] at h

theorem Tier.ne_semicolon_of_mem_operators {tier : Tier} {kind : Kind}
    (h : kind ∈ tier.operators) : kind ≠ .semicolon := by
  rintro rfl
  cases tier <;> simp [operators] at h

theorem MoreNames.ne_semicolon {ts : List Token} {names : List Name} (h : MoreNames ts names) :
    ∀ t ∈ ts, t.kind ≠ .semicolon := by
  induction h with
  | nil => simp
  | cons hc ht _ ih => simpa [hc, ht] using ih

theorem Names.ne_semicolon {ts : List Token} {names : List Name} (h : Names ts names) :
    ∀ t ∈ ts, t.kind ≠ .semicolon := by
  cases h with
  | nil => simp
  | cons ht h => simpa [ht] using h.ne_semicolon

theorem Derives.head?_of_omits {n : Nat} {ts us : List Token} {ss : List Stmt}
    (h : Derives .stmts n ts ss) (ho : Omits ts us) : us.head? = ts.head? :=
  ho.head?_eq fun t ht => Kind.ne_semicolon_of_startsStmt (h.start t ht)

/-- What is derived is derived without the terminators that are left out: the same tree, and it
takes the same levels. -/
theorem Derives.of_omits {phrase : Phrase} {n : Nat} {ts us : List Token} {tree : phrase.Tree}
    (h : Derives phrase n ts tree) (hu : Omits ts us) : Derives phrase n us tree := by
  induction h generalizing us with
  | tighter ht _ ih => exact .tighter ht (ih hu)
  | binary hop ht _ _ ihl ihr =>
    obtain ⟨ls, rs, rfl, hl, hr⟩ := hu.split (Tier.ne_semicolon_of_mem_operators hop)
    exact .binary hop ht (ihl hl) (ihr hr)
  | unary hop _ ih =>
    obtain ⟨us, rfl, hus⟩ := hu.cons (by rcases hop with hop | hop <;> simp [hop])
    exact .unary hop (ih hus)
  | call ho hc _ _ ihf ih =>
    obtain ⟨fs, vs, rfl, hfs, hvs⟩ := hu.append
    obtain ⟨as, rfl, has⟩ := hvs.bracketed (by simp [ho]) (by simp [hc])
    exact .call ho hc (ihf hfs) (ih has)
  | index ho hc _ _ ihl ih =>
    obtain ⟨ls, vs, rfl, hls, hvs⟩ := hu.append
    obtain ⟨is, rfl, his⟩ := hvs.bracketed (by simp [ho]) (by simp [hc])
    exact .index ho hc (ihl hls) (ih his)
  | name ht =>
    obtain rfl := hu.eq_of_forall (by simp [ht])
    exact .name ht
  | integer ht hv hlt =>
    obtain rfl := hu.eq_of_forall (by simp [ht])
    exact .integer ht hv hlt
  | text ht =>
    obtain rfl := hu.eq_of_forall (by simp [ht])
    exact .text ht
  | yes ht =>
    obtain rfl := hu.eq_of_forall (by simp [ht])
    exact .yes ht
  | no ht =>
    obtain rfl := hu.eq_of_forall (by simp [ht])
    exact .no ht
  | group ho hc _ ih =>
    obtain ⟨us, rfl, hus⟩ := hu.bracketed (by simp [ho]) (by simp [hc])
    exact .group ho hc (ih hus)
  | array ho hc _ ih =>
    obtain ⟨us, rfl, hus⟩ := hu.bracketed (by simp [ho]) (by simp [hc])
    exact .array ho hc (ih hus)
  | hash ho hc _ ih =>
    obtain ⟨us, rfl, hus⟩ := hu.bracketed (by simp [ho]) (by simp [hc])
    exact .hash ho hc (ih hus)
  | conditional hw ho hc _ _ ih ihb =>
    obtain ⟨cs, bs, rfl, hcs, hbs⟩ := hu.header (by simp [hw]) (by simp [ho]) (by simp [hc])
    exact .conditional hw ho hc (ih hcs) (ihb hbs)
  | alternative hw ho hc hx _ _ _ ih ihb iha =>
    obtain ⟨cs, vs, rfl, hcs, hvs⟩ := hu.header (by simp [hw]) (by simp [ho]) (by simp [hc])
    obtain ⟨bs, as, rfl, hbs, has⟩ := hvs.split (by simp [hx])
    exact .alternative hw ho hc hx (ih hcs) (ihb hbs) (iha has)
  | function hw ho hc h _ ihb =>
    obtain ⟨ns, bs, rfl, hns, hbs⟩ := hu.header (by simp [hw]) (by simp [ho]) (by simp [hc])
    obtain rfl := hns.eq_of_forall h.ne_semicolon
    exact .function hw ho hc h (ihb hbs)
  | empty =>
    cases hu
    exact .empty
  | first _ _ ih ihr =>
    obtain ⟨es, rs, rfl, hes, hrs⟩ := hu.append
    exact .first (ih hes) (ihr hrs)
  | last =>
    cases hu
    exact .last
  | next hc _ _ ih ihr =>
    obtain ⟨us, rfl, hus⟩ := hu.cons (by simp [hc])
    obtain ⟨es, rs, rfl, hes, hrs⟩ := hus.append
    exact .next hc (ih hes) (ihr hrs)
  | noPair =>
    cases hu
    exact .noPair
  | lastPair hc _ _ ihk ihv =>
    obtain ⟨ks, vs, rfl, hks, hvs⟩ := hu.split (by simp [hc])
    exact .lastPair hc (ihk hks) (ihv hvs)
  | nextPair hc hs _ _ _ ihk ihv ihr =>
    obtain ⟨ks, us, rfl, hks, hus⟩ := hu.split (by simp [hc])
    obtain ⟨vs, rs, rfl, hvs, hrs⟩ := hus.split (by simp [hs])
    exact .nextPair hc hs (ihk hks) (ihv hvs) (ihr hrs)
  | block ho hc _ ih =>
    obtain ⟨us, rfl, hus⟩ := hu.bracketed (by simp [ho]) (by simp [hc])
    exact .block ho hc (ih hus)
  | binding hw ht ha _ ih =>
    obtain ⟨us, rfl, hus⟩ := hu.cons (by simp [hw])
    obtain ⟨vs, rfl, hvs⟩ := hus.cons (by simp [ht])
    obtain ⟨es, rfl, hes⟩ := hvs.cons (by simp [ha])
    exact .binding hw ht ha (ih hes)
  | returning hw _ ih =>
    obtain ⟨us, rfl, hus⟩ := hu.cons (by simp [hw])
    exact .returning hw (ih hus)
  | expression h ih =>
    obtain ⟨-, t, rest, ⟨⟩, ht⟩ := h.start
    obtain ⟨us, rfl, -⟩ := hu.cons (Kind.ne_semicolon_of_opening? ht)
    exact .expression (ih hu)
  | done =>
    cases hu
    exact .done
  | terminated ht _ hr ih ihr =>
    obtain ⟨us, vs, rfl, hus, hvs⟩ := hu.append
    cases hvs with
    | keep hvs => exact .terminated ht (ih hus) (ihr hvs)
    | drop _ hnext hvs =>
      -- The next statement still begins with a token that does not go on with this one.
      refine .unterminated ?_ (ih hus) (ihr hvs)
      rwa [hr.head?_of_omits hvs]
  | unterminated ht _ hr ih ihr =>
    obtain ⟨us, vs, rfl, hus, hvs⟩ := hu.append
    refine .unterminated ?_ (ih hus) (ihr hvs)
    rwa [hr.head?_of_omits hvs]

/-- A derivation within the limit, from tokens that differ from those of a source at most in where
they stand, is what the parser returns, up to places. -/
theorem parse_alike_of_derives {file source : String} {k : Nat} {ts : TokenStream}
    {ss : List Stmt} (hd : Derives .stmts k ts.ahead ss) (hk : k ≤ maxNesting)
    (hs : (State.ofStream ts).Sealed) (halike : ts.Alike (.ofSource file source)) :
    (parse file source).errors = [] ∧
      Stmt.allAlike ss (parse file source).program.statements = true := by
  obtain ⟨t, ht, -, -, herrors⟩ := (hd.settles maxNesting rfl hs.stop).reads hk
  obtain ⟨read, t', hr⟩ := Comparison.Steps.exists_collect (ε := Empty)
    (fun s => ⟨_, _, stmtOrSkip_eq (ofRoom maxNesting) s⟩) State.unfinished (.ofStream ts)
  cases ht.symm.trans (bind_of_ok hr)
  have hagree : (Comparison.ofLayouts halike).Agree (.ofStream ts) (.ofSource file source) :=
    ⟨hs, State.ofSource_sealed file source, rfl, rfl, ⟨0, rfl, rfl⟩, [], [], rfl, rfl, .nil⟩
  obtain ⟨read', u, hr', hlike, hu⟩ := Comparison.readAll hagree hr trivial
  have hparse : parse file source = ⟨⟨read'.filterMap id⟩, u.errors.toList, u.trace.toList⟩ :=
    parse_eq (bind_of_ok hr')
  obtain ⟨ds, ds', hds, hds', hsimilar⟩ := hu.errors
  have hnone : ds = [] := by
    simpa [Comparison.ofLayouts, herrors, State.ofStream] using hds.symm
  rw [hparse]
  constructor
  · rw [hnone, List.forall₂_nil_left_iff] at hsimilar
    simpa [Comparison.ofLayouts, hsimilar] using hds'
  · exact Stmt.allAlike_of_forall₂ hlike

/-- A source that parses without a diagnostic may be written without any terminators that do not
stand directly before `-`, `(` or `[`: every source with the tokens that are left parses without a
diagnostic, to a program that is alike. -/
theorem parse_of_omitted_terminators (file source : String) (h : (parse file source).errors = [])
    (rest : List Token) (hrest : Omits (tokenize file source) rest) (file' source' : String)
    (halike : List.Forall₂ (fun t t' => t.alike t' = true) rest (tokenize file' source')) :
    (parse file' source').errors = [] ∧
      (parse file source).program.alike (parse file' source').program = true := by
  obtain ⟨k, hk, hd⟩ := derives_of_parse h
  rw [dropLast_tokenize] at hd
  have hsealed := State.ofSource_sealed file source
  have hend : (TokenStream.ofSource file source).stop.kind = .endOfInput := hsealed.stop
  obtain ⟨us, stop, rfl, hus, hstop⟩ := hrest.append
  obtain rfl := hstop.eq_of_forall (by simp [hend])
  let ts : TokenStream := ⟨us, (TokenStream.ofSource file source).stop, us.length, rfl⟩
  have hs : (State.ofStream ts).Sealed :=
    ⟨hend, fun t ht => hsealed.ahead t (hus.sublist.subset ht)⟩
  have hleft : Derives .stmts k ts.ahead (parse file source).program.statements := hd.of_omits hus
  exact parse_alike_of_derives hleft hk hs halike

/-- Four terminators are left out, in a block, in the body of a function and behind both; the one
before a sign stays. -/
theorem parse_of_omitted_terminators_nested :
    let source := "let f = fn(a) \x7b return a; \x7d; if (f(1)) \x7b x; \x7d; y; -1;"
    let source' := "let f = fn(a) \x7b return a \x7d if (f(1)) \x7b x \x7d y; -1;"
    (parse "f" source).errors = [] ∧
      (∃ rest, Omits (tokenize "f" source) rest ∧
        List.Forall₂ (fun t t' => t.alike t' = true) rest (tokenize "g" source')) ∧
      (tokenize "f" source).length = (tokenize "g" source').length + 4 ∧
      (parse "g" source').errors = [] ∧
      (parse "f" source).program.alike (parse "g" source').program = true := by
  intro source source'
  have haccepted : (parse "f" source).errors = [] := by decide +kernel
  let rest := (tokenize "f" source).filter fun t => t.kind ≠ .semicolon ∨ 48 ≤ t.span.start
  have homits : Omits (tokenize "f" source) rest := by decide +kernel
  have halike : List.Forall₂ (fun t t' => t.alike t' = true) rest (tokenize "g" source') := by
    decide +kernel
  exact ⟨haccepted, ⟨rest, homits, halike⟩, by decide +kernel,
    parse_of_omitted_terminators "f" source haccepted rest homits "g" source' halike⟩

end Scriptlet
