import ContractLinker.Proofs.Import.Span
import ContractLinker.Proofs.Substitution.Row

/-!
# Written declarations

`parse_written`: the literal of an address is read back where substitution puts it. As a text it is
one token, whatever stands behind it that goes on with no word; as the location of a declaration,
behind any names, it is the address that it was written for.
-/

namespace ContractLinker

-- ---------------------------------------------------------------------------
-- Tokens of a declaration
-- ---------------------------------------------------------------------------

namespace Import

variable {k f t ending : Token} {us ts : List Token} {names before : List String} {l : Location}

theorem read_keyword (hk : k.kind = .importKeyword) :
    read ending (.between []) (k :: ts) = read ending (.keyword k) ts := by
  have hkeyword : stepBetween [] k = .ok (.keyword k) :=
    stepBetween_eq_ok_iff.mpr (.inl ⟨hk, rfl, rfl⟩)
  exact read_of_step_none (Step.between hkeyword).eq_ok

/-- Behind a comma names are gathered, up to the last of the row. -/
theorem read_comma {start : Token} (h : Names (us.map Token.content) names) :
    read ending (.comma start before) (us ++ ts) =
      read ending (.names start (before ++ names)) ts := by
  generalize hws : us.map Token.content = ws at h
  induction h generalizing us before with
  | one n =>
    obtain ⟨u, us, rfl, hu, hnil⟩ := List.map_eq_cons_iff.mp hws
    obtain rfl := List.map_eq_nil_iff.mp hnil
    obtain ⟨hk, rfl⟩ := Prod.mk.inj hu
    exact read_of_step_none (Step.name hk).eq_ok
  | @more n s ws ns _ ih =>
    obtain ⟨u, vs, rfl, hu, hvs⟩ := List.map_eq_cons_iff.mp hws
    obtain ⟨c, vs, rfl, hc, hvs⟩ := List.map_eq_cons_iff.mp hvs
    obtain ⟨hk, rfl⟩ := Prod.mk.inj hu
    obtain ⟨hkc, -⟩ := Prod.mk.inj hc
    rw [List.cons_append, read_of_step_none (Step.name hk).eq_ok, List.cons_append,
      read_of_step_none (Step.comma hkc).eq_ok, ih hvs, List.append_assoc, List.singleton_append]

/-- Names, `from` and a location make a declaration of these names, even if one of them is `from`
again. -/
theorem read_names (hk : k.kind = .importKeyword) (hus : Names (us.map Token.content) names)
    (hf : f.isFrom = true) (hl : locationOf? t = some l) :
    read ending (.between []) (k :: us ++ f :: t :: ts) =
      (read ending (.between []) ts).map (declare k t names l :: ·) := by
  have hlocated : ∀ names, read ending (.source k names) (t :: ts) =
      (read ending (.between []) ts).map (declare k t names l :: ·) := fun names =>
    read_of_step_some (Step.source hl).eq_ok
  rw [List.cons_append, read_keyword hk]
  generalize hws : us.map Token.content = ws at hus
  -- The first name has a state of its own, as it may still be a location; those behind it do not.
  cases hus with
  | one n =>
    obtain ⟨u, us, rfl, hu, hnil⟩ := List.map_eq_cons_iff.mp hws
    obtain rfl := List.map_eq_nil_iff.mp hnil
    obtain ⟨hku, rfl⟩ := Prod.mk.inj hu
    rw [List.singleton_append, read_of_step_none (Step.first hku).eq_ok,
      read_of_step_none (Step.firstFrom hf).eq_ok, hlocated]
  | @more n s ws ns hrow =>
    obtain ⟨u, vs, rfl, hu, hvs⟩ := List.map_eq_cons_iff.mp hws
    obtain ⟨c, vs, rfl, hc, rfl⟩ := List.map_eq_cons_iff.mp hvs
    obtain ⟨hku, rfl⟩ := Prod.mk.inj hu
    obtain ⟨hkc, -⟩ := Prod.mk.inj hc
    rw [List.cons_append, read_of_step_none (Step.first hku).eq_ok, List.cons_append,
      read_of_step_none (Step.firstComma hkc).eq_ok, read_comma hrow, List.singleton_append,
      read_of_step_none (Step.fromWord hf).eq_ok, hlocated]

theorem read_location (hk : k.kind = .importKeyword) (hl : locationOf? t = some l) :
    read ending (.between []) (k :: t :: ts) =
      (read ending (.between []) ts).map (declare k t [] l :: ·) := by
  rw [read_keyword hk]
  exact read_of_step_some (Step.location hl).eq_ok

end Import

-- ---------------------------------------------------------------------------
-- Lexemes of a declaration
-- ---------------------------------------------------------------------------

/-- A text that is read as one identifier, which is the text. -/
def IsName (n : String) : Prop :=
  ∃ seq, Token.Sequence.ofSource n = .ok seq ∧
    seq.tokens.map Token.content = [(.identifier, n)]

namespace Lexeme

theorem formed_of_isName {n : String} (h : IsName n) :
    (Lexeme.token .identifier n.toList).Formed := by
  obtain ⟨seq, hseq, hcontent⟩ := h
  obtain ⟨t, htokens, ht⟩ := List.map_eq_singleton_iff.mp hcontent
  have hformed := Token.Sequence.formed_of_mem_tokens hseq (t := t) (by simp [htokens])
  obtain ⟨hk, rfl⟩ := Prod.mk.inj ht
  rwa [Token.lexeme, hk] at hformed

/-- The lexemes of names with commas between. -/
def namesRow : List String → List Lexeme
  | [] => []
  | [n] => [.token .identifier n.toList]
  | n :: m :: ns =>
    .token .identifier n.toList :: .token .comma [','] :: .layout [' '] :: namesRow (m :: ns)

theorem text_namesRow (names : List String) :
    text (namesRow names) = (", ".intercalate names).toList := by
  have hspelling : ∀ n : String, (Lexeme.token .identifier n.toList).spelling = n.toList :=
    fun n => Token.Kind.spell_of_ne_string (by simp) _
  rw [String.toList_intercalate]
  induction names with
  | nil => rfl
  | cons n names ih =>
    cases names with
    | nil => simp [namesRow, hspelling]
    | cons m ns =>
      rw [namesRow, text_cons, text_cons, text_cons, ih, hspelling, List.map_cons, List.map_cons,
        List.map_cons, List.intercalate_cons_cons, List.append_assoc]
      rfl

theorem names_namesRow {names : List String} (hne : names ≠ []) :
    Import.Names ((namesRow names).filterMap content?) names := by
  induction names with
  | nil => exact absurd rfl hne
  | cons n names ih =>
    cases names with
    | nil => simpa [namesRow, content?] using Import.Names.one n
    | cons m ns =>
      simpa [namesRow, List.filterMap_cons, content?] using Import.Names.more n "," (ih (by simp))

theorem isRowBefore_namesRow {names : List String} {s : List Char} (h : ∀ n ∈ names, IsName n)
    (hs : Stops isWordPart s) : IsRowBefore s (namesRow names) := by
  induction names with
  | nil => trivial
  | cons n names ih =>
    obtain ⟨hn, hnames⟩ := List.forall_mem_cons.mp h
    cases names with
    | nil => exact ⟨formed_of_isName hn, hs, trivial⟩
    | cons m ns =>
      have hcomma : Stops isWordPart (',' :: ' ' :: (text (namesRow (m :: ns)) ++ s)) := by
        intro c hc
        cases hc
        decide +kernel
      exact ⟨formed_of_isName hn, hcomma, .symbol rfl, fits_symbol rfl (by decide), .blank rfl,
        fits_blank, ih hnames⟩

end Lexeme

-- ---------------------------------------------------------------------------
-- Programs
-- ---------------------------------------------------------------------------

namespace Program

open Lexeme
open Token.Sequence (ofSource)

variable {filename source : String} {q : Program} {ls : List Lexeme} {rest : List Char}
  {names : List String} {a : Address}

/-- A program that begins with a row is read from the tokens of the row on. -/
theorem exists_read_of_row (hp : parse filename source = .ok q)
    (htext : source.toList = Lexeme.text ls ++ rest) (hrow : IsRowBefore rest ls) :
    ∃ ending more,
      Import.read ending (.between []) ((sequence .start ls).tokens ++ more) = .ok q.imports := by
  obtain ⟨seq, imports, hseq, hread, rfl⟩ := parse_eq_ok.mp hp
  rw [ofSource, htext, Token.Sequence.read_append hrow] at hseq
  obtain ⟨behind, -, rfl⟩ := map_eq_ok.mp hseq
  exact ⟨_, behind.tokens, hread⟩

theorem locationOf?_literal {t : Token} (ha : a.bytes ≠ [])
    (h : t.content = (.hexadecimal, a.literal)) : Import.locationOf? t = some (.address a) := by
  obtain ⟨hk, htext⟩ := Prod.mk.inj h
  simp [Import.locationOf?, hk, htext, Address.ofText?_literal ha]

/-- Names in front of a literal that a program begins with. -/
theorem first_of_names (hp : parse filename source = .ok q) (ha : a.bytes ≠ [])
    {ws : List Import.Word} (hws : Import.Names ws names)
    (htext : source.toList = Lexeme.text ls ++ rest) (hrow : IsRowBefore rest ls)
    (hcontent : ls.filterMap content? = (.importKeyword, "import") :: ws ++
      [(.identifier, "from"), (.hexadecimal, a.literal)]) :
    ∃ i is, q.imports = i :: is ∧ i.names = names ∧ i.location = .address a := by
  obtain ⟨ending, more, hread⟩ := exists_read_of_row hp htext hrow
  rw [← content_sequence .start, List.cons_append] at hcontent
  obtain ⟨k, us, htokens, hk, hus⟩ := List.map_eq_cons_iff.mp hcontent
  obtain ⟨us, vs, rfl, rfl, hvs⟩ := List.map_eq_append_iff.mp hus
  obtain ⟨f, vs, rfl, hf, hvs⟩ := List.map_eq_cons_iff.mp hvs
  obtain ⟨t, vs, rfl, ht, hvs⟩ := List.map_eq_cons_iff.mp hvs
  obtain rfl := List.map_eq_nil_iff.mp hvs
  have hdeclared : Import.read ending (.between []) (k :: us ++ f :: t :: more) = _ :=
    Import.read_names (Prod.mk.inj hk).1 hws (Import.isFrom_iff.mpr hf) (locationOf?_literal ha ht)
  rw [htokens] at hread
  obtain ⟨is, -, his⟩ := map_eq_ok.mp (hdeclared.symm.trans (by simpa using hread))
  exact ⟨_, is, his.symm, rfl, rfl⟩

theorem first_of_location (hp : parse filename source = .ok q) (ha : a.bytes ≠ [])
    (htext : source.toList = Lexeme.text ls ++ rest) (hrow : IsRowBefore rest ls)
    (hcontent : ls.filterMap content? = [(.importKeyword, "import"), (.hexadecimal, a.literal)]) :
    ∃ i is, q.imports = i :: is ∧ i.names = [] ∧ i.location = .address a := by
  obtain ⟨ending, more, hread⟩ := exists_read_of_row hp htext hrow
  rw [← content_sequence .start] at hcontent
  obtain ⟨k, us, htokens, hk, hus⟩ := List.map_eq_cons_iff.mp hcontent
  obtain ⟨t, us, rfl, ht, hus⟩ := List.map_eq_cons_iff.mp hus
  obtain rfl := List.map_eq_nil_iff.mp hus
  have hdeclared : Import.read ending (.between []) (k :: t :: more) = _ :=
    Import.read_location (Prod.mk.inj hk).1 (locationOf?_literal ha ht)
  rw [htokens] at hread
  obtain ⟨is, -, his⟩ := map_eq_ok.mp (hdeclared.symm.trans hread)
  exact ⟨_, is, his.symm, rfl, rfl⟩

/-- The literal of an address that has bytes is one token, with itself as its text, where what is
behind goes on with no word. A program that begins with a declaration from the literal, of names or
of the whole location, has it as its first import, from that address. -/
theorem parse_written (ha : a.bytes ≠ []) {rest : String} (hrest : Stops isWordPart rest.toList) :
    (∀ p, Token.Sequence.read p (a.literal ++ rest).toList =
      (Token.Sequence.read (p.after a.literal.toList) rest.toList).map
        (.prepend [⟨.hexadecimal, a.literal, p⟩])) ∧
    (∀ filename q, parse filename ("import " ++ a.literal ++ rest) = .ok q →
      ∃ i is, q.imports = i :: is ∧ i.names = [] ∧ i.location = .address a) ∧
    ∀ names, names ≠ [] → (∀ n ∈ names, IsName n) → ∀ filename q, parse filename
        ("import " ++ ", ".intercalate names ++ " from " ++ a.literal ++ rest) = .ok q →
      ∃ i is, q.imports = i :: is ∧ i.names = names ∧ i.location = .address a := by
  have hliteral : IsRowBefore rest.toList [.token .hexadecimal a.literal.toList] :=
    ⟨(Substitution.literal_address ha).formed, hrest, trivial⟩
  have hblank : ∀ s, Stops isWordPart (' ' :: s) := by
    intro s c hc
    cases hc
    decide +kernel
  have hwords : IsRow [.token .importKeyword "import".toList, .layout [' '],
      .token .identifier "from".toList] := by decide +kernel
  have hkeyword : (Lexeme.token .importKeyword "import".toList).Formed := hwords.formed (by simp)
  have hfrom : (Lexeme.token .identifier "from".toList).Formed := hwords.formed (by simp)
  refine ⟨fun p => ?_, fun filename q hp => ?_, fun names hne hnames filename q hp => ?_⟩
  · have hread := Token.Sequence.read_append hliteral p
    simpa [Lexeme.sequence, Token.Sequence.push, Lexeme.token?, Lexeme.spelling,
      Token.Kind.spell_of_ne_string] using hread
  · have hrow : IsRowBefore rest.toList [.token .importKeyword "import".toList, .layout [' '],
        .token .hexadecimal a.literal.toList] :=
      ⟨hkeyword, hblank _, .blank rfl, fits_blank, hliteral⟩
    refine first_of_location hp ha ?_ hrow (by simp [content?, List.filterMap_cons])
    simp [Lexeme.spelling, Token.Kind.spell_of_ne_string]
  · have hrow : IsRowBefore rest.toList (.token .importKeyword "import".toList :: .layout [' '] ::
        (namesRow names ++ [.layout [' '], .token .identifier "from".toList, .layout [' '],
          .token .hexadecimal a.literal.toList])) :=
      ⟨hkeyword, hblank _, .blank rfl, fits_blank, isRowBefore_append_iff.mpr
        ⟨isRowBefore_namesRow hnames (hblank _), .blank rfl, fits_blank, hfrom, hblank _,
          .blank rfl, fits_blank, hliteral⟩⟩
    refine first_of_names hp ha (names_namesRow hne) ?_ hrow ?_
    · simp [Lexeme.spelling, Token.Kind.spell_of_ne_string, text_namesRow]
    · simp [content?, List.filterMap_cons]

/-- Two names, of which the first is `from`, and an address whose digits look like other marks. -/
theorem parse_written_zero_b : ∃ q i is,
    parse "" "import from, A from 0x0be0\nimport B" = .ok q ∧ q.imports = i :: is ∧
    i.names = ["from", "A"] ∧ i.location = .address ⟨[0x0b, 0xe0]⟩ ∧
    Token.Sequence.read .start "0x0be0\nimport B".toList =
      (Token.Sequence.read ⟨1, 7⟩ "\nimport B".toList).map
        (.prepend [⟨.hexadecimal, "0x0be0", .start⟩]) := by
  have hname : ∀ n ∈ ["from", "A"], IsName n := by
    have hrow : IsRow [.token .identifier "from".toList] ∧
        IsRow [.token .identifier "A".toList] := by decide +kernel
    simp only [List.forall_mem_cons, List.not_mem_nil, false_implies, implies_true, and_true]
    exact ⟨⟨_, Token.Sequence.ofSource_eq_ok_iff.mpr ⟨_, hrow.1, by decide, rfl⟩, rfl⟩,
      ⟨_, Token.Sequence.ofSource_eq_ok_iff.mpr ⟨_, hrow.2, by decide, rfl⟩, rfl⟩⟩
  obtain ⟨q, hq, -⟩ : ∃ q, parse "" "import from, A from 0x0be0\nimport B" = .ok q ∧
      q.imports.length = 2 := map_eq_ok.mp (by decide +kernel)
  have hwritten := @parse_written ⟨[0x0b, 0xe0]⟩ (by decide) "\nimport B" (by
    intro c hc
    cases hc
    decide +kernel)
  obtain ⟨i, is, himports, hnames, hlocation⟩ := hwritten.2.2 ["from", "A"] (by simp) hname "" q hq
  exact ⟨q, i, is, hq, himports, hnames, hlocation, hwritten.1 .start⟩

end Program

end ContractLinker
