import ContractLinker.Proofs.Import.Reader
import ContractLinker.Proofs.Substitution.Lone

/-!
# Programs under substitution

A program stays the same, apart from the addresses that its imports now name, when literals of
addresses are put for its quoted locations: everywhere in the source if the places are
`Replaceable`, and at first occurrences if the locations are `Lone`. Neither holds of any source,
since a literal that touches a word or another literal is read with it.
-/

namespace ContractLinker

open Lexeme

/-- What an import says where an address stands for its quoted location. -/
def Import.resolved (assign : String → Address) (i : Import) : List String × Import.Location :=
  (i.names, match i.location with
    | .quoted path => .address (assign path)
    | location => location)

theorem Import.linked_eq_resolved {assign : String → Address} {locations : List String}
    {i : Import} (h : ∀ path, i.location = .quoted path → path ∈ locations) :
    i.linked assign locations = i.resolved assign := by
  obtain ⟨names, location, span⟩ := i
  cases location with
  | quoted path => simp [linked, Location.linked, resolved, h path rfl]
  | address | name => rfl

theorem Program.map_linked_eq {p : Program} {assign : String → Address} {locations : List String}
    (h : ∀ path ∈ p.locations, path ∈ locations) :
    p.imports.map (Import.linked assign locations) = p.imports.map (Import.resolved assign) := by
  refine List.map_congr_left fun i hi => Import.linked_eq_resolved fun path hpath => ?_
  exact h path (List.mem_filterMap.mpr ⟨i, hi, by rw [hpath]; rfl⟩)

namespace Substitution

variable {assign : String → Address} {order : List String} {ls : List Lexeme}

/-- The literal of the address that is assigned to a location. -/
def literalOf (assign : String → Address) (location : List Char) : List Char :=
  (assign (String.ofList location)).literal.toList

theorem toList_locations (every : Bool) (assign : String → Address) (order : List String)
    (code : String) :
    (locations every code (order.map fun path => (path, assign path))).toList =
      (order.map String.toList).foldl (fun s location =>
        (if every then substituteAll else substituteFirst) (quotedSpelling location)
          (literalOf assign location) s) code.toList := by
  induction order generalizing code with
  | nil => rfl
  | cons path order ih =>
    rw [List.map_cons, List.map_cons, locations, List.foldl_cons, List.foldl_cons]
    refine (ih _).trans ?_
    simp [location, locationChars, literalOf]

theorem filterMap_putAll (ls : List Lexeme) :
    (ls.map (putAll (literalOf assign) (order.map String.toList))).filterMap content? =
      (ls.filterMap content?).map (Token.linked assign order) := by
  induction ls with
  | nil => rfl
  | cons l ls ih =>
    cases l with
    | layout s => rw [List.map_cons, putAll_layout]; exact ih
    | token kind s =>
      have hmem : s ∈ order.map String.toList ↔ String.ofList s ∈ order := by
        refine ⟨fun h => ?_, fun h => List.mem_map.mpr ⟨_, h, by simp⟩⟩
        obtain ⟨path, hpath, rfl⟩ := List.mem_map.mp h
        simpa using hpath
      rw [List.map_cons, putAll_token]
      simp only [hmem]
      by_cases hs : kind = .string ∧ String.ofList s ∈ order
      · simp [hs, content?, Token.linked, literalOf, ih]
      · simp [hs, content?, Token.linked, ih]

theorem literal_assigned (ha : ∀ path ∈ order, (assign path).bytes ≠ []) :
    ∀ location ∈ order.map String.toList, Literal (literalOf assign location) := by
  intro location h
  obtain ⟨path, hpath, rfl⟩ := List.mem_map.mp h
  simpa [literalOf] using literal_address (ha path hpath)

theorem pairwise_free
    (h : order.Pairwise fun path later => ¬ (assign path).literal.toList <:+: later.toList) :
    (order.map String.toList).Pairwise fun location later =>
      ¬ literalOf assign location <:+: later := by
  rw [List.pairwise_map]
  simpa [literalOf] using h

/-- Where every place can be replaced, the tokens and the imports are those of the source with
addresses for locations. -/
theorem parse_substituted {filename code code' : String} {p : Program}
    (hp : Program.parse filename code = .ok p) (hrow : IsRow ls) (htext : text ls = code.toList)
    (hr : Replaceable (order.map String.toList) ls)
    (ha : ∀ path ∈ order, (assign path).bytes ≠ [])
    (hfree : order.Pairwise fun path later => ¬ (assign path).literal.toList <:+: later.toList)
    (hall : ∀ path ∈ p.locations, path ∈ order)
    (hcode : code'.toList =
      substituteEach (literalOf assign) (order.map String.toList) code.toList) :
    ∃ seq seq' q, Token.Sequence.ofSource code = .ok seq ∧
      Token.Sequence.ofSource code' = .ok seq' ∧
      seq'.tokens.map Token.content =
        (seq.tokens.map Token.content).map (Token.linked assign order) ∧
      Program.parse filename code' = .ok q ∧
      q.imports.map Import.content = p.imports.map (Import.resolved assign) := by
  obtain ⟨htext', hrow'⟩ := hrow.substituteEach hr (literal_assigned ha) (pairwise_free hfree)
  have hseq : Token.Sequence.ofSource code = .ok (sequence .start ls) :=
    Token.Sequence.ofSource_eq_ok_iff.mpr ⟨ls, hrow, htext, rfl⟩
  have hseq' := Token.Sequence.ofSource_eq_ok_iff.mpr
    ⟨_, hrow', by rw [← htext', htext, ← hcode], rfl⟩
  have hcontent : (sequence .start
        (ls.map (putAll (literalOf assign) (order.map String.toList)))).tokens.map Token.content =
      ((sequence .start ls).tokens.map Token.content).map (Token.linked assign order) := by
    rw [content_sequence, content_sequence, filterMap_putAll]
  obtain ⟨q, hq, himports⟩ := Program.parse_linked ha hp hseq hseq' hcontent
  exact ⟨_, _, q, hseq, hseq', hcontent, hq, himports.trans (Program.map_linked_eq hall)⟩

theorem linked_congr {locations : List String} (h : ∀ path, path ∈ order ↔ path ∈ locations) :
    Token.linked assign order = Token.linked assign locations := by
  funext w
  simp only [Token.linked, h]

-- ---------------------------------------------------------------------------
-- Everywhere
-- ---------------------------------------------------------------------------

/-- Substituting at every occurrence keeps the program where every place can be replaced. -/
theorem parse_locations_every {filename code : String} {p : Program}
    (hp : Program.parse filename code = .ok p) (hrow : IsRow ls) (htext : text ls = code.toList)
    (hr : Replaceable (p.locations.map String.toList) ls)
    (ha : ∀ path ∈ p.locations, (assign path).bytes ≠ [])
    (hfree : p.locations.eraseDups.Pairwise fun path later =>
      ¬ (assign path).literal.toList <:+: later.toList) :
    ∃ code' seq seq' q,
      locations true code (p.locations.eraseDups.map fun path => (path, assign path)) = code' ∧
      Token.Sequence.ofSource code = .ok seq ∧ Token.Sequence.ofSource code' = .ok seq' ∧
      seq'.tokens.map Token.content =
        (seq.tokens.map Token.content).map (Token.linked assign p.locations) ∧
      Program.parse filename code' = .ok q ∧
      q.imports.map Import.content = p.imports.map (Import.resolved assign) := by
  have hiff : ∀ path, path ∈ p.locations.eraseDups ↔ path ∈ p.locations := fun _ =>
    List.mem_eraseDups
  have hsub : ∀ s ∈ p.locations.eraseDups.map String.toList, s ∈ p.locations.map String.toList := by
    simp [hiff]
  obtain ⟨seq, seq', q, hseq, hseq', hcontent, hq, himports⟩ := parse_substituted hp hrow htext
    (hr.subset hsub) (fun path hpath => ha path ((hiff path).mp hpath)) hfree
    (fun path hpath => (hiff path).mpr hpath) (toList_locations true assign _ code)
  rw [linked_congr hiff] at hcontent
  exact ⟨_, seq, seq', q, rfl, hseq, hseq', hcontent, hq, himports⟩

/-- A location that is imported twice and named in a comment between. -/
theorem parse_locations_every_repeated : ∃ p q,
    Program.parse "" "import \"A\" /*\"A\"*/\nimport \"A\"" = .ok p ∧
    p.locations = ["A", "A"] ∧
    Program.parse "" (locations true "import \"A\" /*\"A\"*/\nimport \"A\""
      [("A", ⟨[1]⟩)]) = .ok q ∧
    q.imports.map Import.content = [([], .address ⟨[1]⟩), ([], .address ⟨[1]⟩)] := by
  let row : List Lexeme :=
    [.token .importKeyword "import".toList, .layout [' '], .token .string ['A'], .layout [' '],
      .layout "/*\"A\"*/".toList, .layout ['\n'], .token .importKeyword "import".toList,
      .layout [' '], .token .string ['A']]
  have hloose : Loose [['A'], ['A']] row := by
    refine ⟨?_, ?_, ?_, ?_⟩
    · intro l s hin _ c hc
      simp only [row, List.infix_cons_iff] at hin
      simp at hin
      obtain ⟨rfl, -⟩ := hin
      cases hc
      decide +kernel
    · intro s l hin _ c hc
      simp only [row, List.infix_cons_iff] at hin
      simp at hin
      obtain ⟨-, rfl⟩ := hin
      cases hc
      decide +kernel
    · intro s t hin
      simp [row, List.infix_cons_iff] at hin
    · intro number s hin
      simp [row, List.infix_cons_iff] at hin
  have hr : Replaceable [['A'], ['A']] row := by
    refine ⟨?_, ?_, hloose⟩
    · decide +kernel
    · intro location hl s _ _
      obtain rfl : location = ['A'] := by simpa using hl
      exact ⟨by decide, by decide⟩
  have hp : ∃ p, Program.parse "" "import \"A\" /*\"A\"*/\nimport \"A\"" = .ok p ∧
      (p.locations, p.imports.map (Import.resolved fun _ => ⟨[1]⟩)) =
        (["A", "A"], [([], .address ⟨[1]⟩), ([], .address ⟨[1]⟩)]) :=
    map_eq_ok.mp (by decide +kernel)
  obtain ⟨p, hp, hout⟩ := hp
  obtain ⟨hlocations, himports⟩ := Prod.mk.inj hout
  obtain ⟨_, -, -, q, rfl, -, -, -, hq, hqi⟩ := @parse_locations_every (fun _ => ⟨[1]⟩) row "" _ p
    hp (by decide +kernel) (by decide +kernel) (by rw [hlocations]; exact hr) (by simp)
    (by rw [hlocations]; decide +kernel)
  rw [hlocations] at hq
  exact ⟨p, q, hp, hlocations, hq, hqi.trans himports⟩

/-- Whenever a source parses, it parses to the same imports with addresses for its locations. -/
def KeepsImports (assign : String → Address) (code : String) : Prop :=
  ∀ filename p, Program.parse filename code = .ok p →
    ∃ q, Program.parse filename (locations true code
        (p.locations.eraseDups.map fun path => (path, assign path))) = .ok q ∧
      q.imports.map Import.content = p.imports.map (Import.resolved assign)

theorem not_keepsImports {assign : String → Address} {code : String}
    (h : (Program.parse "" code).toOption.any (fun p => decide
      ((Program.parse "" (locations true code
          (p.locations.eraseDups.map fun path => (path, assign path)))).toOption.map
        (·.imports.map Import.content) ≠ some (p.imports.map (Import.resolved assign)))) = true) :
    ¬ KeepsImports assign code := by
  intro hkeeps
  cases hp : Program.parse "" code with
  | error failure => rw [hp] at h; cases h
  | ok p =>
    rw [hp] at h
    obtain ⟨q, hq, himports⟩ := hkeeps "" p hp
    refine of_decide_eq_true h ?_
    rw [hq]
    exact congrArg some himports

/-- Without those conditions it does not: each of these sources, with `0x01` for its locations,
fails in one way to leave room for the literal. -/
theorem parse_locations_every_fails :
    -- The literal goes on a word, is gone on with by a word, or by another literal.
    ¬ KeepsImports (fun _ => ⟨[1]⟩) "import\"A\"" ∧
    ¬ KeepsImports (fun _ => ⟨[1]⟩) "import \"A\"x" ∧
    ¬ KeepsImports (fun _ => ⟨[1]⟩) "import \"A\"\"A\"" ∧
    -- A number takes its point and the literal in.
    ¬ KeepsImports (fun _ => ⟨[1]⟩) "import \"A\" 5.\"A\"" ∧
    -- A location stands between the end of one literal and the start of the next, or within one.
    ¬ KeepsImports (fun _ => ⟨[1]⟩) "import \",\" import \"a\",\"b\"" ∧
    ¬ KeepsImports (fun _ => ⟨[1]⟩) "import \"A\" \"\\\"A\"" ∧
    -- A location opens a comment within a comment.
    ¬ KeepsImports (fun _ => ⟨[1]⟩) "import \"/*\" /* \"/*\" */ ) */" ∧
    -- A location holds the literal of an earlier one.
    ¬ KeepsImports (fun _ => ⟨[1]⟩)
      "import \"A\" import \" import 0x01 \" \"s\" import \"A\" \"u\"" := by
  refine ⟨?_, ?_, ?_, ?_, ?_, ?_, ?_, ?_⟩
  all_goals exact not_keepsImports (by decide +kernel)

-- ---------------------------------------------------------------------------
-- At first occurrences
-- ---------------------------------------------------------------------------

/-- At lone locations the first occurrence is the only one, so every order gives one text. -/
theorem toList_locations_of_lone {code : String} {locs : List String}
    (htext : text ls = code.toList) (hr : Replaceable (locs.map String.toList) ls)
    (hmem : ∀ location ∈ locs.map String.toList, .token .string location ∈ ls)
    (hlone : ∀ location ∈ locs.map String.toList, Lone location (text ls))
    (ha : ∀ path ∈ locs, (assign path).bytes ≠ [])
    (hfree : ∀ path ∈ locs, ∀ other ∈ locs, ¬ (assign path).literal.toList <:+: other.toList)
    (hiff : ∀ path, path ∈ order ↔ path ∈ locs) :
    (locations false code (order.map fun path => (path, assign path))).toList =
      substituteEach (literalOf assign) (locs.map String.toList) code.toList := by
  have hsub : ∀ path ∈ order, path ∈ locs := fun path => (hiff path).mp
  have hlocations : ∀ s, s ∈ locs.map String.toList ↔ s ∈ order.map String.toList := by
    simp [hiff]
  have hapart : ∀ {paths : List String}, (∀ path ∈ paths, path ∈ locs) →
      (paths.map String.toList).Pairwise fun location later =>
        ¬ literalOf assign location <:+: later :=
    fun hsub => pairwise_free (List.pairwise_of_forall_mem_list fun path hpath other hother =>
      hfree path (hsub path hpath) other (hsub other hother))
  have honce : ∀ location ∈ order.map String.toList,
      AtMostOnce (quotedSpelling location) code.toList := by
    intro location h
    rw [← htext]
    exact (hlone location ((hlocations location).mpr h)).once
  have hwhole : ∀ location ∈ order.map String.toList, Whole location ls := fun location h =>
    hr.whole location ((hlocations location).mpr h)
  have hlit := literal_assigned fun path hpath => ha path (hsub path hpath)
  refine (toList_locations false assign order code).trans ?_
  refine (foldl_substituteFirst honce hlit (hapart hsub)).trans ?_
  rw [← htext, text_map_putAll hwhole hlit (hapart hsub),
    text_map_putAll hr.whole (literal_assigned ha) (hapart fun _ => id),
    map_putAll_of_lone hlocations hmem hlone]

/-- Substituting at first occurrences, in any order, keeps the program where every location is
lone. -/
theorem parse_locations_first {filename code : String} {p : Program}
    (hp : Program.parse filename code = .ok p)
    (ha : ∀ path ∈ p.locations, (assign path).bytes ≠ [])
    (hlone : ∀ path ∈ p.locations, Lone path.toList code.toList)
    (hfree : ∀ path ∈ p.locations, ∀ other ∈ p.locations,
      ¬ (assign path).literal.toList <:+: other.toList) :
    ∃ code' seq seq' q,
      (∀ order : List String, order.Nodup → (∀ path, path ∈ order ↔ path ∈ p.locations) →
        locations false code (order.map fun path => (path, assign path)) = code') ∧
      Token.Sequence.ofSource code = .ok seq ∧ Token.Sequence.ofSource code' = .ok seq' ∧
      seq'.tokens.map Token.content =
        (seq.tokens.map Token.content).map (Token.linked assign p.locations) ∧
      Program.parse filename code' = .ok q ∧
      q.imports.map Import.content = p.imports.map (Import.resolved assign) := by
  obtain ⟨seq, -, hseq, -, -⟩ := Program.parse_eq_ok.mp hp
  obtain ⟨ls, hrow, htext, rfl⟩ := Token.Sequence.ofSource_eq_ok_iff.mp hseq
  have hmem : ∀ location ∈ p.locations.map String.toList, .token .string location ∈ ls := by
    intro location h
    obtain ⟨path, hpath, rfl⟩ := List.mem_map.mp h
    obtain ⟨t, ht, hk, rfl⟩ := Program.exists_string_of_mem_locations hp hseq hpath
    obtain ⟨s, hs, he⟩ := exists_of_mem_tokens ht
    rw [hk] at hs
    rwa [he, String.toList_ofList]
  have hlone : ∀ location ∈ p.locations.map String.toList, Lone location (text ls) := by
    intro location h
    obtain ⟨path, hpath, rfl⟩ := List.mem_map.mp h
    rw [htext]
    exact hlone path hpath
  have hr := replaceable_of_lone hrow hmem hlone
  have hapart : p.locations.Pairwise fun path later =>
      ¬ (assign path).literal.toList <:+: later.toList := List.pairwise_of_forall_mem_list hfree
  have hfirst : ∀ {order : List String}, (∀ path, path ∈ order ↔ path ∈ p.locations) → _ :=
    toList_locations_of_lone htext hr hmem hlone ha hfree
  obtain ⟨seq, seq', q, hseq, hseq', hcontent, hq, himports⟩ :=
    parse_substituted hp hrow htext hr ha hapart (fun _ => id) (hfirst fun _ => Iff.rfl)
  refine ⟨_, seq, seq', q, fun order _ hiff => ?_, hseq, hseq', hcontent, hq, himports⟩
  exact String.toList_injective ((hfirst hiff).trans (hfirst fun _ => Iff.rfl).symm)

/-- Two locations, the later one first. -/
theorem parse_locations_first_pair : ∃ p q,
    Program.parse "" "import x from \"A\" (\"C\")\nimport \"lib/B\"" = .ok p ∧
    p.locations = ["A", "lib/B"] ∧
    Program.parse "" (locations false "import x from \"A\" (\"C\")\nimport \"lib/B\""
      [("lib/B", ⟨[10]⟩), ("A", ⟨[1]⟩)]) = .ok q ∧
    q.imports.map Import.content = [(["x"], .address ⟨[1]⟩), ([], .address ⟨[10]⟩)] := by
  let assign : String → Address := fun path => if path = "A" then ⟨[1]⟩ else ⟨[10]⟩
  have hp : ∃ p, Program.parse "" "import x from \"A\" (\"C\")\nimport \"lib/B\"" = .ok p ∧
      (p.locations, p.imports.map (Import.resolved assign)) =
        (["A", "lib/B"], [(["x"], .address ⟨[1]⟩), ([], .address ⟨[10]⟩)]) :=
    map_eq_ok.mp (by decide +kernel)
  obtain ⟨p, hp, hout⟩ := hp
  obtain ⟨hlocations, himports⟩ := Prod.mk.inj hout
  have hlone : ∀ path ∈ ["A", "lib/B"], Lone path.toList
      "import x from \"A\" (\"C\")\nimport \"lib/B\"".toList := by
    simp only [List.forall_mem_cons]
    refine ⟨⟨by decide +kernel, "import x from ".toList, " (\"C\")\nimport \"lib/B\"".toList,
        by decide +kernel, ?_⟩,
      ⟨by decide +kernel, "import x from \"A\" (\"C\")\nimport ".toList, [],
        by decide +kernel, ?_⟩, fun _ h => nomatch h⟩
    all_goals
      exact ⟨(Option.all_eq_true isLayout _).mp (by decide +kernel),
        (Option.all_eq_true isLayout _).mp (by decide +kernel)⟩
  obtain ⟨code', -, -, q, hcode, -, -, -, hq, hqi⟩ := @parse_locations_first assign "" _ p hp
    (by rw [hlocations]; decide +kernel) (by rw [hlocations]; exact hlone)
    (by rw [hlocations]; decide +kernel)
  have horder := hcode ["lib/B", "A"] (by decide) (by simp [hlocations, or_comm])
  rw [← horder] at hq
  exact ⟨p, q, hp, hlocations, hq, hqi.trans himports⟩

end Substitution

end ContractLinker
