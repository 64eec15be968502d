import ContractLinker.Proofs.Import.Reader
import ContractLinker.Proofs.Token.Comment
import Mathlib.Data.List.DropRight

/-!
# What lies between tokens

`ofSource_cuts`: a source that has tokens is cut by them without loss. Between two tokens lies a
`Gap` of blanks and whole comments, each token stands where its position says, and the end of the
file comes last. So a quoted location can be found in the source by the token it was read from.
-/

namespace ContractLinker

-- ---------------------------------------------------------------------------
-- Positions
-- ---------------------------------------------------------------------------

namespace Position

/-- The position behind a text, counted without advancing: its newlines, and the characters behind
the last of them. -/
def behind (s : List Char) : Position :=
  ⟨1 + s.count '\n', 1 + (s.rtakeWhile (· ≠ '\n')).length⟩

theorem advance_behind (s : List Char) (c : Char) : (behind s).advance c = behind (s ++ [c]) := by
  by_cases hc : c = '\n' <;> simp [behind, advance, hc, Nat.add_assoc]

theorem after_behind (s t : List Char) : (behind s).after t = behind (s ++ t) := by
  induction t generalizing s with
  | nil => simp
  | cons c t ih => simp [advance_behind, ih]

end Position

-- ---------------------------------------------------------------------------
-- Gaps
-- ---------------------------------------------------------------------------

open Lexeme (CommentText)

/-- Blanks and whole comments in front of `rest`; the end of a line ends a line comment. -/
inductive Gap (rest : List Char) : List Char → Prop
  | nil : Gap rest []
  | blank {c : Char} {s : List Char} : c = ' ' ∨ c = '\t' ∨ c = '\r' ∨ c = '\n' → Gap rest s →
      Gap rest (c :: s)
  | lineComment {comment s : List Char} : '\n' ∉ comment →
      (∀ c ∈ (s ++ rest).head?, c = '\n') → Gap rest s → Gap rest ('/' :: '/' :: comment ++ s)
  | blockComment {comment s : List Char} : CommentText comment → Gap rest s →
      Gap rest ('/' :: '*' :: comment ++ s)

theorem Gap.layout {s gap rest : List Char} (hs : (Lexeme.layout s).Formed)
    (hf : (Lexeme.layout s).Fits (gap ++ rest)) (h : Gap rest gap) : Gap rest (s ++ gap) := by
  cases hs with
  | blank hc => exact .blank (Lexeme.isLayout_iff.mp hc) h
  | @lineComment s hs =>
    refine .lineComment (fun hmem => hs _ hmem rfl) (fun c hc => ?_) h
    simpa using hf c hc
  | blockComment hs => exact .blockComment (Lexeme.commentBody_eq_some_iff.mp hs).1 h

-- ---------------------------------------------------------------------------
-- Cuts
-- ---------------------------------------------------------------------------

/-- The text behind `before` is cut by these tokens. -/
inductive Cuts : List Char → List Char → List Token → Prop
  | ending {before gap : List Char} : Gap [] gap →
      Cuts before gap [.endOfFile (.behind (before ++ gap))]
  | token {before gap text : List Char} {t : Token} {ts : List Token} :
      Gap (t.spelling ++ text) gap → t.kind ≠ .endOfFile →
      t.position = .behind (before ++ gap) → Cuts (before ++ gap ++ t.spelling) text ts →
      Cuts before (gap ++ t.spelling ++ text) (t :: ts)

namespace Cuts

variable {before text : List Char} {ts : List Token}

/-- Layout in front goes to the first gap. -/
theorem layout {s : List Char} (hs : (Lexeme.layout s).Formed)
    (hf : (Lexeme.layout s).Fits text) (h : Cuts (before ++ s) text ts) :
    Cuts before (s ++ text) ts := by
  cases h with
  | ending hgap =>
    rw [List.append_assoc]
    exact .ending (.layout hs (by simpa using hf) hgap)
  | token hgap hk hposition hrest =>
    rw [List.append_assoc] at hposition hrest
    simp only [← List.append_assoc s]
    exact .token (.layout hs (by simpa using hf) hgap) hk hposition (by simpa using hrest)

/-- The end of the file is the last token and no other one. -/
theorem eq_concat (h : Cuts before text ts) :
    ∃ us, ts = us ++ [.endOfFile (.behind (before ++ text))] ∧ ∀ t ∈ us, t.kind ≠ .endOfFile := by
  induction h with
  | ending => exact ⟨[], rfl, by simp⟩
  | @token before gap text t ts _ hk _ _ ih =>
    obtain ⟨us, rfl, hus⟩ := ih
    exact ⟨t :: us, by simp, by simpa [hk] using hus⟩

/-- A token stands in the text where its position says. -/
theorem exists_append (h : Cuts before text ts) {t : Token} (ht : t ∈ ts)
    (hk : t.kind ≠ .endOfFile) :
    ∃ u v, text = u ++ t.spelling ++ v ∧ t.position = .behind (before ++ u) := by
  induction h with
  | ending =>
    obtain rfl := List.mem_singleton.mp ht
    exact absurd rfl hk
  | @token before gap text t' ts _ _ hposition _ ih =>
    rcases List.mem_cons.mp ht with rfl | ht
    · exact ⟨gap, text, rfl, hposition⟩
    · obtain ⟨u, v, rfl, hu⟩ := ih ht
      exact ⟨gap ++ t'.spelling ++ u, v, by simp, by simpa using hu⟩

end Cuts

-- ---------------------------------------------------------------------------
-- Rows of lexemes
-- ---------------------------------------------------------------------------

namespace Token.Sequence

open Lexeme

@[simp] theorem toList_push (p : Position) (l : Lexeme) (seq : Token.Sequence) :
    (seq.push p l).toList = (l.token? p).toList ++ seq.toList := by
  simp [toList, push, ending]

theorem cuts_sequence {ls : List Lexeme} (h : IsRow ls) (before : List Char) :
    Cuts before (Lexeme.text ls) (sequence (.behind before) ls).toList := by
  induction ls generalizing before with
  | nil =>
    have hend : Cuts before [] [.endOfFile (.behind (before ++ []))] := .ending .nil
    rwa [List.append_nil] at hend
  | cons l ls ih =>
    obtain ⟨hl, hf, hrow⟩ := h
    have hrest := ih hrow (before ++ l.spelling)
    rw [← Position.after_behind] at hrest
    cases l with
    | layout s => exact .layout hl hf hrest
    | token kind s =>
      let t : Token := ⟨kind, String.ofList s, .behind before⟩
      have hspelling : t.spelling = (Lexeme.token kind s).spelling := by
        simp [t, Token.spelling, Lexeme.spelling]
      have hcut : Cuts before ([] ++ t.spelling ++ Lexeme.text ls)
          (t :: (sequence ((Position.behind before).after t.spelling) ls).toList) :=
        .token .nil hl.ne_endOfFile (by simp [t]) (by simpa [hspelling] using hrest)
      simpa [hspelling, Lexeme.sequence, Lexeme.token?] using hcut

/-- A source is cut by its tokens, of which only the last one is the end of the file; and what is
quoted by an import stands at the token with which the import ends. -/
theorem ofSource_cuts {source : String} {seq : Token.Sequence} (h : ofSource source = .ok seq) :
    Cuts [] source.toList seq.toList ∧
    (∃ ts, seq.toList = ts ++ [.endOfFile (.behind source.toList)] ∧
      ∀ t ∈ ts, t.kind ≠ .endOfFile) ∧
    ∀ filename p, Program.parse filename source = .ok p → ∀ i ∈ p.imports, ∀ path,
      i.location = .quoted path → ∃ t ∈ seq.toList, ∃ u v, t.kind = .string ∧ t.text = path ∧
        i.span.finish = t.finish ∧ t.position = .behind u ∧
        source.toList = u ++ ('"' :: path.toList ++ ['"']) ++ v := by
  obtain ⟨ls, hrow, htext, hseq⟩ := ofSource_eq_ok_iff.mp h
  have hcuts : Cuts [] source.toList seq.toList := by
    rw [← htext, ← hseq]
    exact cuts_sequence hrow []
  refine ⟨hcuts, hcuts.eq_concat, fun filename p hp i hi path hpath => ?_⟩
  obtain ⟨seq', imports, hseq', hread, rfl⟩ := Program.parse_eq_ok.mp hp
  obtain rfl : seq = seq' := Except.ok.inj (h.symm.trans hseq')
  obtain ⟨t, ht, hk, rfl, hfinish⟩ := Import.exists_string_of_read hread hi hpath
  have hmem : t ∈ seq.toList := List.mem_append_left _ ht
  obtain ⟨u, v, he, hposition⟩ := hcuts.exists_append hmem (by simp [hk])
  exact ⟨t, hmem, u, v, hk, rfl, hfinish, hposition,
    by simpa [Token.spelling, Token.Kind.spell, hk] using he⟩

/-- An import between comments, one of them within another. -/
theorem ofSource_cuts_comments : ∃ seq p,
    ofSource "//a\nimport /*b/*c*/*/\n \"D\"//e" = .ok seq ∧
    Cuts [] "//a\nimport /*b/*c*/*/\n \"D\"//e".toList seq.toList ∧
    seq.toList.map Token.position = [⟨2, 1⟩, ⟨3, 2⟩, ⟨3, 8⟩] ∧
    Program.parse "" "//a\nimport /*b/*c*/*/\n \"D\"//e" = .ok p ∧
    ∃ t ∈ seq.toList, ∃ u v, t.text = "D" ∧ t.position = .behind u ∧
      "//a\nimport /*b/*c*/*/\n \"D\"//e".toList = u ++ ('"' :: "D".toList ++ ['"']) ++ v := by
  obtain ⟨seq, hseq, hpositions⟩ : ∃ seq,
      ofSource "//a\nimport /*b/*c*/*/\n \"D\"//e" = .ok seq ∧
      seq.toList.map Token.position = [⟨2, 1⟩, ⟨3, 2⟩, ⟨3, 8⟩] := map_eq_ok.mp (by decide +kernel)
  obtain ⟨p, hp, himports⟩ : ∃ p,
      Program.parse "" "//a\nimport /*b/*c*/*/\n \"D\"//e" = .ok p ∧
      p.imports = [⟨[], .quoted "D", ⟨⟨2, 1⟩, ⟨3, 5⟩⟩⟩] := map_eq_ok.mp (by decide +kernel)
  obtain ⟨hcuts, -, hquoted⟩ := ofSource_cuts hseq
  obtain ⟨t, ht, u, v, -, htext, -, hposition, he⟩ :=
    hquoted "" p hp ⟨[], .quoted "D", ⟨⟨2, 1⟩, ⟨3, 5⟩⟩⟩ (by simp [himports]) "D" rfl
  exact ⟨seq, p, hseq, hcuts, hpositions, hp, t, ht, u, v, htext, hposition, he⟩

end Token.Sequence

end ContractLinker
