import ContractLinker.Proofs.Token.Order

/-!
# Layout between tokens

Layout that begins with a blank may stand wherever a token ends, and at the start: the tokens say
what they said, and so does the program, `parse_separated`. The blank keeps the token in front of
it whole, even a slash that the next character would make a comment.
-/

namespace ContractLinker

open Lexeme (CommentText)

/-- Blanks, whole block comments, and line comments with the newlines that end them. -/
inductive Filling : List Char → Prop
  | nil : Filling []
  | blank {c : Char} {s : List Char} : c = ' ' ∨ c = '\t' ∨ c = '\r' ∨ c = '\n' → Filling s →
      Filling (c :: s)
  | lineComment {comment s : List Char} : '\n' ∉ comment → Filling s →
      Filling ('/' :: '/' :: comment ++ '\n' :: s)
  | blockComment {comment s : List Char} : CommentText comment → Filling s →
      Filling ('/' :: '*' :: comment ++ s)

/-- Layout that begins with a blank. -/
inductive Separator : List Char → Prop
  | intro {c : Char} {s : List Char} : c = ' ' ∨ c = '\t' ∨ c = '\r' ∨ c = '\n' → Filling s →
      Separator (c :: s)

/-- A front of a source that is empty or ends with a token. The end of the file is none: a line
comment in front of it would go on into what is put there. -/
def Token.Sequence.Boundary (seq : Token.Sequence) (front : List Char) : Prop :=
  front = [] ∨ ∃ t ∈ seq.tokens, ∃ before, front = before ++ t.spelling ∧
    t.position = .behind before

namespace Lexeme

variable {l : Lexeme} {ls : List Lexeme} {s t : List Char} {c : Char} {kind : Token.Kind}

/-- Layout is read as layout, whatever stands behind it. -/
theorem exists_isRowBefore_of_filling (h : Filling s) :
    ∃ ls, text ls = s ∧ ls.filterMap content? = [] ∧ ∀ behind, IsRowBefore behind ls := by
  induction h with
  | nil => exact ⟨[], rfl, rfl, fun _ => trivial⟩
  | @blank c s hc _ ih =>
    obtain ⟨ls, rfl, hcontent, hrow⟩ := ih
    exact ⟨.layout [c] :: ls, rfl, hcontent, fun behind =>
      ⟨.blank (isLayout_iff.mpr hc), fits_blank, hrow behind⟩⟩
  | @lineComment comment s hcomment _ ih =>
    obtain ⟨ls, rfl, hcontent, hrow⟩ := ih
    refine ⟨.layout ('/' :: '/' :: comment) :: .layout ['\n'] :: ls, rfl, hcontent, fun behind =>
      ⟨.lineComment ?_, ?_, .blank rfl, fits_blank, hrow behind⟩⟩
    · rintro _ hc rfl
      exact hcomment hc
    · rintro _ ⟨⟩
      simp
  | @blockComment comment s hcomment _ ih =>
    obtain ⟨ls, rfl, hcontent, hrow⟩ := ih
    refine ⟨.layout ('/' :: '*' :: comment) :: ls, rfl, hcontent, fun behind =>
      ⟨.blockComment ?_, trivial, hrow behind⟩⟩
    exact commentBody_eq_some_iff.mpr ⟨hcomment, by simp⟩

/-- A blank may take the place of what stands behind a lexeme, or later. Only a line comment would
take it in, but its newline stands behind it already. -/
theorem Fits.append_blank (h : l.Fits (s ++ t)) (hc : isLayout c = true)
    (hs : s = [] → ∀ comment, l ≠ .layout comment) (more : List Char) :
    l.Fits (s ++ c :: more) := by
  by_cases hline : ∃ comment, l = .layout ('/' :: '/' :: comment)
  · obtain ⟨comment, rfl⟩ := hline
    cases s with
    | nil => exact absurd rfl (hs rfl _)
    | cons d s =>
      rintro _ ⟨⟩
      exact h d rfl
  · exact h.of_append.append_layout hc (.inr fun comment hl => hline ⟨comment, hl⟩)

theorem IsRowBefore.append_blank (h : IsRowBefore t (ls ++ [.token kind s]))
    (hc : isLayout c = true) (more : List Char) :
    IsRowBefore (c :: more) (ls ++ [.token kind s]) := by
  induction ls with
  | nil =>
    obtain ⟨hformed, hfits, -⟩ := h
    exact ⟨hformed, Fits.append_blank hfits hc (by simp) more, trivial⟩
  | cons l ls ih =>
    obtain ⟨hformed, hfits, hrow⟩ := h
    have hne : text (ls ++ [.token kind s]) ≠ [] := by
      have htoken := (isRowBefore_append_iff.mp hrow).2.1.spelling_ne_nil
      simp [htoken]
    exact ⟨hformed, hfits.append_blank hc (fun he => absurd he hne) more, ih hrow⟩

end Lexeme

namespace Token.Sequence

open Lexeme

variable {seq : Token.Sequence} {front back separator : String}

/-- At a boundary the row of lexemes parts, and a blank may follow what stands in front. -/
theorem Boundary.exists_split (hb : seq.Boundary front.toList)
    (hseq : ofSource (front ++ back) = .ok seq) :
    ∃ ls ms, Lexeme.text ls = front.toList ∧ Lexeme.text ms = back.toList ∧ IsRow ms ∧
      seq.tokens.map Token.content = ls.filterMap content? ++ ms.filterMap content? ∧
      ∀ c more, isLayout c = true → IsRowBefore (c :: more) ls := by
  obtain ⟨ls, hrow, htext, rfl⟩ := ofSource_eq_ok_iff.mp hseq
  rw [String.toList_append] at htext
  rcases hb with hnil | ⟨t, ht, before, hfront, hposition⟩
  · refine ⟨[], ls, hnil.symm, by simpa [hnil] using htext, hrow, ?_, fun _ _ _ => trivial⟩
    simp [content_sequence]
  · obtain ⟨ts, us, hsplit⟩ := List.append_of_mem ht
    obtain ⟨ls, ms, rfl, -, hstands, -⟩ := Lexeme.exists_split hsplit
    have htext' : Lexeme.text ls ++ (t.spelling ++ Lexeme.text ms) =
        before ++ (t.spelling ++ back.toList) := by
      simpa [hfront, Token.lexeme, Lexeme.spelling, Token.spelling] using htext
    -- The position of a token is that of one front only.
    obtain rfl : Lexeme.text ls = before := by
      refine Position.eq_of_prefix ⟨_, rfl⟩ ⟨_, htext'.symm⟩ ?_
      rw [← hposition, hstands]
      exact (Position.after_behind [] _).symm
    have hback : Lexeme.text ms = back.toList := by simpa using htext'
    have hsplit : ls ++ t.lexeme :: ms = (ls ++ [t.lexeme]) ++ ms := by simp
    rw [hsplit] at hrow ⊢
    obtain ⟨hbefore, hms⟩ := isRow_append_iff.mp hrow
    refine ⟨ls ++ [t.lexeme], ms, ?_, hback, hms, ?_, fun c more hc => hbefore.append_blank hc more⟩
    · simp [hfront, Token.lexeme, Lexeme.spelling, Token.spelling]
    · rw [content_sequence, List.filterMap_append]

/-- A separator at a boundary leaves the tokens as they are, apart from their positions. -/
theorem exists_ofSource_separated (hseq : ofSource (front ++ back) = .ok seq)
    (hb : seq.Boundary front.toList) (hs : Separator separator.toList) :
    ∃ seq', ofSource (front ++ separator ++ back) = .ok seq' ∧
      seq'.tokens.map Token.content = seq.tokens.map Token.content := by
  obtain ⟨ls, ms, hfront, hback, hms, hcontent, hblank⟩ := hb.exists_split hseq
  generalize hsep : separator.toList = s at hs
  cases hs with
  | @intro c s hc hfill =>
    obtain ⟨gap, rfl, hgap, hrow⟩ := exists_isRowBefore_of_filling hfill
    have hc := isLayout_iff.mpr hc
    have hall : IsRow (ls ++ .layout [c] :: gap ++ ms) := by
      rw [List.append_assoc, isRow_append_iff]
      refine ⟨?_, .blank hc, fits_blank, isRow_append_iff.mpr ⟨hrow _, hms⟩⟩
      exact hblank c _ hc
    refine ⟨sequence .start (ls ++ .layout [c] :: gap ++ ms),
      ofSource_eq_ok_iff.mpr ⟨_, hall, ?_, rfl⟩, ?_⟩
    · simp [hfront, hback, hsep, Lexeme.spelling]
    · have hlayout : (Lexeme.layout [c] :: gap).filterMap content? = [] := hgap
      simp only [content_sequence, hcontent, List.filterMap_append, hlayout, List.append_nil]

end Token.Sequence

namespace Program

open Token.Sequence (ofSource)

/-- Sources whose tokens say the same are programs that say the same. -/
theorem parse_congr {filename source source' : String} {p : Program} {seq seq' : Token.Sequence}
    (hp : parse filename source = .ok p) (hseq : ofSource source = .ok seq)
    (hseq' : ofSource source' = .ok seq')
    (h : seq'.tokens.map Token.content = seq.tokens.map Token.content) :
    ∃ q, parse filename source' = .ok q ∧ p.agrees q = true := by
  let assign : String → Address := default
  have hassign : ∀ path ∈ ([] : List String), (assign path).bytes ≠ [] := by simp
  have hword : Token.linked assign [] = id := by
    funext w
    simp [Token.linked]
  have himport : Import.linked assign [] = Import.content := by
    funext ⟨names, location, span⟩
    cases location <;> simp [Import.linked, Import.Location.linked, Import.content]
  obtain ⟨q, hq, hsame⟩ := parse_linked hassign hp hseq hseq' (by simp [hword, h])
  exact ⟨q, hq, by simp [agrees, hsame, himport]⟩

/-- A separator at a boundary leaves the program as it is, apart from where its imports stand. -/
theorem parse_separated {filename front separator back : String} {p : Program}
    {seq : Token.Sequence} (hp : parse filename (front ++ back) = .ok p)
    (hseq : ofSource (front ++ back) = .ok seq) (hb : seq.Boundary front.toList)
    (hs : Separator separator.toList) :
    ∃ q, parse filename (front ++ separator ++ back) = .ok q ∧ p.agrees q = true := by
  obtain ⟨seq', hseq', hcontent⟩ := Token.Sequence.exists_ofSource_separated hseq hb hs
  exact parse_congr hp hseq hseq' hcontent

/-- Behind a slash that would begin a comment with the first comment of the separator. -/
theorem parse_separated_slash : ∃ seq p q, ofSource ("import A /" ++ "= b") = .ok seq ∧
    seq.Boundary "import A /".toList ∧ Separator "\t/*\"import(*///[\n".toList ∧
    parse "" ("import A /" ++ "= b") = .ok p ∧
    parse "" ("import A /" ++ "\t/*\"import(*///[\n" ++ "= b") = .ok q ∧
    p.agrees q = true := by
  obtain ⟨seq, hseq, htoken⟩ : ∃ seq, ofSource ("import A /" ++ "= b") = .ok seq ∧
      seq.tokens[2]? = some ⟨.operator, "/", ⟨1, 10⟩⟩ := map_eq_ok.mp (by decide +kernel)
  obtain ⟨p, hp, -⟩ : ∃ p, parse "" ("import A /" ++ "= b") = .ok p ∧ p.filename = "" :=
    map_eq_ok.mp (by decide +kernel)
  have hb : seq.Boundary "import A /".toList :=
    .inr ⟨_, List.mem_of_getElem? htoken, "import A ".toList, by decide, by decide⟩
  have hread : Lexeme.commentBody 0 "\"import(*/".toList = some ("\"import(*/".toList, []) := by
    decide
  have hcomment : CommentText "\"import(*/".toList := (Lexeme.commentBody_eq_some_iff.mp hread).1
  have hline : Filling ('/' :: '/' :: ['['] ++ '\n' :: []) := .lineComment (by decide) .nil
  have hs : Separator "\t/*\"import(*///[\n".toList := by
    have htext : "\t/*\"import(*///[\n".toList =
        '\t' :: ('/' :: '*' :: "\"import(*/".toList ++ ('/' :: '/' :: ['['] ++ '\n' :: [])) := by
      decide
    rw [htext]
    exact .intro (.inr (.inl rfl)) (.blockComment hcomment hline)
  obtain ⟨q, hq, hsame⟩ := parse_separated hp hseq hb hs
  exact ⟨seq, p, q, hseq, hb, hs, hp, hq, hsame⟩

end Program

end ContractLinker
