import ContractLinker.Proofs.Outcome
import ContractLinker.Proofs.Token.Sequence

/-!
# Texts that follow each other

Where one text ends and layout follows, no lexeme reaches across: `Fits.append_layout`. So a source
is read line by line, `ofSource_append_newline`: behind a text that has tokens and a newline, a text
is read as it is on its own, only further down. And tokens that are written with blanks between them
are read again, `ofSource_written`.
-/

namespace ContractLinker

-- ---------------------------------------------------------------------------
-- Layout behind a lexeme
-- ---------------------------------------------------------------------------

namespace Lexeme

variable {l : Lexeme} {ls : List Lexeme} {s t : List Char} {c : Char}

theorem Stops.append {p : Char → Bool} (hs : Stops p s) (ht : Stops p t) : Stops p (s ++ t) := by
  cases s with
  | nil => exact ht
  | cons d s => exact hs

theorem Point.of_append_layout (hc : isLayout c = true) (h : Point (s ++ c :: t)) : Point s := by
  obtain ⟨d, more, he, hd⟩ := h
  match s with
  | [] =>
    cases he
    exact absurd hc (by decide)
  | [_] =>
    cases he
    rw [(isLayout_cases hc).2.1] at hd
    cases hd
  | _ :: _ :: s =>
    cases he
    exact ⟨d, s, rfl, hd⟩

theorem fits_nil (l : Lexeme) : l.Fits [] := by
  have hpoint : ¬ Point [] := by
    rintro ⟨_, _, he, _⟩
    cases he
  unfold Fits
  split
  case h_5 => exact ⟨fun _ hc => (nomatch hc), fun _ => hpoint⟩
  case h_7 => trivial
  all_goals exact fun _ hc => nomatch hc

/-- Layout goes on with no lexeme, but for a line comment that no newline ends. -/
theorem Fits.append_layout (h : l.Fits s) (hc : isLayout c = true)
    (hline : c = '\n' ∨ ∀ comment, l ≠ .layout ('/' :: '/' :: comment)) :
    l.Fits (s ++ c :: t) := by
  have hword : Stops isWordPart (c :: t) := by
    rintro _ ⟨⟩
    exact isWordPart_of_isLayout hc
  unfold Fits at h ⊢
  split
  -- A line comment, which takes blanks in, has to be ended by a newline.
  case h_1 comment =>
    refine h.append ?_
    rintro _ ⟨⟩
    simpa using hline.resolve_right fun hne => hne comment rfl
  case h_5 => exact ⟨h.1.append hword, fun hall hpoint => h.2 hall (hpoint.of_append_layout hc)⟩
  case h_6 =>
    refine h.append ?_
    rintro _ ⟨⟩
    rcases isLayout_iff.mp hc with rfl | rfl | rfl | rfl <;> decide
  case h_7 => trivial
  all_goals exact h.append hword

theorem IsRow.isRowBefore_newline (h : IsRow ls) (t : List Char) : IsRowBefore ('\n' :: t) ls := by
  induction ls with
  | nil => trivial
  | cons l ls ih =>
    obtain ⟨hformed, hfits, hrow⟩ := h
    exact ⟨hformed, hfits.append_layout rfl (.inl rfl), ih hrow⟩

end Lexeme

-- ---------------------------------------------------------------------------
-- Further down
-- ---------------------------------------------------------------------------

namespace Position

/-- The position some lines further down. -/
def down (lines : Nat) (p : Position) : Position := ⟨p.line + lines, p.column⟩

theorem advance_down (lines : Nat) (p : Position) (c : Char) :
    (p.down lines).advance c = (p.advance c).down lines := by
  by_cases hc : c = '\n' <;> simp [advance, down, hc, Nat.add_right_comm]

theorem after_down (lines : Nat) (p : Position) (s : List Char) :
    (p.down lines).after s = (p.after s).down lines := by
  induction s generalizing p with
  | nil => rfl
  | cons c s ih => simp [advance_down, ih]

theorem line_after (p : Position) (s : List Char) :
    (p.after s).line = p.line + s.count '\n' := by
  induction s generalizing p with
  | nil => rfl
  | cons c s ih =>
    by_cases hc : c = '\n'
    · simp [ih, advance, hc, Nat.add_assoc, Nat.add_comm 1]
    · simp [ih, advance, hc]

end Position

def Token.down (lines : Nat) (t : Token) : Token := { t with position := t.position.down lines }

def Lexeme.Fault.down (lines : Nat) (fault : Lexeme.Fault) : Lexeme.Fault :=
  { fault with position := fault.position.down lines }

theorem Lexeme.token?_down (lines : Nat) (p : Position) (l : Lexeme) :
    l.token? (p.down lines) = (l.token? p).map (Token.down lines) := by
  cases l <;> rfl

namespace Token.Sequence

open Lexeme

variable {p : Position} {s t : List Char} {seq : Token.Sequence}

def down (lines : Nat) (seq : Token.Sequence) : Token.Sequence :=
  ⟨seq.tokens.map (Token.down lines), seq.finish.down lines⟩

theorem toList_down (lines : Nat) (seq : Token.Sequence) :
    (seq.down lines).toList = seq.toList.map (Token.down lines) := by
  simp [toList, down, ending, Token.down, endOfFile]

theorem toList_prepend (ts : List Token) (seq : Token.Sequence) :
    (seq.prepend ts).toList = ts ++ seq.toList := by
  simp [toList, prepend, ending]

theorem push_down (lines : Nat) (p : Position) (l : Lexeme) (seq : Token.Sequence) :
    (seq.down lines).push (p.down lines) l = (seq.push p l).down lines := by
  simp [push, down, token?_down, Option.toList_map]

/-- A text is read further down as it is read further up. -/
theorem read_down (lines : Nat) (p : Position) (s : List Char) :
    read (p.down lines) s = ((read p s).map (down lines)).mapError (Fault.down lines) := by
  fun_induction read p s with
  | case1 p => simp [read, Except.map, Except.mapError, down]
  | case2 p c rest refusal hrefused =>
    rw [read_of_error hrefused, Position.after_down]
    rfl
  | case3 p c rest l behind hfirst ih =>
    rw [read_of_ok hfirst, Position.after_down, ih]
    cases read (p.after l.spelling) behind with
    | error fault => rfl
    | ok seq => exact congrArg Except.ok (push_down lines p l seq)

/-- Behind a text that has tokens and a newline, reading goes on at the start of the next line. -/
theorem read_append_newline (h : read p s = .ok seq) (t : List Char) :
    read p (s ++ '\n' :: t) = (read ⟨seq.finish.line + 1, 1⟩ t).map (prepend seq.tokens) := by
  obtain ⟨ls, hrow, rfl, rfl⟩ := read_eq_ok_iff.mp h
  -- The newline is a lexeme of its own, whatever stands behind it.
  have hnewline : first '\n' t = .ok (.layout ['\n'], t) := rfl
  rw [read_append (hrow.isRowBefore_newline t), read_of_ok hnewline, ← finish_sequence]
  change ((read ⟨(sequence p ls).finish.line + 1, 1⟩ t).map _).map _ = _
  cases read ⟨(sequence p ls).finish.line + 1, 1⟩ t <;> rfl

/-- What a source and another one below it are read as. -/
theorem ofSource_append_line {s : String} {seq : Token.Sequence} (hs : ofSource s = .ok seq)
    (t : String) :
    ofSource (s ++ "\n" ++ t) =
      (((ofSource t).map (down (s.toList.count '\n' + 1))).mapError
        (Fault.down (s.toList.count '\n' + 1))).map (prepend seq.tokens) := by
  have htext : (s ++ "\n" ++ t).toList = s.toList ++ '\n' :: t.toList := by simp
  have hline : (⟨seq.finish.line + 1, 1⟩ : Position) =
      Position.start.down (s.toList.count '\n' + 1) := by
    obtain ⟨ls, -, hls, rfl⟩ := ofSource_eq_ok_iff.mp hs
    rw [finish_sequence, hls, Position.line_after]
    rfl
  rw [ofSource, htext, read_append_newline hs, hline, read_down]
  rfl

/-- Behind a source and a newline, another source is read as it is on its own, further down. -/
theorem ofSource_append_newline {s : String} {seq : Token.Sequence} (hs : ofSource s = .ok seq)
    (t : String) :
    ((∃ whole, ofSource (s ++ "\n" ++ t) = .ok whole) ↔ ∃ rest, ofSource t = .ok rest) ∧
    (∀ rest, ofSource t = .ok rest → ∃ whole, ofSource (s ++ "\n" ++ t) = .ok whole ∧
      whole.toList = seq.tokens ++ rest.toList.map (Token.down (s.toList.count '\n' + 1))) ∧
    ∀ fault, ofSource t = .error fault →
      ofSource (s ++ "\n" ++ t) = .error (fault.down (s.toList.count '\n' + 1)) := by
  rw [ofSource_append_line hs]
  cases ofSource t with
  | error fault => simp [Except.map, Except.mapError]
  | ok rest => simp [Except.map, Except.mapError, toList_prepend, toList_down]

/-- A line that ends in a comment, in front of one that can be read and of one that cannot. -/
theorem ofSource_append_newline_comment : ∃ seq rest whole,
    ofSource "a //b" = .ok seq ∧ ofSource " c" = .ok rest ∧
    ofSource ("a //b" ++ "\n" ++ " c") = .ok whole ∧
    whole.toList = seq.tokens ++ rest.toList.map (Token.down 1) ∧
    whole.toList.map Token.position = [⟨1, 1⟩, ⟨2, 2⟩, ⟨2, 3⟩] ∧
    ofSource ("a //b" ++ "\n" ++ " $") = .error ⟨.unexpected '$', ⟨2, 2⟩⟩ := by
  obtain ⟨seq, hseq, htokens⟩ : ∃ seq, ofSource "a //b" = .ok seq ∧
      seq.tokens.map Token.position = [⟨1, 1⟩] := map_eq_ok.mp (by decide +kernel)
  obtain ⟨rest, hrest, hpositions⟩ : ∃ rest, ofSource " c" = .ok rest ∧
      rest.toList.map (fun t => t.position.down 1) = [⟨2, 2⟩, ⟨2, 3⟩] :=
    map_eq_ok.mp (by decide +kernel)
  obtain ⟨-, hok, -⟩ := ofSource_append_newline hseq " c"
  obtain ⟨whole, hwhole, hlist⟩ := hok rest hrest
  refine ⟨seq, rest, whole, hseq, hrest, hwhole, hlist, ?_, ?_⟩
  · rw [hlist, List.map_append, htokens, List.map_map]
    exact congrArg (⟨1, 1⟩ :: ·) hpositions
  · exact (ofSource_append_newline hseq " $").2.2 ⟨.unexpected '$', ⟨1, 2⟩⟩ (by decide +kernel)

end Token.Sequence

-- ---------------------------------------------------------------------------
-- Written tokens
-- ---------------------------------------------------------------------------

/-- The spellings of tokens, with a blank between any two. -/
def Token.written (ts : List Token) : String :=
  String.intercalate " " (ts.map fun t => String.ofList t.spelling)

namespace Lexeme

/-- The lexemes of written tokens. -/
def spaced (ts : List Token) : List Lexeme := (ts.map Token.lexeme).intersperse (.layout [' '])

theorem spaced_cons_cons (t u : Token) (ts : List Token) :
    spaced (t :: u :: ts) = t.lexeme :: .layout [' '] :: spaced (u :: ts) := rfl

theorem text_spaced (ts : List Token) :
    text (spaced ts) = [' '].intercalate (ts.map Token.spelling) := by
  induction ts with
  | nil => rfl
  | cons t ts ih =>
    cases ts with
    | nil => simp [spaced, Token.lexeme, spelling, Token.spelling]
    | cons u ts => simpa [spaced_cons_cons, Token.lexeme, spelling, Token.spelling] using ih

theorem toList_written (ts : List Token) : (Token.written ts).toList = text (spaced ts) := by
  rw [text_spaced, Token.written, String.toList_intercalate, List.map_map]
  simp [Function.comp_def]

theorem content_spaced (ts : List Token) :
    (spaced ts).filterMap content? = ts.map Token.content := by
  induction ts with
  | nil => rfl
  | cons t ts ih =>
    have hcontent : content? t.lexeme = some t.content := by
      simp [Token.lexeme, content?, Token.content]
    cases ts with
    | nil => simp [spaced, hcontent]
    | cons u ts =>
      rw [spaced_cons_cons, List.filterMap_cons_some hcontent, List.filterMap_cons_none rfl, ih]
      rfl

/-- A token is read again from its spelling, where nothing or a blank stands behind it. -/
theorem isRow_spaced {ts : List Token} (h : ∀ t ∈ ts, t.lexeme.Formed) : IsRow (spaced ts) := by
  induction ts with
  | nil => trivial
  | cons t ts ih =>
    obtain ⟨ht, hts⟩ := List.forall_mem_cons.mp h
    cases ts with
    | nil => exact ⟨ht, fits_nil _, trivial⟩
    | cons u ts =>
      have hblank : t.lexeme.Fits (text (.layout [' '] :: spaced (u :: ts))) :=
        (fits_nil _).append_layout rfl (.inr fun _ he => by cases he)
      exact ⟨ht, hblank, .blank rfl, fits_blank, ih hts⟩

end Lexeme

namespace Token.Sequence

open Lexeme

/-- The tokens of a source, written with blanks between them, are read again. -/
theorem ofSource_written {source : String} {seq : Token.Sequence} (h : ofSource source = .ok seq) :
    ∃ again, ofSource (written seq.tokens) = .ok again ∧
      again.toList.map Token.content = seq.toList.map Token.content := by
  have hspaced : IsRow (spaced seq.tokens) := isRow_spaced fun _ => formed_of_mem_tokens h
  refine ⟨sequence .start (spaced seq.tokens),
    ofSource_eq_ok_iff.mpr ⟨_, hspaced, (toList_written _).symm, rfl⟩, ?_⟩
  simp [toList, ending, Token.content, endOfFile, content_sequence, content_spaced]

/-- Numbers, an escape, and a slash that stands before a comment. -/
theorem ofSource_written_slash : ∃ seq again,
    ofSource "import A from\"b\\n\";x=0x0_1/1.5/ //c" = .ok seq ∧
    written seq.tokens = "import A from \"b\\n\" ; x = 0x0_1 / 1.5 /" ∧
    ofSource "import A from \"b\\n\" ; x = 0x0_1 / 1.5 /" = .ok again ∧
    again.toList.map Token.content = seq.toList.map Token.content := by
  obtain ⟨seq, hseq, hwritten⟩ : ∃ seq,
      ofSource "import A from\"b\\n\";x=0x0_1/1.5/ //c" = .ok seq ∧
      written seq.tokens = "import A from \"b\\n\" ; x = 0x0_1 / 1.5 /" :=
    map_eq_ok.mp (by decide +kernel)
  obtain ⟨again, hagain, hcontent⟩ := ofSource_written hseq
  rw [hwritten] at hagain
  exact ⟨seq, again, hseq, hwritten, hagain, hcontent⟩

end Token.Sequence

end ContractLinker
