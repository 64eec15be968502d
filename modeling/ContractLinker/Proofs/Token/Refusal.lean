import ContractLinker.Proofs.Token.Order

/-!
# What a source is refused for

`ofSource_eq_error`: a source that has no tokens is a row of lexemes, which would have tokens by
themselves, and behind it the beginning of a lexeme that goes wrong. The failure names the position
of one character there, and `Blames` says, code by code, which character that is and what stands
around it.
-/

namespace ContractLinker.Lexeme

/-- What stands behind a backslash that begins no escape. -/
inductive BadEscape : Code → List Char → Prop
  | last : BadEscape ⟨.lexical, 10⟩ []
  | unknown {c : Char} {s : List Char} : isSimpleEscape c = false → c ≠ 'u' →
      BadEscape ⟨.lexical, 20⟩ (c :: s)
  | unicode {s : List Char} : (∀ e behind, EscapeText e → 'u' :: s ≠ e ++ behind) →
      BadEscape ⟨.lexical, 21⟩ ('u' :: s)

/-- `Blames code inside c behind`: a failure with this code complains about `c`, with `inside`
between the start of the lexeme and `c`, and `behind` up to the end of the source. -/
inductive Blames : Code → List Char → Char → List Char → Prop
  /-- The slash of a mark that opens a comment which nothing closes. -/
  | openComment {s : List Char} : (∀ body behind, CommentText body → s ≠ body ++ behind) →
      Blames ⟨.lexical, 70⟩ [] '/' ('*' :: s)
  /-- The opening quote of a literal that the line or the source ends. -/
  | openString {body rest : List Char} : BodyText body → (∀ c ∈ rest.head?, c = '\n') →
      Blames ⟨.lexical, 10⟩ [] '"' (body ++ rest)
  /-- A backslash within a literal. -/
  | escape {code : Code} {body behind : List Char} : BodyText body → BadEscape code behind →
      Blames code ('"' :: body) '\\' behind
  /-- The zero in front of a radix mark that no digit follows. -/
  | missingDigits {mark : Char} {p : Char → Bool} {s : List Char} : radixDigits? mark = some p →
      Stops p (s.dropWhile (· = '_')) → Blames ⟨.lexical, 30⟩ [] '0' (mark :: s)
  /-- A letter or a numeral right behind a number, with which no number goes on. -/
  | strayAfterNumber {kind : Token.Kind} {number rest : List Char} {c : Char} :
      NumberText kind number → (∀ kind' more, ¬ NumberText kind' (number ++ c :: more)) →
      (Text.isLetter c || Text.isNumeric c) = true → Blames ⟨.lexical, 31⟩ number c rest
  /-- A character with which no lexeme begins. -/
  | unexpected {c : Char} {rest : List Char} :
      (∀ l : Lexeme, l.Formed → ∀ s, l.spelling ≠ c :: s) → Blames ⟨.lexical, 40⟩ [] c rest

/-- A refusal of a text complains about a character of it. -/
def Refusal.Stands (s : List Char) (r : Refusal) : Prop :=
  ∃ c behind, s = r.before ++ c :: behind ∧ Blames r.cause.code r.before c behind

-- ---------------------------------------------------------------------------
-- String literals
-- ---------------------------------------------------------------------------

theorem badEscape_of_error {s : List Char} {cause : Cause} (h : escape s = .error cause) :
    BadEscape cause.code s := by
  have hunread : ∀ e behind, EscapeText e → s ≠ e ++ behind := by
    intro e behind he hs
    rw [escape_eq_ok_iff.mpr ⟨he, hs⟩] at h
    cases h
  unfold escape at h
  split at h
  · cases h
    exact .last
  · split at h
    · dsimp only at h
      split at h
      · cases h
      · cases h
        exact .unicode hunread
    · cases h
      exact .unicode hunread
  · cases h
    exact .unicode hunread
  · next hu =>
    split at h
    · cases h
    · next hsimple =>
      cases h
      exact .unknown (by simpa using hsimple) hu

/-- Where the reader of a literal gives up, in the text behind the opening quote. -/
def Unread.Stands (s : List Char) : Unread → Prop
  | .unclosed => ∃ body rest, s = body ++ rest ∧ BodyText body ∧ ∀ c ∈ rest.head?, c = '\n'
  | .escape cause before =>
    ∃ behind, s = before ++ '\\' :: behind ∧ BodyText before ∧ BadEscape cause.code behind

theorem Unread.Stands.append {front s : List Char} {e : Unread}
    (hfront : ∀ body, BodyText body → BodyText (front ++ body)) (h : e.Stands s) :
    (e.behind front).Stands (front ++ s) := by
  cases e with
  | unclosed =>
    obtain ⟨body, rest, rfl, hbody, hrest⟩ := h
    exact ⟨front ++ body, rest, by simp, hfront body hbody, hrest⟩
  | escape cause before =>
    obtain ⟨behind, rfl, hbody, hbad⟩ := h
    exact ⟨behind, by simp, hfront before hbody, hbad⟩

theorem continued_eq_error {s : List Char} {r : Except Unread (List Char × List Char)} {e : Unread}
    (h : continued s r = .error e) : ∃ e', r = .error e' ∧ e = e'.behind s := by
  unfold continued at h
  split at h
  · cases h
  · next e' => exact ⟨e', rfl, (Except.error.inj h).symm⟩

theorem stands_of_error {s : List Char} {e : Unread} (h : literalBody s = .error e) :
    e.Stands s := by
  fun_induction literalBody s generalizing e with
  | case1 => cases h; exact ⟨[], [], rfl, .nil, by simp⟩
  | case2 rest => cases h; exact ⟨[], '\n' :: rest, rfl, .nil, by simp⟩
  | case3 => cases h
  | case4 rest cause hescape =>
    cases h
    exact ⟨rest, rfl, .nil, badEscape_of_error hescape⟩
  | case5 rest escaped behind hescape _ _ ih =>
    obtain ⟨e', he', rfl⟩ := continued_eq_error h
    obtain ⟨htext, rfl⟩ := escape_eq_ok_iff.mp hescape
    exact (ih he').append fun body hbody => .escape htext hbody
  | case6 c rest hnewline hquote hbackslash ih =>
    obtain ⟨e', he', rfl⟩ := continued_eq_error h
    exact (ih he').append fun body hbody => .char hquote hbackslash hnewline hbody

theorem stands_of_literal {rest : List Char} {r : Refusal} (h : literal rest = .error r) :
    r.Stands ('"' :: rest) := by
  unfold literal at h
  split at h
  · cases h
  · next herror =>
    cases h
    obtain ⟨body, tail, rfl, hbody, htail⟩ := stands_of_error herror
    exact ⟨'"', body ++ tail, rfl, .openString hbody htail⟩
  · next herror =>
    cases h
    obtain ⟨behind, rfl, hbody, hbad⟩ := stands_of_error herror
    exact ⟨'\\', behind, rfl, .escape hbody hbad⟩

-- ---------------------------------------------------------------------------
-- Numbers
-- ---------------------------------------------------------------------------

theorem numberEnd_eq_error {kind : Token.Kind} {text behind : List Char} {r : Refusal}
    (h : numberEnd kind text behind = .error r) :
    ∃ c rest, behind = c :: rest ∧ isWordPart c = true ∧ r = ⟨.strayAfterNumber c, text⟩ := by
  unfold numberEnd at h
  split at h
  · cases h
  · next c rest =>
    split at h
    · next hc => exact ⟨c, rest, rfl, hc, (Except.error.inj h).symm⟩
    · cases h

/-- A number is of digits, underscores and points alone, or it has a radix mark behind a zero. -/
theorem NumberText.parts {kind : Token.Kind} {s : List Char} (h : NumberText kind s) :
    (∀ c ∈ s, isNumberPart c = true ∨ c = '.') ∨
      ∃ mark p t, radixDigits? mark = some p ∧ s = '0' :: mark :: t ∧
        ∀ c ∈ t, (p c || c = '_') = true := by
  have hdigit : ∀ {c}, Text.isDigit c = true → isNumberPart c = true := fun hc => by
    simp [isNumberPart, hc]
  cases h with
  | whole hc hs =>
    exact .inl (List.forall_mem_cons.mpr ⟨.inl (hdigit hc), fun d hd => .inl (hs d hd)⟩)
  | fraction hc hs hd ht =>
    refine .inl fun e he => ?_
    rcases List.mem_append.mp he with he | he
    · rcases List.mem_cons.mp he with rfl | he
      · exact .inl (hdigit hc)
      · exact .inl (hs e he)
    · rcases List.mem_cons.mp he with rfl | he
      · exact .inr rfl
      · rcases List.mem_cons.mp he with rfl | he
        · exact .inl (hdigit hd)
        · exact .inl (ht e he)
  | radix hp hs _ => exact .inr ⟨_, _, _, hp, rfl, hs⟩

theorem ne_point_of_isWordPart {c : Char} (h : isWordPart c = true) : c ≠ '.' := by
  rintro rfl
  have hpoint : isWordPart '.' = false := by decide +kernel
  rw [hpoint] at h
  cases h

/-- What stops a number is no underscore, since a number takes these. -/
theorem stands_of_numberEnd {kind kind' : Token.Kind} {text behind : List Char} {r : Refusal}
    (h : numberEnd kind text behind = .error r) (ht : NumberText kind' text)
    (hstop : Stops (· = '_') behind)
    (hlongest : ∀ c rest, behind = c :: rest → isWordPart c = true →
      ∀ kind more, ¬ NumberText kind (text ++ c :: more)) : r.Stands (text ++ behind) := by
  obtain ⟨c, rest, rfl, hpart, rfl⟩ := numberEnd_eq_error h
  have hc : decide (c = '_') = false := hstop c rfl
  refine ⟨c, rest, rfl, .strayAfterNumber ht (hlongest c rest rfl hpart) ?_⟩
  simpa [isWordPart, hc] using hpart

theorem stops_decimalPart (rest : List Char) : Stops isNumberPart (decimalPart rest).2 := by
  unfold decimalPart
  split
  · next d more hd =>
    split
    · exact stops_dropWhile _ _
    · simpa only [hd] using stops_dropWhile isNumberPart rest
  · exact stops_dropWhile _ _

/-- No number is longer than the one that is read where no radix mark stands. -/
theorem not_numberText_decimalPart {c d : Char} {rest behind : List Char}
    (hmark : ∀ mark more, c = '0' → rest = mark :: more → radixDigits? mark = none)
    (hbehind : (decimalPart rest).2 = d :: behind) (hd : isWordPart d = true) (kind : Token.Kind)
    (more : List Char) : ¬ NumberText kind (c :: (decimalPart rest).1 ++ d :: more) := by
  intro h
  have happend := decimalPart_append rest
  rw [hbehind] at happend
  rcases h.parts with hparts | ⟨mark, p, t, hp, he, -⟩
  · have hstop : isNumberPart d = false := stops_decimalPart rest d (by simp [hbehind])
    rcases hparts d (by simp) with hpart | hpoint
    · rw [hstop] at hpart
      cases hpart
    · exact ne_point_of_isWordPart hd hpoint
  · rw [List.cons_append, List.cons.injEq] at he
    obtain ⟨rfl, he⟩ := he
    -- The mark would stand at the front of what was read, or be the character that stopped it.
    have hfront : ∃ tail, rest = mark :: tail := by
      generalize (decimalPart rest).1 = s at happend he
      cases s with
      | nil => exact ⟨behind, by rw [← happend, List.nil_append, (List.cons.inj he).1]⟩
      | cons e s => exact ⟨s ++ d :: behind, by rw [← happend, ← (List.cons.inj he).1]; rfl⟩
    obtain ⟨tail, rfl⟩ := hfront
    cases hp.symm.trans (hmark mark tail rfl rfl)

theorem stands_of_decimal {c : Char} {rest : List Char} {r : Refusal}
    (hc : Text.isDigit c = true)
    (hmark : ∀ mark more, c = '0' → rest = mark :: more → radixDigits? mark = none)
    (h : decimal c rest = .error r) : r.Stands (c :: rest) := by
  have hstop : Stops (· = '_') (decimalPart rest).2 :=
    (stops_decimalPart rest).mono fun d hd => by simp [isNumberPart, of_decide_eq_true hd]
  have hstands := stands_of_numberEnd h (numberText_decimalPart hc rest) hstop
    fun d behind hbehind hd => not_numberText_decimalPart hmark hbehind hd
  rwa [List.cons_append, decimalPart_append] at hstands

theorem not_numberText_radix {mark d : Char} {p : Char → Bool} {body : List Char}
    (hp : radixDigits? mark = some p) (hd : (p d || d = '_') = false) (kind : Token.Kind)
    (more : List Char) : ¬ NumberText kind ('0' :: mark :: body ++ d :: more) := by
  intro h
  obtain ⟨hpart, hword⟩ := radixDigits?_mark hp
  rcases h.parts with hparts | ⟨mark', p', t, hp', he, hdigits⟩
  · rcases hparts mark (by simp) with hmark | hpoint
    · rw [hpart] at hmark
      cases hmark
    · exact ne_point_of_isWordPart hword hpoint
  · obtain ⟨rfl, rfl⟩ := List.cons.inj (List.cons.inj he).2
    obtain rfl := Option.some.inj (hp.symm.trans hp')
    rw [hdigits d (by simp)] at hd
    cases hd

theorem stands_of_radixNumber {mark : Char} {p : Char → Bool} {rest : List Char} {r : Refusal}
    (hp : radixDigits? mark = some p) (h : radixNumber mark p rest = .error r) :
    r.Stands ('0' :: mark :: rest) := by
  have hparts : ∀ d ∈ rest.takeWhile fun c => p c || c = '_', (p d || d = '_') = true :=
    fun d hd => List.mem_takeWhile_imp (p := fun c => p c || c = '_') hd
  have hbehind := stops_dropWhile (fun c => p c || c = '_') rest
  have hnext : Stops (· = '_') (rest.dropWhile fun c => p c || c = '_') :=
    hbehind.mono fun d hd => by simp [of_decide_eq_true hd]
  have hsplit := List.takeWhile_append_dropWhile (p := fun c => p c || c = '_') (l := rest)
  unfold radixNumber at h
  dsimp only at h
  split at h
  · next hany =>
    have hstands := stands_of_numberEnd h (.radix hp hparts hany) hnext fun d more he _ =>
      not_numberText_radix hp (hbehind d (by simp [he]))
    rwa [List.cons_append, List.cons_append, hsplit] at hstands
  · next hnone =>
    cases h
    refine ⟨'0', mark :: rest, rfl, .missingDigits hp ?_⟩
    -- Nothing but underscores was read as a part, and what stands behind them is no part.
    have hunder : ∀ d ∈ rest.takeWhile fun c => p c || c = '_', decide (d = '_') = true := by
      simpa using hnone
    rw [← hsplit, dropWhile_of_stops hunder hnext]
    exact hbehind.mono fun d hd => by simp [hd]

theorem stands_of_number {c : Char} {rest : List Char} {r : Refusal}
    (hc : Text.isDigit c = true) (h : number c rest = .error r) : r.Stands (c :: rest) := by
  rcases number_cases c rest with ⟨mark, p, more, rfl, rfl, hp⟩ | hmark
  · rw [number_eq_radix hp] at h
    exact stands_of_radixNumber hp h
  · rw [number_eq_decimal hmark] at h
    exact stands_of_decimal hc hmark h

-- ---------------------------------------------------------------------------
-- The first lexeme
-- ---------------------------------------------------------------------------

theorem stands_of_slash {rest : List Char} {r : Refusal} (h : slash rest = .error r) :
    r.Stands ('/' :: rest) := by
  unfold slash at h
  split at h
  · cases h
  · next s =>
    split at h
    · cases h
    · next hnone =>
      cases h
      refine ⟨'/', '*' :: s, rfl, .openComment fun body behind hbody hs => ?_⟩
      rw [commentBody_eq_some_iff.mpr ⟨hbody, hs⟩] at hnone
      cases hnone
  · cases h

theorem spelling_ne_of_error {c : Char} (h : ∀ rest, ∃ r, first c rest = .error r) {l : Lexeme}
    (hl : l.Formed) (s : List Char) : l.spelling ≠ c :: s := by
  intro hs
  have hread : first c s = .ok (l, []) :=
    first_eq_ok_iff.mpr ⟨hl, fits_nil l, by rw [List.append_nil, hs]⟩
  obtain ⟨r, hr⟩ := h s
  rw [hread] at hr
  cases hr

theorem stands_of_first {c : Char} {rest : List Char} {r : Refusal}
    (h : first c rest = .error r) : r.Stands (c :: rest) := by
  unfold first at h
  split at h
  · cases h
  split at h
  · next hc => subst hc; exact stands_of_slash h
  split at h
  · cases h
  split at h
  · next hc => exact stands_of_number hc h
  split at h
  · next hc => subst hc; exact stands_of_literal h
  split at h
  · cases h
  · next hlayout hslash hstart hdigit hquote _ hsymbol =>
    cases h
    have hrefused : ∀ rest, ∃ r, first c rest = .error r := by
      intro rest
      refine ⟨⟨.unexpected c, []⟩, ?_⟩
      simp [first, hlayout, hslash, hstart, hdigit, hquote, hsymbol]
    exact ⟨c, rest, rfl, .unexpected fun l hl => spelling_ne_of_error hrefused hl⟩

end ContractLinker.Lexeme

namespace ContractLinker.Token.Sequence

open Lexeme

/-- Behind a row of lexemes a source is read from where the row ends. -/
theorem ofSource_row {ls : List Lexeme} {s : List Char} (h : IsRowBefore s ls) :
    ofSource (String.ofList (Lexeme.text ls ++ s)) =
      (read (.behind (Lexeme.text ls)) s).map (prepend (sequence .start ls).tokens) := by
  have hstart : Position.start.after (Lexeme.text ls) = .behind (Lexeme.text ls) :=
    Position.after_behind [] _
  rw [ofSource, String.toList_ofList, read_append h, hstart]

/-- A source without tokens is a row and a text that has no first lexeme. -/
theorem exists_refusal {source : String} {fault : Fault} (h : ofSource source = .error fault) :
    ∃ ls c more refusal, source.toList = Lexeme.text ls ++ c :: more ∧ IsRowBefore (c :: more) ls ∧
      first c more = .error refusal ∧
      fault = ⟨refusal.cause, .behind (Lexeme.text ls ++ refusal.before)⟩ := by
  obtain ⟨ls, rest, htext, hrow, hrest⟩ := exists_isRowBefore source.toList
  have hread := ofSource_row hrow
  rw [htext, String.ofList_toList, h] at hread
  obtain rfl | ⟨c, more, refusal, rfl, hrefused⟩ := hrest
  · simp [read, Except.map] at hread
  · rw [read_of_error hrefused, Position.after_behind] at hread
    exact ⟨ls, c, more, refusal, htext.symm, hrow, hrefused, Except.error.inj hread⟩

/-- A source without tokens is refused for a character of it: lexemes stand in front, which have
tokens by themselves, then what `Blames` allows for the code, and the position is the one of the
character. -/
theorem ofSource_eq_error {source : String} {fault : Fault} (h : ofSource source = .error fault) :
    ∃ ls inside c behind, source.toList = Lexeme.text ls ++ (inside ++ c :: behind) ∧
      IsRowBefore (inside ++ c :: behind) ls ∧
      (∃ seq, ofSource (String.ofList (Lexeme.text ls)) = .ok seq) ∧
      fault.position = .behind (Lexeme.text ls ++ inside) ∧
      Blames fault.cause.code inside c behind := by
  obtain ⟨ls, d, more, refusal, htext, hrow, hrefused, rfl⟩ := exists_refusal h
  obtain ⟨c, behind, he, hblames⟩ := stands_of_first hrefused
  rw [he] at htext hrow
  have hfront : ofSource (String.ofList (Lexeme.text ls)) = .ok (sequence .start ls) :=
    ofSource_eq_ok_iff.mpr ⟨ls, hrow.isRow, by simp, rfl⟩
  exact ⟨ls, refusal.before, c, behind, htext, hrow, ⟨_, hfront⟩, rfl, hblames⟩

/-- A comment, and in the line behind it a literal with an escape that is none. -/
theorem ofSource_eq_error_call :
    ofSource "//a\n f(\"b\\q\")" = .error ⟨.unknownEscape 'q', ⟨2, 6⟩⟩ ∧
    ∃ front behind, "//a\n f(\"b\\q\")".toList = front ++ '\\' :: behind ∧
      Position.behind front = ⟨2, 6⟩ ∧ BadEscape ⟨.lexical, 20⟩ behind := by
  have hrefused : ofSource "//a\n f(\"b\\q\")" = .error ⟨.unknownEscape 'q', ⟨2, 6⟩⟩ := by
    decide +kernel
  obtain ⟨ls, inside, c, behind, htext, -, -, hposition, hblames⟩ := ofSource_eq_error hrefused
  have hblames : Blames ⟨.lexical, 20⟩ inside c behind := hblames
  cases hblames with
  | @escape _ body _ _ hbad =>
    exact ⟨hrefused, Lexeme.text ls ++ '"' :: body, behind, by simpa using htext, hposition.symm,
      hbad⟩

end ContractLinker.Token.Sequence
