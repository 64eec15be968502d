import ContractLinker.Proofs.Token.Refusal

/-!
# String literals

`ofSource_literal`: what a quote begins where a token can begin. The body of a literal goes on as
long as characters and escapes go on, `BodyText`, and what stands where it stops settles the rest:
a quote closes the literal, and anything else breaks it off, for a reason that is there to be read.
-/

namespace ContractLinker.Lexeme

/-- What stands behind an opening quote is a body, the closing quote and more. -/
def Closed (rest body behind : List Char) : Prop := BodyText body ∧ rest = body ++ '"' :: behind

/-- A body stops in front of a text that does not begin with a quote: the code of the refusal, and
what stands between the start of the literal and the character that is complained about. -/
inductive BreaksOff (body : List Char) : List Char → Code → List Char → Prop
  /-- The line or the source ends, for which the opening quote has to answer. -/
  | unclosed {tail : List Char} : (∀ c ∈ tail.head?, c = '\n') →
      BreaksOff body tail ⟨.lexical, 10⟩ []
  /-- A backslash begins no escape. -/
  | escape {code : Code} {behind : List Char} : BadEscape code behind →
      BreaksOff body ('\\' :: behind) code ('"' :: body)

/-- The longest body that what stands behind an opening quote begins with breaks off. -/
def Broken (rest : List Char) (code : Code) (before : List Char) : Prop :=
  ∃ body tail, BodyText body ∧ rest = body ++ tail ∧
    (∀ s, BodyText s → s <+: rest → s <+: body) ∧ BreaksOff body tail code before

variable {s e body tail rest behind before : List Char} {code code' : Code}

-- ---------------------------------------------------------------------------
-- Escapes
-- ---------------------------------------------------------------------------

theorem EscapeText.ne_nil (h : EscapeText e) : e ≠ [] := by
  cases h <;> simp

theorem BadEscape.not_escapeText (h : BadEscape code s) (he : EscapeText e) : s ≠ e ++ behind := by
  rintro rfl
  generalize hs : e ++ behind = s at h
  cases h with
  | last => exact he.ne_nil (List.append_eq_nil_iff.mp hs).1
  | unknown hsimple hu =>
    cases he with
    | simple hc =>
      cases hs
      simp [hsimple] at hc
    | unicode =>
      cases hs
      exact hu rfl
  | unicode hnone => exact hnone e behind he hs.symm

theorem BadEscape.unique (h : BadEscape code s) (h' : BadEscape code' s) : code = code' := by
  cases h with
  | last => cases h'; rfl
  | unknown _ hu =>
    cases h' with
    | unknown => rfl
    | unicode => exact absurd rfl hu
  | unicode =>
    cases h' with
    | unknown _ hu => exact absurd rfl hu
    | unicode => rfl

theorem BadEscape.exists_cause (h : BadEscape code s) :
    ∃ cause, escape s = .error cause ∧ cause.code = code := by
  cases hread : escape s with
  | ok r =>
    obtain ⟨he, hs⟩ := escape_eq_ok_iff.mp hread
    exact absurd hs (h.not_escapeText he)
  | error cause => exact ⟨cause, rfl, (badEscape_of_error hread).unique h⟩

-- ---------------------------------------------------------------------------
-- Bodies
-- ---------------------------------------------------------------------------

theorem literalBody_escape_error {cause : Cause} (h : escape rest = .error cause) :
    literalBody ('\\' :: rest) = .error (.escape cause []) := by
  rw [literalBody, if_neg (by decide), if_neg (by decide), if_pos rfl]
  split
  · next herror =>
    rw [h] at herror
    cases herror
    rfl
  · next hok =>
    rw [h] at hok
    cases hok

/-- What goes on a body to a body is a body. -/
theorem BodyText.of_append (h : BodyText body) (hs : BodyText (body ++ s)) : BodyText s := by
  have hclosed : literalBody (body ++ (s ++ ['"'])) = .ok (body ++ s, []) :=
    literalBody_eq_ok_iff.mpr ⟨hs, by simp⟩
  rw [literalBody_append h] at hclosed
  obtain ⟨t, ht, he⟩ := continued_eq_ok hclosed
  obtain rfl := List.append_cancel_left he
  exact (literalBody_eq_ok_iff.mp ht).1

theorem Closed.unique {body' behind' : List Char} (h : Closed rest body behind)
    (h' : Closed rest body' behind') : body = body' ∧ behind = behind' := by
  have hread := (literalBody_eq_ok_iff.mpr h).symm.trans (literalBody_eq_ok_iff.mpr h')
  cases hread
  exact ⟨rfl, rfl⟩

-- ---------------------------------------------------------------------------
-- Where a body stops
-- ---------------------------------------------------------------------------

/-- Where a literal breaks off no body goes on. -/
theorem BreaksOff.eq_nil (h : BreaksOff body tail code before) (hs : BodyText s)
    (hfront : s <+: tail) : s = [] := by
  obtain ⟨more, rfl⟩ := hfront
  generalize htail : s ++ more = tail at h
  cases hs with
  | nil => rfl
  | char hquote hbackslash hnewline =>
    cases h with
    | unclosed hline =>
      subst htail
      exact absurd (hline _ rfl) hnewline
    | escape =>
      cases htail
      exact absurd rfl hbackslash
  | @escape e s he _ =>
    cases h with
    | unclosed hline =>
      subst htail
      exact absurd (hline _ rfl) (by decide)
    | escape hbad =>
      cases htail
      exact absurd (List.append_assoc e s more) (hbad.not_escapeText he)

theorem BreaksOff.longest (h : BreaksOff body tail code before) (hbody : BodyText body)
    (hs : BodyText s) (hfront : s <+: body ++ tail) : s <+: body := by
  rcases List.prefix_or_prefix_of_prefix hfront (List.prefix_append body tail) with hle | ⟨u, rfl⟩
  · exact hle
  · have hu : u <+: tail := (List.prefix_append_right_inj body).mp hfront
    obtain rfl := h.eq_nil (hbody.of_append hs) hu
    simp

theorem literal_of_breaksOff (hbody : BodyText body) (h : BreaksOff body tail code before) :
    ∃ cause, literal (body ++ tail) = .error ⟨cause, before⟩ ∧ cause.code = code := by
  rw [literal, literalBody_append hbody]
  cases h with
  | unclosed hline =>
    have hread : literalBody tail = .error .unclosed := by
      cases tail with
      | nil => simp [literalBody]
      | cons c tail =>
        obtain rfl : c = '\n' := hline c rfl
        simp [literalBody]
    exact ⟨.openString, by rw [hread]; rfl, rfl⟩
  | escape hbad =>
    obtain ⟨cause, hescape, hcode⟩ := hbad.exists_cause
    exact ⟨cause, by simp [literalBody_escape_error hescape, continued, Unread.behind], hcode⟩

theorem broken_of_literal {r : Refusal} (h : literal rest = .error r) :
    Broken rest r.cause.code r.before := by
  have hbroken : ∀ {body tail code before}, BodyText body → BreaksOff body tail code before →
      Broken (body ++ tail) code before := fun hbody hbreaks =>
    ⟨_, _, hbody, rfl, fun s => hbreaks.longest hbody, hbreaks⟩
  unfold literal at h
  split at h
  · cases h
  · next hread =>
    cases h
    obtain ⟨body, tail, rfl, hbody, hline⟩ := stands_of_error hread
    exact hbroken hbody (.unclosed hline)
  · next hread =>
    cases h
    obtain ⟨behind, rfl, hbody, hbad⟩ := stands_of_error hread
    exact hbroken hbody (.escape hbad)

-- ---------------------------------------------------------------------------
-- What a quote begins
-- ---------------------------------------------------------------------------

theorem first_quote_eq_ok_iff {l : Lexeme} : first '"' rest = .ok (l, behind) ↔
    ∃ body, l = .token .string body ∧ Closed rest body behind := by
  rw [first_quote]
  constructor
  · intro h
    unfold literal at h
    split at h
    · next hread =>
      cases h
      exact ⟨_, rfl, literalBody_eq_ok_iff.mp hread⟩
    · cases h
    · cases h
  · rintro ⟨body, rfl, hclosed⟩
    rw [literal, literalBody_eq_ok_iff.mpr hclosed]

theorem first_quote_eq_error_iff :
    (∃ r, first '"' rest = .error r ∧ r.cause.code = code ∧ r.before = before) ↔
      Broken rest code before := by
  rw [first_quote]
  constructor
  · rintro ⟨r, h, rfl, rfl⟩
    exact broken_of_literal h
  · rintro ⟨body, tail, hbody, rfl, -, hbreaks⟩
    obtain ⟨cause, h, hcode⟩ := literal_of_breaksOff hbody hbreaks
    exact ⟨_, h, hcode, rfl⟩

end ContractLinker.Lexeme

namespace ContractLinker.Token.Sequence

open Lexeme

/-- Where a token can begin, a quote begins a string token exactly if a body and a quote stand
behind it. These are then the only ones; the token has the body for its text, and reading goes on
behind the closing quote. Otherwise the source is refused for what stands where the body stops. -/
theorem ofSource_literal {ls : List Lexeme} {rest : List Char} (h : IsRowBefore ('"' :: rest) ls) :
    (∀ l behind, first '"' rest = .ok (l, behind) ↔
      ∃ body, l = .token .string body ∧ Closed rest body behind) ∧
    (∀ body behind body' behind', Closed rest body behind → Closed rest body' behind' →
      body = body' ∧ behind = behind') ∧
    (∀ body behind, Closed rest body behind →
      ofSource (String.ofList (Lexeme.text ls ++ '"' :: rest)) =
        (read (.behind (Lexeme.text ls ++ ('"' :: body ++ ['"']))) behind).map
          (prepend ((sequence .start ls).tokens ++
            [⟨.string, String.ofList body, .behind (Lexeme.text ls)⟩]))) ∧
    (∀ code before, Broken rest code before ↔
      ∃ r, first '"' rest = .error r ∧ r.cause.code = code ∧ r.before = before) ∧
    ∀ r, first '"' rest = .error r →
      ofSource (String.ofList (Lexeme.text ls ++ '"' :: rest)) =
        .error ⟨r.cause, .behind (Lexeme.text ls ++ r.before)⟩ := by
  refine ⟨fun l behind => first_quote_eq_ok_iff, fun _ _ _ _ => Closed.unique, ?_,
    fun code before => first_quote_eq_error_iff.symm, ?_⟩
  · intro body behind hclosed
    have hfirst : first '"' rest = .ok (.token .string body, behind) :=
      first_quote_eq_ok_iff.mpr ⟨body, rfl, hclosed⟩
    have hspelling : (Lexeme.token .string body).spelling = '"' :: body ++ ['"'] := rfl
    rw [ofSource_row h, read_of_ok hfirst, Position.after_behind, hspelling]
    cases read (.behind (Lexeme.text ls ++ ('"' :: body ++ ['"']))) behind with
    | error fault => rfl
    | ok seq => simp [Except.map, prepend, push, Lexeme.token?]
  · intro r hr
    rw [ofSource_row h, read_of_error hr, Position.after_behind]
    rfl

/-- A quote that is escaped, and a backslash that the source ends behind. -/
theorem ofSource_literal_escaped_quote :
    IsRowBefore "\"a\\\"b\";".toList [.token .importKeyword "import".toList, .layout [' ']] ∧
    Closed "a\\\"b\";".toList "a\\\"b".toList [';'] ∧
    ofSource "import \"a\\\"b\";" = .ok ⟨[⟨.importKeyword, "import", ⟨1, 1⟩⟩,
      ⟨.string, "a\\\"b", ⟨1, 8⟩⟩, ⟨.semicolon, ";", ⟨1, 14⟩⟩], ⟨1, 15⟩⟩ ∧
    IsRowBefore "\"a\\".toList [] ∧ Broken "a\\".toList ⟨.lexical, 10⟩ "\"a".toList ∧
    ofSource "\"a\\" = .error ⟨.openString, ⟨1, 3⟩⟩ := by
  have hrow : IsRowBefore "\"a\\\"b\";".toList
      [.token .importKeyword "import".toList, .layout [' ']] := by
    have hword : first 'i' "mport \"a\\\"b\";".toList =
        .ok (.token .importKeyword "import".toList, " \"a\\\"b\";".toList) := by decide +kernel
    have hblank : first ' ' "\"a\\\"b\";".toList =
        .ok (.layout [' '], "\"a\\\"b\";".toList) := by decide +kernel
    obtain ⟨hword, hwordFits, -⟩ := first_eq_ok_iff.mp hword
    obtain ⟨hblank, hblankFits, -⟩ := first_eq_ok_iff.mp hblank
    exact ⟨hword, hwordFits, hblank, hblankFits, trivial⟩
  have hclosed : Closed "a\\\"b\";".toList "a\\\"b".toList [';'] :=
    literalBody_eq_ok_iff.mp (by decide +kernel)
  have hrefused : first '"' "a\\".toList = .error ⟨.openString, "\"a".toList⟩ := by decide +kernel
  obtain ⟨-, -, hsource, -, -⟩ := ofSource_literal hrow
  have hempty : IsRowBefore "\"a\\".toList [] := trivial
  obtain ⟨-, -, -, hbroken, hfault⟩ := ofSource_literal hempty
  refine ⟨hrow, hclosed, ?_, hempty, (hbroken _ _).mpr ⟨_, hrefused, rfl, rfl⟩, hfault _ hrefused⟩
  refine (hsource _ _ hclosed).trans ?_
  decide +kernel

end ContractLinker.Token.Sequence
