import ContractLinker.Proofs.Address
import ContractLinker.Token.Lexeme
import Mathlib.Data.List.TakeWhile

/-!
# Where a lexeme ends

`first_eq_ok_iff`: which lexeme stands first in a text is settled by the lexeme's own characters,
which have to be `Formed`, and by at most two characters behind it, which must not go on with it:
`Fits`. So a lexeme is read again wherever its characters stand before others that fit.
-/

namespace ContractLinker

-- ---------------------------------------------------------------------------
-- Character classes
-- ---------------------------------------------------------------------------

namespace Text

theorem CodePoints.has_of_mem {ranges : CodePoints} (h : ranges.Ascending) {n : Nat}
    {range : Nat × Nat} (hm : range ∈ ranges) (hl : range.1 ≤ n) (hu : n ≤ range.2) :
    ranges.has n = true := by
  induction ranges with
  | nil => exact nomatch hm
  | cons first rest ih =>
    obtain ⟨lo, hi⟩ := first
    obtain ⟨hle, hnext, hrest⟩ := h
    have hstart : ∀ {ranges : CodePoints}, ranges.Ascending → ∀ m, (∀ r ∈ ranges.head?, m < r.1) →
        ∀ r ∈ ranges, m < r.1 := by
      intro ranges
      induction ranges with
      | nil => intro _ _ _ r hr; exact nomatch hr
      | cons s t ih =>
        rintro ⟨hs, ht, htail⟩ m hm r hr
        have hms : m < s.1 := hm s rfl
        rcases List.mem_cons.mp hr with rfl | hr
        · exact hms
        · exact ih htail m (fun u hu => hms.trans_le (hs.trans (ht u hu).le)) r hr
    rw [has]
    rcases List.mem_cons.mp hm with rfl | hm
    · rw [if_neg (by simpa using hl), if_pos hu]
    · have hlt : hi < range.1 := hstart hrest hi hnext range hm
      rw [if_neg (by omega), if_neg (by omega)]
      exact ih hrest hm

theorem CodePoints.has_of_has {small big : CodePoints} (hb : big.Ascending)
    (h : ∀ r ∈ small, ∃ s ∈ big, s.1 ≤ r.1 ∧ r.2 ≤ s.2) {n : Nat} (hn : small.has n = true) :
    big.has n = true := by
  obtain ⟨r, hr, hlo, hhi⟩ := exists_of_has hn
  obtain ⟨s, hs, hsl, hsu⟩ := h r hr
  exact has_of_mem hb hs (hsl.trans hlo) (hhi.trans hsu)

theorem isNumeric_of_isDigit {c : Char} (h : isDigit c = true) : isNumeric c = true := by
  have hn : numerics.Ascending := by decide +kernel
  have hd : ∀ r ∈ digits, ∃ s ∈ numerics, s.1 ≤ r.1 ∧ r.2 ≤ s.2 := by decide +kernel
  exact CodePoints.has_of_has hn hd h

end Text

namespace Lexeme

theorem isWordPart_of_isNumberPart {c : Char} (h : isNumberPart c = true) :
    isWordPart c = true := by
  unfold isNumberPart isWordPart at *
  rcases Bool.or_eq_true_iff.mp h with h | h
  · simp [Text.isNumeric_of_isDigit h]
  · simp [h]

theorem isWordPart_of_isHexDigit {c : Char} (h : Address.isHexDigit c = true) :
    isWordPart c = true := by
  have hn : Text.numerics.Ascending := by decide +kernel
  have hl : Text.letters.Ascending := by decide +kernel
  have hmem : (0x30, 0x39) ∈ Text.numerics ∧ (0x61, 0x7A) ∈ Text.letters ∧
      (0x41, 0x5A) ∈ Text.letters := by decide
  unfold isWordPart Text.isLetter Text.isNumeric
  rcases Address.isHexDigit_iff.mp h with h | h | h
  · simp [Text.CodePoints.has_of_mem hn hmem.1 h.1 h.2]
  · simp [Text.CodePoints.has_of_mem hl hmem.2.1 h.1 (h.2.trans (by decide))]
  · simp [Text.CodePoints.has_of_mem hl hmem.2.2 h.1 (h.2.trans (by decide))]

/-- A text does not go on with characters of a class. -/
def Stops (p : Char → Bool) (s : List Char) : Prop := ∀ c ∈ s.head?, p c = false

theorem takeWhile_of_stops {p : Char → Bool} {s t : List Char} (hs : ∀ c ∈ s, p c = true)
    (ht : Stops p t) : (s ++ t).takeWhile p = s := by
  rw [List.takeWhile_append_of_pos hs]
  cases t with
  | nil => simp
  | cons c t => simp [ht c rfl]

theorem dropWhile_of_stops {p : Char → Bool} {s t : List Char} (hs : ∀ c ∈ s, p c = true)
    (ht : Stops p t) : (s ++ t).dropWhile p = t := by
  rw [List.dropWhile_append_of_pos hs]
  cases t with
  | nil => rfl
  | cons c t => simp [ht c rfl]

theorem stops_dropWhile (p : Char → Bool) (s : List Char) : Stops p (s.dropWhile p) := by
  intro c hc
  have hnot := List.head?_dropWhile_not p s
  rw [hc] at hnot
  simpa using hnot

theorem Stops.mono {p q : Char → Bool} {s : List Char} (h : Stops q s)
    (hpq : ∀ c, p c = true → q c = true) : Stops p s := by
  intro c hc
  have hq := h c hc
  by_contra hp
  rw [hpq c (by simpa using hp)] at hq
  cases hq

/-- An escape, from behind its backslash. -/
inductive EscapeText : List Char → Prop
  | simple {c : Char} : isSimpleEscape c = true → EscapeText [c]
  | unicode {digits : List Char} : (∀ c ∈ digits, Address.isHexDigit c = true) →
      1 ≤ digits.length → digits.length ≤ 8 → EscapeText ('u' :: '\x7b' :: digits ++ ['\x7d'])

/-- What may stand between the quotes of a literal. -/
inductive BodyText : List Char → Prop
  | nil : BodyText []
  | char {c : Char} {s : List Char} : c ≠ '"' → c ≠ '\\' → c ≠ '\n' → BodyText s →
      BodyText (c :: s)
  | escape {e s : List Char} : EscapeText e → BodyText s → BodyText ('\\' :: e ++ s)

theorem escape_eq_ok_iff {s e behind : List Char} :
    escape s = .ok (e, behind) ↔ EscapeText e ∧ s = e ++ behind := by
  constructor
  · intro h
    refine ⟨?_, (spelling_escape h).symm⟩
    unfold escape at h
    split at h
    · cases h
    · next rest =>
      split at h
      · dsimp only at h
        split at h
        · next hlen =>
          cases h
          exact .unicode (fun c hc => List.mem_takeWhile_imp hc) hlen.1 hlen.2
        · cases h
      · cases h
    · cases h
    · split at h
      · next hc => cases h; exact .simple hc
      · cases h
  · rintro ⟨he, rfl⟩
    cases he with
    | @simple c hc =>
      have hu : c ≠ 'u' := by
        rintro rfl
        exact absurd hc (by decide)
      rw [List.singleton_append, escape.eq_4 c behind (fun _ h _ => hu h) hu, if_pos hc]
    | @unicode digits hd h1 h8 =>
      have hstop : Stops Address.isHexDigit ('\x7d' :: behind) := by
        intro c hc
        cases hc
        decide
      simp only [List.cons_append, List.append_assoc, List.nil_append, escape,
        dropWhile_of_stops hd hstop, takeWhile_of_stops hd hstop]
      rw [if_pos ⟨h1, h8⟩]

theorem literalBody_escape {rest e behind : List Char} (h : escape rest = .ok (e, behind)) :
    literalBody ('\\' :: rest) = continued ('\\' :: e) (literalBody behind) := by
  rw [literalBody, if_neg (by decide), if_neg (by decide), if_pos rfl]
  split
  · next herror =>
    rw [h] at herror
    cases herror
  · next hok =>
    rw [h] at hok
    cases hok
    rfl

theorem continued_nil (r : Except Unread (List Char × List Char)) : continued [] r = r := by
  rcases r with unread | ⟨body, behind⟩
  · cases unread <;> rfl
  · rfl

theorem continued_continued (s t : List Char) (r : Except Unread (List Char × List Char)) :
    continued s (continued t r) = continued (s ++ t) r := by
  rcases r with unread | ⟨body, behind⟩
  · cases unread <;> simp [continued, Unread.behind]
  · simp [continued]

/-- A body is read as it stands, and then what follows it. -/
theorem literalBody_append {body : List Char} (h : BodyText body) (s : List Char) :
    literalBody (body ++ s) = continued body (literalBody s) := by
  induction h with
  | nil => rw [List.nil_append, continued_nil]
  | @char c body hquote hbackslash hnewline _ ih =>
    rw [List.cons_append, literalBody, if_neg hnewline, if_neg hquote, if_neg hbackslash, ih,
      continued_continued]
    rfl
  | @escape e body he _ ih =>
    have hread : escape (e ++ (body ++ s)) = .ok (e, body ++ s) := escape_eq_ok_iff.mpr ⟨he, rfl⟩
    rw [List.cons_append, List.cons_append, List.append_assoc, literalBody_escape hread, ih,
      continued_continued]
    rfl

theorem literalBody_eq_ok_iff {s body behind : List Char} :
    literalBody s = .ok (body, behind) ↔ BodyText body ∧ s = body ++ '"' :: behind := by
  constructor
  · intro h
    refine ⟨?_, (spelling_literalBody h).symm⟩
    fun_induction literalBody s generalizing body behind with
    | case1 | case2 | case4 => cases h
    | case3 =>
      cases h
      exact .nil
    | case5 rest e b he _ _ ih =>
      obtain ⟨t, ht, rfl⟩ := continued_eq_ok h
      exact .escape (escape_eq_ok_iff.mp he).1 (ih ht)
    | case6 c rest hn hq hb ih =>
      obtain ⟨t, ht, rfl⟩ := continued_eq_ok h
      exact .char hq hb hn (ih ht)
  · rintro ⟨hbody, rfl⟩
    have hclosing : literalBody ('"' :: behind) = .ok ([], behind) := by simp [literalBody]
    rw [literalBody_append hbody, hclosing, continued, List.append_nil]

theorem commentBody_ne_nil {depth : Nat} {s body behind : List Char}
    (h : commentBody depth s = some (body, behind)) : body ≠ [] := by
  unfold commentBody at h
  split at h
  · cases h
  · obtain ⟨r, -, he⟩ := Option.map_eq_some_iff.mp h; cases he; simp
  · cases h; simp
  · obtain ⟨r, -, he⟩ := Option.map_eq_some_iff.mp h; cases he; simp
  · obtain ⟨r, -, he⟩ := Option.map_eq_some_iff.mp h; cases he; simp

theorem commentBody_append {depth : Nat} {s body behind : List Char}
    (h : commentBody depth s = some (body, behind)) (t : List Char) :
    commentBody depth (body ++ t) = some (body, t) := by
  fun_induction commentBody depth s generalizing body behind with
  | case1 => cases h
  | case3 => cases h; simp [commentBody]
  | case2 | case4 =>
    rename_i ih
    obtain ⟨r, hr, he⟩ := Option.map_eq_some_iff.mp h
    cases he
    simp [commentBody, ih hr]
  | case5 depth c rest hopen hclose hcloses ih =>
    obtain ⟨⟨body', behind'⟩, hr, he⟩ := Option.map_eq_some_iff.mp h
    cases he
    -- What was no mark before is none now, since the body begins as the rest did.
    have hstart : ∀ {d tail}, body' ++ t = d :: tail → ∃ tail', rest = d :: tail' := by
      intro d tail hd
      obtain ⟨e, more, rfl⟩ := List.exists_cons_of_ne_nil (commentBody_ne_nil hr)
      cases hd
      exact ⟨more ++ behind', (append_commentBody hr).symm⟩
    rw [List.cons_append, commentBody.eq_5, ih hr]
    · rfl
    · intro tail hc hd
      obtain ⟨tail', hd⟩ := hstart hd
      exact hopen tail' hc hd
    · intro tail h0 hc hd
      obtain ⟨tail', hd⟩ := hstart hd
      exact hclose tail' h0 hc hd
    · intro n tail hn hc hd
      obtain ⟨tail', hd⟩ := hstart hd
      exact hcloses n tail' hn hc hd

-- ---------------------------------------------------------------------------
-- Numbers
-- ---------------------------------------------------------------------------

theorem numberEnd_eq_ok_iff {kind : Token.Kind} {text behind rest : List Char} {l : Lexeme} :
    numberEnd kind text behind = .ok (l, rest) ↔
      Stops isWordPart behind ∧ l = .token kind text ∧ rest = behind := by
  constructor
  · intro h
    refine ⟨?_, numberEnd_eq_ok h⟩
    intro c hc
    cases behind with
    | nil => cases hc
    | cons d behind =>
      cases hc
      by_contra hpart
      rw [numberEnd, if_pos (by simpa using hpart)] at h
      cases h
  · rintro ⟨hstop, rfl, rfl⟩
    cases rest with
    | nil => rfl
    | cons c rest => rw [numberEnd, if_neg (by simp [hstop c rfl])]

/-- A point that goes on a number. -/
def Point (s : List Char) : Prop := ∃ d more, s = '.' :: d :: more ∧ Text.isDigit d = true

theorem decimalPart_whole {s behind : List Char} (hs : ∀ c ∈ s, isNumberPart c = true)
    (hb : Stops isNumberPart behind) (hp : ¬ Point behind) :
    decimalPart (s ++ behind) = (s, behind) := by
  unfold decimalPart
  rw [dropWhile_of_stops hs hb, takeWhile_of_stops hs hb]
  split
  · next d more =>
    rw [if_neg fun hd => hp ⟨d, more, rfl, hd⟩]
  · rfl

theorem decimalPart_fraction {s t behind : List Char} {d : Char}
    (hs : ∀ c ∈ s, isNumberPart c = true) (hd : Text.isDigit d = true)
    (ht : ∀ c ∈ t, isNumberPart c = true) (hb : Stops isNumberPart behind) :
    decimalPart (s ++ '.' :: d :: t ++ behind) = (s ++ '.' :: d :: t, behind) := by
  have hstop : Stops isNumberPart ('.' :: d :: (t ++ behind)) := by
    intro c hc
    cases hc
    decide +kernel
  unfold decimalPart
  simp only [List.append_assoc, List.cons_append]
  rw [dropWhile_of_stops hs hstop, takeWhile_of_stops hs hstop]
  simp only [hd, if_true, dropWhile_of_stops ht hb, takeWhile_of_stops ht hb]

theorem decimalPart_cases (rest : List Char) :
    (∃ s behind, decimalPart rest = (s, behind) ∧ rest = s ++ behind ∧
      (∀ c ∈ s, isNumberPart c = true) ∧ ¬ Point behind) ∨
    ∃ s d t behind, decimalPart rest = (s ++ '.' :: d :: t, behind) ∧
      (∀ c ∈ s, isNumberPart c = true) ∧ Text.isDigit d = true ∧
      (∀ c ∈ t, isNumberPart c = true) := by
  have hs : ∀ c ∈ rest.takeWhile isNumberPart, isNumberPart c = true :=
    fun c hc => List.mem_takeWhile_imp hc
  have happ := List.takeWhile_append_dropWhile (p := isNumberPart) (l := rest)
  unfold decimalPart
  split
  · next d more hd =>
    split
    · next hdigit =>
      exact .inr ⟨_, d, _, _, rfl, hs, hdigit, fun c hc => List.mem_takeWhile_imp hc⟩
    · next hdigit =>
      refine .inl ⟨_, _, rfl, by rw [← hd, happ], hs, ?_⟩
      rintro ⟨e, tail, he, hpoint⟩
      cases he
      exact hdigit hpoint
  · next hnot =>
    refine .inl ⟨_, _, rfl, happ.symm, hs, ?_⟩
    rintro ⟨e, tail, he, hpoint⟩
    exact hnot e tail he

/-- A number, with the kind of token that it is. -/
inductive NumberText : Token.Kind → List Char → Prop
  | whole {c : Char} {s : List Char} : Text.isDigit c = true → (∀ d ∈ s, isNumberPart d = true) →
      NumberText .number (c :: s)
  | fraction {c d : Char} {s t : List Char} : Text.isDigit c = true →
      (∀ e ∈ s, isNumberPart e = true) → Text.isDigit d = true →
      (∀ e ∈ t, isNumberPart e = true) → NumberText .number (c :: s ++ '.' :: d :: t)
  | radix {mark : Char} {p : Char → Bool} {s : List Char} : radixDigits? mark = some p →
      (∀ d ∈ s, (p d || d = '_') = true) → s.any (· ≠ '_') = true →
      NumberText (if mark = 'x' ∨ mark = 'X' then .hexadecimal else .number) ('0' :: mark :: s)

theorem NumberText.ne_string {kind : Token.Kind} {s : List Char} (h : NumberText kind s) :
    kind ≠ .string := by
  cases h with
  | whole | fraction => simp
  | radix => split <;> simp

/-- What stands behind a lexeme does not go on with it. -/
def Fits : Lexeme → List Char → Prop
  | .layout ('/' :: '/' :: _), behind => Stops (· ≠ '\n') behind
  | .token .identifier _, behind => Stops isWordPart behind
  | .token .importKeyword _, behind => Stops isWordPart behind
  | .token .hexadecimal _, behind => Stops isWordPart behind
  | .token .number text, behind =>
    Stops isWordPart behind ∧ (text.all isNumberPart = true → ¬ Point behind)
  | .token .operator ['/'], behind => Stops (fun c => c = '/' || c = '*') behind
  | _, _ => True

theorem radixDigits?_mark {mark : Char} {p : Char → Bool} (h : radixDigits? mark = some p) :
    isNumberPart mark = false ∧ isWordPart mark = true := by
  unfold radixDigits? at h
  simp only [Bool.or_eq_true, decide_eq_true_eq] at h
  have hmark : (mark = 'x' ∨ mark = 'X') ∨ (mark = 'b' ∨ mark = 'B') ∨ mark = 'o' ∨ mark = 'O' := by
    grind
  rcases hmark with (rfl | rfl) | (rfl | rfl) | rfl | rfl <;> decide +kernel

theorem radixDigits?_digit {mark : Char} {p : Char → Bool} (h : radixDigits? mark = some p)
    {c : Char} (hc : (p c || c = '_') = true) : isWordPart c = true := by
  rcases Bool.or_eq_true_iff.mp hc with hp | hunder
  · refine isWordPart_of_isHexDigit ?_
    unfold radixDigits? at h
    split at h
    · cases h; exact hp
    split at h
    · cases h
      rcases (by simpa using hp : c = '0' ∨ c = '1') with rfl | rfl <;> decide
    split at h
    · cases h
      obtain ⟨hl, hu⟩ : '0' ≤ c ∧ c ≤ '7' := by simpa using hp
      have hu : c.toNat ≤ 55 := hu
      exact Address.isHexDigit_iff.mpr (.inl ⟨hl, by omega⟩)
    · cases h
  · simp [isWordPart, hunder]

theorem number_eq_decimal {c : Char} {rest : List Char}
    (h : ∀ mark more, c = '0' → rest = mark :: more → radixDigits? mark = none) :
    number c rest = decimal c rest := by
  cases rest with
  | nil => rfl
  | cons mark more =>
    by_cases hc : c = '0'
    · simp [number, hc, h mark more hc rfl]
    · simp [number, hc]

theorem number_eq_radix {mark : Char} {p : Char → Bool} {more : List Char}
    (h : radixDigits? mark = some p) : number '0' (mark :: more) = radixNumber mark p more := by
  simp [number, h]

/-- A radix mark stands behind a zero, or the number is decimal. -/
theorem number_cases (c : Char) (rest : List Char) :
    (∃ mark p more, c = '0' ∧ rest = mark :: more ∧ radixDigits? mark = some p) ∨
      ∀ mark more, c = '0' → rest = mark :: more → radixDigits? mark = none := by
  by_cases hradix : ∃ mark p more, c = '0' ∧ rest = mark :: more ∧ radixDigits? mark = some p
  · exact .inl hradix
  · refine .inr fun mark more h0 hrest => ?_
    by_contra hne
    obtain ⟨p, hp⟩ := Option.ne_none_iff_exists'.mp hne
    exact hradix ⟨mark, p, more, h0, hrest, hp⟩

theorem numberText_decimalPart {c : Char} (hc : Text.isDigit c = true) (rest : List Char) :
    NumberText .number (c :: (decimalPart rest).1) := by
  rcases decimalPart_cases rest with ⟨s, behind, he, -, hs, -⟩ | ⟨s, d, t, behind, he, hs, hd, ht⟩
  · rw [he]
    exact .whole hc hs
  · rw [he]
    exact .fraction hc hs hd ht

theorem decimal_eq_ok {c : Char} {rest behind : List Char} {l : Lexeme}
    (hc : Text.isDigit c = true) (h : decimal c rest = .ok (l, behind)) :
    ∃ s, l = .token .number (c :: s) ∧ NumberText .number (c :: s) ∧ l.Fits behind := by
  obtain ⟨hstop, rfl, rfl⟩ := numberEnd_eq_ok_iff.mp h
  refine ⟨_, rfl, numberText_decimalPart hc rest, hstop, fun hall => ?_⟩
  rcases decimalPart_cases rest with ⟨s, t, he, -, -, hp⟩ | ⟨s, d, t, u, he, -⟩
  · rwa [he]
  · have hpoint : isNumberPart '.' = false := by decide +kernel
    rw [he] at hall
    simp [hpoint] at hall

theorem number_eq_ok {c : Char} {rest behind : List Char} {l : Lexeme}
    (hc : Text.isDigit c = true) (h : number c rest = .ok (l, behind)) :
    ∃ kind s, l = .token kind (c :: s) ∧ NumberText kind (c :: s) ∧ l.Fits behind := by
  rcases number_cases c rest with ⟨mark, p, more, rfl, rfl, hp⟩ | hmark
  · rw [number_eq_radix hp, radixNumber] at h
    split at h
    · next hany =>
      obtain ⟨hstop, rfl, rfl⟩ := numberEnd_eq_ok_iff.mp h
      have hparts : ∀ d ∈ more.takeWhile fun c => p c || c = '_', (p d || d = '_') = true :=
        fun d hd => List.mem_takeWhile_imp (p := fun c => p c || c = '_') hd
      refine ⟨_, _, rfl, ?_, ?_⟩
      · simpa using NumberText.radix hp hparts hany
      · split
        · exact hstop
        · exact ⟨hstop, fun hall => by simp [(radixDigits?_mark hp).1] at hall⟩
    · cases h
  · rw [number_eq_decimal hmark] at h
    obtain ⟨s, hl, ht, hf⟩ := decimal_eq_ok hc h
    exact ⟨_, s, hl, ht, hf⟩

theorem number_of_text {kind : Token.Kind} {text behind : List Char} (ht : NumberText kind text)
    (hf : (Lexeme.token kind text).Fits behind) :
    ∃ c rest, text ++ behind = c :: rest ∧ Text.isDigit c = true ∧
      number c rest = .ok (.token kind text, behind) := by
  have hnumber : ∀ {s : List Char}, Stops isWordPart s → Stops isNumberPart s :=
    fun h => h.mono fun _ => isWordPart_of_isNumberPart
  -- A lone zero may look like the front of a radix mark only where a word part follows it.
  have hmark : ∀ {s t : List Char} {mark : Char} {more : List Char}, Stops isWordPart t →
      (∀ d ∈ s, isNumberPart d = true) → s ++ t = mark :: more → radixDigits? mark = none := by
    intro s t mark more hstop hs he
    by_contra hne
    obtain ⟨p, hp⟩ := Option.ne_none_iff_exists'.mp hne
    obtain ⟨hpart, hword⟩ := radixDigits?_mark hp
    cases s with
    | nil =>
      rw [List.nil_append] at he
      rw [hstop mark (by simp [he])] at hword
      cases hword
    | cons d s =>
      cases he
      rw [hs mark (by simp)] at hpart
      cases hpart
  cases ht with
  | @whole c s hc hs =>
    obtain ⟨hstop, hpoint⟩ := hf
    have hall : (c :: s).all isNumberPart = true := by
      simpa [isNumberPart, hc] using hs
    refine ⟨c, s ++ behind, rfl, hc, ?_⟩
    rw [number_eq_decimal fun mark more _ => hmark hstop hs, decimal,
      decimalPart_whole hs (hnumber hstop) (hpoint hall)]
    exact numberEnd_eq_ok_iff.mpr ⟨hstop, rfl, rfl⟩
  | @fraction c d s t hc hs hd ht =>
    obtain ⟨hstop, -⟩ := hf
    have hpoint : Stops isWordPart ('.' :: d :: (t ++ behind)) := by
      intro e he
      cases he
      decide +kernel
    refine ⟨c, s ++ '.' :: d :: t ++ behind, by simp, hc, ?_⟩
    rw [number_eq_decimal fun mark more _ he => hmark hpoint hs (by simpa using he), decimal,
      decimalPart_fraction hs hd ht (hnumber hstop)]
    exact numberEnd_eq_ok_iff.mpr ⟨hstop, rfl, rfl⟩
  | @radix mark p s hp hs hany =>
    have hstop : Stops isWordPart behind := by
      split at hf
      · exact hf
      · exact hf.1
    have hpart : Stops (fun c => p c || c = '_') behind :=
      hstop.mono fun c hc => radixDigits?_digit hp hc
    refine ⟨'0', mark :: (s ++ behind), rfl, by decide +kernel, ?_⟩
    rw [number_eq_radix hp, radixNumber, takeWhile_of_stops hs hpart, dropWhile_of_stops hs hpart,
      if_pos hany]
    exact numberEnd_eq_ok_iff.mpr ⟨hstop, by simp, rfl⟩

-- ---------------------------------------------------------------------------
-- The first lexeme
-- ---------------------------------------------------------------------------

theorem isLayout_iff {c : Char} :
    isLayout c = true ↔ c = ' ' ∨ c = '\t' ∨ c = '\r' ∨ c = '\n' := by
  simp [isLayout, or_assoc]

/-- Characters that begin neither a word nor a number. -/
theorem isLayout_cases {c : Char} (h : isLayout c = true) :
    isWordStart c = false ∧ Text.isDigit c = false ∧ c ≠ '/' := by
  rcases isLayout_iff.mp h with rfl | rfl | rfl | rfl <;> decide +kernel

theorem isWordPart_of_isLayout {c : Char} (h : isLayout c = true) : isWordPart c = false := by
  rcases isLayout_iff.mp h with rfl | rfl | rfl | rfl <;> decide +kernel

theorem slash_cases :
    isLayout '/' = false ∧ isWordStart '/' = false ∧ Text.isDigit '/' = false := by
  decide +kernel

theorem quote_cases :
    isLayout '"' = false ∧ isWordStart '"' = false ∧ Text.isDigit '"' = false := by
  decide +kernel

theorem first_slash (rest : List Char) : first '/' rest = slash rest := by
  rw [first, if_neg (by simp [slash_cases.1]), if_pos rfl]

theorem first_quote (rest : List Char) : first '"' rest = literal rest := by
  obtain ⟨hlayout, hstart, hdigit⟩ := quote_cases
  rw [first, if_neg (by simp [hlayout]), if_neg (by decide), if_neg (by simp [hstart]),
    if_neg (by simp [hdigit]), if_pos rfl]

theorem symbol?_cases {c : Char} {kind : Token.Kind} (h : symbol? c = some kind) :
    isLayout c = false ∧ isWordStart c = false ∧ Text.isDigit c = false ∧ c ≠ '"' := by
  -- `all` asks only the listed characters; deciding a quantifier would ask every character.
  have hall : "\x7b\x7d()[],:;.<>+-*/%&|^~!=?@#".toList.all (fun d => decide (isLayout d = false ∧
      isWordStart d = false ∧ Text.isDigit d = false ∧ d ≠ '"')) = true := by decide +kernel
  refine of_decide_eq_true (List.all_eq_true.mp hall c ?_)
  unfold symbol? at h
  split at h <;> simp_all

def wordKind (text : List Char) : Token.Kind :=
  if text = "import".toList then .importKeyword else .identifier

theorem wordKind_ne_string (text : List Char) : wordKind text ≠ .string := by
  unfold wordKind
  split <;> simp

/-- The characters of a lexeme, whatever stands behind them. -/
inductive Formed : Lexeme → Prop
  | blank {c : Char} : isLayout c = true → Formed (.layout [c])
  | lineComment {s : List Char} : (∀ c ∈ s, c ≠ '\n') → Formed (.layout ('/' :: '/' :: s))
  | blockComment {s : List Char} : commentBody 0 s = some (s, []) →
      Formed (.layout ('/' :: '*' :: s))
  | word {c : Char} {s : List Char} : isWordStart c = true → (∀ d ∈ s, isWordPart d = true) →
      Formed (.token (wordKind (c :: s)) (c :: s))
  | number {kind : Token.Kind} {c : Char} {s : List Char} : isWordStart c = false →
      NumberText kind (c :: s) → Formed (.token kind (c :: s))
  | string {s : List Char} : BodyText s → Formed (.token .string s)
  | symbol {c : Char} {kind : Token.Kind} : symbol? c = some kind → Formed (.token kind [c])

theorem Formed.spelling_ne_nil {l : Lexeme} (h : l.Formed) : l.spelling ≠ [] := by
  have hspell : ∀ {kind : Token.Kind} {s : List Char}, s ≠ [] → kind.spell s ≠ [] := by
    intro kind s hs
    unfold Token.Kind.spell
    split <;> simp [hs]
  cases h with
  | blank | lineComment | blockComment => simp [spelling]
  | word | number | symbol => exact hspell (by simp)
  | string => simp [spelling, Token.Kind.spell]

theorem Formed.ne_endOfFile {kind : Token.Kind} {s : List Char}
    (h : (Lexeme.token kind s).Formed) : kind ≠ .endOfFile := by
  generalize hl : Lexeme.token kind s = l at h
  cases h with
  | blank | lineComment | blockComment => cases hl
  | word => cases hl; unfold wordKind; split <;> simp
  | number _ ht =>
    cases hl
    cases ht with
    | whole | fraction => simp
    | radix => split <;> simp
  | string => cases hl; simp
  | @symbol c kind hc =>
    cases hl
    rintro rfl
    unfold symbol? at hc
    split at hc
    case h_13 => split at hc <;> cases hc
    all_goals cases hc

theorem symbol?_kind {c : Char} {kind : Token.Kind} (h : symbol? c = some kind) :
    kind ≠ .hexadecimal ∧ kind ≠ .number := by
  unfold symbol? at h
  split at h
  case h_13 =>
    split at h
    · cases h; simp
    · cases h
  all_goals cases h; simp

theorem formed_hexadecimal_iff {s : List Char} : (Lexeme.token .hexadecimal s).Formed ↔
    ∃ mark digits, (mark = 'x' ∨ mark = 'X') ∧ s = '0' :: mark :: digits ∧
      (∀ c ∈ digits, (Address.isHexDigit c || c = '_') = true) ∧
      digits.any (· ≠ '_') = true := by
  constructor
  · intro h
    generalize hl : Lexeme.token .hexadecimal s = l at h
    cases h with
    | blank | lineComment | blockComment | string => cases hl
    | word => unfold wordKind at hl; split at hl <;> cases hl
    | symbol hs => cases hl; exact absurd rfl (symbol?_kind hs).1
    | @number kind c s _ hn =>
      cases hl
      generalize hkind : Token.Kind.hexadecimal = kind at hn
      generalize htext : c :: s = text at hn ⊢
      cases hn with
      | whole | fraction => cases hkind
      | @radix mark p digits hp hdigits hany =>
        split at hkind
        · next hmark =>
          rw [radixDigits?, if_pos (by simpa using hmark)] at hp
          cases hp
          exact ⟨mark, digits, hmark, rfl, hdigits, hany⟩
        · cases hkind
  · rintro ⟨mark, digits, hmark, rfl, hdigits, hany⟩
    have hp : radixDigits? mark = some Address.isHexDigit := by
      rw [radixDigits?, if_pos (by simpa using hmark)]
    have htext := NumberText.radix hp hdigits hany
    rw [if_pos hmark] at htext
    exact .number (by decide +kernel) htext

theorem fits_word {text behind : List Char} :
    (Lexeme.token (wordKind text) text).Fits behind ↔ Stops isWordPart behind := by
  unfold wordKind
  split <;> rfl

theorem fits_operator {c : Char} {behind : List Char} (hc : c ≠ '/') :
    (Lexeme.token .operator [c]).Fits behind := by
  unfold Fits
  split <;> simp_all

theorem fits_symbol {c : Char} {kind : Token.Kind} {behind : List Char}
    (h : symbol? c = some kind) (hc : c ≠ '/') : (Lexeme.token kind [c]).Fits behind := by
  unfold symbol? at h
  split at h
  case h_13 =>
    split at h
    · cases h; exact fits_operator hc
    · cases h
  all_goals cases h; trivial

theorem fits_blank {c : Char} {behind : List Char} : (Lexeme.layout [c]).Fits behind := by
  unfold Fits
  split <;> simp_all

theorem slash_eq_ok {rest behind : List Char} {l : Lexeme} (h : slash rest = .ok (l, behind)) :
    l.Formed ∧ l.Fits behind := by
  unfold slash at h
  split at h
  · cases h
    exact ⟨.lineComment fun c hc => by simpa using List.mem_takeWhile_imp hc,
      stops_dropWhile _ _⟩
  · split at h
    · next hbody =>
      cases h
      have hclosed := commentBody_append hbody []
      rw [List.append_nil] at hclosed
      exact ⟨.blockComment hclosed, trivial⟩
    · cases h
  · next hslash hstar =>
    cases h
    refine ⟨.symbol rfl, ?_⟩
    intro c hc
    cases rest with
    | nil => cases hc
    | cons d rest =>
      cases hc
      simp only [Bool.or_eq_false_iff, decide_eq_false_iff_not]
      exact ⟨fun he => hslash rest (by rw [he]), fun he => hstar rest (by rw [he])⟩

theorem first_eq_ok {c : Char} {rest behind : List Char} {l : Lexeme}
    (h : first c rest = .ok (l, behind)) : l.Formed ∧ l.Fits behind := by
  unfold first at h
  split at h
  · next hc => cases h; exact ⟨.blank hc, fits_blank⟩
  split at h
  · exact slash_eq_ok h
  split at h
  · next hc =>
    cases h
    exact ⟨.word hc fun d hd => List.mem_takeWhile_imp hd, fits_word.mpr (stops_dropWhile _ _)⟩
  split at h
  · next hstart hc =>
    obtain ⟨kind, s, rfl, ht, hf⟩ := number_eq_ok hc h
    exact ⟨.number (by simpa using hstart) ht, hf⟩
  split at h
  · unfold literal at h
    split at h
    · next hbody => cases h; exact ⟨.string (literalBody_eq_ok_iff.mp hbody).1, trivial⟩
    · cases h
    · cases h
  split at h
  · next hslash _ _ _ _ _ hkind => cases h; exact ⟨.symbol hkind, fits_symbol hkind hslash⟩
  · cases h

theorem slash_of_layout {s behind : List Char} (h : (Lexeme.layout ('/' :: s)).Formed)
    (hf : (Lexeme.layout ('/' :: s)).Fits behind) :
    slash (s ++ behind) = .ok (.layout ('/' :: s), behind) := by
  cases h with
  | blank hc => exact absurd hc (by simp [slash_cases.1])
  | @lineComment s hs =>
    have hs : ∀ c ∈ s, decide (c ≠ '\n') = true := fun c hc => by simpa using hs c hc
    rw [List.cons_append, slash, takeWhile_of_stops hs hf, dropWhile_of_stops hs hf]
  | @blockComment s hs => rw [List.cons_append, slash, commentBody_append hs]

theorem first_of_formed {l : Lexeme} {behind : List Char} (h : l.Formed) (hf : l.Fits behind) :
    ∃ c rest, l.spelling ++ behind = c :: rest ∧ first c rest = .ok (l, behind) := by
  cases h with
  | @blank c hc => exact ⟨c, behind, rfl, by rw [first, if_pos hc]⟩
  | @lineComment s hs =>
    refine ⟨'/', '/' :: s ++ behind, rfl, ?_⟩
    rw [first_slash]
    exact slash_of_layout (.lineComment hs) hf
  | @blockComment s hs =>
    refine ⟨'/', '*' :: s ++ behind, rfl, ?_⟩
    rw [first_slash]
    exact slash_of_layout (.blockComment hs) hf
  | @word c s hc hs =>
    have hstop := fits_word.mp hf
    have hlayout : ¬ isLayout c = true := fun hl => by simp [(isLayout_cases hl).1] at hc
    have hslash : c ≠ '/' := by rintro rfl; simp [slash_cases.2.1] at hc
    have hspell := Token.Kind.spell_of_ne_string (wordKind_ne_string (c :: s)) (c :: s)
    refine ⟨c, s ++ behind, by simp [spelling, hspell], ?_⟩
    rw [first, if_neg hlayout, if_neg hslash, if_pos hc, word, takeWhile_of_stops hs hstop,
      dropWhile_of_stops hs hstop]
    rfl
  | @number kind c s hstart ht =>
    obtain ⟨d, rest, he, hc, hn⟩ := number_of_text ht hf
    rw [List.cons_append] at he
    cases he
    have hlayout : ¬ isLayout c = true := fun hl => by simp [(isLayout_cases hl).2.1] at hc
    have hslash : c ≠ '/' := by rintro rfl; simp [slash_cases.2.2] at hc
    refine ⟨c, s ++ behind, by simp [spelling, Token.Kind.spell_of_ne_string ht.ne_string], ?_⟩
    rw [first, if_neg hlayout, if_neg hslash, if_neg (by simp [hstart]), if_pos hc, hn]
  | @string s hs =>
    have hbody : literalBody (s ++ '"' :: behind) = .ok (s, behind) :=
      literalBody_eq_ok_iff.mpr ⟨hs, rfl⟩
    refine ⟨'"', s ++ '"' :: behind, by simp [spelling, Token.Kind.spell], ?_⟩
    rw [first_quote, literal, hbody]
  | @symbol c kind hk =>
    refine ⟨c, behind, by simp [spelling, Token.Kind.spell_of_ne_string (symbol?_ne_string hk)], ?_⟩
    obtain ⟨hlayout, hstart, hdigit, hquote⟩ := symbol?_cases hk
    rw [first, if_neg (by simp [hlayout])]
    by_cases hslash : c = '/'
    · subst hslash
      cases hk
      rw [if_pos rfl, slash]
      · intro rest he
        exact absurd (hf '/' (by simp [he])) (by decide)
      · intro rest he
        exact absurd (hf '*' (by simp [he])) (by decide)
    · rw [if_neg hslash, if_neg (by simp [hstart]), if_neg (by simp [hdigit]), if_neg hquote, hk]

theorem first_eq_ok_iff {c : Char} {rest behind : List Char} {l : Lexeme} :
    first c rest = .ok (l, behind) ↔
      l.Formed ∧ l.Fits behind ∧ l.spelling ++ behind = c :: rest := by
  constructor
  · intro h
    obtain ⟨hformed, hfits⟩ := first_eq_ok h
    exact ⟨hformed, hfits, spelling_first h⟩
  · rintro ⟨hformed, hfits, he⟩
    obtain ⟨d, more, he', h⟩ := first_of_formed hformed hfits
    rw [he] at he'
    cases he'
    exact h

end Lexeme

end ContractLinker
