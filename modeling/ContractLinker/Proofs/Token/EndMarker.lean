import ContractLinker.Proofs.Token.Sequence

/-!
# Reading with an end marker

A reader that looks at the character in front without asking whether there is one sees an end marker
at the end of the text, and the marker is a character that a text may hold as well. Here each loop
of such a reader counts its rounds, and `none` says that they have run out. `read_eq`: more rounds
than characters are enough for every text, and what is read is what `Token.Sequence.read` reads.
-/

namespace ContractLinker.Lexeme.Marked

def endMarker : Char := '\x00'

/-- The character in front. -/
def peek (s : List Char) : Char := s.headD endMarker

@[simp] theorem peek_nil : peek [] = endMarker := rfl

@[simp] theorem peek_cons (c : Char) (s : List Char) : peek (c :: s) = c := rfl

theorem peek_eq_iff {s : List Char} {c : Char} (hc : c ≠ endMarker) :
    peek s = c ↔ ∃ t, s = c :: t := by
  cases s with
  | nil => simpa using hc.symm
  | cons d s => simp

theorem isLayout_endMarker : isLayout endMarker = false := by decide

theorem isWordPart_endMarker : isWordPart endMarker = false := by decide +kernel

theorem isNumberPart_endMarker : isNumberPart endMarker = false := by decide +kernel

theorem isDigit_endMarker : Text.isDigit endMarker = false := by decide +kernel

theorem isHexDigit_endMarker : Address.isHexDigit endMarker = false := by decide

theorem radixDigits?_endMarker : radixDigits? endMarker = none := by decide

variable {rounds : Nat} {c : Char} {s rest : List Char}

-- ---------------------------------------------------------------------------
-- Loops
-- ---------------------------------------------------------------------------

/-- Takes off the character in front, as long as the text in front is wanted. -/
def takeLoop (wanted : List Char → Bool) : Nat → List Char → Option (List Char × List Char)
  | 0, _ => none
  | rounds + 1, s =>
    if wanted s then (takeLoop wanted rounds s.tail).map fun r => (peek s :: r.1, r.2)
    else some ([], s)

theorem takeLoop_eq {wanted : List Char → Bool} {p : Char → Bool} (hend : wanted [] = false)
    (hcons : ∀ c s, wanted (c :: s) = p c) (h : s.length < rounds) :
    takeLoop wanted rounds s = some (s.takeWhile p, s.dropWhile p) := by
  induction rounds generalizing s with
  | zero => cases h
  | succ rounds ih =>
    cases s with
    | nil => simp [takeLoop, hend]
    | cons c s =>
      have hs : s.length < rounds := by simpa using h
      rw [takeLoop, hcons]
      cases hc : p c with
      | false => simp [hc]
      | true => simp [hc, ih hs]

/-- A loop that asks only the character in front ends at the end marker, which is not wanted. -/
theorem takeLoop_peek {p : Char → Bool} (hend : p endMarker = false) (h : s.length < rounds) :
    takeLoop (fun s => p (peek s)) rounds s = some (s.takeWhile p, s.dropWhile p) :=
  takeLoop_eq hend (fun _ _ => rfl) h

theorem length_dropWhile_lt {p : Char → Bool} (h : s.length < rounds) :
    (s.dropWhile p).length < rounds :=
  (List.length_dropWhile_le p s).trans_lt h

-- ---------------------------------------------------------------------------
-- Words and numbers
-- ---------------------------------------------------------------------------

def word (rounds : Nat) (c : Char) (rest : List Char) : Option (Lexeme × List Char) :=
  (takeLoop (fun s => isWordPart (peek s)) rounds rest).map fun r =>
    (.token (if c :: r.1 = "import".toList then .importKeyword else .identifier) (c :: r.1), r.2)

theorem word_eq (h : rest.length < rounds) : word rounds c rest = some (Lexeme.word c rest) := by
  rw [word, takeLoop_peek isWordPart_endMarker h]
  rfl

def numberEnd (kind : Token.Kind) (text behind : List Char) :
    Except Refusal (Lexeme × List Char) :=
  if isWordPart (peek behind) then .error ⟨.strayAfterNumber (peek behind), text⟩
  else .ok (.token kind text, behind)

theorem numberEnd_eq (kind : Token.Kind) (text behind : List Char) :
    numberEnd kind text behind = Lexeme.numberEnd kind text behind := by
  cases behind with
  | nil => simp [numberEnd, Lexeme.numberEnd, isWordPart_endMarker]
  | cons c behind => rfl

def decimalPart (rounds : Nat) (rest : List Char) : Option (List Char × List Char) :=
  (takeLoop (fun s => isNumberPart (peek s)) rounds rest).bind fun r =>
    if peek r.2 = '.' ∧ Text.isDigit (peek r.2.tail) then
      (takeLoop (fun s => isNumberPart (peek s)) rounds r.2.tail).map fun more =>
        (r.1 ++ '.' :: more.1, more.2)
    else some r

theorem decimalPart_eq (h : rest.length < rounds) :
    decimalPart rounds rest = some (Lexeme.decimalPart rest) := by
  have hbehind := length_dropWhile_lt (p := isNumberPart) h
  rw [decimalPart, takeLoop_peek isNumberPart_endMarker h, Option.bind_some]
  dsimp only
  fun_cases Lexeme.decimalPart rest with
  | case1 d more hd hdigit =>
    have hpart : isNumberPart d = true := by simp [isNumberPart, hdigit]
    rw [hd] at hbehind ⊢
    simp [hdigit, hpart, takeLoop_peek isNumberPart_endMarker (Nat.lt_of_succ_lt hbehind)]
  | case2 d more hd hdigit =>
    rw [hd]
    simp [hdigit]
  | case3 hpoint =>
    rw [if_neg]
    rintro ⟨hdot, hdigit⟩
    obtain ⟨behind, he⟩ := (peek_eq_iff (by decide)).mp hdot
    rw [he] at hdigit hpoint
    cases behind with
    | nil => simp [isDigit_endMarker] at hdigit
    | cons d more => exact hpoint d more rfl

def radixNumber (rounds : Nat) (mark : Char) (isRadixDigit : Char → Bool) (rest : List Char) :
    Option (Except Refusal (Lexeme × List Char)) :=
  (takeLoop (fun s => isRadixDigit (peek s) || peek s = '_') rounds rest).map fun r =>
    if r.1.any (· ≠ '_') then
      numberEnd (if mark = 'x' || mark = 'X' then .hexadecimal else .number)
        ('0' :: mark :: r.1) r.2
    else .error ⟨.missingDigits mark, []⟩

theorem radixNumber_eq {mark : Char} {p : Char → Bool} (hp : radixDigits? mark = some p)
    (h : rest.length < rounds) :
    radixNumber rounds mark p rest = some (Lexeme.radixNumber mark p rest) := by
  have hend : (p endMarker || endMarker = '_') = false := by
    by_contra hne
    have hword := radixDigits?_digit hp (Bool.of_not_eq_false hne)
    rw [isWordPart_endMarker] at hword
    cases hword
  rw [radixNumber, takeLoop_peek (p := fun c => p c || c = '_') hend h]
  simp only [Option.map_some, numberEnd_eq]
  rfl

def number (rounds : Nat) (c : Char) (rest : List Char) :
    Option (Except Refusal (Lexeme × List Char)) :=
  match if c = '0' then radixDigits? (peek rest) else none with
  | some isRadixDigit => radixNumber rounds (peek rest) isRadixDigit rest.tail
  | none => (decimalPart rounds rest).map fun r => numberEnd .number (c :: r.1) r.2

theorem number_eq (h : rest.length < rounds) :
    number rounds c rest = some (Lexeme.number c rest) := by
  have hdecimal : (decimalPart rounds rest).map (fun r => numberEnd .number (c :: r.1) r.2) =
      some (decimal c rest) := by
    rw [decimalPart_eq h, Option.map_some, numberEnd_eq]
    rfl
  cases rest with
  | nil =>
    rw [number, Lexeme.number, peek_nil, radixDigits?_endMarker, ite_self]
    exact hdecimal
  | cons mark more =>
    rw [number, Lexeme.number, peek_cons]
    cases hp : if c = '0' then radixDigits? mark else none with
    | none => exact hdecimal
    | some p =>
      split at hp
      · exact radixNumber_eq hp (Nat.lt_of_succ_lt h)
      · cases hp

-- ---------------------------------------------------------------------------
-- String literals
-- ---------------------------------------------------------------------------

def escape (rounds : Nat) (s : List Char) : Option (Except Cause (List Char × List Char)) :=
  if s = [] then some (.error .openString)
  else if isSimpleEscape (peek s) then some (.ok ([peek s], s.tail))
  else if peek s = 'u' then
    if peek s.tail = '\x7b' then
      (takeLoop (fun s => Address.isHexDigit (peek s)) rounds s.tail.tail).map fun r =>
        if (1 ≤ r.1.length ∧ r.1.length ≤ 8) ∧ peek r.2 = '\x7d' then
          .ok ('u' :: '\x7b' :: r.1 ++ ['\x7d'], r.2.tail)
        else .error .digitsExpected
    else some (.error .braceExpected)
  else some (.error (.unknownEscape (peek s)))

theorem escape_eq (h : s.length < rounds) : escape rounds s = some (Lexeme.escape s) := by
  unfold Lexeme.escape
  split
  · rfl
  · next rest =>
    have hlength : rest.length < rounds := by
      simp only [List.length_cons] at h
      omega
    have hu : isSimpleEscape 'u' = false := by decide
    simp only [escape, peek_cons, List.tail_cons, hu, takeLoop_peek isHexDigit_endMarker hlength]
    generalize List.dropWhile Address.isHexDigit rest = behind
    match behind with
    | [] => simp [endMarker]
    | d :: more => by_cases hd : d = '\x7d' <;> simp [hd]
  · next rest hbrace =>
    have hu : isSimpleEscape 'u' = false := by decide
    cases rest with
    | nil => simp [escape, hu, endMarker]
    | cons d rest =>
      have hd : d ≠ '\x7b' := by
        rintro rfl
        exact hbrace rest rfl
      simp [escape, hu, hd]
  · next c rest hbrace hu =>
    have hc : c ≠ 'u' := fun hc => hu hc
    by_cases hsimple : isSimpleEscape c = true <;> simp [escape, hsimple, hc]

def literalBody : Nat → List Char → Option (Except Unread (List Char × List Char))
  | 0, _ => none
  | rounds + 1, s =>
    if s = [] ∨ peek s = '\n' then some (.error .unclosed)
    else if peek s = '\\' then (escape rounds s.tail).bind fun
      | .error cause => some (.error (.escape cause []))
      | .ok (e, behind) => (literalBody rounds behind).map (continued ('\\' :: e))
    else if peek s = '"' then some (.ok ([], s.tail))
    else (literalBody rounds s.tail).map (continued [peek s])

theorem literalBody_eq (h : s.length < rounds) :
    literalBody rounds s = some (Lexeme.literalBody s) := by
  induction rounds generalizing s with
  | zero => cases h
  | succ rounds ih =>
    rw [literalBody]
    fun_cases Lexeme.literalBody s with
    | case1 => simp
    | case2 => simp
    | case3 => simp
    | case4 rest cause he => simp [escape_eq (show rest.length < rounds by simpa using h), he]
    | case5 rest e behind he =>
      have hlength := congrArg List.length (spelling_escape he)
      have hbehind : behind.length < rounds := by
        simp only [List.length_append, List.length_cons] at hlength h
        omega
      simp [escape_eq (show rest.length < rounds by simpa using h), he, ih hbehind]
    | case6 c rest hnewline hquote hback =>
      simp [hnewline, hquote, hback, ih (show rest.length < rounds by simpa using h)]

def literal (rounds : Nat) (rest : List Char) : Option (Except Refusal (Lexeme × List Char)) :=
  (literalBody rounds rest).map fun
    | .ok (body, behind) => .ok (.token .string body, behind)
    | .error .unclosed => .error ⟨.openString, []⟩
    | .error (.escape cause before) => .error ⟨cause, '"' :: before⟩

theorem literal_eq (h : rest.length < rounds) :
    literal rounds rest = some (Lexeme.literal rest) := by
  rw [literal, literalBody_eq h, Option.map_some]
  cases hbody : Lexeme.literalBody rest with
  | ok r => simp only [Lexeme.literal, hbody]
  | error unread => cases unread <;> simp only [Lexeme.literal, hbody]

-- ---------------------------------------------------------------------------
-- Comments
-- ---------------------------------------------------------------------------

/-- The rest of a block comment, with the number of comments that are still open. -/
def commentBody : Nat → Nat → List Char → Option (Option (List Char × List Char))
  | 0, _, _ => none
  | _ + 1, 0, s => some (some ([], s))
  | rounds + 1, depth + 1, s =>
    if s = [] then some none
    else if peek s = '/' ∧ peek s.tail = '*' then
      (commentBody rounds (depth + 2) s.tail.tail).map (·.map fun r => ('/' :: '*' :: r.1, r.2))
    else if peek s = '*' ∧ peek s.tail = '/' then
      (commentBody rounds depth s.tail.tail).map (·.map fun r => ('*' :: '/' :: r.1, r.2))
    else (commentBody rounds (depth + 1) s.tail).map (·.map fun r => (peek s :: r.1, r.2))

theorem commentBody_eq {depth : Nat} (h : s.length < rounds) :
    commentBody rounds (depth + 1) s = some (Lexeme.commentBody depth s) := by
  induction rounds generalizing depth s with
  | zero => cases h
  | succ rounds ih =>
    rw [commentBody]
    fun_cases Lexeme.commentBody depth s with
    | case1 => simp
    | case2 depth rest => simp [ih (s := rest) (by simp at h; omega)]
    | case3 rest =>
      -- The mark ends the outermost comment, and one more round finds that none is open.
      obtain ⟨rounds, rfl⟩ : ∃ n, rounds = n + 1 := ⟨rounds - 1, by simp at h; omega⟩
      simp [commentBody]
    | case4 depth rest => simp [ih (s := rest) (by simp at h; omega)]
    | case5 depth c rest hopen hzero hsucc =>
      have hopen : ¬ (c = '/' ∧ peek rest = '*') := by
        rintro ⟨rfl, hstar⟩
        obtain ⟨more, rfl⟩ := (peek_eq_iff (by decide)).mp hstar
        exact hopen more rfl rfl
      have hclose : ¬ (c = '*' ∧ peek rest = '/') := by
        rintro ⟨rfl, hslash⟩
        obtain ⟨more, rfl⟩ := (peek_eq_iff (by decide)).mp hslash
        cases depth with
        | zero => exact hzero more rfl rfl rfl
        | succ depth => exact hsucc depth more rfl rfl rfl
      simp [hopen, hclose, ih (show rest.length < rounds by simpa using h)]

-- ---------------------------------------------------------------------------
-- The first lexeme
-- ---------------------------------------------------------------------------

/-- The token that begins with `c`. -/
def token (rounds : Nat) (c : Char) (rest : List Char) :
    Option (Except Refusal (Lexeme × List Char)) :=
  if isWordStart c then (word rounds c rest).map .ok
  else if Text.isDigit c then number rounds c rest
  else if c = '"' then literal rounds rest
  else match symbol? c with
    | some kind => some (.ok (.token kind [c], rest))
    | none => some (.error ⟨.unexpected c, []⟩)

/-- The first lexeme. Whether there is one is asked behind layout only. -/
def first? (rounds : Nat) (s : List Char) :
    Option (Except Refusal (Option (Lexeme × List Char))) :=
  if isLayout (peek s) then some (.ok (some (.layout [peek s], s.tail)))
  else if peek s = '/' ∧ peek s.tail = '/' then
    (takeLoop (fun s => peek s ≠ '\n' ∧ s ≠ []) rounds s.tail.tail).map fun r =>
      .ok (some (.layout ('/' :: '/' :: r.1), r.2))
  else if peek s = '/' ∧ peek s.tail = '*' then
    (commentBody rounds 1 s.tail.tail).map fun
      | some (body, behind) => .ok (some (.layout ('/' :: '*' :: body), behind))
      | none => .error ⟨.openComment, []⟩
  else if s = [] then some (.ok none)
  else (token rounds (peek s) s.tail).map (·.map some)

theorem first?_nil (rounds : Nat) : first? rounds [] = some (.ok none) := by
  simp [first?, isLayout_endMarker, (by decide : endMarker ≠ '/')]

theorem token_eq (h : rest.length < rounds) (hlayout : isLayout c = false) (hslash : c ≠ '/') :
    token rounds c rest = some (first c rest) := by
  simp only [first, hlayout, hslash, Bool.false_eq_true, if_false]
  rw [token, word_eq h, number_eq h, literal_eq h]
  split
  · rfl
  split
  · rfl
  split
  · rfl
  cases symbol? c <;> rfl

theorem first?_slash (h : rest.length < rounds) :
    first? rounds ('/' :: rest) = some ((slash rest).map some) := by
  rw [first?, peek_cons, List.tail_cons, if_neg (by simp [slash_cases.1])]
  fun_cases slash rest with
  | case1 rest =>
    have hloop : takeLoop (fun s => peek s ≠ '\n' ∧ s ≠ []) rounds rest =
        some (rest.takeWhile (· ≠ '\n'), rest.dropWhile (· ≠ '\n')) :=
      takeLoop_eq (by simp) (fun _ _ => by simp) (Nat.lt_of_succ_lt h)
    rw [if_pos ⟨rfl, rfl⟩, List.tail_cons, hloop]
    rfl
  | case2 rest body behind hbody =>
    rw [if_neg (by simp), if_pos ⟨rfl, rfl⟩, List.tail_cons,
      commentBody_eq (Nat.lt_of_succ_lt h), hbody]
    rfl
  | case3 rest hbody =>
    rw [if_neg (by simp), if_pos ⟨rfl, rfl⟩, List.tail_cons,
      commentBody_eq (Nat.lt_of_succ_lt h), hbody]
    rfl
  | case4 rest hline hblock =>
    have hnoline : ¬ peek rest = '/' := by
      rintro hslash
      obtain ⟨more, rfl⟩ := (peek_eq_iff (by decide)).mp hslash
      exact hline more rfl
    have hnoblock : ¬ peek rest = '*' := by
      rintro hstar
      obtain ⟨more, rfl⟩ := (peek_eq_iff (by decide)).mp hstar
      exact hblock more rfl
    rw [if_neg (by simp [hnoline]), if_neg (by simp [hnoblock]), if_neg (by simp), token,
      if_neg (by simp [slash_cases.2.1]), if_neg (by simp [slash_cases.2.2]), if_neg (by decide)]
    rfl

theorem first?_cons (h : rest.length < rounds) :
    first? rounds (c :: rest) = some ((first c rest).map some) := by
  by_cases hslash : c = '/'
  · subst hslash
    rw [first?_slash h, first_slash]
  · rw [first?, peek_cons, List.tail_cons]
    cases hlayout : isLayout c with
    | true =>
      rw [if_pos rfl, first, if_pos hlayout]
      rfl
    | false => simp [hslash, token_eq h hlayout hslash]

-- ---------------------------------------------------------------------------
-- Texts
-- ---------------------------------------------------------------------------

def read : Nat → Position → List Char → Option (Except Fault Token.Sequence)
  | 0, _, _ => none
  | rounds + 1, p, s => (first? rounds s).bind fun
    | .error refusal => some (.error ⟨refusal.cause, p.after refusal.before⟩)
    | .ok none => some (.ok ⟨[], p⟩)
    | .ok (some (l, behind)) => (read rounds (p.after l.spelling) behind).map (·.map (·.push p l))

/-- With more rounds than there are characters, no loop runs out of them, whatever the text. -/
theorem read_eq {p : Position} (h : s.length < rounds) :
    read rounds p s = some (Token.Sequence.read p s) := by
  induction rounds generalizing p s with
  | zero => cases h
  | succ rounds ih =>
    cases s with
    | nil => simp [read, first?_nil, Token.Sequence.read]
    | cons c rest =>
      have hrest : rest.length < rounds := by simpa using h
      rw [read, first?_cons hrest, Option.bind_some]
      cases hfirst : first c rest with
      | error refusal => rw [Token.Sequence.read_of_error hfirst]; rfl
      | ok r =>
        obtain ⟨l, behind⟩ := r
        have hbehind := length_behind_first hfirst
        rw [Token.Sequence.read_of_ok hfirst]
        simp only [Except.map]
        rw [ih (by simp at hbehind; omega)]
        rfl

end ContractLinker.Lexeme.Marked
