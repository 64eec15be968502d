import ContractLinker.Address
import ContractLinker.Code
import ContractLinker.Text.Digit
import ContractLinker.Text.Letter
import ContractLinker.Text.Numeric
import ContractLinker.Token

/-!
# Lexemes

A lexeme is what stands first in a source: layout, which means a single blank or a whole comment,
or the text of one token. `Lexeme.first` reads it and leaves the rest. `spelling_first` says that
nothing is lost, and `spelling_first_ne_nil` that every lexeme takes at least one character.

Block comments nest. The text of a string literal is kept as it is spelled, and only checked: a
quote or a newline ends it, and a backslash must begin one of the known escapes.
-/

namespace ContractLinker

inductive Lexeme.Cause
  | openString
  | unknownEscape (c : Char)
  | braceExpected
  | digitsExpected
  | missingDigits (mark : Char)
  | strayAfterNumber (c : Char)
  | unexpected (c : Char)
  | openComment
  deriving DecidableEq, Repr

/-- A refusal, with the text that stands before the character it complains about. -/
structure Lexeme.Refusal where
  cause : Lexeme.Cause
  before : List Char
  deriving DecidableEq, Repr

inductive Lexeme
  | layout (spelling : List Char)
  | token (kind : Token.Kind) (text : List Char)
  deriving DecidableEq, Repr

namespace Lexeme

def spelling : Lexeme → List Char
  | .layout spelling => spelling
  | .token kind text => kind.spell text

/-- The token at `p` that a lexeme stands for; layout stands for none. -/
def token? (p : Position) : Lexeme → Option Token
  | .layout _ => none
  | .token kind text => some ⟨kind, String.ofList text, p⟩

/-! ### Character classes -/

def isLayout (c : Char) : Bool := c = ' ' || c = '\t' || c = '\r' || c = '\n'

def isWordStart (c : Char) : Bool := Text.isLetter c || c = '_'

/-- Letters, everything with a numeric value, and the underscore. -/
def isWordPart (c : Char) : Bool := Text.isLetter c || Text.isNumeric c || c = '_'

def isNumberPart (c : Char) : Bool := Text.isDigit c || c = '_'

def isSimpleEscape (c : Char) : Bool :=
  c = '0' || c = '\\' || c = 't' || c = 'n' || c = 'r' || c = '"' || c = Text.singleQuote

def radixDigits? (mark : Char) : Option (Char → Bool) :=
  if mark = 'x' || mark = 'X' then some Address.isHexDigit
  else if mark = 'b' || mark = 'B' then some fun c => c = '0' || c = '1'
  else if mark = 'o' || mark = 'O' then some fun c => '0' ≤ c && c ≤ '7'
  else none

def symbol? : Char → Option Token.Kind
  | '\x7b' => some (.opening .brace)
  | '\x7d' => some (.closing .brace)
  | '(' => some (.opening .paren)
  | ')' => some (.closing .paren)
  | '[' => some (.opening .square)
  | ']' => some (.closing .square)
  | ',' => some .comma
  | ':' => some .colon
  | ';' => some .semicolon
  | '.' => some .dot
  | '<' => some .less
  | '>' => some .greater
  | c => if "+-*/%&|^~!=?@#".toList.contains c then some .operator else none

/-! ### Words and numbers -/

def word (c : Char) (rest : List Char) : Lexeme × List Char :=
  let text := c :: rest.takeWhile isWordPart
  let kind := if text = "import".toList then Token.Kind.importKeyword else .identifier
  (.token kind text, rest.dropWhile isWordPart)

/-- Ends a number, which no letter, digit or underscore may follow. -/
def numberEnd (kind : Token.Kind) (text behind : List Char) :
    Except Refusal (Lexeme × List Char) :=
  match behind with
  | [] => .ok (.token kind text, [])
  | c :: rest =>
    if isWordPart c then .error ⟨.strayAfterNumber c, text⟩
    else .ok (.token kind text, c :: rest)

/-- The digits of a number behind its first one, and the fraction that a point between digits
begins. -/
def decimalPart (rest : List Char) : List Char × List Char :=
  match rest.dropWhile isNumberPart with
  | '.' :: d :: more =>
    if Text.isDigit d then
      (rest.takeWhile isNumberPart ++ '.' :: d :: more.takeWhile isNumberPart,
        more.dropWhile isNumberPart)
    else (rest.takeWhile isNumberPart, '.' :: d :: more)
  | behind => (rest.takeWhile isNumberPart, behind)

def decimal (c : Char) (rest : List Char) : Except Refusal (Lexeme × List Char) :=
  numberEnd .number (c :: (decimalPart rest).1) (decimalPart rest).2

/-- A number of radix 2, 8 or 16, from the text behind its mark. -/
def radixNumber (mark : Char) (isRadixDigit : Char → Bool) (rest : List Char) :
    Except Refusal (Lexeme × List Char) :=
  let isPart := fun c => isRadixDigit c || c = '_'
  let body := rest.takeWhile isPart
  let kind := if mark = 'x' || mark = 'X' then Token.Kind.hexadecimal else .number
  if body.any (· ≠ '_') then numberEnd kind ('0' :: mark :: body) (rest.dropWhile isPart)
  else .error ⟨.missingDigits mark, []⟩

def number (c : Char) (rest : List Char) : Except Refusal (Lexeme × List Char) :=
  match rest with
  | [] => decimal c []
  | mark :: more =>
    match if c = '0' then radixDigits? mark else none with
    | some isRadixDigit => radixNumber mark isRadixDigit more
    | none => decimal c (mark :: more)

/-! ### String literals -/

/-- What stands behind a backslash: the spelling of the escape, and the rest. -/
def escape : List Char → Except Cause (List Char × List Char)
  | [] => .error .openString
  | 'u' :: '\x7b' :: rest =>
    match rest.dropWhile Address.isHexDigit with
    | '\x7d' :: behind =>
      let digits := rest.takeWhile Address.isHexDigit
      if 1 ≤ digits.length ∧ digits.length ≤ 8 then
        .ok ('u' :: '\x7b' :: digits ++ ['\x7d'], behind)
      else .error .digitsExpected
    | _ => .error .digitsExpected
  | 'u' :: _ => .error .braceExpected
  | c :: rest => if isSimpleEscape c then .ok ([c], rest) else .error (.unknownEscape c)

inductive Unread
  | unclosed
  /-- A backslash begins no escape; `before` stands before it. -/
  | escape (cause : Cause) (before : List Char)
  deriving DecidableEq, Repr

def Unread.behind (s : List Char) : Unread → Unread
  | .unclosed => .unclosed
  | .escape cause before => .escape cause (s ++ before)

/-- Puts the text read first in front of what a literal's remainder gave. -/
def continued (s : List Char) :
    Except Unread (List Char × List Char) → Except Unread (List Char × List Char)
  | .ok (body, behind) => .ok (s ++ body, behind)
  | .error e => .error (e.behind s)

theorem spelling_escape {s e behind : List Char} (h : escape s = .ok (e, behind)) :
    e ++ behind = s := by
  unfold escape at h
  split at h
  · cases h
  · next rest =>
    split at h
    · next b hb =>
      dsimp only at h
      split at h
      · cases h
        have := List.takeWhile_append_dropWhile (p := Address.isHexDigit) (l := rest)
        simp [hb] at this
        simp [this]
      · cases h
    · cases h
  · cases h
  · split at h <;> cases h
    rfl

/-- The body of a string literal, from behind its opening quote, and what follows the closing
one. -/
def literalBody : List Char → Except Unread (List Char × List Char)
  | [] => .error .unclosed
  | c :: rest =>
    if c = '\n' then .error .unclosed
    else if c = '"' then .ok ([], rest)
    else if c = '\\' then
      match _h : escape rest with
      | .error cause => .error (.escape cause [])
      | .ok (e, behind) => continued ('\\' :: e) (literalBody behind)
    else continued [c] (literalBody rest)
termination_by s => s.length
decreasing_by
  · have := congrArg List.length (spelling_escape _h)
    simp at this ⊢; omega
  · simp

def literal (rest : List Char) : Except Refusal (Lexeme × List Char) :=
  match literalBody rest with
  | .ok (body, behind) => .ok (.token .string body, behind)
  | .error .unclosed => .error ⟨.openString, []⟩
  | .error (.escape cause before) => .error ⟨cause, '"' :: before⟩

/-! ### Comments -/

/-- The rest of a block comment with `depth` further comments open around the innermost, and what
follows it. -/
def commentBody : Nat → List Char → Option (List Char × List Char)
  | _, [] => none
  | depth, '/' :: '*' :: rest =>
    (commentBody (depth + 1) rest).map fun r => ('/' :: '*' :: r.1, r.2)
  | 0, '*' :: '/' :: rest => some (['*', '/'], rest)
  | depth + 1, '*' :: '/' :: rest =>
    (commentBody depth rest).map fun r => ('*' :: '/' :: r.1, r.2)
  | depth, c :: rest => (commentBody depth rest).map fun r => (c :: r.1, r.2)

/-- What a slash begins: a line comment, a block comment or an operator. -/
def slash : List Char → Except Refusal (Lexeme × List Char)
  | '/' :: rest =>
    .ok (.layout ('/' :: '/' :: rest.takeWhile (· ≠ '\n')), rest.dropWhile (· ≠ '\n'))
  | '*' :: rest =>
    match commentBody 0 rest with
    | some (body, behind) => .ok (.layout ('/' :: '*' :: body), behind)
    | none => .error ⟨.openComment, []⟩
  | rest => .ok (.token .operator ['/'], rest)

/-! ### The first lexeme -/

def first (c : Char) (rest : List Char) : Except Refusal (Lexeme × List Char) :=
  if isLayout c then .ok (.layout [c], rest)
  else if c = '/' then slash rest
  else if isWordStart c then .ok (word c rest)
  else if Text.isDigit c then number c rest
  else if c = '"' then literal rest
  else match symbol? c with
    | some kind => .ok (.token kind [c], rest)
    | none => .error ⟨.unexpected c, []⟩

/-! ### Nothing is lost -/

theorem spelling_word (c : Char) (rest : List Char) :
    (word c rest).1.spelling ++ (word c rest).2 = c :: rest := by
  have hk : ∀ p : Prop, [Decidable p] →
      (if p then Token.Kind.importKeyword else .identifier) ≠ .string := by
    intro p _; split <;> simp
  simp only [word, spelling, Token.Kind.spell_of_ne_string (hk _), List.cons_append,
    List.takeWhile_append_dropWhile]

theorem numberEnd_eq_ok {kind : Token.Kind} {text behind rest : List Char} {l : Lexeme}
    (h : numberEnd kind text behind = .ok (l, rest)) : l = .token kind text ∧ rest = behind := by
  unfold numberEnd at h
  split at h
  · cases h; exact ⟨rfl, rfl⟩
  · split at h
    · cases h
    · cases h; exact ⟨rfl, rfl⟩

theorem spelling_numberEnd {kind : Token.Kind} {text behind rest : List Char} {l : Lexeme}
    (hk : kind ≠ .string) (h : numberEnd kind text behind = .ok (l, rest)) :
    l.spelling ++ rest = text ++ behind := by
  obtain ⟨rfl, rfl⟩ := numberEnd_eq_ok h
  simp [spelling, Token.Kind.spell_of_ne_string hk]

theorem decimalPart_append (rest : List Char) :
    (decimalPart rest).1 ++ (decimalPart rest).2 = rest := by
  have hs := List.takeWhile_append_dropWhile (p := isNumberPart) (l := rest)
  unfold decimalPart
  split
  · next d more hd =>
    rw [hd] at hs
    split
    · simp [List.takeWhile_append_dropWhile, hs]
    · simpa using hs
  · exact hs

theorem spelling_decimal {c : Char} {rest behind : List Char} {l : Lexeme}
    (h : decimal c rest = .ok (l, behind)) : l.spelling ++ behind = c :: rest := by
  have := spelling_numberEnd (by simp) h
  simpa [decimalPart_append] using this

theorem spelling_radixNumber {mark : Char} {p : Char → Bool} {rest behind : List Char} {l : Lexeme}
    (h : radixNumber mark p rest = .ok (l, behind)) :
    l.spelling ++ behind = '0' :: mark :: rest := by
  unfold radixNumber at h
  dsimp only at h
  split at h
  · have := spelling_numberEnd (by split <;> simp) h
    simpa [List.takeWhile_append_dropWhile] using this
  · cases h

theorem spelling_number {c : Char} {rest behind : List Char} {l : Lexeme}
    (h : number c rest = .ok (l, behind)) : l.spelling ++ behind = c :: rest := by
  unfold number at h
  split at h
  · exact spelling_decimal h
  · split at h
    · next hm =>
      split at hm
      · next hc => subst hc; exact spelling_radixNumber h
      · cases hm
    · exact spelling_decimal h

theorem continued_eq_ok {s t : List Char} {r : Except Unread (List Char × List Char)}
    {behind : List Char} (h : continued s r = .ok (t, behind)) :
    ∃ body, r = .ok (body, behind) ∧ t = s ++ body := by
  unfold continued at h
  split at h
  · next body b => cases h; exact ⟨body, rfl, rfl⟩
  · cases h

/-- A literal that was read is its body and a closing quote. -/
theorem spelling_literalBody {s body behind : List Char}
    (h : literalBody s = .ok (body, behind)) : body ++ '"' :: behind = s := by
  fun_induction literalBody s generalizing body behind with
  | case1 => cases h
  | case2 => cases h
  | case3 => cases h; rfl
  | case4 => cases h
  | case5 rest e b he _ _ ih =>
    obtain ⟨t, ht, rfl⟩ := continued_eq_ok h
    have := spelling_escape he
    simp [← this, ← ih ht]
  | case6 c rest _ _ _ ih =>
    obtain ⟨t, ht, rfl⟩ := continued_eq_ok h
    simp [← ih ht]

theorem spelling_literal {rest behind : List Char} {l : Lexeme}
    (h : literal rest = .ok (l, behind)) : l.spelling ++ behind = '"' :: rest := by
  unfold literal at h
  split at h
  · next hb => cases h; simp [spelling, Token.Kind.spell, ← spelling_literalBody hb]
  · cases h
  · cases h

theorem append_commentBody {depth : Nat} {s body behind : List Char}
    (h : commentBody depth s = some (body, behind)) : body ++ behind = s := by
  fun_induction commentBody depth s generalizing body behind with
  | case1 => cases h
  | case3 => cases h; rfl
  | case2 | case4 | case5 =>
    rename_i ih
    obtain ⟨r, hr, he⟩ := Option.map_eq_some_iff.1 h
    cases he
    simp [ih hr]

theorem spelling_slash {rest behind : List Char} {l : Lexeme}
    (h : slash rest = .ok (l, behind)) : l.spelling ++ behind = '/' :: rest := by
  unfold slash at h
  split at h
  · cases h; simp [spelling, List.takeWhile_append_dropWhile]
  · split at h
    · next hc => cases h; simp [spelling, append_commentBody hc]
    · cases h
  · cases h; simp [spelling, Token.Kind.spell]

theorem symbol?_ne_string {c : Char} {kind : Token.Kind} (h : symbol? c = some kind) :
    kind ≠ .string := by
  unfold symbol? at h
  split at h <;> (try cases h) <;> (try simp)
  split at h <;> cases h
  simp

/-- A lexeme and what stands behind it are the text it was read from. -/
theorem spelling_first {c : Char} {rest behind : List Char} {l : Lexeme}
    (h : first c rest = .ok (l, behind)) : l.spelling ++ behind = c :: rest := by
  unfold first at h
  split at h
  · cases h; rfl
  split at h
  · next hc => subst hc; exact spelling_slash h
  split at h
  · have hw := spelling_word c rest
    rw [Except.ok.inj h] at hw
    exact hw
  split at h
  · exact spelling_number h
  split at h
  · next hc => subst hc; exact spelling_literal h
  split at h
  · next hk => cases h; simp [spelling, Token.Kind.spell_of_ne_string (symbol?_ne_string hk)]
  · cases h

theorem spelling_first_ne_nil {c : Char} {rest behind : List Char} {l : Lexeme}
    (h : first c rest = .ok (l, behind)) : l.spelling ≠ [] := by
  have hn : ∀ {kind text}, text ≠ [] → (Lexeme.token kind text).spelling ≠ [] := by
    intro kind text ht
    simp only [spelling, Token.Kind.spell]
    split <;> simp [ht]
  unfold first at h
  split at h
  · cases h; simp [spelling]
  split at h
  · unfold slash at h
    split at h
    · cases h; simp [spelling]
    · split at h <;> cases h
      simp [spelling]
    · cases h; exact hn (by simp)
  split at h
  · cases h; exact hn (by simp)
  split at h
  · unfold number decimal radixNumber at h
    dsimp only at h
    split at h
    · obtain ⟨rfl, -⟩ := numberEnd_eq_ok h; exact hn (by simp)
    · split at h
      · split at h
        · obtain ⟨rfl, -⟩ := numberEnd_eq_ok h; exact hn (by simp)
        · cases h
      · obtain ⟨rfl, -⟩ := numberEnd_eq_ok h; exact hn (by simp)
  split at h
  · unfold literal at h
    split at h <;> cases h
    simp [spelling, Token.Kind.spell]
  split at h
  · cases h; exact hn (by simp)
  · cases h

/-- Every lexeme takes at least one character. -/
theorem length_behind_first {c : Char} {rest behind : List Char} {l : Lexeme}
    (h : first c rest = .ok (l, behind)) : behind.length < (c :: rest).length := by
  have hs := congrArg List.length (spelling_first h)
  have hn := List.length_pos_iff.2 (spelling_first_ne_nil h)
  simp at hs ⊢
  omega

end Lexeme

end ContractLinker
