import ContractLinker.Token.Lexeme

/-!
# Token sequences

A source is read lexeme by lexeme; each token gets the position that is reached by advancing over
everything before it. The end of the source is kept as a position and shows as a last token of its
own kind in `toList`.
-/

namespace ContractLinker

/-- Why a source has no tokens, and the place of the character complained about. -/
structure Lexeme.Fault where
  cause : Lexeme.Cause
  position : Position
  deriving DecidableEq, Repr

namespace Lexeme

def Cause.code : Cause → Code
  | .openString => ⟨.lexical, 10⟩
  | .unknownEscape _ => ⟨.lexical, 20⟩
  | .braceExpected => ⟨.lexical, 21⟩
  | .digitsExpected => ⟨.lexical, 21⟩
  | .missingDigits _ => ⟨.lexical, 30⟩
  | .strayAfterNumber _ => ⟨.lexical, 31⟩
  | .unexpected _ => ⟨.lexical, 40⟩
  | .openComment => ⟨.lexical, 70⟩

def Fault.explanation (fault : Fault) : String :=
  match fault.cause with
  | .openString => "unterminated string literal"
  | .unknownEscape c => "unknown escape sequence \\" ++ c.toString
  | .braceExpected => "invalid unicode escape sequence, expected '\x7b' after \\u"
  | .digitsExpected =>
    "invalid unicode escape sequence, expected 1 to 8 hex digits and '\x7d'"
  | .missingDigits mark => "missing digits after '0" ++ mark.toString ++ "' prefix"
  | .strayAfterNumber c => "invalid character '" ++ c.toString ++ "' after number literal"
  | .unexpected c =>
    "unexpected character " ++ Text.quoted c.toString ++ " at " ++ toString fault.position.line ++
      ":" ++ toString fault.position.column
  | .openComment => "unterminated block comment"

def Fault.message (fault : Fault) : String := fault.cause.code.tag fault.explanation

end Lexeme

structure Token.Sequence where
  tokens : List Token
  finish : Position
  deriving DecidableEq, Repr, Inhabited

namespace Token.Sequence

def ending (s : Sequence) : Token := .endOfFile s.finish

def toList (s : Sequence) : List Token := s.tokens ++ [s.ending]

/-- Puts what a lexeme at `p` stands for in front. -/
def push (p : Position) (l : Lexeme) (s : Sequence) : Sequence :=
  { s with tokens := (l.token? p).toList ++ s.tokens }

def read (p : Position) : List Char → Except Lexeme.Fault Sequence
  | [] => .ok ⟨[], p⟩
  | c :: rest =>
    match _h : Lexeme.first c rest with
    | .error refusal => .error ⟨refusal.cause, p.after refusal.before⟩
    | .ok (l, behind) => (read (p.after l.spelling) behind).map (push p l)
termination_by s => s.length
decreasing_by exact Lexeme.length_behind_first _h

def ofSource (source : String) : Except Lexeme.Fault Sequence := read .start source.toList

end Token.Sequence

end ContractLinker
