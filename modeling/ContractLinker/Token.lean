import ContractLinker.Position
import ContractLinker.Text.Quoted

/-!
# Tokens

A token is a word, a number, a string literal or a single punctuation or operator character. The
text of a string literal leaves its quotes out and keeps its escapes as they are spelled, so that
the quoted text occurs in the source exactly as `spelling` gives it.
-/

namespace ContractLinker

inductive Bracket
  | brace
  | paren
  | square
  deriving DecidableEq, Repr, Inhabited

inductive Token.Kind
  | endOfFile
  | identifier
  | number
  | hexadecimal
  | string
  | importKeyword
  | opening (bracket : Bracket)
  | closing (bracket : Bracket)
  | comma
  | colon
  | semicolon
  | dot
  | less
  | greater
  /-- Any other operator character; imports never need to tell these apart. -/
  | operator
  deriving DecidableEq, Repr, Inhabited

structure Token where
  kind : Token.Kind
  text : String
  position : Position
  deriving DecidableEq, Repr, Inhabited

namespace Token

def Kind.label : Kind → String
  | .endOfFile => "EOF"
  | .identifier => "IDENT"
  | .number => "INT"
  | .hexadecimal => "HEX"
  | .string => "STRING"
  | .importKeyword => "IMPORT"
  | .opening .brace => "LBRACE"
  | .closing .brace => "RBRACE"
  | .opening .paren => "LPAREN"
  | .closing .paren => "RPAREN"
  | .opening .square => "LBRACKET"
  | .closing .square => "RBRACKET"
  | .comma => "COMMA"
  | .colon => "COLON"
  | .semicolon => "SEMI"
  | .dot => "DOT"
  | .less => "LT"
  | .greater => "GT"
  | .operator => "OPERATOR"

/-- The source text of a token of this kind with the given text. -/
def Kind.spell (kind : Kind) (text : List Char) : List Char :=
  if kind = .string then '"' :: text ++ ['"'] else text

theorem Kind.spell_of_ne_string {kind : Kind} (h : kind ≠ .string) (text : List Char) :
    kind.spell text = text := by
  simp [spell, h]

def spelling (t : Token) : List Char := t.kind.spell t.text.toList

/-- The position behind a token; no token runs over the end of a line. -/
def finish (t : Token) : Position := ⟨t.position.line, t.position.column + t.spelling.length⟩

def endOfFile (p : Position) : Token := ⟨.endOfFile, "", p⟩

def shown (t : Token) : String :=
  if t.kind = .endOfFile then "end-of-file" else Text.quoted t.text

/-- Whether a token is the word `from`, which is a keyword only within an import. -/
def isFrom (t : Token) : Bool := t.kind = .identifier ∧ t.text = "from"

end Token

end ContractLinker
