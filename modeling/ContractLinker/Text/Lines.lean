/-!
# Lines

`unifyNewlines` gives a text one spelling of the end of a line; `lines` cuts such a text for
display, where more characters than the newline break a line.
-/

namespace ContractLinker.Text

/-- Writes every carriage return, with the newline that may follow it, as one newline. -/
def unifyNewlines : List Char → List Char
  | [] => []
  | '\r' :: '\n' :: rest => '\n' :: unifyNewlines rest
  | c :: rest => (if c = '\r' then '\n' else c) :: unifyNewlines rest

/-- Newline, vertical tab, form feed, the three information separators above unit separator,
next line, line separator and paragraph separator. -/
def breaksLine (c : Char) : Bool :=
  c = '\n' || c = '\x0b' || c = '\x0c' || c = '\x1c' || c = '\x1d' || c = '\x1e' ||
    c = '\u0085' || c = '\u2028' || c = '\u2029'

/-- The lines of a text with unified newlines, without what breaks them. A break at the very end
opens no further line. -/
def lines : List Char → List (List Char)
  | [] => []
  | c :: rest =>
    if breaksLine c then [] :: lines rest
    else match lines rest with
      | [] => [[c]]
      | line :: others => (c :: line) :: others

end ContractLinker.Text
