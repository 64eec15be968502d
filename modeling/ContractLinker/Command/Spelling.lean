import ContractLinker.Text.Decimal

/-!
# Spellings of options

An option is spelled by a dash and a letter, or by two dashes and a word. A word may be cut short
where no other option of the command starts like it. Text may be attached to either: to a word
behind `=`, to a letter with or without it. Attached text is the value of an option that takes
one; behind the letter of an option that takes none stand the letters of further options.

Whatever else starts with a dash is taken for an option that is not known, unless it is a lone
dash, a negative number or has a space in it: then it can only be meant as a value.
-/

namespace ContractLinker.Command

inductive OptionName
  | help
  | verbose
  | rich
  | everyOccurrence
  | extension
  | contract
  | alias
  | showCode
  | output
  | withEnd
  deriving DecidableEq, Repr

def OptionName.arity : OptionName → Nat
  | .contract => 3
  | .alias => 2
  | .output | .extension => 1
  | .help | .verbose | .rich | .everyOccurrence | .showCode | .withEnd => 0

inductive Spelling
  | letter (c : Char)
  | word (text : String)
  deriving DecidableEq, Repr

abbrev OptionTable := List (Spelling × OptionName)

inductive Reading
  | value
  /-- An option; `attached` is the text behind its letter or word. -/
  | option (name : OptionName) (attached : List Char)
  /-- The two dashes behind which there are no more options. -/
  | divider
  | unknown
  deriving DecidableEq, Repr

/-- Whether a text is a negative number, whole or with a point. A newline may stand behind it. -/
def isNegativeNumber (text : List Char) : Bool :=
  let number := if text.getLast? = some '\n' then text.dropLast else text
  match number with
  | '-' :: digits =>
    match digits.dropWhile Text.isDecimal with
    | [] => !digits.isEmpty
    | '.' :: fraction => !fraction.isEmpty && fraction.all Text.isDecimal
    | _ => false
  | _ => false

def readUnspelled (text : List Char) : Reading :=
  if isNegativeNumber text || text.contains ' ' then .value else .unknown

namespace OptionTable

def find? (t : OptionTable) (spelling : Spelling) : Option OptionName :=
  (List.find? (·.1 = spelling) t).map Prod.snd

def startingLike (t : OptionTable) (start : List Char) : List OptionName :=
  t.filterMap fun
    | (.word text, name) => if start.isPrefixOf text.toList then some name else none
    | (.letter _, _) => none

/-- Reads a text that stands behind two dashes. A word in full comes before one cut short. -/
def readWord (t : OptionTable) (text : List Char) : Reading :=
  let start := text.takeWhile (· ≠ '=')
  let attached := text.dropWhile (· ≠ '=')
  match t.find? (.word (String.ofList start)), t.startingLike start with
  | some name, _ | none, [name] => .option name attached
  | none, [] => readUnspelled ('-' :: '-' :: text)
  | none, _ => .unknown

def read (t : OptionTable) (argument : String) : Reading :=
  match argument.toList with
  | ['-', '-'] => .divider
  | '-' :: '-' :: text => t.readWord text
  | '-' :: c :: attached =>
    match t.find? (.letter c) with
    | some name => .option name attached
    | none => readUnspelled ('-' :: c :: attached)
  | _ => .value

end OptionTable

/-- What one argument asks for: options without values, and then an option with its value, as far
as that is attached. -/
structure Spelled where
  switches : List OptionName
  name : OptionName
  value : Option String
  deriving DecidableEq, Repr

/-- What an option asks for with text attached to it; nothing if it can do nothing with the text. -/
def OptionTable.spelled? (t : OptionTable) (name : OptionName) : List Char → Option Spelled
  | [] => some ⟨[], name, none⟩
  | c :: text =>
    if name.arity = 1 then
      some ⟨[], name, some (String.ofList (if c = '=' then text else c :: text))⟩
    else if name.arity = 0 then
      match t.find? (.letter c) with
      | some next => (t.spelled? next text).map fun s => { s with switches := name :: s.switches }
      | none => none
    else none

end ContractLinker.Command
