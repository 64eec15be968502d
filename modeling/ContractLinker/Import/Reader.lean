import ContractLinker.Import
import ContractLinker.Token.Sequence

/-!
# Reading imports

Import declarations are found by one pass over the tokens. Outside all brackets the keyword
`import` opens a declaration, and the state says how much of it has been read; everywhere else
only brackets count, which have to close in the order in which they opened.

Behind its keyword a declaration has a location, or a single name, or names between commas that
`from` and a location follow. A location is a string literal or a hexadecimal number. A single
name is told from a row of names by the token behind it, and the declaration ends before that
token.
-/

namespace ContractLinker.Import

inductive State
  /-- Outside declarations, with the brackets that are open, innermost first. -/
  | between (brackets : List Token)
  | keyword (start : Token)
  | name (start first : Token)
  | comma (start : Token) (names : List String)
  /-- Behind a name that follows a comma. -/
  | names (start : Token) (names : List String)
  | source (start : Token) (names : List String)
  deriving DecidableEq, Repr

inductive Cause
  | nameExpected
  | fromExpected
  | locationExpected
  | unmatchedClosing
  | mismatchedClosing (opener : Token)
  | unclosed
  deriving DecidableEq, Repr

structure Fault where
  cause : Cause
  token : Token
  deriving DecidableEq, Repr

def Cause.code : Cause → Code
  | .nameExpected => ⟨.grammar, 10⟩
  | .fromExpected => ⟨.grammar, 11⟩
  | .locationExpected => ⟨.grammar, 12⟩
  | .unmatchedClosing => ⟨.grammar, 20⟩
  | .mismatchedClosing _ => ⟨.grammar, 21⟩
  | .unclosed => ⟨.grammar, 22⟩

def Fault.explanation (fault : Fault) : String :=
  let got := fault.token.shown
  match fault.cause with
  | .nameExpected => "expected imported name after ',', got " ++ got ++ " instead"
  | .fromExpected => "expected 'from' after imported names, got " ++ got ++ " instead"
  | .locationExpected =>
    "expected import location (string or address), got " ++ got ++ " instead"
  | .unmatchedClosing => "unmatched closing " ++ got
  | .mismatchedClosing opener =>
    "mismatched closing " ++ got ++ " for " ++ opener.shown ++ " opened at " ++
      toString opener.position.line ++ ":" ++ toString opener.position.column
  | .unclosed => "unclosed " ++ got ++ " at end of file"

def Fault.message (fault : Fault) : String := fault.cause.code.tag fault.explanation

def locationOf? (t : Token) : Option Location :=
  match t.kind with
  | .string => some (.quoted t.text)
  | .hexadecimal => (Address.ofText? t.text).map .address
  | _ => none

def declare (start last : Token) (names : List String) (location : Location) : Import :=
  ⟨names, location, ⟨start.position, last.finish⟩⟩

def declareName (start first : Token) : Import := declare start first [] (.name first.text)

def stepBetween (brackets : List Token) (t : Token) : Except Fault State :=
  match t.kind with
  | .importKeyword =>
    .ok (if brackets = [] then .keyword t else .between brackets)
  | .opening _ => .ok (.between (t :: brackets))
  | .closing bracket =>
    match brackets with
    | [] => .error ⟨.unmatchedClosing, t⟩
    | opener :: outer =>
      if opener.kind = .opening bracket then .ok (.between outer)
      else .error ⟨.mismatchedClosing opener, t⟩
  | _ => .ok (.between brackets)

def stepLocation (start : Token) (names : List String) (t : Token) :
    Except Fault (State × Option Import) :=
  match locationOf? t with
  | some location => .ok (.between [], some (declare start t names location))
  | none => .error ⟨.locationExpected, t⟩

/-- One token: the state behind it, and the declaration that it completes. -/
def step : State → Token → Except Fault (State × Option Import)
  | .between brackets, t => (stepBetween brackets t).map (·, none)
  | .keyword start, t =>
    if t.kind = .identifier then .ok (.name start t, none) else stepLocation start [] t
  | .name start first, t =>
    if t.kind = .comma then .ok (.comma start [first.text], none)
    else if t.isFrom then .ok (.source start [first.text], none)
    else if t.kind = .string ∨ t.kind = .hexadecimal then .error ⟨.fromExpected, t⟩
    else (stepBetween [] t).map (·, some (declareName start first))
  | .comma start names, t =>
    if t.kind = .identifier then .ok (.names start (names ++ [t.text]), none)
    else .error ⟨.nameExpected, t⟩
  | .names start names, t =>
    if t.kind = .comma then .ok (.comma start names, none)
    else if t.isFrom then .ok (.source start names, none)
    else .error ⟨.fromExpected, t⟩
  | .source start names, t => stepLocation start names t

/-- The end of the tokens, marked by `ending`: the declaration that it completes. -/
def close (ending : Token) : State → Except Fault (Option Import)
  | .between [] => .ok none
  | .between (opener :: _) => .error ⟨.unclosed, opener⟩
  | .keyword _ => .error ⟨.locationExpected, ending⟩
  | .name start first => .ok (some (declareName start first))
  | .comma _ _ => .error ⟨.nameExpected, ending⟩
  | .names _ _ => .error ⟨.fromExpected, ending⟩
  | .source _ _ => .error ⟨.locationExpected, ending⟩

def read (ending : Token) : State → List Token → Except Fault (List Import)
  | state, [] => (close ending state).map Option.toList
  | state, t :: rest =>
    match step state t with
    | .error fault => .error fault
    | .ok (next, declared) => (read ending next rest).map (declared.toList ++ ·)

end ContractLinker.Import

namespace ContractLinker.Program

/-- From the first token to behind the last; a source without tokens has the empty span at its
end. -/
def spanOf (s : Token.Sequence) : Span :=
  ⟨(s.tokens.headD s.ending).position, (s.tokens.getLastD s.ending).finish⟩

def ofTokens (filename : String) (s : Token.Sequence) : Except Import.Fault Program :=
  (Import.read s.ending (.between []) s.tokens).map (⟨·, spanOf s, filename⟩)

end ContractLinker.Program
