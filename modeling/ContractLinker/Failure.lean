import ContractLinker.Import.Reader

/-!
# Failures

All the ways in which registering, linking, ordering and writing contracts can fail, and the text
of each. A failure ends the operation that meets it; nothing is tried again.
-/

namespace ContractLinker

/-- An import whose location leads neither to a contract nor to an alias. -/
structure UnresolvedImport where
  importer : String
  location : String
  path : String
  filename : Option String
  span : Option Span
  deriving DecidableEq, Repr

inductive Failure
  | malformedAddress (text : String)
  /-- An entry of the alias variable that is no `KEY=ADDRESS`. -/
  | malformedAlias (entry : String)
  | lexical (filename : String) (fault : Lexeme.Fault)
  | grammar (filename : String) (fault : Import.Fault)
  | unreadable (path reason : String)
  /-- A second contract for a path; `owner` is the first one's name. -/
  | registeredTwice (path owner : String)
  /-- A contract that comes after linking has begun. -/
  | closed (name : String)
  | unresolved (which : UnresolvedImport)
  /-- Contract names along a cycle of imports, the first one again at the end. -/
  | cyclic (names : List String)
  | outputCollision (path first second : String)
  /-- A dependency on a contract that was not given. -/
  | unknownContract (id : Int)
  deriving DecidableEq, Repr

namespace Failure

def aliasVariable : String := "CP_ALIASES"

def message : Failure → String
  | .malformedAddress text =>
    Code.tag ⟨.address, 10⟩
      ("invalid address " ++ Text.quoted text ++ ": expected hexadecimal digits")
  | .malformedAlias entry =>
    Code.tag ⟨.address, 10⟩
      ("invalid alias entry " ++ Text.quoted entry ++ " in $" ++ aliasVariable ++
        ", expected KEY=ADDRESS")
  | .lexical _ fault => fault.message
  | .grammar _ fault => fault.message
  | .unreadable path reason =>
    Code.tag ⟨.preparation, 10⟩ ("cannot read contract source '" ++ path ++ "': " ++ reason)
  | .registeredTwice path owner =>
    Code.tag ⟨.preparation, 20⟩
      ("contract source '" ++ path ++ "' is already registered as '" ++ owner ++ "'")
  | .closed name =>
    Code.tag ⟨.preparation, 21⟩
      ("cannot register contract '" ++ name ++ "': imports have already been resolved")
  | .unresolved u =>
    Code.tag ⟨.preparation, 30⟩
      ("import from '" ++ u.importer ++ "' could not be resolved: \"" ++ u.location ++
        "\" (looked up as '" ++ u.path ++
        "'), make sure the import path is correct or configure an alias")
  | .cyclic names =>
    Code.tag ⟨.preparation, 40⟩ ("cyclic import detected: " ++ String.intercalate " -> " names)
  | .outputCollision path first second =>
    Code.tag ⟨.preparation, 50⟩
      ("contracts '" ++ first ++ "' and '" ++ second ++ "' would both be written to '" ++ path ++
        "'")
  | .unknownContract id => toString id

end Failure

def Address.parse (text : String) : Except Failure Address :=
  match Address.ofText? text with
  | some a => .ok a
  | none => .error (.malformedAddress text)

def Program.parse (filename source : String) : Except Failure Program :=
  match Token.Sequence.ofSource source with
  | .error fault => .error (.lexical filename fault)
  | .ok tokens =>
    match Program.ofTokens filename tokens with
    | .error fault => .error (.grammar filename fault)
    | .ok program => .ok program

end ContractLinker
