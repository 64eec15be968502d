import ContractLinker.Environment
import ContractLinker.Path

/-!
# Diagnostics

A diagnostic tells the user of a failure: what kind of matter it is, what went wrong, and where.
Its header is one line; the place comes first as far as it is known.
-/

namespace ContractLinker

structure Diagnostic where
  kind : String
  message : String
  contractName : Option String := none
  filename : Option String := none
  line : Option Int := none
  column : Option Int := none
  /-- Line and column behind the end, if the extent is known. -/
  endLine : Option Int := none
  endColumn : Option Int := none
  deriving DecidableEq, Repr

namespace Diagnostic

def error (message : String) : Diagnostic := { kind := "error", message }

def input (message : String) : Diagnostic := error ("input: " ++ message)

/-- An error in the text of a file, at a line and column if they are known. -/
def malformed (message : String) (filename : Option String) (place : Option (Int × Int)) :
    Diagnostic :=
  { error ("syntax: " ++ message) with
    filename
    line := place.map Prod.fst
    column := place.map Prod.snd }

def placeOf (p : Position) : Int × Int := (p.line, p.column)

/-- An error in an import of a contract, with the places of its start and its end if they are
known. -/
def unlinked (message contractName : String) (filename : Option String)
    (extent : Option ((Int × Int) × (Int × Int))) : Diagnostic :=
  { error ("import: " ++ message) with
    contractName
    filename
    line := extent.map (·.1.1)
    column := extent.map (·.1.2)
    endLine := extent.map (·.2.1)
    endColumn := extent.map (·.2.2) }

/-- The diagnostic of a failure. Only a missing contract has none, as it is no fault of the
input. -/
def ofFailure? (failure : Failure) : Option Diagnostic :=
  match failure with
  | .lexical filename fault =>
    some (malformed failure.message filename (placeOf fault.position))
  | .grammar filename fault =>
    some (malformed failure.message filename (placeOf fault.token.position))
  | .unresolved u =>
    some (unlinked failure.message u.importer u.filename
      (u.span.map fun s => (placeOf s.start, placeOf s.finish)))
  | .cyclic _ => some (error ("import: " ++ failure.message))
  | .unreadable _ _ => some (error ("file: " ++ failure.message))
  | .registeredTwice _ _ | .closed _ | .malformedAddress _ | .malformedAlias _ =>
    some (input failure.message)
  | .outputCollision _ _ _ => some (error ("output: " ++ failure.message))
  | .unknownContract _ => none

def absolute (workingDirectory filename : String) : String :=
  Path.clean (Path.join workingDirectory filename)

/-- The place as the header shows it; column and contract are only shown behind a line. -/
def place (workingDirectory : String) (d : Diagnostic) : String :=
  let file := (d.filename.map (absolute workingDirectory)).getD ""
  match d.line with
  | none => file
  | some line =>
    file ++ ":" ++ toString line ++
      ((d.column.map fun column => ":" ++ toString column).getD "") ++
      ((d.contractName.map fun name => "(" ++ name ++ ")").getD "")

def header (workingDirectory : String) (d : Diagnostic) : String :=
  let place := d.place workingDirectory
  (if place = "" then "" else place ++ ": ") ++ d.kind ++ ": " ++ d.message

end Diagnostic

end ContractLinker
