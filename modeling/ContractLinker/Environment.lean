import ContractLinker.Failure

/-!
# The environment

All that a run finds outside its arguments. Sources are read at most for their text; what a run
writes comes after everything it reads.
-/

namespace ContractLinker

inductive ReadFault
  | missing
  /-- Anything else, in the words of the system. -/
  | other (reason : String)
  deriving DecidableEq, Repr

def ReadFault.reason : ReadFault → String
  | .missing => "file not found"
  | .other reason => reason

structure Environment where
  workingDirectory : String
  /-- The text at a path, with unified newlines. -/
  read : String → Except ReadFault String
  aliasEntries : Option String := none

def Environment.readSource (env : Environment) (path : String) : Except Failure String :=
  match env.read path with
  | .ok text => .ok text
  | .error fault => .error (.unreadable path fault.reason)

end ContractLinker
