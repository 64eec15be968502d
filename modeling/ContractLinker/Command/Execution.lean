import ContractLinker.Command.Run
import ContractLinker.FileTree

/-!
# Execution

What the events of a run do to a file tree. The first write that the tree refuses ends it.
-/

namespace ContractLinker.Command

/-- The environment that a file tree offers to a run; `wording` words why a file that is there
cannot be read. -/
def environmentOf (workingDirectory : String) (wording : FileTree.Fault → String)
    (aliasEntries : Option String) (tree : FileTree workingDirectory) : Environment where
  workingDirectory
  aliasEntries
  read path :=
    match tree.readText path with
    | .ok text => .ok text
    | .error .missing => .error .missing
    | .error fault => .error (.other (wording fault))

variable {workingDirectory : String}

def execute (tree : FileTree workingDirectory) :
    Event → Except FileTree.Fault (FileTree workingDirectory)
  | .print _ | .log _ => .ok tree
  | .makeDirectories path => tree.makeDirectories path
  | .writeFile path text => tree.writeText path text

def executeAll (tree : FileTree workingDirectory) (events : List Event) :
    Except FileTree.Fault (FileTree workingDirectory) :=
  events.foldlM execute tree

end ContractLinker.Command
