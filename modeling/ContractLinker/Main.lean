import ContractLinker.Command.Execution
import Std.Time.Format

/-!
# The program

Gathers what a run needs from the system, works the run out, and does what it says: standard
output for what it prints, standard error for its log, files for what it writes.
-/

namespace ContractLinker.Command

def usage : String :=
  "usage: contract-linker [-v] [-l] [--replace-all] [--ext EXT] order|resolve|imports|tok ..."

def readText (path : String) : IO (Except ReadFault String) := do
  try
    match FileTree.textOf (← IO.FS.readBinFile (Path.tidy path)) with
    | .ok text => return .ok text
    | .error _ => return .error (.other "not encoded in UTF-8")
  catch
    | .noFileOrDirectory .. => return .error .missing
    | e => return .error (.other (toString e))

/-- The environment of a run that reads no other paths than the given ones. -/
def environment (paths : List String) : IO Environment := do
  let texts ← paths.mapM fun path => do return (path, ← readText path)
  return {
    workingDirectory := (← IO.currentDir).toString
    aliasEntries := ← IO.getEnv Failure.aliasVariable
    read := fun path => ((Table.ofList texts).get? path).getD (.error .missing) }

def stamp : IO String := do
  return (← Std.Time.PlainDateTime.now).format "uuuu-MM-dd HH:mm:ss"

def perform (settings : Log.Settings) : Event → IO Unit
  | .print text => IO.print text
  | .log entry => do IO.eprint (entry.render (← stamp) settings)
  | .makeDirectories path => IO.FS.createDirAll path
  | .writeFile path text => IO.FS.writeFile path text

end ContractLinker.Command

open ContractLinker in
def main (argv : List String) : IO UInt32 := do
  match Command.parse? argv with
  | none =>
    IO.eprintln Command.usage
    return 2
  | some arguments =>
    let env ← Command.environment (Command.sourcePaths arguments.action)
    let run := Command.run env arguments
    run.events.forM (Command.perform arguments.flags.settings.log)
    return UInt32.ofNat run.status
