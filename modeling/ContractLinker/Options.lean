import ContractLinker.Log

/-!
# Options

What a run leaves to its caller: how locations are linked and replaced, and how the log is shown.
-/

namespace ContractLinker

/-- The choices that bear on results. -/
structure Options where
  /-- Stripped from the last segment of a location to form its alias key. -/
  extensions : List String := [".cdc", ".src"]
  /-- Whether a location is replaced wherever it occurs, and not only where it occurs first. -/
  everyOccurrence : Bool := false
  deriving DecidableEq, Repr

structure Settings extends Options where
  log : Log.Settings := {}
  deriving DecidableEq, Repr

end ContractLinker
