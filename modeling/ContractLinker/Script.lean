import ContractLinker.Batch

/-!
# Scripts

A script, or a transaction, is a single source that is not deployed. Its quoted locations are
resolved straight to addresses: to the address listed for the path they lead to, and failing that
to the address under their alias key.
-/

namespace ContractLinker

structure Script where
  code : String
  filename : String
  program : Program
  deriving DecidableEq, Repr

namespace Script

def ofCode (filename code : String) : Except Failure Script :=
  (Program.parse filename code).map (⟨code, filename, ·⟩)

/-- Addresses by cleaned path, from pairs of a path and its address text. -/
def targetsOf (contracts : List (String × String)) : Except Failure (Table String Address) :=
  (contracts.mapM fun row => (Address.parse row.2).map (Path.clean row.1, ·)).map Table.ofList

def resolveLocation (options : Options) (s : Script) (path : String)
    (contracts : Table String Address) (aliases : AliasTable) (location : String) :
    Except Failure Address :=
  let target := Path.locate path location
  match contracts.get? target with
  | some a => .ok a
  | none =>
    match aliases.get? (Path.aliasKey options.extensions location) with
    | some text => Address.parse text
    | none =>
      .error (.unresolved ⟨path, location, target, s.filename,
        (s.program.find? location).map (·.span)⟩)

def resolveLocations (options : Options) (s : Script) (path : String)
    (contracts : Table String Address) (aliases : AliasTable) :
    Table String Address → List String → Logged (Table String Address)
  | resolved, [] => pure resolved
  | resolved, location :: rest =>
    if resolved.contains location then
      resolveLocations options s path contracts aliases resolved rest
    else do
      let a ← .ofExcept (s.resolveLocation options path contracts aliases location)
      Logged.note .debug (path ++ ": \"" ++ location ++ "\" -> " ++ a.literal)
      resolveLocations options s path contracts aliases (resolved.insert location a) rest

/-- The code with every quoted location replaced by an address, as seen from `path`. -/
def resolve (options : Options) (s : Script) (path : String) (contracts : Table String String)
    (aliases : AliasTable) : Logged String := do
  Logged.stage "Resolving imports" (some path)
  let targets ← .ofExcept (targetsOf contracts.entries)
  let resolved ← s.resolveLocations options path targets aliases .empty s.program.locations
  return Substitution.locations options.everyOccurrence s.code resolved.entries

end Script

end ContractLinker
