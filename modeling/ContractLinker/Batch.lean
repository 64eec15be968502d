import ContractLinker.Contract.Order
import ContractLinker.Logged
import ContractLinker.Options
import ContractLinker.Path
import ContractLinker.WorkingSet

/-!
# Batches

A batch of contracts is registered one by one and then prepared for deployment: its imports are
linked, its contracts ordered and addresses put into their code.

The first preparation freezes the working set. Linking looks all imports of all contracts up
before it changes any contract, so a failed lookup leaves no link behind; once it has succeeded it
is not done again. Whether the contracts can be ordered does not matter to that.

Aliases belong to the caller and are handed in with every preparation.
-/

namespace ContractLinker

/-- Hexadecimal addresses by alias key. -/
abbrev AliasTable := Table String String

structure Batch where
  set : WorkingSet := {}
  linked : Bool := false
  deriving DecidableEq, Repr

structure Deployment where
  contract : Linked
  code : String
  target : Address
  deriving DecidableEq, Repr

namespace Batch

/-! ### Registration -/

/-- Registers code as if it had been read from `path`. -/
def addCode (b : Batch) (name path code target : String) : Logged (Batch × Linked) := do
  let key := Path.clean path
  .ofExcept (b.set.checkOpen name key)
  let address ← .ofExcept (Address.parse target)
  let program ← .ofExcept (Program.parse path code)
  let contract := Contract.unlinked ⟨b.set.size, name, key, address, code, program⟩
  let set ← .ofExcept (b.set.add contract)
  Logged.note .debug
    ("Registered contract '" ++ name ++ "' from " ++ key ++ " for " ++ address.literal ++ " (" ++
      toString program.locations.length ++ " file import(s))")
  return ({ b with set }, contract)

def addSource (read : String → Except Failure String) (b : Batch) (name path target : String) :
    Logged (Batch × Linked) := do
  .ofExcept (b.set.checkOpen name (Path.clean path))
  let code ← .ofExcept (read path)
  b.addCode name path code target

/-! ### Linking -/

def describe (importer location kind target : String) : String :=
  importer ++ ": \"" ++ location ++ "\" -> " ++ kind ++ " '" ++ target ++ "'"

/-- Where a location of `importer` leads: to the contract at its path, and failing that to the
address under its alias key. -/
def link (options : Options) (aliases : AliasTable) (set : WorkingSet) (importer : Linked)
    (location : String) : Logged Link := do
  let path := Path.locate importer.path location
  let key := Path.aliasKey options.extensions location
  match set.get? path with
  | some dependency =>
    Logged.note .debug (describe importer.name location "contract" dependency.name)
    return .contract dependency.toContract
  | none =>
    match aliases.get? key with
    | some text =>
      Logged.note .debug (describe importer.name location "alias" key)
      return .alias (← .ofExcept (Address.parse text))
    | none =>
      .fail (.unresolved ⟨importer.name, location, path, importer.path,
        (importer.program.find? location).map (·.span)⟩)

def linkLocations (options : Options) (aliases : AliasTable) (set : WorkingSet) :
    Linked → List String → Logged Linked
  | c, [] => pure c
  | c, location :: rest => do
    let target ← link options aliases set c location
    linkLocations options aliases set (c.addLink location target) rest

def linkContracts (options : Options) (aliases : AliasTable) (set : WorkingSet) :
    List Linked → Logged (List Linked)
  | [] => pure []
  | c :: rest => do
    let c ← linkLocations options aliases set c c.program.locations
    let others ← linkContracts options aliases set rest
    return c :: others

def linkAll (options : Options) (aliases : AliasTable) (b : Batch) : Logged (List Linked) := do
  if b.linked then return b.set.contracts
  Logged.stage ("Resolving imports of " ++ toString b.set.size ++ " contract(s)") none
  linkContracts options aliases b.set b.set.contracts

/-! ### Preparation -/

def order (contracts : List Linked) : Logged (List Linked) := do
  Logged.stage "Sorting contracts by deployment order" none
  let ordered ← .ofExcept (Linked.deploymentOrder contracts)
  let names := String.intercalate ", " (ordered.map (·.name))
  Logged.note .info ("Deployment order: " ++ if names = "" then "<empty>" else names)
  return ordered

/-- Links the batch if that has not been done, and orders it. The batch is frozen in any case. -/
def prepare (options : Options) (aliases : AliasTable) (b : Batch) :
    Batch × Logged (List Linked) :=
  let contracts := b.linkAll options aliases
  match contracts.result with
  | .error _ => ({ b with set := b.set.freeze }, contracts)
  | .ok linked => (⟨⟨linked, true⟩, true⟩, contracts >>= order)

def steps (options : Options) (ordered : List Linked) : List Deployment :=
  ordered.map fun c => ⟨c, c.linkedCode options.everyOccurrence, c.target⟩

def plan (options : Options) (aliases : AliasTable) (b : Batch) :
    Batch × Logged (List Deployment) :=
  let (b, ordered) := b.prepare options aliases
  (b, do return steps options (← ordered))

end Batch

end ContractLinker
