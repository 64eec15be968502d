import ContractLinker.Failure
import ContractLinker.Substitution
import ContractLinker.Table

/-!
# Contracts

A contract is a source destined for an address. Linking fills in where its quoted locations lead:
to other contracts, or to addresses that aliases give. The linked code follows from the links.
-/

namespace ContractLinker

structure Contract where
  id : Int
  name : String
  path : String
  target : Address
  code : String
  program : Program
  deriving DecidableEq, Repr

/-- A contract with its links, by location. -/
structure Linked extends Contract where
  dependencies : Table String Contract := {}
  aliases : Table String Address := {}
  deriving DecidableEq, Repr

inductive Link
  | contract (c : Contract)
  | alias (a : Address)
  deriving DecidableEq, Repr

namespace Contract

def shown (c : Contract) : String :=
  "Module(" ++ Text.quoted c.name ++ ", " ++ Text.quoted c.path ++ ", " ++ c.target.literal ++ ")"

def unlinked (c : Contract) : Linked := { c with }

end Contract

namespace Linked

def addDependency (c : Linked) (location : String) (dependency : Contract) : Linked :=
  { c with dependencies := c.dependencies.insert location dependency }

def addAlias (c : Linked) (location : String) (target : Address) : Linked :=
  { c with aliases := c.aliases.insert location target }

def addLink (c : Linked) (location : String) : Link → Linked
  | .contract dependency => c.addDependency location dependency
  | .alias target => c.addAlias location target

/-- The addresses that locations lead to, contracts before aliases. -/
def targets (c : Linked) : List (String × Address) :=
  c.dependencies.entries.map (fun row => (row.1, row.2.target)) ++ c.aliases.entries

/-- The code with the address of its target put for every linked location. -/
def linkedCode (every : Bool) (c : Linked) : String := Substitution.locations every c.code c.targets

end Linked

end ContractLinker
