import ContractLinker.Address
import ContractLinker.Token

/-!
# Imports and programs

An import declaration takes names from a location. Only a quoted location asks for resolution: an
address is one already, and a bare name is known to the chain. A program is the row of import
declarations at the top level of a source; the rest of the source does not matter to imports.
-/

namespace ContractLinker

namespace Import

inductive Location
  | address (a : Address)
  /-- Text as spelled between quotes. -/
  | quoted (path : String)
  | name (name : String)
  deriving DecidableEq, Repr

def Location.label : Location → String
  | .address _ => "address"
  | .quoted _ => "string"
  | .name _ => "identifier"

def Location.shown : Location → String
  | .address a => a.literal
  | .quoted path => path
  | .name n => n

def Location.quoted? : Location → Option String
  | .quoted path => some path
  | _ => none

end Import

structure Import where
  /-- The names taken; none if the location is imported as a whole. -/
  names : List String
  location : Import.Location
  span : Span
  deriving DecidableEq, Repr

/-- What an import says, without where it stands. -/
def Import.content (i : Import) : List String × Import.Location := (i.names, i.location)

structure Program where
  imports : List Import
  span : Span
  filename : String
  deriving DecidableEq, Repr

namespace Program

/-- The quoted locations in the order of their declarations, repetitions included. -/
def locations (p : Program) : List String := p.imports.filterMap (·.location.quoted?)

/-- The first declaration that imports from a quoted location. -/
def find? (p : Program) (location : String) : Option Import :=
  p.imports.find? (·.location.quoted? = some location)

/-- Whether two programs say the same, wherever their declarations stand. -/
def agrees (p q : Program) : Bool := p.imports.map Import.content = q.imports.map Import.content

end Program

end ContractLinker
