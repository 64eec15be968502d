import ContractLinker.Batch
import ContractLinker.Text.Split

/-!
# The alias table of a run

Aliases come from a variable of the environment, as `KEY=ADDRESS` entries separated by commas, and
from the command line, which has the last word. Blanks around entries, keys and addresses do not
count, and blank entries are passed over. Addresses are not read here.
-/

namespace ContractLinker.Command

/-- The key and the address of an entry, parted at the first `=`; neither may be blank. -/
def entryOf? (entry : List Char) : Option (String × String) :=
  match entry.dropWhile (· ≠ '=') with
  | [] => none
  | _ :: rest =>
    let key := Text.trim (entry.takeWhile (· ≠ '='))
    let address := Text.trim rest
    if key = [] ∨ address = [] then none else some (String.ofList key, String.ofList address)

def entriesOf (text : List Char) : List (List Char) :=
  ((Text.split ',' text).map Text.trim).filter (· ≠ [])

/-- The pairs that entries stand for, up to the first that is no entry. -/
def pairsOf : List (List Char) → Except Failure (List (String × String))
  | [] => .ok []
  | entry :: rest =>
    match entryOf? entry with
    | some pair => (pairsOf rest).map (pair :: ·)
    | none => .error (.malformedAlias (String.ofList entry))

/-- The keys of a table in the order of their characters, as the log lists them. -/
def shownKeys (aliases : AliasTable) : String :=
  let keys := aliases.keys.mergeSort (fun a b => decide (a ≤ b))
  if keys = [] then "<none>"
  else String.intercalate "," (keys.map fun key => "'" ++ key ++ "'")

/-- The table of the entries of the variable, if it is set, overridden by further pairs. -/
def aliasTable (entries : Option String) (pairs : List (String × String)) : Logged AliasTable := do
  let listed ← .ofExcept (pairsOf (entriesOf (entries.getD "").toList))
  let aliases := (Table.ofList listed).insertAll pairs
  Logged.note .info ("Alias(es): " ++ shownKeys aliases)
  return aliases

end ContractLinker.Command
