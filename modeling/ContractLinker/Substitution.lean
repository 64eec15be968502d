import ContractLinker.Address

/-!
# Substituting addresses for locations

The quoted spelling of a resolved location gives way in the text of the source to the literal of
the target address, either where it occurs first or wherever it occurs. Several locations are
substituted one after the other, each in the text that the one before it left.
-/

namespace ContractLinker.Substitution

def quotedSpelling (location : List Char) : List Char := '"' :: location ++ ['"']

/-- The text with the first occurrence of `pattern` replaced. -/
def substituteFirst (pattern new : List Char) : List Char → List Char
  | [] => []
  | c :: rest =>
    if pattern.isPrefixOf (c :: rest) then new ++ (c :: rest).drop pattern.length
    else c :: substituteFirst pattern new rest

/-- The text with every occurrence of a non-empty `pattern` replaced. Occurrences are taken from
the left and do not overlap; what is put in is not searched again. -/
def substituteAll (pattern new : List Char) : List Char → List Char
  | [] => []
  | c :: rest =>
    if pattern.isPrefixOf (c :: rest) then
      new ++ substituteAll pattern new (rest.drop (pattern.length - 1))
    else c :: substituteAll pattern new rest
termination_by text => text.length
decreasing_by
  · simp only [List.length_drop, List.length_cons]; omega
  · simp

def locationChars (every : Bool) (code location : List Char) (target : Address) : List Char :=
  let substitute := if every then substituteAll else substituteFirst
  substitute (quotedSpelling location) target.literal.toList code

def location (every : Bool) (code location : String) (target : Address) : String :=
  String.ofList (locationChars every code.toList location.toList target)

def locations (every : Bool) (code : String) (targets : List (String × Address)) : String :=
  targets.foldl (fun text target => location every text target.1 target.2) code

end ContractLinker.Substitution
