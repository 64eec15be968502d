/-!
# Splitting

Cutting a text at every occurrence of a separator. There is always one piece more than there are
separators.
-/

namespace ContractLinker.Text

/-- The pieces between separators, empty ones included. -/
def split (separator : Char) : List Char → List (List Char)
  | [] => [[]]
  | c :: rest =>
    if c = separator then [] :: split separator rest
    else match split separator rest with
      | [] => [[c]]
      | piece :: others => (c :: piece) :: others

theorem split_ne_nil (separator : Char) (cs : List Char) : split separator cs ≠ [] := by
  cases cs with
  | nil => simp [split]
  | cons c rest =>
    simp only [split]
    split
    · simp
    · split <;> simp

end ContractLinker.Text
