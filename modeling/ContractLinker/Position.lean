/-!
# Positions and spans

Lines are counted by newlines and columns by characters, both from one. The position behind a text
is found by advancing over it, so positions never have to be stored to be known.
-/

namespace ContractLinker

structure Position where
  line : Nat
  column : Nat
  deriving DecidableEq, Repr, Inhabited

namespace Position

def start : Position := ⟨1, 1⟩

def advance (p : Position) (c : Char) : Position :=
  if c = '\n' then ⟨p.line + 1, 1⟩ else ⟨p.line, p.column + 1⟩

def after (p : Position) (cs : List Char) : Position := cs.foldl advance p

@[simp] theorem after_nil (p : Position) : p.after [] = p := rfl

@[simp] theorem after_cons (p : Position) (c : Char) (cs : List Char) :
    p.after (c :: cs) = (p.advance c).after cs := rfl

theorem after_append (p : Position) (s t : List Char) : p.after (s ++ t) = (p.after s).after t := by
  simp [after, List.foldl_append]

end Position

/-- From a first character to behind a last one. -/
structure Span where
  start : Position
  finish : Position
  deriving DecidableEq, Repr, Inhabited

end ContractLinker
