/-!
# Failure codes

Every failure that a run can report bears a code: the family of the stage that found it, and a
number of four digits within the family.
-/

namespace ContractLinker

inductive Code.Family
  | lexical
  | grammar
  | preparation
  | address
  deriving DecidableEq, Repr

structure Code where
  family : Code.Family
  number : Nat
  deriving DecidableEq, Repr

namespace Code

def Family.label : Family → String
  | .lexical => "LEX"
  | .grammar => "PAR"
  | .preparation => "PRE"
  | .address => "ADR"

def Family.numbers : Family → List Nat
  | .lexical => [10, 20, 21, 30, 31, 40, 70]
  | .grammar => [10, 11, 12, 20, 21, 22]
  | .preparation => [10, 20, 21, 30, 40, 50]
  | .address => [10]

def Family.all : List Family := [.lexical, .grammar, .preparation, .address]

def label (code : Code) : String :=
  code.family.label ++ "-" ++ String.ofList ((Nat.toDigits 10 code.number).leftpad 4 '0')

def tag (code : Code) (message : String) : String := "[" ++ code.label ++ "] " ++ message

def catalogue : List (Family × List Code) :=
  Family.all.map fun family => (family, family.numbers.map (⟨family, ·⟩))

end Code

end ContractLinker
