import ContractLinker.Contract

/-!
# The working set

The registered contracts, in the order of their registration. No two of them have one path, and
once the set is frozen no more can be added.
-/

namespace ContractLinker

structure WorkingSet where
  contracts : List Linked := []
  frozen : Bool := false
  deriving DecidableEq, Repr

namespace WorkingSet

def size (s : WorkingSet) : Nat := s.contracts.length

def get? (s : WorkingSet) (path : String) : Option Linked := s.contracts.find? (·.path = path)

def contains (s : WorkingSet) (path : String) : Bool := (s.get? path).isSome

def freeze (s : WorkingSet) : WorkingSet := { s with frozen := true }

def checkOpen (s : WorkingSet) (name path : String) : Except Failure Unit :=
  if s.frozen then .error (.closed name)
  else match s.get? path with
    | some owner => .error (.registeredTwice path owner.name)
    | none => .ok ()

def add (s : WorkingSet) (c : Linked) : Except Failure WorkingSet :=
  match s.checkOpen c.name c.path with
  | .error failure => .error failure
  | .ok _ => .ok { s with contracts := s.contracts ++ [c] }

end WorkingSet

end ContractLinker
