import ContractLinker.Failure
import ContractLinker.Log

/-!
# Logged operations

The outcome of an operation, together with the entries it made up to its end or its failure. The
outcome never depends on the entries: `result_bind` runs the outcomes alone.
-/

namespace ContractLinker

structure Logged (α : Type) where
  log : List Log.Entry
  result : Except Failure α

namespace Logged

variable {α β : Type}

def ofExcept (result : Except Failure α) : Logged α := ⟨[], result⟩

def fail (failure : Failure) : Logged α := ⟨[], .error failure⟩

def note (level : Log.Level) (message : String) : Logged Unit := ⟨[⟨level, message⟩], .ok ()⟩

def stage (stage : String) (subject : Option String) : Logged Unit :=
  ⟨[.stage stage subject], .ok ()⟩

instance : Monad Logged where
  pure a := ⟨[], .ok a⟩
  bind x f :=
    match x.result with
    | .error failure => ⟨x.log, .error failure⟩
    | .ok a =>
      let y := f a
      ⟨x.log ++ y.log, y.result⟩

@[simp] theorem result_pure (a : α) : (pure a : Logged α).result = .ok a := rfl

@[simp] theorem log_pure (a : α) : (pure a : Logged α).log = [] := rfl

@[simp] theorem result_ofExcept (r : Except Failure α) : (ofExcept r).result = r := rfl

@[simp] theorem result_note (level : Log.Level) (message : String) :
    (note level message).result = .ok () := rfl

@[simp] theorem result_stage (name : String) (subject : Option String) :
    (stage name subject).result = .ok () := rfl

@[simp] theorem result_bind (x : Logged α) (f : α → Logged β) :
    (x >>= f).result = x.result.bind fun a => (f a).result := by
  obtain ⟨log, result⟩ := x
  cases result <;> rfl

end Logged

end ContractLinker
