/-!
# Logging

Operations say what they do in entries of a level each. Which entries are shown, and how, is
settled only when a log is rendered: an entry is shown if its level is within the threshold.
-/

namespace ContractLinker.Log

inductive Level
  | silent
  | error
  | warning
  | info
  | debug
  deriving DecidableEq, Repr, Inhabited

namespace Level

/-- Higher is more talkative. -/
def rank : Level → Nat
  | .silent => 0
  | .error => 3
  | .warning => 6
  | .info => 10
  | .debug => 30

def label : Level → String
  | .silent => "SILENT"
  | .error => "ERROR"
  | .warning => "WARNING"
  | .info => "INFO"
  | .debug => "DEBUG"

def all : List Level := [.silent, .error, .warning, .info, .debug]

def ofLabel? (label : String) : Option Level := all.find? (·.label = label)

end Level

structure Entry where
  level : Level
  message : String
  deriving DecidableEq, Repr

def Entry.stage (stage : String) (subject : Option String) : Entry :=
  match subject with
  | none | some "" => ⟨.info, stage ++ "..."⟩
  | some name => ⟨.info, stage ++ " for '" ++ name ++ "'"⟩

/-- What of a log is shown, and whether time and level stand before each entry. -/
structure Settings where
  threshold : Level := .warning
  rich : Bool := false
  deriving DecidableEq, Repr

def Settings.admits (s : Settings) (e : Entry) : Bool := e.level.rank ≤ s.threshold.rank

def Settings.mark (s : Settings) (stamp : String) (level : Level) : String :=
  if s.rich ∧ level ≠ .silent then stamp ++ " [" ++ level.label ++ "] " else ""

def Entry.render (stamp : String) (s : Settings) (e : Entry) : String :=
  if s.admits e then s.mark stamp e.level ++ e.message ++ "\n" else ""

/-- An entry shown without settings, which is pointed out each time. -/
def Entry.renderUnset (e : Entry) : String :=
  "No context provided for logging.\n" ++ e.message ++ "\n"

def render (stamp : String) (settings : Option Settings) (entries : List Entry) : String :=
  String.join (entries.map fun e =>
    match settings with
    | some s => e.render stamp s
    | none => e.renderUnset)

end ContractLinker.Log
