import ContractLinker.Command.Spelling
import ContractLinker.Options

/-!
# Arguments

The arguments of a command line: options for every command, the name of a command, and the
options and positional arguments of that command in any order. `parse?` gives nothing for a line
that is no use of the program.
-/

namespace ContractLinker.Command

structure ContractArgument where
  name : String
  path : String
  target : String
  deriving DecidableEq, Repr

inductive Action
  | order (contracts : List ContractArgument) (aliases : List (String × String))
      (showCode : Bool) (directory : Option String)
  | resolve (contracts : List ContractArgument) (aliases : List (String × String))
      (output : Option String) (file : String)
  | imports (file : String)
  | tokens (withEnd : Bool) (file : String)
  deriving DecidableEq, Repr

structure Flags where
  verbosity : Nat := 0
  rich : Bool := false
  everyOccurrence : Bool := false
  extensions : List String := []
  deriving DecidableEq, Repr

structure Arguments where
  flags : Flags
  action : Action
  deriving DecidableEq, Repr

def Flags.threshold (f : Flags) : Log.Level :=
  if f.verbosity ≥ 3 then .debug else if f.verbosity ≥ 1 then .info else .error

def withPoint (extension : String) : String :=
  if extension.toList.head? = some '.' then extension else "." ++ extension

/-- The settings that flags ask for; without extensions the usual ones hold. -/
def Flags.settings (f : Flags) : Settings :=
  let usual : Options := {}
  let extensions := if f.extensions = [] then usual.extensions else f.extensions
  { extensions := extensions.map withPoint
    everyOccurrence := f.everyOccurrence
    log := ⟨f.threshold, f.rich⟩ }

/-! ### Options and values -/

/-- A part of a command line: an option with its values, or a value that belongs to no option. -/
inductive Item
  | option (name : OptionName) (values : List String)
  | positional (text : String)
  deriving DecidableEq, Repr

/-- The next `count` arguments, if all of them can be values. -/
def takeValues? (t : OptionTable) (count : Nat) (arguments : List String) : Option (List String) :=
  let values := arguments.take count
  if values.length = count ∧ values.all (t.read · = .value) then some values else none

/-- The items that an argument asks for, and the arguments behind its values. -/
def Spelled.items? (s : Spelled) (t : OptionTable) (rest : List String) :
    Option (List Item × List String) :=
  let switches := s.switches.map (Item.option · [])
  match s.value with
  | some value => some (switches ++ [.option s.name [value]], rest)
  | none => (takeValues? t s.name.arity rest).map fun values =>
      (switches ++ [.option s.name values], rest.drop s.name.arity)

/-- The items of an argument that is an option, and the arguments behind its values. There are none
for a request for help. -/
def takeOption? (t : OptionTable) (name : OptionName) (attached : List Char)
    (rest : List String) : Option (List Item × List String) :=
  match t.spelled? name attached with
  | some s => if .help ∈ s.name :: s.switches then none else s.items? t rest
  | none => none

theorem length_le_of_takeOption? {t : OptionTable} {name : OptionName} {attached : List Char}
    {rest behind : List String} {items : List Item}
    (h : takeOption? t name attached rest = some (items, behind)) :
    behind.length ≤ rest.length := by
  unfold takeOption? at h
  split at h
  · split at h
    · cases h
    · unfold Spelled.items? at h
      split at h
      · cases h
        exact Nat.le_refl _
      · obtain ⟨values, -, h⟩ := Option.map_eq_some_iff.mp h
        cases h
        simp only [List.length_drop]
        omega
  · cases h

/-- Tells the options of a command from its positional arguments. A divider has to stand next to a
positional argument, and no option behind it. -/
def items? (t : OptionTable) : List String → Option (List Item)
  | [] => some []
  | argument :: rest =>
    match t.read argument with
    | .value =>
      if rest = ["--"] then some [.positional argument]
      else (items? t rest).map (.positional argument :: ·)
    | .divider => if rest = [] then none else some (rest.map .positional)
    | .unknown => none
    | .option name attached =>
      match h : takeOption? t name attached rest with
      | some (items, behind) =>
        have := length_le_of_takeOption? h
        (items? t behind).map (items ++ ·)
      | none => none
termination_by arguments => arguments.length

def contractArguments (items : List Item) : List ContractArgument :=
  items.filterMap fun
    | .option .contract [name, path, target] => some ⟨name, path, target⟩
    | _ => none

def aliasArguments (items : List Item) : List (String × String) :=
  items.filterMap fun
    | .option .alias [key, address] => some (key, address)
    | _ => none

def outputArgument (items : List Item) : Option String :=
  (items.filterMap fun
    | .option .output [value] => some value
    | _ => none).getLast?

def positionals (items : List Item) : List String :=
  items.filterMap fun
    | .positional text => some text
    | _ => none

def helpOptions : OptionTable := [(.letter 'h', .help), (.word "help", .help)]

def linkingOptions : OptionTable :=
  helpOptions ++
    [(.letter 'c', .contract), (.word "contract", .contract), (.letter 'a', .alias),
      (.word "alias", .alias), (.letter 'o', .output)]

def orderOptions : OptionTable :=
  linkingOptions ++ [(.word "output-dir", .output), (.word "show-code", .showCode)]

def resolveOptions : OptionTable := linkingOptions ++ [(.word "output", .output)]

def tokensOptions : OptionTable :=
  helpOptions ++ [(.letter 'I', .withEnd), (.word "include-eof", .withEnd)]

def orderAction? (arguments : List String) : Option Action := do
  let items ← items? orderOptions arguments
  guard (positionals items = [])
  return .order (contractArguments items) (aliasArguments items)
    (items.contains (.option .showCode [])) (outputArgument items)

def resolveAction? (arguments : List String) : Option Action := do
  let items ← items? resolveOptions arguments
  let [file] := positionals items | none
  return .resolve (contractArguments items) (aliasArguments items) (outputArgument items) file

def importsAction? (arguments : List String) : Option Action := do
  let items ← items? helpOptions arguments
  let [file] := positionals items | none
  return .imports file

def tokensAction? (arguments : List String) : Option Action := do
  let items ← items? tokensOptions arguments
  let [file] := positionals items | none
  return .tokens (items.contains (.option .withEnd [])) file

def action? (command : String) (arguments : List String) : Option Action :=
  if command = "order" ∨ command = "deploy" then orderAction? arguments
  else if command = "resolve" then resolveAction? arguments
  else if command = "imports" then importsAction? arguments
  else if command = "tok" ∨ command = "tokens" then tokensAction? arguments
  else none

/-! ### The command line -/

def commonOptions : OptionTable :=
  helpOptions ++
    [(.letter 'v', .verbose), (.word "verbose", .verbose), (.letter 'l', .rich),
      (.word "log", .rich), (.word "replace-all", .everyOccurrence), (.word "ext", .extension)]

def Flags.adding (f : Flags) : Item → Flags
  | .option .verbose _ => { f with verbosity := f.verbosity + 1 }
  | .option .rich _ => { f with rich := true }
  | .option .everyOccurrence _ => { f with everyOccurrence := true }
  | .option .extension values => { f with extensions := f.extensions ++ values }
  | _ => f

/-- Reads the options for every command; all behind the command's name belongs to it. -/
def parseFrom? (flags : Flags) : List String → Option Arguments
  | [] => none
  | argument :: rest =>
    match commonOptions.read argument with
    | .value => (action? argument rest).map (⟨flags, ·⟩)
    | .divider | .unknown => none
    | .option name attached =>
      match h : takeOption? commonOptions name attached rest with
      | some (items, behind) =>
        have := length_le_of_takeOption? h
        parseFrom? (items.foldl Flags.adding flags) behind
      | none => none
termination_by arguments => arguments.length

def parse? (arguments : List String) : Option Arguments := parseFrom? {} arguments

end ContractLinker.Command
