import ContractLinker.Command.Aliases
import ContractLinker.Command.Arguments
import ContractLinker.Diagnostic.Snippet
import ContractLinker.Script

/-!
# Runs

What a command does is worked out before anything is done: a run is the row of events that it
causes, and whether it succeeds. A run that fails only logs; it neither prints nor writes.
-/

namespace ContractLinker.Command

inductive Event
  | print (text : String)
  | log (entry : Log.Entry)
  | makeDirectories (path : String)
  | writeFile (path text : String)
  deriving DecidableEq, Repr

structure Run where
  events : List Event
  failure : Option Failure
  deriving DecidableEq, Repr

namespace Run

def status (r : Run) : Nat := if r.failure.isSome then 1 else 0

def output (r : Run) : String :=
  String.join (r.events.map fun
    | .print text => text
    | _ => "")

def entries (r : Run) : List Log.Entry :=
  r.events.filterMap fun
    | .log entry => some entry
    | _ => none

end Run

def printLine (text : String) : Event := .print (text ++ "\n")

/-- The entries that report a failure; one that is no fault of the input is told by its message. -/
def reportEntries (env : Environment) (failure : Failure) : List Log.Entry :=
  match Diagnostic.ofFailure? failure with
  | some diagnostic => diagnostic.entries env
  | none => [⟨.error, failure.message⟩]

/-- A run that works something out, and causes further events if that succeeds. -/
def runOf {α : Type} (env : Environment) (work : Logged α) (further : α → List Event) : Run :=
  match work.result with
  | .error failure => ⟨(work.log ++ reportEntries env failure).map .log, some failure⟩
  | .ok a => ⟨work.log.map .log ++ further a, none⟩

def wrote (path : String) : Event := .log ⟨.info, "Wrote " ++ path⟩

/-! ### Ordering contracts -/

def register (env : Environment) : Batch → List ContractArgument → Logged Batch
  | b, [] => pure b
  | b, c :: rest => do
    let (b, _) ← b.addSource env.readSource c.name c.path c.target
    register env b rest

/-- The file that a contract is written to: one of its source's name in the directory. -/
def outputPath (directory : String) (c : Contract) : String :=
  Path.tidy (Path.join directory (Path.lastSegment c.path))

/-- The output file of each step; `owners` are the names of contracts by the files taken. -/
def outputPaths (directory : String) :
    Table String String → List Deployment → Except Failure (List String)
  | _, [] => .ok []
  | owners, step :: rest =>
    let path := outputPath directory step.contract.toContract
    match owners.get? path with
    | some owner => .error (.outputCollision path owner step.contract.name)
    | none => (outputPaths directory (owners.insert path step.contract.name) rest).map (path :: ·)

/-- An empty name stands for no directory. -/
def namedDirectory? (directory : Option String) : Option String :=
  directory.filter (· ≠ "")

/-- The plan for some contracts, and the files to write its steps to. -/
def planOf (env : Environment) (options : Options) (contracts : List ContractArgument)
    (aliases : List (String × String)) (directory : Option String) :
    Logged (List (Deployment × Option String)) := do
  let table ← aliasTable env.aliasEntries aliases
  let batch ← register env {} contracts
  let steps ← (batch.plan options table).2
  match namedDirectory? directory with
  | none => return steps.map (·, none)
  | some directory =>
    let paths ← .ofExcept (outputPaths directory .empty steps)
    return steps.zip (paths.map some)

def listing (steps : List Deployment) : List Event :=
  steps.zipIdx.map fun (step, i) =>
    printLine (toString (i + 1) ++ ". " ++ step.contract.name ++ " -> " ++ step.target.literal ++
      " (" ++ step.contract.path ++ ")")

def codeListing (steps : List Deployment) : List Event :=
  steps.flatMap fun step =>
    [printLine "", printLine ("=== Contract " ++ step.contract.name ++ " ==="),
      printLine step.code]

def writing (steps : List (Deployment × Option String)) : List Event :=
  steps.flatMap fun
    | (step, some path) => [.writeFile path step.code, wrote path]
    | (_, none) => []

def order (env : Environment) (options : Options) (contracts : List ContractArgument)
    (aliases : List (String × String)) (showCode : Bool) (directory : Option String) : Run :=
  runOf env (planOf env options contracts aliases directory) fun plan =>
    let steps := plan.map Prod.fst
    let target := if steps = [] then none else namedDirectory? directory
    listing steps ++ (if showCode then codeListing steps else []) ++
      target.toList.map .makeDirectories ++ writing plan

/-! ### Resolving a script -/

def resolved (env : Environment) (options : Options) (contracts : List ContractArgument)
    (aliases : List (String × String)) (file : String) : Logged String := do
  let table ← aliasTable env.aliasEntries aliases
  let code ← .ofExcept (env.readSource file)
  let script ← .ofExcept (Script.ofCode file code)
  script.resolve options file (.ofList (contracts.map fun c => (c.path, c.target))) table

def resolve (env : Environment) (options : Options) (contracts : List ContractArgument)
    (aliases : List (String × String)) (output : Option String) (file : String) : Run :=
  runOf env (resolved env options contracts aliases file) fun code =>
    match namedDirectory? output with
    | some path => [.writeFile path code, wrote path]
    | none => [.print code]

/-! ### Listings -/

def padRight (width : Nat) (text : String) : String :=
  String.ofList (text.toList.rightpad width ' ')

def placeInFile (file : String) (p : Position) : String :=
  file ++ ":" ++ toString p.line ++ ":" ++ toString p.column ++ ":\t"

def importLine (file : String) (i : Import) : String :=
  let names := String.intercalate ", " i.names
  placeInFile file i.span.start ++ padRight 8 i.location.label ++ " " ++ i.location.shown ++
    if names = "" then "" else "  [" ++ names ++ "]"

def imports (env : Environment) (file : String) : Run :=
  runOf env (.ofExcept (env.readSource file >>= Program.parse file)) fun program =>
    program.imports.map (printLine ∘ importLine file)

def tokenLine (file : String) (t : Token) : String :=
  placeInFile file t.position ++ padRight 12 t.kind.label ++ " " ++ Text.quoted t.text

def tokensOf (file source : String) : Except Failure Token.Sequence :=
  match Token.Sequence.ofSource source with
  | .error fault => .error (.lexical file fault)
  | .ok tokens => .ok tokens

def tokens (env : Environment) (withEnd : Bool) (file : String) : Run :=
  runOf env (.ofExcept (env.readSource file >>= tokensOf file)) fun tokens =>
    (if withEnd then tokens.toList else tokens.tokens).map (printLine ∘ tokenLine file)

/-! ### Any command -/

/-- The paths that a command may read: those it is given, and for a contract also the cleaned one,
under which a diagnostic may show its source. -/
def sourcePaths : Action → List String
  | .order contracts _ _ _ => contracts.flatMap fun c => [c.path, Path.clean c.path]
  | .resolve _ _ _ file | .imports file | .tokens _ file => [file]

def run (env : Environment) (arguments : Arguments) : Run :=
  let options := arguments.flags.settings.toOptions
  match arguments.action with
  | .order contracts aliases showCode directory =>
    order env options contracts aliases showCode directory
  | .resolve contracts aliases output file => resolve env options contracts aliases output file
  | .imports file => imports env file
  | .tokens withEnd file => tokens env withEnd file

end ContractLinker.Command
