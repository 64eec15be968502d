import ContractLinker.Diagnostic
import ContractLinker.Log
import ContractLinker.Text.Lines

/-!
# Snippets

Below its header a diagnostic shows the source line that it is about, behind a gutter with the
line's number, and carets below the columns. Whatever of this is not known is left out.
-/

namespace ContractLinker.Diagnostic

/-- The width of the gutter: that of the line number, but at least five. -/
def gutterWidth (line : Int) : Nat := max 5 (toString line).length

def padLeft (width : Nat) (text : String) : String :=
  String.ofList (text.toList.leftpad width ' ')

def spaces (n : Nat) : String := String.ofList (List.replicate n ' ')

/-- The line of a text that bears a number, counted from one. -/
def lineAt? (text : List Char) (line : Int) : Option (List Char) :=
  if 1 ≤ line then (Text.lines text)[(line - 1).toNat]? else none

/-- The first column marked, and the one behind the last. An extent that ends on another line is
marked to the end of this one. -/
def markedColumns (d : Diagnostic) (line column : Int) (width : Nat) : Int × Int :=
  let first := max 1 column
  match d.endLine, d.endColumn with
  | some endLine, some endColumn =>
    (first, if endLine = line then max first endColumn else width + 1)
  | _, _ => (first, first)

/-- The carets below the columns from `first` to before `behind`, at least one. -/
def carets (first behind : Int) : String :=
  String.ofList (List.replicate (max 1 (behind - first)).toNat '^')

def snippet (text : List Char) (d : Diagnostic) : List String :=
  match d.line with
  | none => []
  | some line =>
    match lineAt? text line with
    | none => []
    | some source =>
      let width := gutterWidth line
      let shown := padLeft width (toString line) ++ " | " ++ String.ofList source
      match d.column with
      | none => [shown]
      | some column =>
        let (first, behind) := d.markedColumns line column source.length
        [shown, spaces width ++ " | " ++ spaces (first - 1).toNat ++ carets first behind]

/-- The text of the file that a diagnostic is about, if it names one that can be read. -/
def sourceText? (env : Environment) (d : Diagnostic) : Option (List Char) :=
  match d.filename with
  | none | some "" => none
  | some filename => (env.read filename).toOption.map String.toList

def report (env : Environment) (d : Diagnostic) : List String :=
  d.header env.workingDirectory :: ((d.sourceText? env).map fun text => d.snippet text).getD []

def entries (env : Environment) (d : Diagnostic) : List Log.Entry :=
  (d.report env).map (⟨.error, ·⟩)

end ContractLinker.Diagnostic
