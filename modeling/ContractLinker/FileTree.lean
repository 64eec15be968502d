import ContractLinker.Path
import ContractLinker.Text.Lines

/-!
# File trees

The files of a system, and the operations on them that a run needs: reading a text, making
directories and writing a text. A path is walked segment by segment as the file system walks it,
from the root if it is absolute and from the working directory if not; `..` is only followed from a
directory that is there, and from the root it leads to the root. The working directory and those
above it are always there. Names and whole paths have a greatest length; a name is only refused
where it is looked up, a path at once.
-/

namespace ContractLinker

/-- The files of a system, seen from a working directory, which no operation changes. -/
structure FileTree (workingDirectory : String := "/w") where
  /-- Bytes for a file and nothing for a directory, by the segments of its path; an empty first
  segment stands for the root. The directories on the way to an entry need no entries of their
  own. -/
  entries : List (List String × Option ByteArray) := []

namespace FileTree

inductive Fault
  | missing
  | exists
  | isDirectory
  | notDirectory
  | nameTooLong
  | notText
  deriving DecidableEq, Repr

inductive Node
  | nothing
  | directory
  | file (bytes : ByteArray)

/-- The names on the way from the root to a file or a directory. -/
abbrev Place := List String

def nameLimit : Nat := 255

/-- The longest path that is walked, in bytes, as it stands when it is tidied. -/
def pathLimit : Nat := 4095

/-- The place of the working directory. -/
def home (workingDirectory : String) : Place :=
  (Path.settle true (Path.pieces workingDirectory.toList)).map String.ofList

/-- The place of an entry. -/
def placeOf (workingDirectory : String) : List String → Place
  | "" :: names => names
  | names => home workingDirectory ++ names

/-- The segments of a path to a place, from the working directory if the place is below it. -/
def segmentsTo (workingDirectory : String) (place : Place) : List String :=
  if (home workingDirectory).isPrefixOf place then place.drop (home workingDirectory).length
  else "" :: place

/-- Whether a path is absolute, and the segments to follow. -/
def route (path : String) : Bool × List String :=
  let cs := path.toList
  let segments := (Path.pieces cs).filter fun p => p ≠ [] ∧ p ≠ Path.here
  (Path.rootOf cs ≠ [], segments.map String.ofList)

def routeWithin (path : String) : Except Fault (Bool × List String) :=
  if (Path.tidy path).utf8ByteSize > pathLimit then .error .nameTooLong else .ok (route path)

/-- Where a path starts from. -/
def startOf (workingDirectory : String) (absolute : Bool) : Place :=
  if absolute then [] else home workingDirectory

/-- The place that a segment leads to from a directory, whether or not anything is there. -/
def enter (place : Place) (segment : String) : Except Fault Place :=
  if segment = ".." then .ok place.dropLast
  else if segment.utf8ByteSize > nameLimit then .error .nameTooLong
  else .ok (place ++ [segment])

/-- The text that bytes encode, with unified newlines. -/
def textOf (bytes : ByteArray) : Except Fault String :=
  match String.fromUTF8? bytes with
  | some text => .ok (String.ofList (Text.unifyNewlines text.toList))
  | none => .error .notText

variable {workingDirectory : String}

def node (t : FileTree workingDirectory) (place : Place) : Node :=
  if place.isPrefixOf (home workingDirectory) then .directory
  else match t.entries.find? fun entry => placeOf workingDirectory entry.1 = place with
    | some (_, some bytes) => .file bytes
    | some (_, none) => .directory
    | none =>
      if t.entries.any fun entry => place.isPrefixOf (placeOf workingDirectory entry.1) then
        .directory
      else .nothing

/-- Follows segments; each is followed from where the walk has come to. -/
def walk (t : FileTree workingDirectory) : Place → List String → Except Fault Place
  | place, [] => .ok place
  | place, segment :: rest =>
    match t.node place with
    | .nothing => .error .missing
    | .file _ => .error .notDirectory
    | .directory => do t.walk (← enter place segment) rest

/-- The place that a path leads to, whether or not anything is there. -/
def locate (t : FileTree workingDirectory) (path : String) : Except Fault Place := do
  let (absolute, segments) ← routeWithin path
  t.walk (startOf workingDirectory absolute) segments

def readBytes (t : FileTree workingDirectory) (path : String) : Except Fault ByteArray := do
  match t.node (← t.locate path) with
  | .nothing => .error .missing
  | .directory => .error .isDirectory
  | .file bytes => .ok bytes

def readText (t : FileTree workingDirectory) (path : String) : Except Fault String := do
  textOf (← t.readBytes path)

def setEntry (t : FileTree workingDirectory) (place : Place) (content : Option ByteArray) :
    FileTree workingDirectory :=
  ⟨t.entries.filter (fun entry => placeOf workingDirectory entry.1 ≠ place) ++
    [("" :: place, content)]⟩

/-- Makes directories along segments, as far as they are missing. A file in the way of one that is
there is not a directory; once directories have been made (`made`), and at the end, it is what
exists already. -/
def makeDirectoriesFrom (t : FileTree workingDirectory) (made : Bool) :
    Place → List String → Except Fault (FileTree workingDirectory)
  | _, [] => .ok t
  | place, segment :: rest => do
    let next ← enter place segment
    match t.node next with
    | .file _ => .error (if made ∨ rest = [] then .exists else .notDirectory)
    | .nothing => (t.setEntry next none).makeDirectoriesFrom true next rest
    | .directory => t.makeDirectoriesFrom made next rest

/-- Makes a directory and those above it, as far as they are missing. -/
def makeDirectories (t : FileTree workingDirectory) (path : String) :
    Except Fault (FileTree workingDirectory) := do
  let (absolute, segments) ← routeWithin path
  t.makeDirectoriesFrom false (startOf workingDirectory absolute) segments

/-- Writes a text to a file, which is made or replaced; its directory has to be there. -/
def writeText (t : FileTree workingDirectory) (path text : String) :
    Except Fault (FileTree workingDirectory) := do
  let place ← t.locate path
  match t.node place with
  | .directory => .error .isDirectory
  | _ => .ok (t.setEntry place (some text.toUTF8))

/-- The files of a tree that are not in an earlier one, or not with the same bytes. -/
def changedFiles (before t : FileTree workingDirectory) : List (List String × ByteArray) :=
  t.entries.filterMap fun entry =>
    let place := placeOf workingDirectory entry.1
    match entry.2, before.node place with
    | none, _ => none
    | some bytes, .file old =>
      if bytes.data = old.data then none else some (segmentsTo workingDirectory place, bytes)
    | some bytes, _ => some (segmentsTo workingDirectory place, bytes)

end FileTree

end ContractLinker
