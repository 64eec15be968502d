import ContractLinker.Text.Blank
import ContractLinker.Text.Split

/-!
# Paths

A path is text whose segments are separated by `/`. Cleaning is lexical: it drops empty segments
and `.`, lets `..` take back the segment before it, and never asks the file system. The location of
an import is read against the directory of the file that imports it; the alias key of a location
is its last segment without a source extension.
-/

namespace ContractLinker.Path

abbrev Segment := List Char

/-- The pieces between the slashes of a text, empty ones included. -/
def pieces (path : List Char) : List Segment := Text.split '/' path

/-- The slashes that make a path absolute. Two are a root of their own; more count as one. -/
def rootOf : List Char → List Char
  | '/' :: '/' :: '/' :: _ => ['/']
  | '/' :: '/' :: _ => ['/', '/']
  | '/' :: _ => ['/']
  | _ => []

def here : Segment := ['.']

def parent : Segment := ['.', '.']

/-- Follows one piece from the segments walked so far, innermost first. Going up from a root stays
there; going up from nowhere is kept as `..`. -/
def follow (rooted : Bool) (walked : List Segment) (piece : Segment) : List Segment :=
  if piece = [] ∨ piece = here then walked
  else if piece = parent then
    match walked with
    | [] => if rooted then [] else [parent]
    | last :: rest => if last = parent then parent :: walked else rest
  else piece :: walked

def settle (rooted : Bool) (ps : List Segment) : List Segment :=
  (ps.foldl (follow rooted) []).reverse

/-- The text of a root and segments; a path without either is `.`. -/
def print (root : List Char) (segments : List Segment) : List Char :=
  match root ++ List.intercalate ['/'] segments with
  | [] => here
  | text => text

def cleanChars (path : List Char) : List Char :=
  let root := rootOf path
  print root (settle (!root.isEmpty) (pieces path))

def clean (path : String) : String := String.ofList (cleanChars path.toList)

/-- A path followed from a directory; an absolute one starts anew. -/
def joinChars (directory path : List Char) : List Char :=
  if path.head? = some '/' then path
  else if directory = [] ∨ directory.getLast? = some '/' then directory ++ path
  else directory ++ '/' :: path

def join (directory path : String) : String :=
  String.ofList (joinChars directory.toList path.toList)

def dropTrailingSlashes (path : List Char) : List Char := Text.dropTrailing (· = '/') path

/-- All up to the last slash. It goes without the slashes at its end, unless it has nothing else. -/
def directoryChars (path : List Char) : List Char :=
  let head := Text.dropTrailing (· ≠ '/') path
  match dropTrailingSlashes head with
  | [] => head
  | directory => directory

def directory (path : String) : String := String.ofList (directoryChars path.toList)

/-- All behind the last slash. -/
def lastSegmentChars (path : List Char) : Segment := (path.reverse.takeWhile (· ≠ '/')).reverse

def lastSegment (path : String) : String := String.ofList (lastSegmentChars path.toList)

/-- Where an import location leads from the file at `base`. -/
def locate (base location : String) : String := clean (join (directory base) location)

/-- A name without an extension that it ends in and does not consist of. The empty extension takes
the whole name. -/
def withoutExtension? (extension name : List Char) : Option (List Char) :=
  if extension.isSuffixOf name ∧ extension.length < name.length then
    some (if extension = [] then [] else name.take (name.length - extension.length))
  else none

/-- The last segment of a location, read past slashes at its end, without the first of the
extensions that it bears. A location of slashes only is its own name. -/
def aliasKeyChars (extensions : List (List Char)) (location : List Char) : List Char :=
  let name := match lastSegmentChars (dropTrailingSlashes location) with
    | [] => location
    | segment => segment
  (extensions.findSome? (withoutExtension? · name)).getD name

def aliasKey (extensions : List String) (location : String) : String :=
  String.ofList (aliasKeyChars (extensions.map String.toList) location.toList)

/-- The path as the file system is asked for it and shows it: without empty and `.` segments, but
with every `..`. -/
def tidy (path : String) : String :=
  let cs := path.toList
  String.ofList (print (rootOf cs) ((pieces cs).filter fun p => p ≠ [] ∧ p ≠ here))

end ContractLinker.Path
