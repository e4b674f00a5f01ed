import Workflow.File.Host
import Workflow.Text.Span

/-!
# Files in memory

A store of files that can stand in for those of a machine.  Places are told
from the working directory or from the root of the machine; where the working
directory lies is left open, so one can climb out of it, but not come back by
name.  Directories are there because they were made, or because something lies
in them.
-/

namespace Workflow

/-- Where the way to a place starts: at the root of the machine, or a number of
levels above the working directory. -/
inductive StartingPoint where
  | root
  | above (levels : Nat)
  deriving DecidableEq, Repr

/-- A place of a machine: where the way to it starts, and the names along
it. -/
structure Place where
  start : StartingPoint
  names : List String
  deriving DecidableEq, Repr

namespace Place

/-- A place in the working directory. -/
def here (names : List String) : Place :=
  ⟨.above 0, names⟩

/-- A place told from the root of the machine. -/
def absolute (names : List String) : Place :=
  ⟨.root, names⟩

def child (place : Place) (name : String) : Place :=
  ⟨place.start, place.names ++ [name]⟩

/-- The directory that a place lies in; the root lies in itself. -/
def parent : Place → Place
  | ⟨.root, []⟩ => ⟨.root, []⟩
  | ⟨.above levels, []⟩ => ⟨.above (levels + 1), []⟩
  | ⟨start, names⟩ => ⟨start, names.dropLast⟩

/-- Whether the way to one place leads through another, or ends there. -/
def leadsThrough (place through : Place) : Bool :=
  place.start == through.start && through.names.isPrefixOf place.names

end Place

/-- What lies at a place: a file, a directory, or a device that reads as empty
and drops what is written to it. -/
inductive FileEntry where
  | file (content : ByteArray)
  | directory
  | nullDevice

/-- What lies at the places of a machine. -/
structure Store where
  entries : List (Place × FileEntry)

namespace Store

/-- Greatest number of bytes of one name. -/
def maxNameLength : Nat := 255

/-- A file name has fewer bytes than this. -/
def maxPathLength : Nat := 4096

def lookup? (store : Store) (place : Place) : Option FileEntry :=
  if place.names.isEmpty then some .directory
  else
    match store.entries.lookup place with
    | some entry => some entry
    | none =>
        if store.entries.any (·.1.leadsThrough place) then some .directory
        else none

def insert (store : Store) (place : Place) (entry : FileEntry) : Store :=
  ⟨(place, entry) :: store.entries.filter (·.1 != place)⟩

/-- One step from a place, which must be a directory. -/
def step (store : Store) (place : Place) (name : String) :
    Except FileError Place :=
  match store.lookup? place with
  | none => .error .notFound
  | some .directory =>
      if name = "" || name = "." then .ok place
      else if name = ".." then .ok place.parent
      else if maxNameLength < name.utf8ByteSize then .error .nameTooLong
      else .ok (place.child name)
  | some _ => .error .notDirectory

/-- The steps of a file name; a slash at the end is a step that leads
nowhere. -/
def steps (name : String) : List String :=
  (Text.pieces '/' name.toList).map String.ofList

/-- Where the way of a file name starts. -/
def startOf (name : String) : Place :=
  if name.toList.head? == some '/' then .absolute [] else .here []

/-- The place that a file name leads to. -/
def place (store : Store) (name : String) : Except FileError Place :=
  if name = "" then .error .notFound
  else if maxPathLength ≤ name.utf8ByteSize then .error .nameTooLong
  else (steps name).foldlM store.step (startOf name)

/-- What lies at a place that is there. -/
def find (store : Store) (name : String) : Except FileError FileEntry := do
  match store.lookup? (← store.place name) with
  | some entry => return entry
  | none => throw .notFound

def isThere (store : Store) (name : String) : Bool :=
  (store.find name).isOk

def readText (store : Store) (name : String) : Except FileError String := do
  match ← store.find name with
  | .directory => throw .isDirectory
  | .nullDevice => return ""
  | .file content =>
      match String.fromUTF8? content with
      | some text => return text
      | none => throw .notText

/-- A file name without the slashes at its end, unless it has nothing else. -/
def withoutSlashes (name : String) : String :=
  match name.toList.reverse.dropWhile (· == '/') with
  | [] => name
  | reversed => String.ofList reversed.reverse

/-- Writes a file into a directory that is there. A name with a slash at its
end means a directory. -/
def writeText (store : Store) (name text : String) :
    Except FileError Store := do
  let target ← store.place (withoutSlashes name)
  if name.toList.getLast? == some '/' then throw .isDirectory
  match store.lookup? target with
  | some .directory => throw .isDirectory
  | some .nullDevice => return store
  | _ => return store.insert target (.file text.toUTF8)

end Store

def Host.ofStore : Host (StateM Store) where
  isThere name := return (← get).isThere name
  readText name := return (← get).readText name
  writeText name text := do
    match (← get).writeText name text with
    | .error error => return .error error
    | .ok store =>
        set store
        return .ok ()

end Workflow
