/-!
# Files

The command line reads at most one file and writes at most one.  `FileSystem m` is what it needs
for that in a setting `m`: the files of the machine, or a `Disk` that is a plain value.

## A disk as a value

A `Disk` holds directories and regular files, and one of its directories is where commands run.  A
path is followed part by part from there, or from the topmost directory if it begins with a slash.
Each part has to be looked up in a directory: a name leads down, two dots lead up, and a single dot
and no part at all stay.  Only what the last part names may be missing.

There are no links, and every file may be read and written.

## A directory alone

A `Directory` is the part of a disk that a command finds where it runs, if it finds regular files
there and no other directories.  What lies above has a name that no path spells and holds nothing
at the start; what a command puts there is not part of the directory.
-/

namespace MicroGo
namespace Command

/-- Why a file cannot be read or written. -/
inductive FileError where
  | missing
  | isDirectory
  | notDirectory
  | notText
  | other (reason : String)
deriving Repr, DecidableEq

/-- The wording of a reason. -/
def FileError.message : FileError → String
  | missing => "No such file or directory (os error 2)"
  | isDirectory => "Is a directory (os error 21)"
  | notDirectory => "Not a directory (os error 20)"
  | notText => "stream did not contain valid UTF-8"
  | other reason => reason

/-- Reading a file as text, and writing a text to a file. -/
structure FileSystem (m : Type → Type) where
  read : (path : String) → m (Except FileError String)
  write : (path text : String) → m (Except FileError Unit)

/-- The text of a file's bytes. -/
def textOfBytes (bytes : ByteArray) : Except FileError String :=
  match String.fromUTF8? bytes with
  | some text => .ok text
  | none => .error .notText

/-! ## Places -/

/-- A place on a disk: the names from it up to the topmost directory, its own name first. -/
abbrev Place := List String

namespace Place

/-- The place that a part of a path leads to. -/
def step (place : Place) (part : List Char) : Place :=
  if part = [] ∨ part = ['.'] then place
  else if part = ['.', '.'] then place.tail
  else String.ofList part :: place

/-- The parts of a path between its slashes. -/
def parts : List Char → List (List Char)
  | [] => [[]]
  | c :: cs =>
      if c = '/' then [] :: parts cs
      else
        match parts cs with
        | [] => [[c]]
        | part :: rest => (c :: part) :: rest

/-- The parts without those behind the last name. -/
def trim (parts : List (List Char)) : List (List Char) :=
  (parts.reverse.dropWhile List.isEmpty).reverse

end Place

/-! ## Disks -/

/-- Directories and regular files, each at its place. -/
structure Disk where
  /-- The directory that commands run in. -/
  here : Place
  /-- The directories below the topmost one. -/
  directories : List Place
  files : List (Place × ByteArray)

namespace Disk

/-- There is a directory at the place. -/
def isDirectory (disk : Disk) (place : Place) : Bool :=
  place = [] || disk.directories.contains place

/-- Follows the parts of a path from a place. -/
def follow (disk : Disk) (place : Place) : List (List Char) → Except FileError Place
  | [] => .ok place
  | part :: rest =>
      if disk.isDirectory place then follow disk (place.step part) rest
      else if (disk.files.lookup place).isSome then .error .notDirectory
      else .error .missing

/-- Follows the parts of a path from where it begins. -/
def reach (disk : Disk) (path : String) (parts : List (List Char)) : Except FileError Place :=
  if path = "" then .error .missing
  else disk.follow (if path.toList.head? = some '/' then [] else disk.here) parts

/-- Reads a file as text. -/
def read (disk : Disk) (path : String) : Except FileError String := do
  let place ← disk.reach path (Place.parts path.toList)
  if disk.isDirectory place then .error .isDirectory
  else
    match disk.files.lookup place with
    | some bytes => textOfBytes bytes
    | none => .error .missing

/-- The disk on which a file has been given new contents. -/
def insert (disk : Disk) (place : Place) (bytes : ByteArray) : Disk :=
  { disk with files := disk.files.filter (fun file => file.1 ≠ place) ++ [(place, bytes)] }

/-- Writes a text to a file, which is made if it does not exist.  A name with slashes behind it is
refused as a directory, whatever has the name. -/
def write (disk : Disk) (path text : String) : Except FileError Disk := do
  let place ← disk.reach path (Place.trim (Place.parts path.toList))
  if disk.isDirectory place || path.toList.getLast? = some '/' then .error .isDirectory
  else .ok (disk.insert place text.toUTF8)

/-- A disk as the files to work on. -/
def fileSystem : FileSystem (StateM Disk) where
  read path := do return (← get).read path
  write path text := do
    match (← get).write path text with
    | .ok disk =>
        set disk
        return .ok ()
    | .error e => return .error e

end Disk

/-! ## A directory alone -/

/-- The regular files of a directory. -/
structure Directory where
  files : List (String × ByteArray)

namespace Directory

/-- The place of the directory.  No part of a path is its name. -/
def place : Place :=
  [""]

/-- The disk that holds nothing but the directory. -/
def disk (dir : Directory) : Disk :=
  ⟨place, [place], dir.files.map fun file => (file.1 :: place, file.2)⟩

/-- What lies in the directory. -/
def ofDisk (disk : Disk) : Directory :=
  ⟨disk.files.filterMap fun file =>
    match file.1 with
    | [] => none
    | name :: above => if above = place then some (name, file.2) else none⟩

/-- A directory as the files to work on. -/
def fileSystem : FileSystem (StateM Directory) where
  read path := do return (← get).disk.read path
  write path text := do
    match (← get).disk.write path text with
    | .ok disk =>
        set (ofDisk disk)
        return .ok ()
    | .error e => return .error e

end Directory
end Command
end MicroGo
