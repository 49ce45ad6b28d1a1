/-
Clocked.Command.Disk — a tree of files held in memory.

A disk answers the questions of `Files` for paths that start at the root of the
tree. A path is followed name by name: an empty name and `.` stay, `..` goes up,
and nothing leads on from a file. Above the root lie folders of which nothing
else is known. A path that begins with a slash starts in the system's own
folders, of which the usual ones are there and hold nothing but the null device.
As on a real disk, names and paths have a greatest length.
-/
import Clocked.Command.Basic

namespace Clocked.Command

/-- A tree of files; a path is the list of its names. -/
structure Disk where
  /-- The folders below the root. -/
  folders : List (List String)
  files : List (List String × List UInt8)
deriving Inhabited

namespace Disk

/-- The folders on the way to a path, the path among them. -/
def onTheWay (path : List String) : List (List String) :=
  (List.range (path.length + 1)).map path.take

/-- The disk with given folders and files, and the folders that hold them. Of
several contents for one path the last counts. -/
def ofParts (folders : List (List String)) (files : List (List String × List UInt8)) : Disk where
  folders := (folders ++ files.map fun f => f.1.dropLast).flatMap onTheWay
  files := files.reverse

/-- Where a path leads. -/
inductive Spot where
  | folder (path : List String)
  /-- A folder above the root. -/
  | above
  /-- A folder of the system. -/
  | system (path : List String)
  /-- The file that stays empty, whatever is written to it. -/
  | null
  | file (path : List String) (content : List UInt8)
  /-- Nothing yet, in a folder that is there. -/
  | vacant (path : List String)
  /-- Nothing, and no folder for it either. -/
  | missing
  /-- The path cannot be followed. -/
  | blocked

/-- Greatest length of a name, in octets. -/
def longestName : Nat := 255

/-- Greatest length of a path, in octets. -/
def longestPath : Nat := 4095

/-- The folders at the top of a system. -/
def systemFolders : List String :=
  ["bin", "boot", "dev", "etc", "home", "lib", "media", "mnt", "opt", "proc", "root", "run",
    "sbin", "srv", "sys", "tmp", "usr", "var"]

/-- What stands at a path of the system. -/
def systemEntry : List String → Spot
  | ["dev", "null"] => .null
  | [name] => if name ∈ systemFolders then .system [name] else .missing
  | _ => .missing

/-- What stands at a path of the tree. -/
def entry (d : Disk) (path : List String) : Spot :=
  match d.files.lookup path with
  | some content => .file path content
  | none => if path ∈ d.folders then .folder path else .vacant path

/-- Follows one name. -/
def step (d : Disk) (spot : Spot) (name : String) : Spot :=
  match spot with
  | .folder path =>
    if name = "" || name = "." then .folder path
    else if name = ".." then (if path = [] then .above else .folder path.dropLast)
    else if longestName < name.utf8ByteSize then .blocked
    else d.entry (path ++ [name])
  | .above =>
    if name = "" || name = "." || name = ".." then .above
    else if longestName < name.utf8ByteSize then .blocked
    else .missing
  | .system path =>
    if name = "" || name = "." then .system path
    else if name = ".." then .system path.dropLast
    else if longestName < name.utf8ByteSize then .blocked
    else systemEntry (path ++ [name])
  | .file _ _ => .blocked
  | .null => .blocked
  | .vacant _ => .missing
  | .missing => .missing
  | .blocked => .blocked

/-- Where a path leads. -/
def find (d : Disk) (path : String) : Spot :=
  if longestPath < path.utf8ByteSize || path.toList.contains '\x00' then .blocked
  else
    match path.splitOn "/" with
    | "" :: names => names.foldl d.step (if names = [] then .missing else .system [])
    | names => names.foldl d.step (.folder [])

/-- The content of a file. -/
def read (d : Disk) (path : String) : Except ReadFault (List UInt8) :=
  match d.find path with
  | .file _ content => .ok content
  | .null => .ok []
  | .vacant _ | .missing => .error .missing
  | .folder _ | .above | .system _ | .blocked => .error .unreadable

/-- Whether a file can be written. -/
def writable (d : Disk) (path : String) : Bool :=
  match d.find path with
  | .file _ _ | .vacant _ | .null => true
  | _ => false

/-- The answers of a disk. -/
def toFiles (d : Disk) : Files := ⟨d.read, d.writable⟩

/-- The names on the way to a file whose content a writing changes. -/
def changed? (d : Disk) (path : String) (content : List UInt8) : Option (List String) :=
  match d.find path with
  | .file path old => if old = content then none else some path
  | .vacant path => some path
  | _ => none

end Disk

end Clocked.Command
