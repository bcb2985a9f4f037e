import Handheld.Table

/-!
A disk with one directory that is worked in, and the directories above it. A path leads to a file by its
names, or fails for a reason.
-/
namespace Handheld

/--
A disk whose only directories are `root` and those above it. Paths are lists of names, and files have
contents.
-/
structure Disk where
  root : List String
  files : List (List String × List UInt8) := []

namespace Disk

inductive Error where
  | missing
  | notDirectory
  | isDirectory
  | nameTooLong
  | zeroInName
  deriving DecidableEq, Repr

def Error.message : Error → String
  | missing => "No such file or directory (os error 2)"
  | notDirectory => "Not a directory (os error 20)"
  | isDirectory => "Is a directory (os error 21)"
  | nameTooLong => "File name too long (os error 36)"
  | zeroInName => "file name contained an unexpected NUL byte"

def nameLimit : Nat := 255

def pathLimit : Nat := 4095

def isDirectory (d : Disk) (path : List String) : Bool :=
  path.isPrefixOf d.root

def isHere (name : String) : Bool :=
  name.isEmpty || name == "."

def follow (d : Disk) (dir : List String) : List String → Except Error (List String)
  | [] => .error .isDirectory
  | name :: names =>
    let path := dir ++ [name]
    if isHere name then d.follow dir names
    else if name == ".." then d.follow dir.dropLast names
    else if nameLimit < name.utf8ByteSize then .error .nameTooLong
    else if d.isDirectory path then d.follow path names
    else if names.isEmpty then .ok path
    else if Table.contains d.files path then .error .notDirectory
    else .error .missing

def names (path : String) : List String :=
  (path.toList.splitOn '/').map String.ofList

/-- The file that a path leads to. A path without a slash in front is counted from the root. -/
def resolve (d : Disk) (path : String) : Except Error (List String) :=
  if path.toList.contains '\x00' then .error .zeroInName
  else if path.isEmpty then .error .missing
  else if pathLimit < path.utf8ByteSize then .error .nameTooLong
  else d.follow (if path.toList.head? == some '/' then [] else d.root) (names path)

def read (d : Disk) (path : String) : Except Error (List UInt8) := do
  let p ← d.resolve path
  match d.files.lookup p with
  | some data => return data
  | none => throw .missing

def write (d : Disk) (path : String) (data : List UInt8) : Except Error Disk := do
  let p ← d.resolve path
  return { d with files := Table.insert d.files p data }

def remove (d : Disk) (path : String) : Except Error Disk := do
  let p ← d.resolve path
  if Table.contains d.files p then return { d with files := Table.erase d.files p }
  else throw .missing

def rootFiles (d : Disk) : List (String × List UInt8) :=
  d.files.filterMap fun (path, data) =>
    match path.getLast? with
    | some name => if path.dropLast == d.root then some (name, data) else none
    | none => none

end Disk
end Handheld
