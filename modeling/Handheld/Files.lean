import Handheld.Disk

/-!
The file store: named files behind small numbers. It may lie over a directory of a disk; then a file is
fetched from there when it is first opened, and written back when a handle that could write is closed.
-/
namespace Handheld

inductive Whence where
  | start
  | current
  | stop
  deriving DecidableEq, Repr

def Whence.ofCode (code : Int32) : Whence :=
  if code == 1 then current else if code == 2 then stop else start

structure OpenFile where
  path : String
  pos : Nat
  readable : Bool
  writable : Bool
  append : Bool
  deriving DecidableEq, Repr

structure Files where
  disk : Option Disk := none
  files : List (String × List UInt8) := []
  handles : List (UInt8 × OpenFile) := []

namespace Files

def insert (fs : Files) (path : String) (data : List UInt8) : Files :=
  { fs with files := Table.insert fs.files path data }

def get? (fs : Files) (path : String) : Option (List UInt8) :=
  fs.files.lookup path

def diskPath (path : String) : String :=
  String.ofList (path.toList.dropWhile (· == '/'))

def fetch (fs : Files) (path : String) : Bool × Files :=
  if Table.contains fs.files path then (true, fs)
  else
    match fs.disk.bind fun disk => (disk.read (diskPath path)).toOption with
    | some data => (true, fs.insert path data)
    | none => (false, fs)

def freeHandle (fs : Files) : Option UInt8 :=
  ((List.range 255).map fun n => UInt8.ofNat (n + 1)).find? fun h => !Table.contains fs.handles h

def modeFlags (mode : String) : Option (Bool × Bool × Bool) :=
  let plus := mode.toList.contains '+'
  match mode.toList.head? with
  | some 'r' => some (true, plus, false)
  | some 'w' => some (plus, true, false)
  | some 'a' => some (plus, true, true)
  | _ => none

/--
Opens a file. Reading needs a file that is there; writing empties it, and appending starts at its end. Both
make a file that is not there.
-/
def «open» (fs : Files) (path mode : String) : Option UInt8 × Files :=
  match modeFlags mode with
  | none => (none, fs)
  | some (readable, writable, append) =>
    let (there, fs) := fs.fetch path
    if mode.toList.head? == some 'r' && !there then (none, fs)
    else
      match fs.freeHandle with
      | none => (none, fs)
      | some h =>
        -- nothing is emptied before there is a handle for it
        let fs := if mode.toList.head? == some 'w' || !there then fs.insert path [] else fs
        let pos := if append then ((fs.get? path).getD []).length else 0
        let file : OpenFile :=
          { path := path, pos := pos, readable := readable, writable := writable, append := append }
        (some h, { fs with handles := Table.insert fs.handles h file })

def writeBack (fs : Files) (path : String) : Files :=
  match fs.disk, fs.get? path with
  | some disk, some data =>
    { fs with disk := some ((disk.write (diskPath path) data).toOption.getD disk) }
  | _, _ => fs

def close (fs : Files) (h : UInt8) : Bool × Files :=
  match fs.handles.lookup h with
  | none => (false, fs)
  | some file =>
    let fs := { fs with handles := Table.erase fs.handles h }
    (true, if file.writable then fs.writeBack file.path else fs)

def moveTo (fs : Files) (h : UInt8) (file : OpenFile) (pos : Nat) : Files :=
  { fs with handles := Table.insert fs.handles h { file with pos := pos } }

def read (fs : Files) (h : UInt8) (len : Nat) : Option (List UInt8) × Files :=
  match fs.handles.lookup h with
  | none => (none, fs)
  | some file =>
    match file.readable, fs.get? file.path with
    | true, some data =>
      let start := min file.pos data.length
      let bytes := (data.drop start).take len
      (some bytes, fs.moveTo h file (start + bytes.length))
    | _, _ => (none, fs)

def overwrite (data : List UInt8) (pos : Nat) (bytes : List UInt8) : List UInt8 :=
  let padded := data ++ List.replicate (pos + bytes.length - data.length) 0
  padded.take pos ++ bytes ++ padded.drop (pos + bytes.length)

def write (fs : Files) (h : UInt8) (bytes : List UInt8) : Option Nat × Files :=
  match fs.handles.lookup h with
  | none => (none, fs)
  | some file =>
    match file.writable, fs.get? file.path with
    | true, some data =>
      let pos := if file.append then data.length else file.pos
      let fs := fs.insert file.path (overwrite data pos bytes)
      (some bytes.length, fs.moveTo h file (pos + bytes.length))
    | _, _ => (none, fs)

/-- Moves a handle; positions behind the end are allowed, those before the start are not. -/
def seek (fs : Files) (h : UInt8) (offset : Int) (whence : Whence) : Option UInt32 × Files :=
  match fs.handles.lookup h with
  | none => (none, fs)
  | some file =>
    let origin : Nat :=
      match whence with
      | .start => 0
      | .current => file.pos
      | .stop => ((fs.get? file.path).getD []).length
    let pos := (origin : Int) + offset
    if pos < 0 then (none, fs) else (some (UInt32.ofNat pos.toNat), fs.moveTo h file pos.toNat)

def tell (fs : Files) (h : UInt8) : Option UInt32 :=
  (fs.handles.lookup h).map fun file => UInt32.ofNat file.pos

def eof (fs : Files) (h : UInt8) : Option Bool :=
  (fs.handles.lookup h).map fun file => ((fs.get? file.path).getD []).length ≤ file.pos

def delete (fs : Files) (path : String) : Bool × Files :=
  if fs.handles.any fun (_, file) => file.path == path then (false, fs)
  else
    let here := Table.contains fs.files path
    let fs := { fs with files := Table.erase fs.files path }
    match fs.disk.bind fun disk => (disk.remove (diskPath path)).toOption with
    | some disk => (true, { fs with disk := some disk })
    | none => (here, fs)

end Files
end Handheld
