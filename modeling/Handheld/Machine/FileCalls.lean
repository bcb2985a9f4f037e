import Handheld.Arith
import Handheld.Machine.Strings

/-!
The library calls on files.
-/
namespace Handheld.Machine

def fileOf (value : Int32) : UInt8 :=
  value.toUInt32.toUInt8

def text (m : Machine) (value : Int32) : String :=
  Text.Utf8.decodeLossy (m.cstr value)

def fopen (m : Machine) (path mode : Int32) : Int32 × Machine :=
  let (h, m) := m.withFiles (·.open (m.text path) (m.text mode))
  (Int32.ofNat (h.getD 0).toNat, m)

def fclose (m : Machine) (file : Int32) : Machine :=
  (m.withFiles (·.close (fileOf file))).2

def fread (m : Machine) (dst size count file : Int32) : Int32 × Machine :=
  let len := min (span size * span count) 0x10000
  let addr := m.address dst
  match m.withFiles (·.read (fileOf file) len) with
  | (some bytes, m) =>
    if span size == 0 then (0, m)
    else (Int32.ofNat (bytes.length / span size), m.withMemory (·.copyIn addr bytes))
  | (none, m) => (0, m)

def fwrite (m : Machine) (src size count file : Int32) : Int32 × Machine :=
  let bytes := m.slice src (min (span size * span count) 0x10000)
  match m.withFiles (·.write (fileOf file) bytes) with
  | (some n, m) => (if span size == 0 then 0 else Int32.ofNat (n / span size), m)
  | (none, m) => (0, m)

def fseek (m : Machine) (file offset whence : Int32) : Int32 × Machine :=
  let (pos, m) := m.withFiles (·.seek (fileOf file) offset.toInt (Whence.ofCode whence))
  (if pos.isSome then 0 else -1, m)

def ftell (m : Machine) (file : Int32) : Int32 :=
  match m.files.tell (fileOf file) with
  | some pos => pos.toInt32
  | none => -1

def feof (m : Machine) (file : Int32) : Int32 :=
  match m.files.eof (fileOf file) with
  | some ended => truth ended
  | none => -1

def getc (m : Machine) (file : Int32) : Int32 × Machine :=
  match m.withFiles (·.read (fileOf file) 1) with
  | (some [b], m) => (Int32.ofNat b.toNat, m)
  | (_, m) => (-1, m)

def putc (m : Machine) (c file : Int32) : Int32 × Machine :=
  match m.withFiles (·.write (fileOf file) [c.toUInt32.toUInt8]) with
  | (some _, m) => (c &&& 0xFF, m)
  | (none, m) => (-1, m)

def deleteFile (m : Machine) (path : Int32) : Int32 × Machine :=
  let (done, m) := m.withFiles (·.delete (m.text path))
  (truth done, m)

end Handheld.Machine
