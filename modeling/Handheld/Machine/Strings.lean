import Handheld.Checksum
import Handheld.Machine.Basic
import Handheld.Printf

/-!
The library calls on strings and blocks of memory.
-/
namespace Handheld.Machine

def span (n : Int32) : Nat :=
  min n.toInt.toNat 0x10000

def difference : List UInt8 → List UInt8 → Int32
  | [], [] => 0
  | a :: _, [] => Int32.ofNat a.toNat
  | [], b :: _ => -Int32.ofNat b.toNat
  | a :: as, b :: bs =>
    if a == b then difference as bs else Int32.ofNat a.toNat - Int32.ofNat b.toNat

def indexOf? (needle : List UInt8) : List UInt8 → Option Nat
  | [] => if needle.isEmpty then some 0 else none
  | b :: bytes =>
    if needle.isPrefixOf (b :: bytes) then some 0 else (indexOf? needle bytes).map (· + 1)

def advance (m : Machine) (value : Int32) (at? : Option Nat) : Int32 :=
  match at? with
  | some n => Handle.rebase value (m.address value + UInt16.ofNat n)
  | none => 0

def strcpy (m : Machine) (dst src : Int32) : Machine :=
  let bytes := m.cstr src
  let addr := m.address dst
  m.withMemory (·.putString addr bytes)

def strcat (m : Machine) (dst src : Int32) : Machine :=
  let bytes := m.cstr src
  let stop := m.address dst + UInt16.ofNat (m.cstr dst).length
  m.withMemory (·.putString stop bytes)

def strcmp (m : Machine) (a b : Int32) : Int32 :=
  difference (m.cstr a) (m.cstr b)

def strchr (m : Machine) (text c : Int32) : Int32 :=
  m.advance text ((m.cstr text).findIdx? (· == c.toUInt32.toUInt8))

def strstr (m : Machine) (text pattern : Int32) : Int32 :=
  m.advance text (indexOf? (m.cstr pattern) (m.cstr text))

def formatted (m : Machine) (fmt : Int32) (args : List Int32) : List UInt8 :=
  Printf.format m.cstr (m.cstr fmt) args

def printf (m : Machine) (fmt : Int32) (args : List Int32) : Machine :=
  let text := m.formatted fmt args
  m.withConsole fun console memory => console.write memory text

def sprintf (m : Machine) (dst fmt : Int32) (args : List Int32) : Machine :=
  let text := m.formatted fmt args
  let addr := m.address dst
  m.withMemory (·.putString addr text)

def memset (m : Machine) (dst value count : Int32) : Machine :=
  let addr := m.address dst
  m.withMemory (·.copyIn addr (List.replicate (span count) value.toUInt32.toUInt8))

def memcpy (m : Machine) (dst src count : Int32) : Machine :=
  let bytes := m.slice src (span count)
  let addr := m.address dst
  m.withMemory (·.copyIn addr bytes)

def xorKey (key : Array UInt8) (bytes : List UInt8) : List UInt8 :=
  bytes.zipIdx.map fun (b, i) => b ^^^ key.getD (i % key.size) 0

def secret (m : Machine) (dst count key : Int32) : Machine :=
  let key := (m.cstr key).toArray
  if key.isEmpty then m
  else
    let bytes := xorKey key (m.slice dst (span count))
    let addr := m.address dst
    m.withMemory (·.copyIn addr bytes)

def crc16 (m : Machine) (src count : Int32) : Int32 :=
  Int32.ofNat (Checksum.crc16 (m.slice src (span count))).toNat

end Handheld.Machine
