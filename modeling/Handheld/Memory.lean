import Handheld.Handle

/-!
The 64K memory of a program. Addresses wrap at the top, and every access is made of byte accesses.
-/
namespace Handheld

structure Memory where
  bytes : Vector UInt8 0x10000

namespace Memory

def textSize : Nat := 0x0400

def stringStart : UInt16 := 0x0400
def stringEnd : UInt16 := 0x1000

def graphStart : UInt16 := 0x1000
def backStart : UInt16 := 0x1800
def rasterSize : Nat := 0x0800

def dataStart : UInt16 := 0x2000
def heapStart : UInt16 := 0xE000

def frameHeader : Nat := 5

def paramSlot : Nat := 4

def blank : Memory where
  bytes := Vector.replicate 0x10000 0

instance : Inhabited Memory := ⟨blank⟩

def byte (m : Memory) (addr : UInt16) : UInt8 :=
  have : addr.toNat < 0x10000 := addr.toNat_lt
  m.bytes[addr.toNat]

def setByte (m : Memory) (addr : UInt16) (value : UInt8) : Memory where
  bytes := m.bytes.set addr.toNat value addr.toNat_lt

def readLE (m : Memory) (addr : UInt16) : Nat → UInt32
  | 0 => 0
  | len + 1 => m.readLE (addr + 1) len <<< 8 ||| (m.byte addr).toUInt32

def writeLE (m : Memory) (addr : UInt16) : Nat → UInt32 → Memory
  | 0, _ => m
  | len + 1, value => (m.setByte addr value.toUInt8).writeLE (addr + 1) len (value >>> 8)

def read (m : Memory) (addr : UInt16) (width : Width) : Int32 :=
  width.normalize (m.readLE addr width.bytes).toInt32

def write (m : Memory) (addr : UInt16) (width : Width) (value : Int32) : Memory :=
  m.writeLE addr width.bytes value.toUInt32

def load (m : Memory) (h : Handle) (base : UInt16) : Int32 :=
  m.read (h.resolve base) h.width

def store (m : Memory) (h : Handle) (base : UInt16) (value : Int32) : Int32 × Memory :=
  (h.width.normalize value, m.write (h.resolve base) h.width value)

def cstrUpTo (m : Memory) (addr : UInt16) : Nat → List UInt8
  | 0 => []
  | fuel + 1 =>
    let b := m.byte addr
    if b == 0 then [] else b :: m.cstrUpTo (addr + 1) fuel

/-- The string at `addr` without its terminator; a memory without a zero is one string. -/
def cstr (m : Memory) (addr : UInt16) : List UInt8 :=
  m.cstrUpTo addr 0x10000

def slice (m : Memory) (addr : UInt16) : Nat → List UInt8
  | 0 => []
  | len + 1 => m.byte addr :: m.slice (addr + 1) len

def copyIn (m : Memory) (addr : UInt16) : List UInt8 → Memory
  | [] => m
  | b :: bytes => (m.setByte addr b).copyIn (addr + 1) bytes

def putString (m : Memory) (addr : UInt16) (bytes : List UInt8) : Memory :=
  (m.copyIn addr bytes).setByte (addr + UInt16.ofNat bytes.length) 0

def region (m : Memory) (start len : Nat) : Array UInt8 :=
  m.bytes.toArray.extract start (start + len)

def setRegion (m : Memory) (start : Nat) (data : Array UInt8) : Memory :=
  go m 0
where
  go (m : Memory) (i : Nat) : Memory :=
    if h : i < data.size then
      go ⟨m.bytes.setIfInBounds (start + i) data[i]⟩ (i + 1)
    else
      m
  termination_by data.size - i

end Memory
end Handheld
