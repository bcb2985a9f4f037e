import Handheld.Console
import Handheld.Files
import Handheld.Image
import Handheld.Random
import Handheld.Raster.Basic
import Handheld.Stack

/-!
The state of the machine. Code is fetched from the image, data lies in memory, and call frames are threaded
through memory by `base`, the start of the current frame, and `base2`, its end.
-/
namespace Handheld

structure Clock where
  elapsed : Int32 := 0
  year : Int32 := 2001
  month : UInt8 := 1
  day : UInt8 := 1
  hour : UInt8 := 0
  minute : UInt8 := 0
  second : UInt8 := 0
  weekday : UInt8 := 1
  deriving DecidableEq, Repr

structure Literal where
  position : Nat
  addr : UInt16
  length : Nat
  deriving DecidableEq, Repr

def Literal.stop (l : Literal) : Nat :=
  l.addr.toNat + l.length

structure Machine where
  memory : Memory := .blank
  stack : Stack Int32 := .empty 1024
  image : Array UInt8 := #[]
  header : Header := {}
  pc : Nat := 0
  lastPc : Nat := 0
  base : UInt16 := Memory.dataStart
  base2 : UInt16 := Memory.dataStart
  regs : Vector Int32 8 := Vector.replicate 8 0
  strings : UInt16 := Memory.stringStart
  literals : List Literal := []
  heap : UInt16 := Memory.heapStart
  keys : List UInt8 := []
  console : Console := { width := header.width.toNat, height := header.height.toNat }
  random : Random.Generator := Random.seed 0
  clock : Clock := {}
  display : Display := {}
  font : Font := Font.empty
  files : Files := {}
  loaded : Bool := false
  halted : Bool := false

namespace Machine

instance : Inhabited Machine := ⟨{}⟩

/-- Back to the blank state. Screen, font and files are not the machine's own and are kept. -/
def reset (m : Machine) : Machine where
  clock := { m.clock with elapsed := 0 }
  display := m.display
  font := m.font
  files := m.files

def load (m : Machine) (image : Array UInt8) : Except LoadError Machine := do
  let header ← Header.parse image.toList
  return { m.reset with
    header := header
    image := image
    pc := header.entry.toNat
    lastPc := header.entry.toNat
    console := { width := header.width.toNat, height := header.height.toNat }
    loaded := true }

def halt (m : Machine) : Machine :=
  { m with halted := true }

def pushKey (m : Machine) (key : UInt8) : Machine :=
  { m with keys := m.keys ++ [key] }

def summary (m : Machine) : String :=
  let top := ", ".intercalate ((m.stack.top 4).map fun v => toString v.toInt)
  "pc=0x" ++ Text.hex 6 m.lastPc ++ " sp=" ++ toString m.stack.size ++
    " base=0x" ++ Text.hex 4 m.base.toNat ++ " base2=0x" ++ Text.hex 4 m.base2.toNat ++
    " top=[" ++ top ++ "]"

@[inline]
def withMemory (m : Machine) (f : Memory → Memory) : Machine :=
  -- the machine lets go of its memory first, so that it is changed in place
  let memory := m.memory
  let m := { m with memory := default }
  { m with memory := f memory }

@[inline]
def withConsole (m : Machine) (f : Console → Memory → Console × Memory) : Machine :=
  let memory := m.memory
  let console := m.console
  let m := { m with memory := default, console := default }
  let (console, memory) := f console memory
  { m with memory := memory, console := console }

@[inline]
def withFiles {α : Type} (m : Machine) (f : Files → α × Files) : α × Machine :=
  let files := m.files
  let m := { m with files := {} }
  let (a, files) := f files
  (a, { m with files := files })

def address (m : Machine) (value : Int32) : UInt16 :=
  (Handle.decode value).resolve m.base

def cstr (m : Machine) (value : Int32) : List UInt8 :=
  m.memory.cstr (m.address value)

def slice (m : Machine) (value : Int32) (len : Nat) : List UInt8 :=
  m.memory.slice (m.address value) len

end Machine
end Handheld
