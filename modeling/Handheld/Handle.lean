import Handheld.Width

/-!
Address handles: the one-word form of "an object of this width at this address". Bits 0 to 15 hold
the address, bits 16 and 17 the width, and bit 23 says that the address counts from the frame base.
-/
namespace Handheld

structure Handle where
  addr : UInt16
  width : Width
  relative : Bool := false
  deriving DecidableEq, Repr

namespace Handle

def relativeBit : UInt32 := 0x800000

def encode (h : Handle) : Int32 :=
  (h.addr.toUInt32 ||| (h.width.code <<< 16) ||| if h.relative then relativeBit else 0).toInt32

def decode (value : Int32) : Handle :=
  let bits := value.toUInt32
  { addr := bits.toUInt16, width := Width.ofCode (bits >>> 16), relative := bits &&& relativeBit != 0 }

def resolve (h : Handle) (base : UInt16) : UInt16 :=
  if h.relative then h.addr + base else h.addr

def rebase (template : Int32) (addr : UInt16) : Int32 :=
  ((template.toUInt32 &&& 0xFFFF0000) ||| addr.toUInt32).toInt32

end Handle
end Handheld
