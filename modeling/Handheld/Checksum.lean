/-!
The CRC-16/X-25 checksum: reflected, polynomial 0x8408, all ones at the start, complemented at the end.
-/
namespace Handheld.Checksum

def bits : Nat → UInt16 → UInt16
  | 0, crc => crc
  | n + 1, crc => bits n (if crc &&& 1 == 1 then (crc >>> 1) ^^^ 0x8408 else crc >>> 1)

def crc16 (data : List UInt8) : UInt16 :=
  ~~~ data.foldl (fun crc b => bits 8 (crc ^^^ b.toUInt16)) 0xFFFF

end Handheld.Checksum
