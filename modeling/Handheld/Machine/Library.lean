import Handheld.Call
import Handheld.Machine.Drawing
import Handheld.Machine.FileCalls

/-!
What each library call does. The first arguments of a call are in the registers.
-/
namespace Handheld.Machine

def putchar (m : Machine) (c : Int32) : Machine :=
  m.withConsole fun console memory => console.put memory c.toUInt32.toUInt8

def takeKey (m : Machine) : Int32 × Machine :=
  (Int32.ofNat (m.keys.headD 0).toNat, { m with keys := m.keys.tail })

def takeWord (m : Machine) : Int32 × Machine :=
  let (first, m) := m.takeKey
  if first < 0x80 then (first, m)
  else
    let (second, m) := m.takeKey
    (first <<< 8 ||| second, m)

def checkKey (m : Machine) (key : Int32) : Bool :=
  let key := key.toUInt32.toUInt8
  if key == 0x80 then !m.keys.isEmpty else m.keys.contains key

def inputReady (m : Machine) (c : Call) : Bool :=
  match m.keys with
  | [] => false
  | [first] => c != .getword || first < 0x80
  | _ => true

def rand (m : Machine) : Int32 × Machine :=
  let (n, random) := m.random.below32768 256
  (Int32.ofNat n, { m with random := random })

def getTime (m : Machine) (dst : Int32) : Machine :=
  let c := m.clock
  let addr := m.address dst
  m.withMemory fun memory =>
    (memory.write addr .word c.year).copyIn (addr + 2)
      [c.month, c.day, c.hour, c.minute, c.second, c.weekday]

def alloc (m : Machine) (size : Int32) : Int32 × Machine :=
  let size := size.toInt.toNat
  -- a heap that is used up to its last byte has wrapped to address zero
  if m.heap < Memory.heapStart || 0x10000 < m.heap.toNat + size then (0, m)
  else
    (({ addr := m.heap, width := .byte } : Handle).encode,
      { m with heap := m.heap + UInt16.ofNat size })

/-- Carries out a call; `extra` are the arguments behind the fixed ones. The value counts if the call returns one. -/
def dispatch (m : Machine) (c : Call) (extra : List Int32) : Int32 × Machine :=
  let (r0, r1, r2) := (m.regs[0], m.regs[1], m.regs[2])
  let (r3, r4, r5) := (m.regs[3], m.regs[4], m.regs[5])
  let byte := r0.toUInt32.toUInt8
  match c with
  | .putchar => (0, m.putchar r0)
  | .getchar | .inkey => m.takeKey
  | .getword => m.takeWord
  | .checkkey => (truth (m.checkKey r0), m)
  | .printf => (0, m.printf r0 extra)
  | .sprintf => (0, m.sprintf r0 r1 extra)
  | .strcpy => (0, m.strcpy r0 r1)
  | .strcat => (0, m.strcat r0 r1)
  | .strlen => (Int32.ofNat (m.cstr r0).length, m)
  | .strcmp => (m.strcmp r0 r1, m)
  | .strchr => (m.strchr r0 r1, m)
  | .strstr => (m.strstr r0 r1, m)
  | .tolower => (Int32.ofNat (Ascii.toLower byte).toNat, m)
  | .toupper => (Int32.ofNat (Ascii.toUpper byte).toNat, m)
  | .memset => (0, m.memset r0 r1 r2)
  | .memcpy => (0, m.memcpy r0 r1 r2)
  | .secret => (0, m.secret r0 r1 r2)
  | .crc16 => (m.crc16 r0 r1, m)
  | .isalnum => (truth (Ascii.isAlnum byte), m)
  | .isalpha => (truth (Ascii.isAlpha byte), m)
  | .iscntrl => (truth (Ascii.isControl byte), m)
  | .isdigit => (truth (Ascii.isDigit byte), m)
  | .isgraph => (truth (Ascii.isGraphic byte), m)
  | .islower => (truth (Ascii.isLower byte), m)
  | .isprint => (truth (Ascii.isPrintable byte), m)
  | .ispunct => (truth (Ascii.isPunctuation byte), m)
  | .isspace => (truth (Ascii.isSpace byte), m)
  | .isupper => (truth (Ascii.isUpper byte), m)
  | .isxdigit => (truth (Ascii.isHexDigit byte), m)
  | .abs => (if r0 < 0 then -r0 else r0, m)
  | .rand => m.rand
  | .srand => (0, { m with random := Random.seed r0.toUInt32.toUInt64 })
  | .exit => (0, m.halt)
  | .delay | .beep => (0, m)
  | .getms => (m.clock.elapsed, m)
  | .gettime => (0, m.getTime r0)
  | .alloc => m.alloc r0
  | .setscreen =>
    (0, m.withConsole fun console memory =>
      console.setFont memory (if r0 == 0 then .large else .small))
  | .clearscreen => (0, m.clearScreen)
  | .locate => (0, { m with console := m.console.locate r0.toInt r1.toInt })
  | .refresh => (0, m.refresh)
  | .point => (0, m.point r0 r1 r2)
  | .getpoint => (m.getPoint r0 r1, m)
  | .line => (0, m.line r0 r1 r2 r3 r4)
  | .rectangle => (0, m.rect r0 r1 r2 r3 false r4)
  | .block => (0, m.rect r0 r1 r2 r3 true r4)
  | .box => (0, m.rect r0 r1 r2 r3 (r4 != 0) r5)
  | .circle => (0, m.ellipse r0 r1 r2 r2 (r3 != 0) r4)
  | .ellipse => (0, m.ellipse r0 r1 r2 r3 (r4 != 0) r5)
  | .fill => (0, m.fill r0 r1 r2)
  | .writeblock => (0, m.writeBlock r0 r1 r2 r3 r4 r5)
  | .getblock => (0, m.getBlock r0 r1 r2 r3 r4 r5)
  | .textout => (0, m.textOut r0 r1 r2 r3)
  | .fopen => m.fopen r0 r1
  | .fclose => (0, m.fclose r0)
  | .fread => m.fread r0 r1 r2 r3
  | .fwrite => m.fwrite r0 r1 r2 r3
  | .fseek => m.fseek r0 r1 r2
  | .ftell => (m.ftell r0, m)
  | .feof => (m.feof r0, m)
  | .rewind => (0, (m.fseek r0 0 0).2)
  | .getc => m.getc r0
  | .putc => m.putc r0 r1
  | .deletefile => m.deleteFile r0

end Handheld.Machine
