import Handheld.Font
import Handheld.Memory
import Handheld.Text.Utf8

/-!
The text console: a grid of characters at the bottom of memory, whose size follows from screen and font.
Everything written is also queued for the outside, and the latest of it is kept as a transcript.
-/
namespace Handheld

structure Console where
  font : FontSize := .large
  width : Nat
  height : Nat
  row : Nat := 0
  col : Nat := 0
  transcript : Array UInt8 := #[]
  pending : Array UInt8 := #[]

namespace Console

instance : Inhabited Console := ⟨{ width := 0, height := 0 }⟩

def transcriptLimit : Nat := 0x1000

def columns (c : Console) : Nat :=
  max (c.width / c.font.cell.1) 1

def rows (c : Console) : Nat :=
  min (max (c.height / c.font.cell.2) 1) (Memory.textSize / c.columns)

def gridSize (c : Console) : Nat :=
  c.columns * c.rows

def clear (c : Console) (m : Memory) : Console × Memory :=
  ({ c with row := 0, col := 0 }, m.setRegion 0 (Array.replicate c.gridSize 0))

def setFont (c : Console) (m : Memory) (font : FontSize) : Console × Memory :=
  clear { c with font := font } m

def clamp (n : Int) (count : Nat) : Nat :=
  (min (max n 0) (count - 1) % 0x10000).toNat

def locate (c : Console) (row col : Int) : Console :=
  { c with row := clamp row c.rows, col := clamp col c.columns }

def record (transcript : Array UInt8) (b : UInt8) : Array UInt8 :=
  let t := transcript.push b
  -- cut in bulk: most bytes are only appended
  if 2 * transcriptLimit ≤ t.size then t.extract (t.size - transcriptLimit) t.size else t

def scroll (c : Console) (m : Memory) : Memory :=
  m.setRegion 0 (m.region c.columns (c.gridSize - c.columns) ++ Array.replicate c.columns 0)

def newline (c : Console) (m : Memory) : Console × Memory :=
  if c.row + 1 < c.rows then
    ({ c with row := c.row + 1, col := 0 }, m)
  else
    ({ c with col := 0 }, c.scroll m)

def place (c : Console) (m : Memory) (b : UInt8) : Console × Memory :=
  let m := m.setByte (UInt16.ofNat (c.row * c.columns + c.col)) b
  let c := { c with col := c.col + 1 }
  if c.columns ≤ c.col then c.newline m else (c, m)

def put (c : Console) (m : Memory) (b : UInt8) : Console × Memory :=
  let transcript := c.transcript
  let pending := c.pending
  let c := { c with transcript := #[], pending := #[] }
  let c := { c with transcript := record transcript b, pending := pending.push b }
  if b == 0x0A then c.newline m
  else if b == 0x0D then ({ c with col := 0 }, m)
  else c.place m b

def write (c : Console) (m : Memory) : List UInt8 → Console × Memory
  | [] => (c, m)
  | b :: bytes =>
    let (c, m) := c.put m b
    c.write m bytes

def rowText (row : List UInt8) : String :=
  let shown := (row.reverse.dropWhile (· == 0)).reverse
  String.ofList (shown.map fun b => if b == 0 then ' ' else Char.ofNat b.toNat)

def lines (c : Console) (m : Memory) : List String :=
  (List.range c.rows).map fun row => rowText (m.region (row * c.columns) c.columns).toList

def announced (b : UInt8) : Nat :=
  if 0xC0 ≤ b && b ≤ 0xDF then 2
  else if 0xE0 ≤ b && b ≤ 0xEF then 3
  else if 0xF0 ≤ b && b ≤ 0xF7 then 4
  else 1

/-- For bytes read backwards: the number of those at the end that are a character cut short. -/
def cutShort (back : Nat) : List UInt8 → Nat
  | [] => 0
  | b :: bytes =>
    if b &&& 0xC0 != 0x80 then
      if back < announced b then back else 0
    else
      cutShort (back + 1) bytes

def incompleteTail (bytes : Array UInt8) : Nat :=
  cutShort 1 (bytes.extract (bytes.size - 3) bytes.size).toList.reverse

def ready (c : Console) : Nat :=
  c.pending.size - incompleteTail c.pending

def hasOutput (c : Console) : Bool :=
  incompleteTail c.pending < c.pending.size

/-- Takes the queued text; a character cut short waits for its other bytes. -/
def takeOutput (c : Console) : String × Console :=
  let n := c.ready
  (Text.Utf8.decodeLossy (c.pending.extract 0 n).toList,
    { c with pending := c.pending.extract n c.pending.size })

def flush (c : Console) : Option String × Console :=
  if c.pending.isEmpty then (none, c)
  else (some (Text.Utf8.decodeLossy c.pending.toList), { c with pending := #[] })

end Console
end Handheld
