/-!
The random generator: the words of the ChaCha stream with 12 rounds, under a key that is spread out from
a seed of 64 bits.
-/
namespace Handheld.Random

abbrev Key := Vector UInt32 8
abbrev Block := Vector UInt32 16

structure Generator where
  key : Key
  index : Nat := 0

def rotateLeft (x : UInt32) (n : UInt32) : UInt32 :=
  (x <<< n) ||| (x >>> (32 - n))

def rotateRight (x : UInt32) (n : UInt32) : UInt32 :=
  if n == 0 then x else (x >>> n) ||| (x <<< (32 - n))

def spread (s : UInt64) : UInt64 :=
  s * 6364136223846793005 + 11634580027462260723

def spreadWord (s : UInt64) : UInt32 :=
  rotateRight (((s >>> 18) ^^^ s) >>> 27).toUInt32 (s >>> 59).toUInt32

def spreadBy : Nat → UInt64 → UInt64
  | 0, s => s
  | n + 1, s => spreadBy n (spread s)

def seed (s : UInt64) : Generator where
  key := Vector.ofFn fun i => spreadWord (spreadBy (i.val + 1) s)

instance : Inhabited Generator := ⟨seed 0⟩

def quarterRound (v : Block) (a b c d : Fin 16) : Block :=
  let v := v.set a (v[a] + v[b])
  let v := v.set d (rotateLeft (v[d] ^^^ v[a]) 16)
  let v := v.set c (v[c] + v[d])
  let v := v.set b (rotateLeft (v[b] ^^^ v[c]) 12)
  let v := v.set a (v[a] + v[b])
  let v := v.set d (rotateLeft (v[d] ^^^ v[a]) 8)
  let v := v.set c (v[c] + v[d])
  v.set b (rotateLeft (v[b] ^^^ v[c]) 7)

def doubleRound (v : Block) : Block :=
  let v := quarterRound v 0 4 8 12
  let v := quarterRound v 1 5 9 13
  let v := quarterRound v 2 6 10 14
  let v := quarterRound v 3 7 11 15
  let v := quarterRound v 0 5 10 15
  let v := quarterRound v 1 6 11 12
  let v := quarterRound v 2 7 8 13
  quarterRound v 3 4 9 14

def doubleRounds : Nat → Block → Block
  | 0, v => v
  | n + 1, v => doubleRounds n (doubleRound v)

def initial (key : Key) (counter : UInt64) : Block :=
  let constants : Vector UInt32 4 := #v[0x61707865, 0x3320646E, 0x79622D32, 0x6B206574]
  let counters : Vector UInt32 4 := #v[counter.toUInt32, (counter >>> 32).toUInt32, 0, 0]
  constants ++ key ++ counters

def block (key : Key) (counter : UInt64) : Block :=
  let start := initial key counter
  Vector.zipWith (· + ·) (doubleRounds 6 start) start

namespace Generator

def next (g : Generator) : UInt32 × Generator :=
  ((block g.key (UInt64.ofNat (g.index / 16)))[g.index % 16], { g with index := g.index + 1 })

/--
A number below 32768 from the 15 high bits of a word. Words whose bit 16 is set are passed over; `fuel`
bounds how many are looked at.
-/
def below32768 : Nat → Generator → Nat × Generator
  | 0, g => (0, g)
  | fuel + 1, g =>
    let (word, g) := g.next
    if word &&& 0x10000 == 0 then ((word >>> 17).toNat, g) else below32768 fuel g

end Generator
end Handheld.Random
