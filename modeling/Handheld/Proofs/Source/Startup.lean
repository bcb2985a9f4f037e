import Handheld.Proofs.Asm.Operands
import Handheld.Proofs.Machine.Preparing
import Handheld.Proofs.Source.FirstBytes

/-!
The code in front of the functions runs once, and leaves the globals with the contents that they were declared with.
-/
namespace Handheld

open Asm

namespace Source

def fillLine (p : Nat × List UInt8) : Line :=
  .op .init (.addr p.1 :: p.2.map fun b => .int b.toNat)

def pointerLines (p : Nat × List UInt8) : Code :=
  [.op (.access .handle .dword false) [.addr p.1], pushStr p.2, .op .store, .op .pop]

theorem startCode_eq (g : Globals) :
    startCode g = [.op .space [.int g.size]] ++ g.inits.map fillLine ++ g.strings.flatMap pointerLines :=
  rfl

theorem size_fillLine (p : Nat × List UInt8) : (fillLine p).size = 5 + p.2.length := by
  have hsize : (fillLine p).size
      = 1 + (4 + (((Arg.addr p.1 :: p.2.map fun b => .int b.toNat).map Arg.operand).length - 1)) := rfl
  rw [hsize, List.length_map, List.length_cons, List.length_map]
  omega

theorem zero_not_mem_takeWhile (s : List UInt8) : 0 ∉ s.takeWhile (· != 0) := by
  intro hmem
  have hne := List.mem_takeWhile_imp hmem
  rw [bne_self_eq_false] at hne
  cases hne

theorem payload_takeWhile (s : List UInt8) : payload (s.takeWhile (· != 0)) = s.takeWhile (· != 0) :=
  payload_eq (zero_not_mem_takeWhile s)

theorem size_pushStr (s : List UInt8) : (pushStr s).size = 2 + (s.takeWhile (· != 0)).length := by
  have hsize : (pushStr s).size = 1 + ((payload (s.takeWhile (· != 0))).length + 1) := rfl
  rw [hsize, payload_takeWhile]
  omega

theorem extent_pointerLines (p : Nat × List UInt8) :
    Code.extent (pointerLines p) = 7 + (p.2.takeWhile (· != 0)).length := by
  have hhandle : (Line.op (.access .handle .dword false) [.addr p.1]).size = 3 := rfl
  have hone : (Line.op .store []).size = 1 ∧ (Line.op .pop []).size = 1 := ⟨rfl, rfl⟩
  rw [pointerLines, Code.extent_cons, Code.extent_cons, Code.extent_cons, Code.extent_cons, Code.extent_nil, size_pushStr,
    hhandle, hone.1, hone.2]
  omega

end Source

namespace Machine.Idle

open Source

variable {image : Array UInt8} {mask : UInt8} {top : UInt16} {pos target : Nat} {m : Machine}

section

variable (h : Idle image mask top pos m)

include h

theorem inits {pieces : List (Nat × List UInt8)}
    (hlies : Code.Lies image mask pos (pieces.map fillLine)) (hfits : ∀ p ∈ pieces, p.1 + p.2.length ≤ 0xFFFF)
    (htarget : pos + Code.extent (pieces.map fillLine) ≤ target)
    : ∃ m', Avoids target m m' ∧ Idle image mask top (pos + Code.extent (pieces.map fillLine)) m'
        ∧ m'.memory = m.memory.fill pieces := by
  induction pieces generalizing pos m with
  | nil => exact ⟨m, .refl, h, rfl⟩
  | cons p pieces ih =>
    rw [List.map_cons, Code.extent_cons, size_fillLine] at htarget ⊢
    rw [List.map_cons, Code.Lies, size_fillLine] at hlies
    rw [List.forall_mem_cons] at hfits
    obtain ⟨rest, hat⟩ := hlies.1.init hfits.1
    have hpos : pos < target := by omega
    obtain ⟨m1, hfirst, hidle, hmemory⟩ := h.init hat hfits.1 hpos
    obtain ⟨m', hrest, hidle', hmemory'⟩ := ih hidle hlies.2 hfits.2 (by omega)
    refine ⟨m', hfirst.trans hrest, ?_, ?_⟩
    · rwa [← Nat.add_assoc]
    · rw [hmemory', hmemory]
      rfl

theorem pointerLines {p : Nat × List UInt8}
    (hlies : Code.Lies image mask pos (pointerLines p)) (hfits : p.1 + 4 ≤ 0xFFFF)
    (htarget : pos + Code.extent (Source.pointerLines p) ≤ target)
    : ∃ m', Avoids target m m' ∧ Idle image mask top (pos + Code.extent (Source.pointerLines p)) m'
        ∧ ∀ b : UInt16, Memory.stringEnd.toNat ≤ b.toNat → b.toNat < p.1 ∨ p.1 + 4 ≤ b.toNat →
          m'.memory.byte b = m.memory.byte b := by
  have hsize : (Line.op (.access .handle .dword false) [.addr p.1]).size = 3 := rfl
  have hone : (Line.op .store []).size = 1 := rfl
  obtain ⟨hhandle, hstring, hstore, hpop, -⟩ := hlies
  rw [hsize] at hstring
  rw [hsize, size_pushStr] at hstore
  rw [hsize, size_pushStr, hone] at hpop
  obtain ⟨rest, hat⟩ := hstring.text
  rw [payload_takeWhile] at hat
  rw [extent_pointerLines] at htarget ⊢
  have hlast : pos + 3 + (2 + (p.2.takeWhile (· != 0)).length) + 1 < target := by omega
  have hend : pos + 3 + (2 + (p.2.takeWhile (· != 0)).length) + 1 + 1
      = pos + (7 + (p.2.takeWhile (· != 0)).length) := by omega
  rw [← hend]
  apply h.pointer _ hat (zero_not_mem_takeWhile p.2) (hstore.plain rfl) (hpop.plain rfl) hfits hlast
  exact hhandle.number rfl rfl rfl (by omega)

theorem pointers {strings : List (Nat × List UInt8)}
    (hlies : Code.Lies image mask pos (strings.flatMap Source.pointerLines)) (hfits : ∀ p ∈ strings, p.1 + 4 ≤ 0xFFFF)
    (htarget : pos + Code.extent (strings.flatMap Source.pointerLines) ≤ target)
    : ∃ m', Avoids target m m' ∧ Idle image mask top (pos + Code.extent (strings.flatMap Source.pointerLines)) m'
        ∧ ∀ b : UInt16, Memory.stringEnd.toNat ≤ b.toNat →
          (∀ p ∈ strings, b.toNat < p.1 ∨ p.1 + 4 ≤ b.toNat) → m'.memory.byte b = m.memory.byte b := by
  induction strings generalizing pos m with
  | nil => exact ⟨m, .refl, h, fun _ _ _ => rfl⟩
  | cons p strings ih =>
    rw [List.flatMap_cons, Code.extent_append] at htarget ⊢
    rw [List.flatMap_cons, Code.lies_append] at hlies
    rw [List.forall_mem_cons] at hfits
    have hpos : pos + Code.extent (Source.pointerLines p) ≤ target := by omega
    obtain ⟨m1, hfirst, hidle, hkeep⟩ := h.pointerLines hlies.1 hfits.1 hpos
    obtain ⟨m', hrest, hidle', hkeep'⟩ := ih hidle hlies.2 hfits.2 (by omega)
    refine ⟨m', hfirst.trans hrest, ?_, ?_⟩
    · rwa [← Nat.add_assoc]
    · intro b hb hout
      rw [List.forall_mem_cons] at hout
      rw [hkeep' b hb hout.2, hkeep b hb hout.1]

theorem start {g : Globals} (hlies : Code.Lies image mask pos (startCode g))
    (hg : g.Confined) (htarget : pos + Code.extent (startCode g) ≤ target)
    : ∃ m', Avoids target m m'
        ∧ Idle image mask (Memory.dataStart + UInt16.ofNat g.size) (pos + Code.extent (startCode g)) m'
        ∧ ∀ b : UInt16, Memory.stringEnd.toNat ≤ b.toNat →
          (∀ p ∈ g.strings, b.toNat < p.1 ∨ p.1 + 4 ≤ b.toNat) →
          m'.memory.byte b = (m.memory.fill g.inits).byte b := by
  have hheap : Memory.heapStart.toNat ≤ 0xFFFF := by decide
  have hbelow := hg.below
  have hsize : Code.extent [.op .space [.int g.size]] = 3 := rfl
  rw [startCode_eq, Code.lies_append, Code.lies_append, Code.extent_append, hsize] at hlies
  rw [startCode_eq, Code.extent_append, Code.extent_append, hsize] at htarget ⊢
  obtain ⟨⟨⟨hspace, -⟩, hinits⟩, hstrings⟩ := hlies
  have hpos : pos < target := by omega
  obtain ⟨m1, hfirst, hidle1, hmemory1⟩ := h.space (hspace.number rfl rfl rfl (by omega)) hbelow hpos
  have hmid : pos + 3 + Code.extent (g.inits.map fillLine) ≤ target := by omega
  have hfits : ∀ p ∈ g.inits, p.1 + p.2.length ≤ 0xFFFF := fun p hp =>
    Nat.le_trans (hg.inits p hp).2 (Nat.le_trans hbelow hheap)
  have hfits' : ∀ p ∈ g.strings, p.1 + 4 ≤ 0xFFFF := fun p hp =>
    Nat.le_trans (hg.strings p hp).2 (Nat.le_trans hbelow hheap)
  obtain ⟨m2, hsecond, hidle2, hmemory2⟩ := hidle1.inits hinits hfits hmid
  rw [← Nat.add_assoc] at hstrings
  have hlast : pos + 3 + Code.extent (g.inits.map fillLine) + Code.extent (g.strings.flatMap Source.pointerLines)
      ≤ target := by omega
  obtain ⟨m', hthird, hidle', hkeep⟩ := hidle2.pointers hstrings hfits' hlast
  refine ⟨m', (hfirst.trans hsecond).trans hthird, ?_, ?_⟩
  · rwa [← Nat.add_assoc, ← Nat.add_assoc]
  · intro b hb hout
    rw [hkeep b hb hout, hmemory2, hmemory1]

end

end Machine.Idle

namespace Source

open Machine

/-- A global lies in the data space and has the contents that it was declared with. -/
def Globals.Established (g : Globals) (memory : Memory) (x : Variable) : Prop :=
  ∃ v, g.vars.lookup x.name = some v ∧ v.ty = x.ty ∧ v.dims = x.extents
    ∧ Memory.dataStart.toNat ≤ v.offset ∧ v.offset + x.size ≤ Memory.dataStart.toNat + g.size
    ∧ (x.init = none → ∀ i < x.size, memory.byte (UInt16.ofNat (v.offset + i)) = 0)
    ∧ ∀ ns, x.constants? = some ns → v.Holds memory ns

section Established

variable {g : Globals} {memory : Memory} {x : Variable}

theorem Globals.Prepares.byte (hg : g.Confined) (h : g.Prepares x)
    (hmemory : ∀ b : UInt16, Memory.stringEnd.toNat ≤ b.toNat →
      (∀ p ∈ g.strings, b.toNat < p.1 ∨ p.1 + 4 ≤ b.toNat) → memory.byte b = (Memory.blank.fill g.inits).byte b)
    : ∃ v, g.vars.lookup x.name = some v ∧ (x.Unwrapped → v.ty = x.ty ∧ v.dims = x.extents)
        ∧ Memory.dataStart.toNat ≤ v.offset ∧ v.offset + v.size ≤ Memory.dataStart.toNat + g.size
        ∧ ∀ bytes, x.Lays v bytes → g.Starts v bytes ∧ ∀ i < v.size,
          memory.byte (UInt16.ofNat (v.offset + i)) = (Memory.blank.fill g.inits).byte (UInt16.ofNat (v.offset + i)) := by
  obtain ⟨v, hlookup, hdeclared, hlow, hhigh, hstarts⟩ := h
  have hbelow := hg.below
  have hheap : Memory.heapStart.toNat ≤ 0xFFFF := by decide
  have hend : Memory.stringEnd.toNat ≤ Memory.dataStart.toNat := by decide
  refine ⟨v, hlookup, hdeclared, hlow, hhigh, fun bytes hlays => ⟨hstarts bytes hlays, fun i hi => ?_⟩⟩
  have haddress : (UInt16.ofNat (v.offset + i)).toNat = v.offset + i := by
    rw [UInt16.toNat_ofNat']
    omega
  apply hmemory
  · omega
  · intro p hp
    have := (hstarts bytes hlays).strings p hp
    omega

theorem Globals.Prepares.established (hg : g.Confined) (h : g.Prepares x) (hx : x.Unwrapped)
    (hmemory : ∀ b : UInt16, Memory.stringEnd.toNat ≤ b.toNat →
      (∀ p ∈ g.strings, b.toNat < p.1 ∨ p.1 + 4 ≤ b.toNat) → memory.byte b = (Memory.blank.fill g.inits).byte b)
    : g.Established memory x := by
  obtain ⟨v, hlookup, hdeclared, hlow, hhigh, hbytes⟩ := h.byte hg hmemory
  obtain ⟨hty, hdims⟩ := hdeclared hx
  have hwords : v.Unwrapped := by
    rw [Var.Unwrapped, hty, hdims]
    exact hx.2
  have hsize : v.size = x.size := by rw [hwords.size_eq, hty, hdims, Variable.size]
  rw [hsize] at hhigh hbytes
  have hbelow := hg.below
  have hheap : Memory.heapStart.toNat ≤ 0xFFFF := by decide
  refine ⟨v, hlookup, hty, hdims, hlow, hhigh, ?_, ?_⟩
  · intro hinit i hi
    have hnone : x.constants? = some [] := by rw [Variable.constants?, hinit]
    obtain ⟨hstarts, hbyte⟩ := hbytes _ (.constants hnone)
    rw [hbyte i hi, hstarts.bytes i (hsize ▸ hi)]
    rfl
  · intro ns hns
    obtain ⟨hstarts, hbyte⟩ := hbytes _ (.constants hns)
    exact hstarts.holds hwords (by omega) (hsize ▸ hbyte)

end Established

section Program

variable {source : String} {options : Options} {image : Array UInt8} {g : Globals} {code : Code}

theorem size_of_survey (h : survey (Cursor.ofSource source) = .ok g)
    (hwords : ∀ x ∈ globalVariables source, x.Unwrapped)
    : g.size = ((globalVariables source).map (·.size)).sum := by
  obtain ⟨howners, htiled⟩ := tiled_of_survey h hwords
  have hsizes : g.slots.map (·.owner.size) = (globalVariables source).map (·.owner.size) := by
    have := congrArg (List.map Owner.size) howners
    rwa [List.map_map, List.map_map] at this
  have hend := htiled.eq_sum
  rw [hsizes] at hend
  exact Nat.add_left_cancel hend

def entryCode (g : Globals) : Code :=
  startCode g ++ [.op .jmp [.label (.named "main")]]

theorem extent_entryCode (g : Globals) : Code.extent (entryCode g) = Code.extent (startCode g) + 4 :=
  Code.extent_append _ _

theorem ne_label_of_mem_entryCode (g : Globals) : ∀ line ∈ entryCode g, ∀ l, line ≠ .label l := by
  intro line hline l
  simp only [entryCode, startCode_eq, List.mem_append, List.mem_map, List.mem_flatMap, List.mem_cons, pointerLines,
    List.not_mem_nil, or_false] at hline
  rcases hline with ((rfl | ⟨p, -, rfl⟩) | ⟨p, -, rfl | rfl | rfl | rfl⟩) | rfl <;> (intro heq; cases heq)

theorem reaches_main (hg : survey (Cursor.ofSource source) = .ok g)
    (hcode : emitFunctions g 0 (functions g.macros (Cursor.ofSource source)) = .ok code)
    (h : assemble (Code.render (entryCode g ++ code)) options = .ok image) (hwords : g.Unwrapped)
    : ∃ start, addressIn (Code.render (entryCode g ++ code)) (.named "main") = some start
        ∧ ∀ m0 : Machine, ∃ m m', m0.load image = .ok m ∧ ReachesFirst start m m'
          ∧ Idle image options.mask (Memory.dataStart + UInt16.ofNat g.size) start m'
          ∧ ∀ b : UInt16, Memory.stringEnd.toNat ≤ b.toNat →
            (∀ p ∈ g.strings, b.toNat < p.1 ∨ p.1 + 4 ≤ b.toNat) →
            m'.memory.byte b = (Memory.blank.fill g.inits).byte b := by
  obtain ⟨hconfined, -⟩ := prepares_of_survey hg hwords
  have hreadable : ∀ line ∈ entryCode g, line.Readable := by
    have hstart : Composed g [] 0 0 (entryCode g) := composed_startCode (survey_near hg) (main_of_survey hg)
    exact hstart.readable ⟨(namesRead_of_emit hg hcode).declared, by simp⟩ ((survey_filled hg hwords).fitting (by simp))
  have hlies : Code.Lies image options.mask Header.length (entryCode g) := Code.lies_of_assemble hreadable h
  rw [entryCode, Code.lies_append] at hlies
  have hsize : Header.length < image.size := by
    have hle : 3 ≤ image.size - Header.length := hlies.1.1.size_le
    omega
  have hstop : Code.stop (startCode g) = Header.length + Code.extent (startCode g) := by
    rw [entryCode, List.append_assoc] at h
    exact (@Code.stands_of_assemble [] (startCode g) _ options image
      (fun line hline => hreadable line (List.mem_append_left _ hline)) h).2
  obtain ⟨hjump, -⟩ := @Code.stands_in_text (startCode g) _ code options image
    (fun line hline => hreadable line (List.mem_append_right _ hline)) h
  obtain ⟨start, hbound, haddress, hjump⟩ := hjump rfl
  rw [hstop] at hjump
  have hbehind := le_of_addressIn hreadable (ne_label_of_mem_entryCode g) haddress
  rw [extent_entryCode] at hbehind
  refine ⟨start, haddress, fun m0 => ?_⟩
  have hload : m0.load image = .ok (m0.installed image options.header) :=
    load_eq_ok_iff.mpr ⟨_, parse_of_assemble h hsize, rfl⟩
  have hidle : Idle image options.mask Memory.dataStart Header.length (m0.installed image options.header) :=
    idle_of_load hload
  have hbefore : Header.length + Code.extent (startCode g) < start := by omega
  obtain ⟨m1, hstart, hidle1, hmemory⟩ := hidle.start hlies.1 hconfined (Nat.le_of_lt hbefore)
  obtain ⟨m', ⟨hjumps, hpc⟩, hidle', hsame⟩ := hidle1.jmp hjump (by omega) hbefore
  refine ⟨_, m', hload, ⟨hstart.trans hjumps, hpc⟩, hidle', ?_⟩
  intro b hb hout
  rw [hsame, hmemory b hb hout]
  rfl

theorem build_eq_ok_iff :
    build source options = .ok image ↔ ∃ text, compile source = .ok text ∧ assemble text options = .ok image := by
  unfold build
  cases compile source with
  | error e => simp
  | ok text =>
    simp only [Except.ok.injEq, exists_eq_left']
    cases assemble text options with
    | error e | ok image' => simp [Except.mapError]

end Program

/--
The image of a program can be loaded, and its code leads to `main`. By then each global that is declared with constants,
however nested, has them for its first elements and zero for the others, and one without an initializer is all zero. The
frame is empty and starts behind the globals. This takes globals for whose sizes and places no word wraps.
-/
theorem globals_established {source : String} {options : Options} {image : Array UInt8}
    (h : build source options = .ok image) (hwords : ∀ x ∈ globalVariables source, x.Unwrapped)
    : ∃ text g start, compile source = .ok text ∧ survey (Cursor.ofSource source) = .ok g
        ∧ addressIn text (.named "main") = some start
        ∧ g.slots.map (·.owner) = (globalVariables source).map (·.owner)
        ∧ ∀ m0 : Machine, ∃ m m', m0.load image = .ok m ∧ ReachesFirst start m m'
          ∧ m'.base = m'.base2 ∧ m'.base.toNat = 0x2000 + ((globalVariables source).map (·.size)).sum
          ∧ ∀ x ∈ globalVariables source, g.Established m'.memory x := by
  obtain ⟨text, hcompile, himage⟩ := build_eq_ok_iff.mp h
  obtain ⟨g, hg, code, hcode, rfl⟩ := compile_eq_ok_iff.mp hcompile
  have hunwrapped := (gathers_of_survey hg).unwrapped nofun hwords
  obtain ⟨hconfined, hprepares⟩ := prepares_of_survey hg hunwrapped
  obtain ⟨start, haddress, hmain⟩ := reaches_main hg hcode himage hunwrapped
  refine ⟨_, g, start, hcompile, hg, haddress, (tiled_of_survey hg hwords).1, fun m0 => ?_⟩
  obtain ⟨m, m', hload, hreaches, hidle, hmemory⟩ := hmain m0
  refine ⟨m, m', hload, hreaches, hidle.base.trans hidle.base2.symm, ?_, ?_⟩
  · have hbelow := hconfined.below
    have hheap : Memory.heapStart.toNat < 0x10000 := by decide
    rw [hidle.base, Memory.toNat_add_ofNat (by omega), size_of_survey hg hwords]
    rfl
  · intro x hx
    exact (hprepares x hx).established hconfined (hwords x hx) hmemory

def startSource : String :=
  "char a[2][2] = \x7b\x7b1, 2\x7d, \x7b-1\x7d\x7d; int b; char *s = \"x\"; void main() \x7b\x7d"

theorem globals_established_startSource :
    ∃ (image : Array UInt8) (g : Globals) (start : Nat), build startSource {} = .ok image
      ∧ (globalVariables startSource).map (fun x => (x.name, x.constants?))
        = [("a", some [1, 2, -1]), ("b", some []), ("s", none)]
      ∧ ∀ m0 : Machine, ∃ m m', m0.load image = .ok m ∧ ReachesFirst start m m'
        ∧ ∀ x ∈ globalVariables startSource, g.Established m'.memory x := by
  obtain ⟨image, himage⟩ := Except.exists_eq_ok_of_isOk (x := build startSource {}) (by decide +kernel)
  obtain ⟨-, g, start, -, -, -, -, hmain⟩ := globals_established himage (by decide +kernel)
  refine ⟨image, g, start, himage, by decide +kernel, fun m0 => ?_⟩
  obtain ⟨m, m', hload, hreaches, -, -, hglobals⟩ := hmain m0
  exact ⟨m, m', hload, hreaches, hglobals⟩

def sharedSource : String :=
  "char a[32768][32768][4]; int b = 5; void main() \x7b \x7d"

/-- The size of an array of `2 ^ 32` bytes wraps to zero, so that it starts with the bytes of the next global. -/
theorem globals_shared :
    (build sharedSource {}).isOk
      ∧ (globalVariables sharedSource).map (fun x => (x.name, x.size, x.constants?))
        = [("a", 0x100000000, some []), ("b", 2, some [5])]
      ∧ (survey (Cursor.ofSource sharedSource)).toOption.map (fun g => (g.vars.map fun p => (p.1, p.2.offset), g.inits))
        = some ([("b", 0x2000), ("a", 0x2000)], [(0x2000, [5])]) := by
  decide +kernel

end Source

end Handheld
