import Handheld.Proofs.Machine.Boundaries

/-!
The instructions that prepare the data space of a program: they claim it, fill it, and put the addresses of strings into
it.
-/
namespace Handheld.Machine

open Asm

def Avoids (pos : Nat) : Machine → Machine → Prop :=
  Relation.ReflTransGen fun m m' => m.pc ≠ pos ∧ step m = .ok .running m'

def ReachesFirst (pos : Nat) (m m' : Machine) : Prop :=
  Avoids pos m m' ∧ m'.pc = pos

structure Idle (image : Array UInt8) (mask : UInt8) (top : UInt16) (pos : Nat) (m : Machine) : Prop where
  ready : m.Ready
  image : m.image = image
  mask : m.header.mask = mask
  base : m.base = top
  base2 : m.base2 = top
  pc : m.pc = pos
  stack : m.stack = .empty 1024
  slots : m.Slots

variable {image : Array UInt8} {mask : UInt8} {top : UInt16} {pos target : Nat} {m : Machine}

theorem idle_of_load {m0 : Machine} (h : m0.load image = .ok m) :
    Idle image m.header.mask Memory.dataStart m.header.entry.toNat m := by
  have hslots := (Arises.load h).slots
  obtain ⟨header, -, rfl⟩ := load_eq_ok_iff.mp h
  exact ⟨⟨rfl, rfl⟩, rfl, rfl, rfl, rfl, rfl, rfl, hslots⟩

theorem codeLE_littleEndian {n : Nat} {rest : List UInt8} (h : image.toList.drop pos = littleEndian 2 n ++ rest)
    (hn : n ≤ 0xFFFF) : codeLE image pos 2 = UInt32.ofNat n := by
  have hvalue := toNat_codeLE_littleEndian h (by omega) (by omega)
  rw [← hvalue, UInt32.ofNat_toNat]

theorem fetch_littleEndian {n : Nat} {rest : List UInt8}
    (h : m.image.toList.drop m.pc = littleEndian 2 n ++ rest) (hn : n ≤ 0xFFFF)
    : fetch 2 m = .ok (UInt32.ofNat n) { m with pc := m.pc + 2 } := by
  have hlength := congrArg List.length h
  rw [List.length_drop, Array.length_toList, List.length_append, length_littleEndian] at hlength
  rw [fetch_of_le (by omega), codeLE_littleEndian h hn]

theorem copyCode_of_drop {addr : UInt16} {bytes rest : List UInt8} (h : m.image.toList.drop m.pc = bytes ++ rest)
    (hinside : m.pc + bytes.length ≤ m.image.size)
    : copyCode addr bytes.length m
        =
      .ok () { m with memory := m.memory.copyIn addr bytes, pc := m.pc + bytes.length } := by
  have hextract : (m.image.extract m.pc (m.pc + bytes.length)).toList = bytes := by
    rw [Array.toList_extract, List.extract_eq_take_drop, h, Nat.add_sub_cancel_left, List.take_left]
  rw [copyCode, if_pos hinside, hextract]
  rfl

theorem maskedString?_of_drop {bytes rest : List UInt8}
    (h : image.toList.drop pos = bytes.map (· ^^^ mask) ++ mask :: rest) (hzero : 0 ∉ bytes)
    : maskedString? image mask pos = some bytes := by
  induction bytes generalizing pos with
  | nil =>
    have hlt : pos < image.size := by
      have hlength := congrArg List.length h
      simp only [List.length_drop, Array.length_toList, List.map_nil, List.nil_append, List.length_cons] at hlength
      omega
    have hbyte : image[pos] = mask := by
      rw [← Array.length_toList] at hlt
      rw [List.drop_eq_getElem_cons hlt] at h
      exact (List.cons.inj h).1
    rw [maskedString?, dif_pos hlt, hbyte]
    simp
  | cons b bytes ih =>
    have hlt : pos < image.size := by
      have hlength := congrArg List.length h
      simp only [List.length_drop, Array.length_toList, List.map_cons, List.cons_append, List.length_cons] at hlength
      omega
    rw [← Array.length_toList] at hlt
    rw [List.drop_eq_getElem_cons hlt, List.map_cons, List.cons_append] at h
    rw [Array.length_toList] at hlt
    obtain ⟨hbyte, hrest⟩ := List.cons.inj h
    rw [List.mem_cons, not_or] at hzero
    have hxor : image[pos] ^^^ mask = b := by
      rw [← Array.getElem_toList, hbyte, UInt8.xor_assoc, UInt8.xor_self, UInt8.xor_zero]
    rw [maskedString?, dif_pos hlt, hxor, ih hrest hzero.2]
    simp [Ne.symm hzero.1]

theorem literal_eq (m : Machine) (position : Nat) (bytes : List UInt8) :
    ∃ memory strings literals, (m.literal position bytes).2
      = { m with memory := memory, strings := strings, literals := literals } := by
  unfold literal
  split
  next => exact ⟨_, m.strings, m.literals, rfl⟩
  next => exact ⟨_, _, _, rfl⟩

theorem set_cons (m : Machine) (last pc : Nat) (v : Int32) (stack : List Int32) (memory : Memory) :
    m.set last ⟨pc, v :: stack, memory⟩
      =
    { m with
      pc := pc
      lastPc := last
      stack := { m.stack with items := stack.reverse.toArray.push v }
      memory := memory } := by
  have hitems : (v :: stack).reverse.toArray = stack.reverse.toArray.push v := by simp
  rw [set, hitems]

def slotted (m : Machine) (strings : UInt16) (literals : List Literal) : Machine :=
  { m with strings := strings, literals := literals }

theorem pushes?_of_drop {bytes rest : List UInt8} (hready : m.Ready)
    (hat : m.image.toList.drop m.pc = Opcode.pushStr.code :: (bytes.map (· ^^^ m.header.mask) ++ m.header.mask :: rest))
    (hzero : 0 ∉ bytes) : m.pushes? = some bytes := by
  have hoperand : m.image.toList.drop (m.pc + 1) = bytes.map (· ^^^ m.header.mask) ++ m.header.mask :: rest := by
    rw [← List.tail_drop, hat, List.tail_cons]
  exact pushes?_eq_some_iff.mpr
    ⟨live_of_drop hready hat, opcodeByte_of_drop hat, maskedString?_of_drop hoperand hzero⟩

theorem goes_pushStr {pc last : Nat} {stack : List Int32} {memory : Memory} {bytes rest : List UInt8}
    (hready : m.Ready) (hslots : m.Slots)
    (hat : m.image.toList.drop pc = Opcode.pushStr.code :: (bytes.map (· ^^^ m.header.mask) ++ m.header.mask :: rest))
    (hzero : 0 ∉ bytes) (hroom : stack.length < m.stack.limit)
    : ∃ strings literals memory' a,
        step (m.set last ⟨pc, stack, memory⟩)
          = .ok .running ((m.slotted strings literals).set pc
            ⟨pc + (2 + bytes.length), Handle.encode ⟨a, .byte, false⟩ :: stack, memory'⟩)
        ∧ (m.slotted strings literals).Slots ∧ memory'.cstr a = bytes.take stringRoom
        ∧ ∀ b : UInt16, Memory.stringEnd.toNat ≤ b.toNat → memory'.byte b = memory.byte b := by
  have hpushes : (m.set last ⟨pc, stack, memory⟩).pushes? = some bytes :=
    pushes?_of_drop ⟨hready.loaded, hready.halted⟩ hat hzero
  have hslots : (m.set last ⟨pc, stack, memory⟩).Slots := hslots.congr rfl
  obtain ⟨hbelow, hmemory, hstack⟩ := placed_bounds hslots hpushes
  obtain ⟨memory', strings, literals, hplaced⟩ :
    ∃ memory' strings literals, ((m.set last ⟨pc, stack, memory⟩).placed bytes).2 = _ := literal_eq _ _ _
  have hsize : ((m.set last ⟨pc, stack, memory⟩).placed bytes).2.stack.size
      < ((m.set last ⟨pc, stack, memory⟩).placed bytes).2.stack.limit := by
    rw [hstack]
    simpa [set, Stack.size] using hroom
  have hstep := step_of_pushes? hpushes
  rw [bind_eq_ok (push_of_lt hsize _), hplaced] at hstep
  rw [hplaced] at hmemory
  generalize ((m.set last ⟨pc, stack, memory⟩).placed bytes).1 = a at hstep hbelow hmemory
  have hpc : pc + 1 + bytes.length + 1 = pc + (2 + bytes.length) := by omega
  have hset : step (m.set last ⟨pc, stack, memory⟩)
      = .ok .running ((m.slotted strings literals).set pc
        ⟨pc + (2 + bytes.length), Handle.encode ⟨a, .byte, false⟩ :: stack, memory'⟩) := by
    rw [hstep, set_cons, ← hpc]
    rfl
  have hmemory : memory' = _ := hmemory
  have hend : Memory.stringEnd.toNat ≤ 0xFFFF := by decide
  refine ⟨strings, literals, memory', a, hset, ?_, ?_, ?_⟩
  · have hafter := hslots.step
    rw [hset] at hafter
    exact hafter.congr rfl
  · rw [hmemory]
    exact Memory.cstr_putString (by omega) fun hmem => hzero (List.mem_of_mem_take hmem)
  · intro b hb
    rw [hmemory]
    exact Memory.byte_putString_of_not_mem (by omega) (by omega)

namespace Idle

section

variable (h : Idle image mask top pos m)

include h

theorem avoids {op : Opcode} {m' : Machine} (hinside : pos < image.size)
    (hcode : image.getD pos 0 = op.code) (htarget : pos < target) (hexecute : execute op m.begun = .ok .running m')
    : Avoids target m m' := by
  rw [← h.image, ← h.pc] at hinside hcode
  rw [← h.pc] at htarget
  have hstep : step m = execute op m.begun := step_eq_execute ⟨h.ready, hinside⟩ hcode
  exact .single ⟨Nat.ne_of_lt htarget, hstep.trans hexecute⟩

theorem space {size : Nat} (hop : Stands image pos .space size)
    (hroom : Memory.dataStart.toNat + size ≤ Memory.heapStart.toNat) (htarget : pos < target)
    : ∃ m', Avoids target m m' ∧ Idle image mask (Memory.dataStart + UInt16.ofNat size) (pos + 3) m'
        ∧ m'.memory = m.memory := by
  have hheap : Memory.heapStart.toNat ≤ 0xFFFF := by decide
  have hinside : pos + 1 + 2 ≤ image.size := hop.room_operand rfl
  have hfetch : fetch 2 m.begun = .ok (UInt32.ofNat size) { m.begun with pc := m.begun.pc + 2 } := by
    have hoperand : codeLE m.begun.image m.begun.pc 2 = UInt32.ofNat size := by
      rw [begun, h.image, h.pc]
      exact hop.operand_eq rfl
    rw [← hoperand]
    apply fetch_of_le
    rw [begun, h.image, h.pc]
    exact hinside
  have hsize : (UInt32.ofNat size).toNat = size := by
    rw [UInt32.toNat_ofNat']
    omega
  have hframe : frameEnd Memory.dataStart (UInt32.ofNat size).toNat { m.begun with pc := m.begun.pc + 2 }
      = .ok (Memory.dataStart + UInt16.ofNat size) { m.begun with pc := m.begun.pc + 2 } := by
    rw [hsize]
    exact frameEnd_of_le hroom
  refine ⟨{ m.begun with
    pc := m.begun.pc + 2
    base := Memory.dataStart + UInt16.ofNat size
    base2 := Memory.dataStart + UInt16.ofNat size }, ?_, ?_, rfl⟩
  · apply h.avoids (by omega) hop.code htarget
    have hexecute : execute .space m.begun = _ := bind_eq_ok hfetch
    rw [hexecute, bind_eq_ok hframe]
    rfl
  · have hpc : m.begun.pc + 2 = pos + 3 := by rw [← h.pc]; rfl
    exact ⟨⟨h.ready.loaded, h.ready.halted⟩, h.image, h.mask, rfl, rfl, hpc, h.stack, h.slots.congr rfl⟩

theorem drop_begun {b : UInt8} {rest : List UInt8} (hat : image.toList.drop pos = b :: rest)
    : m.begun.image.toList.drop m.begun.pc = rest := by
  have himage : m.begun.image = image := h.image
  have hpc : m.begun.pc = pos + 1 := by rw [← h.pc]; rfl
  rw [himage, hpc, ← List.tail_drop, hat, List.tail_cons]

theorem init {addr : Nat} {bytes rest : List UInt8} (hat : image.toList.drop pos
      = Opcode.init.code :: (littleEndian 2 addr ++ (littleEndian 2 bytes.length ++ (bytes ++ rest))))
    (hfits : addr + bytes.length ≤ 0xFFFF) (htarget : pos < target)
    : ∃ m', Avoids target m m' ∧ Idle image mask top (pos + (5 + bytes.length)) m'
        ∧ m'.memory = m.memory.copyIn (UInt16.ofNat addr) bytes := by
  have hoperands := h.drop_begun hat
  have hfetch := fetch_littleEndian hoperands (by omega)
  have hlengths : m.begun.image.toList.drop (m.begun.pc + 2) = littleEndian 2 bytes.length ++ (bytes ++ rest) := by
    rw [← List.drop_drop, hoperands]
    exact List.drop_left' (length_littleEndian _ _)
  have hfetch' := @fetch_littleEndian { m.begun with pc := m.begun.pc + 2 } _ _ hlengths (by omega)
  have hbytes : m.begun.image.toList.drop (m.begun.pc + 2 + 2) = bytes ++ rest := by
    rw [← List.drop_drop, hlengths]
    exact List.drop_left' (length_littleEndian _ _)
  have hinside : m.begun.pc + 2 + 2 + bytes.length ≤ m.begun.image.size := by
    have hlength := congrArg List.length hoperands
    simp only [List.length_drop, Array.length_toList, List.length_append, length_littleEndian] at hlength
    omega
  have hcopy := @copyCode_of_drop { m.begun with pc := m.begun.pc + 2 + 2 } (UInt16.ofNat addr) _ _ hbytes hinside
  have hlength : (UInt32.ofNat bytes.length).toNat = bytes.length := by
    rw [UInt32.toNat_ofNat']
    omega
  refine ⟨{ m.begun with
    memory := m.memory.copyIn (UInt16.ofNat addr) bytes
    pc := m.begun.pc + 2 + 2 + bytes.length }, ?_, ?_, rfl⟩
  · rw [← h.image, ← h.pc] at hat
    have hcode : m.opcodeByte = Opcode.init.code := opcodeByte_of_drop hat
    have hlt : m.pc < m.image.size := pc_lt_of_drop hat
    rw [h.image, h.pc] at hlt
    rw [opcodeByte, h.image, h.pc] at hcode
    apply h.avoids hlt hcode htarget
    have hexecute : execute .init m.begun = _ := bind_eq_ok hfetch
    rw [hexecute, bind_eq_ok hfetch', hlength, UInt32.toUInt16_ofNat', bind_eq_ok hcopy]
    rfl
  · have hpc : m.begun.pc + 2 + 2 + bytes.length = pos + (5 + bytes.length) := by
      have hbegun : m.begun.pc = m.pc + 1 := rfl
      rw [hbegun, h.pc]
      omega
    exact ⟨⟨h.ready.loaded, h.ready.halted⟩, h.image, h.mask, h.base, h.base2, hpc, h.stack, h.slots.congr rfl⟩

theorem set_eq : m.set m.lastPc ⟨pos, [], m.memory⟩ = m := by
  have hconfig : m.config = ⟨pos, [], m.memory⟩ := by
    rw [config, h.stack, h.pc]
    rfl
  rw [← hconfig, set_config]

theorem jmp (hop : Stands image pos .jmp target) (hbound : target < 2 ^ 32) (htarget : pos < target)
    : ∃ m', ReachesFirst target m m' ∧ Idle image mask top target m' ∧ m'.memory = m.memory := by
  have hstart := h.set_eq
  obtain ⟨hready, rfl, rfl, hbase, hbase2, rfl, hstack, hslots⟩ := h
  have hstep : step (m.set m.lastPc ⟨m.pc, [], m.memory⟩) = _ := goes_jmp hready hop hbound m.lastPc
  rw [hstart] at hstep
  refine ⟨_, ⟨.single ⟨Nat.ne_of_lt htarget, hstep⟩, rfl⟩, ?_, rfl⟩
  refine ⟨⟨hready.loaded, hready.halted⟩, rfl, rfl, hbase, hbase2, rfl, ?_, hslots.congr rfl⟩
  rw [set, hstack]
  rfl

theorem pointer {addr : Nat} {bytes rest : List UInt8} (hhandle : Stands image pos (.access .handle .dword false) addr)
    (hat : image.toList.drop (pos + 3) = Opcode.pushStr.code :: (bytes.map (· ^^^ mask) ++ mask :: rest))
    (hzero : 0 ∉ bytes) (hstore : Stands image (pos + 3 + (2 + bytes.length)) .store 0)
    (hpop : Stands image (pos + 3 + (2 + bytes.length) + 1) .pop 0) (hfits : addr + 4 ≤ 0xFFFF)
    (htarget : pos + 3 + (2 + bytes.length) + 1 < target)
    : ∃ m', Avoids target m m' ∧ Idle image mask top (pos + 3 + (2 + bytes.length) + 1 + 1) m'
        ∧ ∀ b : UInt16, Memory.stringEnd.toNat ≤ b.toNat → b.toNat < addr ∨ addr + 4 ≤ b.toNat →
          m'.memory.byte b = m.memory.byte b := by
  have hstart := h.set_eq
  obtain ⟨hready, rfl, rfl, hbase, hbase2, rfl, hstack, hslots⟩ := h
  have hroom : 1 < m.stack.limit := by
    rw [hstack]
    decide
  have hempty : ([] : List Int32).length < m.stack.limit := Nat.lt_of_succ_lt hroom
  -- The slots change with the second instruction, and besides them only what `set` has.
  have hfirst : step (m.set m.lastPc ⟨m.pc, [], m.memory⟩) = _ :=
    goes_access_handle hready hempty hhandle m.lastPc
  obtain ⟨strings, literals, memory, a, hsecond, hslots', -, hkeep⟩ :=
    @goes_pushStr m _ m.pc [Handle.encode ⟨UInt16.ofNat addr, .dword, false⟩] m.memory _ _ hready hslots hat hzero hroom
  generalize Handle.encode ⟨a, .byte, false⟩ = v at hsecond
  have hready' : (m.slotted strings literals).Ready := ⟨hready.loaded, hready.halted⟩
  have hthird := @goes_store (m.slotted strings literals) _ _ [] memory hready' hempty
    ⟨UInt16.ofNat addr, .dword, false⟩ v hstore (m.pc + 3)
  have hfourth := @goes_pop (m.slotted strings literals) _ _ [] (memory.write (UInt16.ofNat addr) .dword v)
    hready' (Width.dword.normalize v) hpop (m.pc + 3 + (2 + bytes.length))
  rw [hstart] at hfirst
  have hne : m.pc ≠ target ∧ m.pc + 3 ≠ target ∧ m.pc + 3 + (2 + bytes.length) ≠ target := by omega
  have hone : Avoids target m _ := .single ⟨hne.1, hfirst⟩
  have htwo : Avoids target m _ := hone.tail ⟨hne.2.1, hsecond⟩
  have hthree : Avoids target m _ := htwo.tail ⟨hne.2.2, hthird⟩
  refine ⟨_, hthree.tail ⟨Nat.ne_of_lt htarget, hfourth⟩, ?_, ?_⟩
  · refine ⟨⟨hready.loaded, hready.halted⟩, rfl, rfl, hbase, hbase2, rfl, ?_, hslots'.congr rfl⟩
    rw [set, slotted, hstack]
    rfl
  · intro b hb hout
    have haddr : (UInt16.ofNat addr).toNat = addr := by
      rw [UInt16.toNat_ofNat']
      omega
    rw [← hkeep b hb]
    apply Memory.byte_writeLE_of_not_mem
    · dsimp only [Handle.resolve, Width.bytes]
      omega
    · rw [← haddr] at hout
      exact hout

end

end Idle

end Handheld.Machine
