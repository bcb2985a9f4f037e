import Handheld.Proofs.Machine.Nesting

/-!
A call and the frame instruction that it leads to move the arguments from the stack into a new frame, and touch nothing
else.
-/
namespace Handheld.Machine

variable {i : Nat} {n : Int32} {w : Width}

section Slots

variable {memory : Memory} {slot : UInt16} {args : List Int32}

theorem add_paramSlot_mul_succ (slot : UInt16) (i : Nat) :
    slot + UInt16.ofNat Memory.paramSlot + UInt16.ofNat (Memory.paramSlot * i)
      = slot + UInt16.ofNat (Memory.paramSlot * (i + 1)) := by
  rw [UInt16.add_assoc, ← UInt16.ofNat_add, Nat.mul_succ, Nat.add_comm Memory.paramSlot]

theorem read_writeParams (hroom : slot.toNat + 4 * args.length ≤ 0x10000) (hi : args[i]? = some n)
    : (writeParams memory slot args).read (slot + UInt16.ofNat (Memory.paramSlot * i)) w = w.normalize n := by
  induction args generalizing memory slot i with
  | nil => cases hi
  | cons arg args ih =>
    rw [List.length_cons] at hroom
    have hbytes : w.bytes ≤ 4 := by cases w <;> decide
    have hnext (hargs : 0 < args.length) : (slot + UInt16.ofNat Memory.paramSlot).toNat = slot.toNat + 4 :=
      Memory.toNat_add_ofNat (n := 4) (by omega)
    rw [writeParams]
    cases i with
    | zero =>
      cases hi
      have hslot : slot + UInt16.ofNat (Memory.paramSlot * 0) = slot := UInt16.add_zero slot
      have hfirst : (memory.write slot .dword n).read slot w = w.normalize n := Memory.read_writeLE (by decide) hbytes
      rw [hslot, ← hfirst, Memory.read, Memory.read, Memory.readLE_congr (by omega)]
      intro a _ ha
      -- The slots to come are behind this one, unless there are none.
      cases args with
      | nil => rfl
      | cons arg' args =>
        have hstart := hnext (Nat.succ_pos _)
        exact byte_writeParams_of_not_mem (by omega) (by omega)
    | succ i =>
      rw [List.getElem?_cons_succ] at hi
      have hargs : 0 < args.length := Nat.lt_of_le_of_lt (Nat.zero_le i) (List.getElem?_eq_some_iff.mp hi).1
      have hstart := hnext hargs
      rw [← add_paramSlot_mul_succ]
      exact ih (by omega) hi

end Slots

section Entry

variable {m m1 m2 : Machine} {p1 p2 : Progress} {pos size argc : Nat}

theorem about_call (hready : m.Ready) (hcall : Stands m.image m.pc .call pos) : m.About .call := by
  have hroom := hcall.room
  exact ⟨⟨hready, by omega⟩, hcall.code⟩

theorem pc_entered (hcall : Stands m.image m.pc .call pos) : m.entered.pc = pos :=
  hcall.operand

theorem about_func (hready : m.Ready) (hcall : Stands m.image m.pc .call pos) (hfunc : StandsFunc m.image pos size argc)
    : m.entered.About .func := by
  have hpc := pc_entered hcall
  have hroom := hfunc.room
  refine ⟨⟨⟨hready.loaded, hready.halted⟩, ?_⟩, ?_⟩
  · change m.entered.pc < m.image.size
    omega
  · change m.image.getD m.entered.pc 0 = _
    rw [hpc]
    exact hfunc.code

def begunFrame (m : Machine) (size argc : Nat) : Machine :=
  { m.entered.opened size argc with pc := m.entered.pc + 4, lastPc := m.entered.pc }

theorem steps_call_func_iff (hready : m.Ready) (hcall : Stands m.image m.pc .call pos)
    (hfunc : StandsFunc m.image pos size argc)
    : step m = .ok p1 m1 ∧ step m1 = .ok p2 m2
        ↔ m.base2.toNat + max Memory.frameHeader size ≤ Memory.heapStart.toNat ∧ argc ≤ m.stack.size
          ∧ p1 = .running ∧ m1 = m.entered ∧ p2 = .running ∧ m2 = m.begunFrame size argc := by
  have hpc := pc_entered hcall
  have habout := about_func hready hcall hfunc
  have hsize : m.entered.frameSize = size := by
    rw [frameSize, hpc]
    exact hfunc.size
  have hargs : m.entered.frameArgs = argc := by
    rw [frameArgs, hpc]
    exact hfunc.args
  have hroom : m.entered.pc + 4 ≤ m.entered.image.size := by
    rw [hpc]
    exact hfunc.room
  rw [step_call_eq_ok_iff (about_call hready hcall)]
  constructor
  · rintro ⟨⟨-, hheader, hrunning, rfl⟩, hstep⟩
    rw [step_func_eq_ok_iff habout, hsize, hargs] at hstep
    obtain ⟨-, hbelow, hargc, hrunning', hopened⟩ := hstep
    have hframe : m.base2.toNat + size ≤ Memory.heapStart.toNat := hbelow
    exact ⟨by omega, hargc, hrunning, rfl, hrunning', hopened⟩
  · rintro ⟨hbelow, hargc, hrunning, rfl, hrunning', hopened⟩
    refine ⟨⟨hcall.room, by omega, hrunning, rfl⟩, ?_⟩
    rw [step_func_eq_ok_iff habout, hsize, hargs]
    have hframe : m.base2.toNat + size ≤ Memory.heapStart.toNat := by omega
    exact ⟨hroom, hframe, hargc, hrunning', hopened⟩

end Entry

section Frame

variable {m : Machine} {size : Nat} {items : Array Int32} {args : List Int32}

section

variable (h : m.stack.items = items ++ args.toArray)

include h

theorem arguments_append : m.arguments args.length = args := by
  simp [arguments, Stack.size, h, Array.extract_append]

theorem stack_begunFrame : (m.begunFrame size args.length).stack = { m.stack with items := items } := by
  have hstack : (m.begunFrame size args.length).stack
      = { m.stack with items := m.stack.items.shrink (m.stack.size - args.length) } := rfl
  rw [hstack, h, Stack.size, h]
  simp

theorem memory_begunFrame :
    (m.begunFrame size args.length).memory
      = writeParams m.entered.memory (m.base2 + UInt16.ofNat Memory.frameHeader) args :=
  congrArg (writeParams _ _) (arguments_append h)

section

variable (hroom : m.base2.toNat + (Memory.frameHeader + Memory.paramSlot * args.length) ≤ 0xFFFF)

include hroom

theorem sameOutside_begunFrame
    : Memory.SameOutside m.base2.toNat (Memory.frameHeader + Memory.paramSlot * args.length) m.memory
        (m.begunFrame size args.length).memory := by
  have hheader : Memory.frameHeader = 5 := rfl
  have hparam : Memory.paramSlot = 4 := rfl
  intro a ha
  rw [hparam] at hroom ha
  have hthree : (m.base2 + 3).toNat = m.base2.toNat + 3 := Memory.toNat_add_ofNat (n := 3) (by omega)
  have hslot : (m.base2 + UInt16.ofNat Memory.frameHeader).toNat = m.base2.toNat + Memory.frameHeader :=
    Memory.toNat_add_ofNat (by omega)
  rw [memory_begunFrame h, byte_writeParams_of_not_mem (by omega) (by omega), entered,
    Memory.byte_writeLE_of_not_mem (by omega) (by omega), Memory.byte_writeLE_of_not_mem (by omega) (by omega)]

theorem load_begunFrame
    (hi : args[i]? = some n)
    : (m.begunFrame size args.length).memory.load
        ⟨UInt16.ofNat (Memory.frameHeader + Memory.paramSlot * i), w, true⟩ (m.begunFrame size args.length).base
        = w.normalize n := by
  have hparam : Memory.paramSlot = 4 := rfl
  have hslot : (m.base2 + UInt16.ofNat Memory.frameHeader).toNat = m.base2.toNat + Memory.frameHeader :=
    Memory.toNat_add_ofNat (by omega)
  have hresolve : Handle.resolve ⟨UInt16.ofNat (Memory.frameHeader + Memory.paramSlot * i), w, true⟩
      (m.begunFrame size args.length).base
      = m.base2 + UInt16.ofNat Memory.frameHeader + UInt16.ofNat (Memory.paramSlot * i) := by
    rw [Handle.resolve, if_pos rfl, UInt16.ofNat_add, UInt16.add_comm, UInt16.add_assoc]
    rfl
  rw [hparam] at hroom
  rw [Memory.load, hresolve, memory_begunFrame h]
  exact read_writeParams (by omega) hi

end

end

end Frame

end Handheld.Machine
