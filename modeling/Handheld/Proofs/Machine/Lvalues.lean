import Handheld.Proofs.Machine.Steps
import Handheld.Proofs.Memory.Strings

/-!
Objects behind handles. What is stored through a handle is loaded back through every handle of that width with the same
address, and nothing else changes.
-/
namespace Handheld

namespace Memory

variable {m m' : Memory} {a a' b : UInt16} {len : Nat} {w : Width}

theorem le_toNat_sub_of_ne (h : ∀ i < len, a + UInt16.ofNat i ≠ b) : len ≤ (b - a).toNat := by
  apply Nat.le_of_not_lt
  intro hlt
  exact h _ hlt (add_ofNat_sub a b)

theorem changedWithin_writeLE (m : Memory) (a : UInt16) (len : Nat) (v : UInt32) :
    ChangedWithin a len m (m.writeLE a len v) := by
  intro b hb
  apply byte_writeLE_of_le
  exact le_toNat_sub_of_ne hb

theorem ChangedWithin.read_eq (h : ChangedWithin a len m m') (hapart : Apart a len a' w.bytes) :
    m'.read a' w = m.read a' w := by
  rw [read, read, readLE_congr_of_lt]
  intro b hb
  apply h
  intro i hi
  rw [← add_ofNat_sub a' b]
  exact hapart i hi _ hb

end Memory

namespace Machine

variable {m : Machine} {items : Array Int32} {h : Handle} {up before : Bool}

theorem Live.stands_step (hlive : m.Live) (hop : m.opcodeByte = (Opcode.step up before).code) :
    Stands m.image m.pc (.step up before) 0 :=
  ⟨hlive.inside, hop, rfl⟩

theorem step_eq_of_step (hlive : m.Live) (hop : m.opcodeByte = (Opcode.step up before).code)
    (hstack : m.stack.items = items.push h.encode) (hroom : items.size < m.stack.limit)
    : let old := m.memory.load h m.base
      let stored := m.memory.store h m.base (old + if up then 1 else -1)
      step m
        =
      .ok .running
        { m with
          pc := m.pc + 1
          lastPc := m.pc
          stack := { m.stack with items := items.push (if before then stored.1 else old) }
          memory := stored.2 } := by
  intro old stored
  have hgoes : Goes m ⟨m.pc, h.encode :: items.toList.reverse, m.memory⟩ _ :=
    goes_step hlive.toReady (by simpa using hroom) (hlive.stands_step hop)
  have hstep := hgoes m.lastPc
  have hbegin : m.set m.lastPc ⟨m.pc, h.encode :: items.toList.reverse, m.memory⟩ = m := by
    unfold set
    rw [toArray_push, ← hstack]
  rw [hbegin] at hstep
  rw [hstep]
  unfold set
  rw [toArray_push]
  rfl

end Machine

/--
Loading and storing through handles. A store gives the value at the width of the handle and leaves it for every handle
of this width with the same address; it changes no byte beside its own, and so no object that shares none with it.
A step of `++` or `--` through a handle on the stack is such a store.
-/
theorem lvalue_laws (memory : Memory) (base : UInt16) (h : Handle) (v : Int32) :
    (memory.store h base v).1 = h.width.normalize v
      ∧ (∀ (h' : Handle) (base' : UInt16), h'.width = h.width → h'.resolve base' = h.resolve base →
          (memory.store h base v).2.load h' base' = h.width.normalize v)
      ∧ (∀ b : UInt16, (∀ i < h.width.bytes, h.resolve base + UInt16.ofNat i ≠ b) →
          (memory.store h base v).2.byte b = memory.byte b)
      ∧ (∀ (h' : Handle) (base' : UInt16),
          Memory.Apart (h.resolve base) h.width.bytes (h'.resolve base') h'.width.bytes →
            (memory.store h base v).2.load h' base' = memory.load h' base')
      ∧ Handle.decode h.encode = h
      ∧ ∀ (m : Machine) (items : Array Int32) (up before : Bool),
          m.Live → m.opcodeByte = (Opcode.step up before).code → m.stack.items = items.push h.encode →
            items.size < m.stack.limit →
              let old := m.memory.load h m.base
              let new := h.width.normalize (old + if up then 1 else -1)
              ∃ memory', memory'.load h m.base = new
                ∧ Memory.ChangedWithin (h.resolve m.base) h.width.bytes m.memory memory'
                ∧ Machine.step m
                    =
                  .ok .running
                    { m with
                      pc := m.pc + 1
                      lastPc := m.pc
                      stack := { m.stack with items := items.push (if before then new else old) }
                      memory := memory' } := by
  have hwithin (memory : Memory) (base : UInt16) (v : Int32) :
      Memory.ChangedWithin (h.resolve base) h.width.bytes memory (memory.store h base v).2 :=
    Memory.changedWithin_writeLE memory _ _ _
  refine ⟨rfl, ?_, ?_, ?_, h.decode_encode, ?_⟩
  · intro h' base' hwidth hresolve
    rw [Memory.load, hwidth, hresolve]
    apply Memory.read_write
  · exact hwithin memory base v
  · intro h' base' hapart
    exact (hwithin memory base v).read_eq hapart
  · intro m items up before hlive hop hstack hroom old new
    refine ⟨_, ?_, hwithin m.memory m.base _, Machine.step_eq_of_step hlive hop hstack hroom⟩
    apply Memory.read_write

def wrapped : Handle where
  addr := 0xFFFE
  width := .dword
  relative := true

def aboutToStep : Machine where
  image := #[(Opcode.step true false).code]
  base := 1
  stack := ⟨1024, #[wrapped.encode]⟩
  loaded := true

theorem lvalue_laws_wrapped :
    let memory := (Memory.blank.store wrapped 1 (-2)).2
    memory.load ⟨0xFFFF, .dword, false⟩ 0 = -2 ∧ memory.byte 3 = 0
      ∧ ∃ memory', memory'.load wrapped 1 = Memory.blank.load wrapped 1 + 1
        ∧ Machine.step aboutToStep
            =
          .ok .running
            { aboutToStep with pc := 1, stack := ⟨1024, #[Memory.blank.load wrapped 1]⟩, memory := memory' } := by
  obtain ⟨-, hload, hbeside, -, -, hstep⟩ := lvalue_laws .blank 1 wrapped (-2)
  obtain ⟨memory', hnew, -, hrun⟩ := hstep aboutToStep #[] true false ⟨⟨rfl, rfl⟩, by decide⟩ rfl rfl (by decide)
  refine ⟨hload _ 0 rfl rfl, ?_, memory', hnew, hrun⟩
  rw [hbeside 3 (by decide), Memory.byte_blank]

end Handheld
