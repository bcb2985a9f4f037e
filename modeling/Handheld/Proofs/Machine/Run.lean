import Handheld.Machine.Step
import Handheld.Proofs.Handle
import Handheld.Proofs.Memory
import Handheld.Proofs.Opcode
import Mathlib.Logic.Relation

/-!
Runs of instructions that only change position, value stack and memory, with one lemma for each instruction.
-/
namespace Handheld

structure Config where
  pc : Nat
  stack : List Int32
  memory : Memory

namespace Machine

variable {m : Machine} {c c' : Config} {op : Opcode} {pos len : Nat} {a b v offset : Int32} {h : Handle} {w : Width}
  {image : Array UInt8} {α : Type}
  {relative : Bool}

def set (m : Machine) (last : Nat) (c : Config) : Machine :=
  { m with
    pc := c.pc
    lastPc := last
    stack := { m.stack with items := c.stack.reverse.toArray }
    memory := c.memory }

def config (m : Machine) : Config where
  pc := m.pc
  stack := m.stack.items.toList.reverse
  memory := m.memory

theorem set_config (m : Machine) : m.set m.lastPc m.config = m := by
  simp [set, config]

theorem toArray_push (items : Array Int32) (v : Int32) : (v :: items.toList.reverse).reverse.toArray = items.push v := by
  apply Array.ext'
  simp

theorem set_push (m : Machine) (last pc : Nat) (v : Int32) (memory : Memory) :
    m.set last ⟨pc, v :: m.stack.items.toList.reverse, memory⟩
      =
    { m with
      pc := pc
      lastPc := last
      stack := { m.stack with items := m.stack.items.push v }
      memory := memory } := by
  unfold set
  rw [toArray_push]

def Reaches : Machine → Machine → Prop :=
  Relation.ReflTransGen fun m m' => step m = .ok .running m'

def Runs (m : Machine) (c c' : Config) : Prop :=
  ∀ last, ∃ last', Reaches (m.set last c) (m.set last' c')

theorem Runs.refl (m : Machine) (c : Config) : Runs m c c :=
  fun last => ⟨last, .refl⟩

theorem Runs.trans {m : Machine} {c c1 : Config} (h : Runs m c c1) (h' : Runs m c1 c') : Runs m c c' := by
  intro last
  obtain ⟨last1, hrun⟩ := h last
  obtain ⟨last', hrun'⟩ := h' last1
  exact ⟨last', hrun.trans hrun'⟩

def Goes (m : Machine) (c c' : Config) : Prop :=
  ∀ last, step (m.set last c) = .ok .running (m.set c.pc c')

theorem Goes.runs {c : Config} (h : Goes m c c') : Runs m c c' :=
  fun last => ⟨c.pc, .single (h last)⟩

structure Ready (m : Machine) : Prop where
  loaded : m.loaded = true
  halted : m.halted = false

structure Stands (image : Array UInt8) (pos : Nat) (op : Opcode) (operand : Nat) : Prop where
  room : pos + 1 + op.layout.fixedLength.getD 0 ≤ image.size
  code : image.getD pos 0 = op.code
  operand : (codeLE image (pos + 1) (op.layout.fixedLength.getD 0)).toNat = operand

theorem Stands.room_operand {operand : Nat} (h : Stands image pos op operand) (hlen : op.layout.fixedLength = some len)
    : pos + 1 + len ≤ image.size := by
  have hroom := h.room
  rwa [hlen, Option.getD_some] at hroom

theorem Stands.operand_eq {operand : Nat} (h : Stands image pos op operand) (hlen : op.layout.fixedLength = some len)
    : codeLE image (pos + 1) len = UInt32.ofNat operand := by
  have hoperand := h.operand
  rw [hlen, Option.getD_some] at hoperand
  rw [← hoperand, UInt32.ofNat_toNat]

structure StandsFunc (image : Array UInt8) (pos size argc : Nat) : Prop where
  room : pos + 4 ≤ image.size
  code : image.getD pos 0 = Opcode.func.code
  size : (codeLE image (pos + 1) 2).toNat = size
  args : (codeLE image (pos + 3) 1).toNat = argc

section Primitives

variable {last pc : Nat} {stack : List Int32} {memory : Memory}

theorem bind_eq_ok {β : Type} {act : Exec α} {f : α → Exec β} {m m' : Machine} {a : α}
    (h : act m = .ok a m') : (act >>= f) m = f a m' := by
  simp [Bind.bind, EStateM.bind, h]

theorem get_eq (m : Machine) : (get : Exec Machine) m = .ok m m :=
  rfl

theorem fetch_set (h : pc + len ≤ m.image.size) :
    fetch len (m.set last ⟨pc, stack, memory⟩)
      =
    .ok (codeLE m.image pc len) (m.set last ⟨pc + len, stack, memory⟩) :=
  if_pos h

theorem onStack_set {act : StackM Int32 α} {a : α} {stack' : List Int32}
    (h : act { m.stack with items := stack.reverse.toArray }
      = .ok a { m.stack with items := stack'.reverse.toArray })
    : onStack act (m.set last ⟨pc, stack, memory⟩) = .ok a (m.set last ⟨pc, stack', memory⟩) := by
  have hstack : act (m.set last ⟨pc, stack, memory⟩).stack
      = .ok a { m.stack with items := stack'.reverse.toArray } := h
  simp only [onStack, hstack]
  rfl

theorem push_set (h : stack.length < m.stack.limit) :
    push v (m.set last ⟨pc, stack, memory⟩) = .ok () (m.set last ⟨pc, v :: stack, memory⟩) := by
  apply onStack_set
  simp [Stack.push, Stack.size, h]

theorem pop_set : pop (m.set last ⟨pc, v :: stack, memory⟩) = .ok v (m.set last ⟨pc, stack, memory⟩) := by
  apply onStack_set
  simp [Stack.pop]

theorem last_set :
    onStack Stack.last (m.set last ⟨pc, v :: stack, memory⟩)
      =
    .ok v (m.set last ⟨pc, v :: stack, memory⟩) := by
  apply onStack_set
  simp [Stack.last]

theorem pop2_set :
    onStack Stack.pop2 (m.set last ⟨pc, b :: a :: stack, memory⟩)
      =
    .ok (a, b) (m.set last ⟨pc, stack, memory⟩) := by
  apply onStack_set
  simp [Stack.pop2, Stack.pop, Bind.bind, EStateM.bind, pure, EStateM.pure]

theorem loadFrom_set :
    loadFrom h (m.set last ⟨pc, stack, memory⟩)
      =
    .ok (memory.load h m.base) (m.set last ⟨pc, stack, memory⟩) :=
  rfl

theorem storeTo_set :
    storeTo h v (m.set last ⟨pc, stack, memory⟩)
      =
    .ok (h.width.normalize v)
      (m.set last ⟨pc, stack, memory.write (h.resolve m.base) h.width v⟩) :=
  rfl

theorem jump_set {target : Nat} :
    jump target (m.set last ⟨pc, stack, memory⟩) = .ok () (m.set last ⟨target, stack, memory⟩) :=
  rfl

end Primitives

def offsetFrom (v : Handle) (offset : Int32) (base : UInt16) : UInt16 :=
  v.resolve base + offset.toUInt32.toUInt16

section Instructions

variable {pc operand : Nat} {stack : List Int32} {memory : Memory} (hready : m.Ready)

include hready

theorem goes_of_execute (hop : Stands m.image pc op operand)
    (h : execute op (m.set pc ⟨pc + 1, stack, memory⟩) = .ok .running (m.set pc c))
    : Goes m ⟨pc, stack, memory⟩ c := by
  intro last
  have hcode : (codeLE m.image pc 1).toUInt8 = op.code := by
    simp [codeLE, hop.code]
  have hbound : ¬(Call.firstCode ≤ op.code) := by
    have hlt := op.code_lt
    rw [UInt8.le_iff_toNat_le]
    exact Nat.not_le.mpr hlt
  have hroom : pc + 1 ≤ m.image.size := Nat.le_trans (Nat.le_add_right _ _) hop.room
  have hloaded : (m.set last ⟨pc, stack, memory⟩).loaded = true := hready.loaded
  have hhalted : (m.set last ⟨pc, stack, memory⟩).halted = false := hready.halted
  have hmodify : (modify fun m => { m with lastPc := m.pc } : Exec PUnit) (m.set last ⟨pc, stack, memory⟩)
      = .ok ⟨⟩ (m.set pc ⟨pc, stack, memory⟩) := rfl
  unfold step
  rw [bind_eq_ok (get_eq _)]
  simp only [hloaded, hhalted, Bool.not_true, Bool.false_eq_true, ↓reduceIte]
  rw [bind_eq_ok hmodify, bind_eq_ok (fetch_set hroom)]
  simp only [hcode, hbound, decide_false, Bool.false_and, Bool.false_eq_true, ↓reduceIte, op.ofCode?_code]
  exact h

theorem goes_pop {v : Int32} (hop : Stands m.image pc .pop operand) :
    Goes m ⟨pc, v :: stack, memory⟩ ⟨pc + 1, stack, memory⟩ := by
  apply goes_of_execute hready hop
  simp only [execute]
  rw [bind_eq_ok pop_set]
  rfl

theorem runs_dup (hop : Stands m.image pc .dup operand) (hroom : (v :: stack).length < m.stack.limit) :
    Runs m ⟨pc, v :: stack, memory⟩ ⟨pc + 1, v :: v :: stack, memory⟩ := by
  apply (goes_of_execute hready hop _).runs
  simp only [execute]
  rw [bind_eq_ok last_set, bind_eq_ok (push_set hroom)]
  rfl

theorem goes_jmp (hop : Stands m.image pc .jmp operand) (htarget : operand < 2 ^ 32) :
    Goes m ⟨pc, stack, memory⟩ ⟨operand, stack, memory⟩ := by
  apply goes_of_execute hready hop
  simp only [execute]
  rw [bind_eq_ok (fetch_set (hop.room_operand rfl)), hop.operand_eq rfl, bind_eq_ok jump_set]
  rw [UInt32.toNat_ofNat_of_lt' htarget]
  rfl

theorem runs_decides (both : Bool) (hop : Stands m.image pc (if both then .jz else .jnz) operand)
    (htarget : operand < 2 ^ 32)
    : Runs m ⟨pc, v :: stack, memory⟩ ⟨if (v != 0) == both then pc + 4 else operand, stack, memory⟩ := by
  apply (goes_of_execute hready hop _).runs
  have hlen : (if both then Opcode.jz else .jnz).layout.fixedLength = some 3 := by cases both <;> rfl
  have hexec : execute (if both then .jz else .jnz) = do
      let target ← fetch 3
      let v ← pop
      unless (v != 0) == both do jump target.toNat
      return .running := by
    cases both <;> simp [execute]
  rw [hexec, bind_eq_ok (fetch_set (hop.room_operand hlen)), hop.operand_eq hlen, bind_eq_ok pop_set]
  cases (v != 0) == both with
  | true => rfl
  | false =>
    simp only [Bool.false_eq_true, if_false]
    rw [bind_eq_ok jump_set, UInt32.toNat_ofNat_of_lt' htarget]
    rfl

section Pushing

variable (hroom : stack.length < m.stack.limit)

include hroom

theorem runs_of_push {f : UInt32 → Int32} (hexec : execute op = do push (f (← fetch len)); return .running)
    (hlen : op.layout.fixedLength = some len) (hop : Stands m.image pc op operand)
    : Runs m ⟨pc, stack, memory⟩ ⟨pc + 1 + len, f (UInt32.ofNat operand) :: stack, memory⟩ := by
  apply (goes_of_execute hready hop _).runs
  rw [hexec, bind_eq_ok (fetch_set (hop.room_operand hlen)), hop.operand_eq hlen]
  rw [bind_eq_ok (push_set hroom)]
  rfl

theorem runs_access_load (hop : Stands m.image pc (.access .load w relative) operand) :
    Runs m ⟨pc, stack, memory⟩
      ⟨pc + 3, memory.load ⟨UInt16.ofNat operand, w, relative⟩ m.base :: stack, memory⟩ := by
  apply (goes_of_execute hready hop _).runs
  simp only [execute, access]
  rw [bind_eq_ok (fetch_set (hop.room_operand rfl)), hop.operand_eq rfl]
  rw [bind_assoc, bind_eq_ok loadFrom_set, bind_eq_ok (push_set hroom), UInt32.toUInt16_ofNat']
  rfl

theorem goes_access_handle (hop : Stands m.image pc (.access .handle w relative) operand) :
    Goes m ⟨pc, stack, memory⟩ ⟨pc + 3, Handle.encode ⟨UInt16.ofNat operand, w, relative⟩ :: stack, memory⟩ := by
  apply goes_of_execute hready hop
  simp only [execute, access]
  rw [bind_eq_ok (fetch_set (hop.room_operand rfl)), hop.operand_eq rfl]
  rw [bind_eq_ok (push_set hroom), UInt32.toUInt16_ofNat']
  rfl

theorem runs_access_indexed (hop : Stands m.image pc (.access .indexed w relative) operand) :
    Runs m ⟨pc, offset :: stack, memory⟩
      ⟨pc + 3, memory.read (offsetFrom ⟨UInt16.ofNat operand, w, relative⟩ offset m.base) w :: stack, memory⟩ := by
  apply (goes_of_execute hready hop _).runs
  simp only [execute, access]
  rw [bind_eq_ok (fetch_set (hop.room_operand rfl)), hop.operand_eq rfl, bind_assoc, bind_eq_ok (get_eq _), bind_assoc,
    bind_eq_ok pop_set, bind_assoc, bind_eq_ok loadFrom_set, bind_eq_ok (push_set hroom), UInt32.toUInt16_ofNat']
  rfl

theorem runs_access_effective (hop : Stands m.image pc (.access .effective w relative) operand) :
    Runs m ⟨pc, offset :: stack, memory⟩
      ⟨pc + 3, Handle.encode ⟨offsetFrom ⟨UInt16.ofNat operand, w, relative⟩ offset m.base, w, false⟩ :: stack,
        memory⟩ := by
  apply (goes_of_execute hready hop _).runs
  simp only [execute, access]
  rw [bind_eq_ok (fetch_set (hop.room_operand rfl)), hop.operand_eq rfl, bind_assoc, bind_eq_ok (get_eq _), bind_assoc,
    bind_eq_ok pop_set, bind_eq_ok (push_set hroom), UInt32.toUInt16_ofNat']
  rfl

theorem runs_load (hop : Stands m.image pc .load operand) :
    Runs m ⟨pc, h.encode :: stack, memory⟩ ⟨pc + 1, memory.load h m.base :: stack, memory⟩ := by
  apply (goes_of_execute hready hop _).runs
  simp only [execute]
  rw [bind_eq_ok pop_set, h.decode_encode, bind_eq_ok loadFrom_set, bind_eq_ok (push_set hroom)]
  rfl

theorem goes_store {h : Handle} {v : Int32} (hop : Stands m.image pc .store operand) :
    Goes m ⟨pc, v :: h.encode :: stack, memory⟩
      ⟨pc + 1, h.width.normalize v :: stack, memory.write (h.resolve m.base) h.width v⟩ := by
  apply goes_of_execute hready hop
  simp only [execute]
  rw [bind_eq_ok pop_set, bind_eq_ok pop_set, h.decode_encode, bind_eq_ok storeTo_set]
  rw [bind_eq_ok (push_set hroom)]
  rfl

theorem goes_step {up before : Bool} (hop : Stands m.image pc (.step up before) operand) :
    Goes m ⟨pc, h.encode :: stack, memory⟩
      ⟨pc + 1,
        (if before then h.width.normalize (memory.load h m.base + if up then 1 else -1)
          else memory.load h m.base) :: stack,
        memory.write (h.resolve m.base) h.width (memory.load h m.base + if up then 1 else -1)⟩ := by
  apply goes_of_execute hready hop
  simp only [execute]
  rw [bind_eq_ok pop_set, h.decode_encode, bind_eq_ok loadFrom_set, bind_eq_ok storeTo_set]
  rw [bind_eq_ok (push_set hroom)]
  rfl

theorem runs_of_unary {f : Int32 → Int32} (hexec : execute op = do push (f (← pop)); return .running)
    (hop : Stands m.image pc op operand)
    : Runs m ⟨pc, v :: stack, memory⟩ ⟨pc + 1, f v :: stack, memory⟩ := by
  apply (goes_of_execute hready hop _).runs
  rw [hexec, bind_eq_ok pop_set, bind_eq_ok (push_set hroom)]
  rfl

theorem runs_binary {op : Binary} (hop : Stands m.image pc (.binary op) operand) :
    Runs m ⟨pc, b :: a :: stack, memory⟩ ⟨pc + 1, op.apply a b :: stack, memory⟩ := by
  apply (goes_of_execute hready hop _).runs
  simp only [execute]
  rw [bind_eq_ok pop2_set]
  dsimp only
  rw [bind_eq_ok (push_set hroom)]
  rfl

end Pushing

end Instructions

end Machine
end Handheld
