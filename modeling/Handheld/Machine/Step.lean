import Handheld.Machine.Library
import Handheld.Opcode

/-!
The instructions. A faulting instruction keeps what it did before the fault: operands stay fetched, and values
taken from the stack stay taken.
-/
namespace Handheld

inductive Progress where
  | running
  | blocked
  | halted
  deriving DecidableEq, Repr, Inhabited

abbrev Exec (α : Type) := EStateM Fault Machine α

namespace Machine

def codeLE (image : Array UInt8) (pos : Nat) : Nat → UInt32
  | 0 => 0
  | len + 1 => codeLE image (pos + 1) len <<< 8 ||| (image.getD pos 0).toUInt32

def fetch (len : Nat) : Exec UInt32 := fun m =>
  if m.pc + len ≤ m.image.size then
    .ok (codeLE m.image m.pc len) { m with pc := m.pc + len }
  else
    .error (.imageOverrun m.pc) m

def maskedString? (image : Array UInt8) (mask : UInt8) (pos : Nat) : Option (List UInt8) :=
  if h : pos < image.size then
    let b := image[pos] ^^^ mask
    if b == 0 then some [] else (maskedString? image mask (pos + 1)).map (b :: ·)
  else
    none
termination_by image.size - pos

def fetchString : Exec (List UInt8) := fun m =>
  match maskedString? m.image m.header.mask m.pc with
  | some bytes => .ok bytes { m with pc := m.pc + bytes.length + 1 }
  | none => .error (.imageOverrun m.image.size) { m with pc := m.image.size }

@[inline]
def onStack {α : Type} (act : StackM Int32 α) : Exec α := fun m =>
  let stack := m.stack
  let m := { m with stack := default }
  match act stack with
  | .ok a stack => .ok a { m with stack := stack }
  | .error e stack => .error e { m with stack := stack }

def push (v : Int32) : Exec Unit :=
  onStack (Stack.push v)

def pop : Exec Int32 :=
  onStack Stack.pop

def loadFrom (h : Handle) : Exec Int32 := fun m =>
  .ok (m.memory.load h m.base) m

def storeTo (h : Handle) (v : Int32) : Exec Int32 := fun m =>
  let base := m.base
  .ok (h.width.normalize v) (m.withMemory fun memory => (memory.store h base v).2)

def stringRoom : Nat :=
  Memory.stringEnd.toNat - Memory.stringStart.toNat - 1

def intern (m : Machine) (bytes : List UInt8) : UInt16 × Machine :=
  let bytes := bytes.take stringRoom
  let next := m.strings.toNat + bytes.length + 1
  let addr := if Memory.stringEnd.toNat < next then Memory.stringStart else m.strings
  let m := m.withMemory (·.putString addr bytes)
  (addr, { m with strings := addr + UInt16.ofNat (bytes.length + 1) })

/--
The address of the literal that the instruction at `position` pushes. One that ran before gets its old slot; a
new one takes a slot of the rolling buffer, and the slots it overlaps are forgotten.
-/
def literal (m : Machine) (position : Nat) (bytes : List UInt8) : UInt16 × Machine :=
  match m.literals.find? (·.position == position) with
  | some l => (l.addr, m.withMemory (·.putString l.addr (bytes.take (l.length - 1))))
  | none =>
    let (addr, m) := m.intern bytes
    let slot : Literal :=
      { position := position, addr := addr, length := m.strings.toNat - addr.toNat }
    let others := m.literals.filter fun l => l.stop ≤ addr.toNat || slot.stop ≤ l.addr.toNat
    (addr, { m with literals := slot :: others })

def frameEnd (start : UInt16) (size : Nat) : Exec UInt16 :=
  if Memory.heapStart.toNat < start.toNat + size then throw .frameOverflow
  else pure (start + UInt16.ofNat size)

def writeParams (memory : Memory) (slot : UInt16) : List Int32 → Memory
  | [] => memory
  | arg :: args =>
    writeParams (memory.write slot .dword arg) (slot + UInt16.ofNat Memory.paramSlot) args

def enter (target : Nat) : Exec Unit := do
  let m ← get
  let _ ← frameEnd m.base2 Memory.frameHeader
  modify fun m =>
    let (pc, base, base2) := (m.pc, m.base, m.base2)
    let m := m.withMemory fun memory =>
      (memory.writeLE base2 3 (UInt32.ofNat pc)).writeLE (base2 + 3) 2 base.toUInt32
    { m with base := base2, pc := target }

def openFrame (size argc : Nat) : Exec Unit := do
  let base := (← get).base
  let stop ← frameEnd base size
  modify fun m => { m with base2 := stop }
  let args ← onStack (Stack.window 0 argc)
  modify (·.withMemory fun memory => writeParams memory (base + UInt16.ofNat Memory.frameHeader) args)
  onStack (Stack.drop argc)

def leave : Exec Unit :=
  modify fun m =>
    { m with
      base2 := m.base
      pc := (m.memory.readLE m.base 3).toNat
      base := (m.memory.readLE (m.base + 3) 2).toUInt16 }

def copyCode (addr : UInt16) (len : Nat) : Exec Unit := fun m =>
  if m.pc + len ≤ m.image.size then
    let bytes := (m.image.extract m.pc (m.pc + len)).toList
    let m := m.withMemory (·.copyIn addr bytes)
    .ok () { m with pc := m.pc + len }
  else
    .error (.imageOverrun m.pc) m

def jump (target : Nat) : Exec Unit :=
  modify fun m => { m with pc := target }

def access (a : Access) (h : Handle) : Exec Unit := do
  match a with
  | .load => push (← loadFrom h)
  | .handle => push h.encode
  | .indexed =>
    let addr := h.resolve (← get).base + (← pop).toUInt32.toUInt16
    push (← loadFrom { addr := addr, width := h.width })
  | .effective =>
    let addr := h.resolve (← get).base + (← pop).toUInt32.toUInt16
    push ({ addr := addr, width := h.width } : Handle).encode

def execute (op : Opcode) : Exec Progress := do
  match op with
  | .nop => pure ()
  | .push .byte => push (← fetch 1).toInt32
  | .push .word => push (Width.word.normalize (← fetch 2).toInt32)
  | .push .dword => push (← fetch 4).toInt32
  | .access a w relative =>
    let addr ← fetch 2
    access a { addr := addr.toUInt16, width := w, relative := relative }
  | .cast w =>
    let addr ← pop
    push ({ addr := addr.toUInt32.toUInt16, width := w } : Handle).encode
  | .pushStr =>
    let bytes ← fetchString
    let addr ← modifyGet fun m => m.literal m.lastPc bytes
    push ({ addr := addr, width := .byte } : Handle).encode
  | .load => push (← loadFrom (Handle.decode (← pop)))
  | .store =>
    let v ← pop
    let h := Handle.decode (← pop)
    push (← storeTo h v)
  | .pop =>
    let _ ← pop
  | .dup => push (← onStack Stack.last)
  | .neg => push (-(← pop))
  | .step up before =>
    let h := Handle.decode (← pop)
    let old ← loadFrom h
    let new ← storeTo h (old + if up then 1 else -1)
    push (if before then new else old)
  | .binary op =>
    let (a, b) ← onStack Stack.pop2
    push (op.apply a b)
  | .not => push (~~~(← pop))
  | .lnot => push (truth ((← pop) == 0))
  | .jmp => jump (← fetch 3).toNat
  | .jz =>
    let target ← fetch 3
    if (← pop) == 0 then jump target.toNat
  | .jnz =>
    let target ← fetch 3
    if (← pop) != 0 then jump target.toNat
  | .call => enter (← fetch 3).toNat
  | .func =>
    let size ← fetch 2
    let argc ← fetch 1
    openFrame size.toNat argc.toNat
  | .ret => leave
  | .exit =>
    modify halt
    return .halted
  | .space =>
    let size ← fetch 2
    let top ← frameEnd Memory.dataStart size.toNat
    modify fun m => { m with base := top, base2 := top }
  | .init =>
    let addr ← fetch 2
    let len ← fetch 2
    copyCode addr.toUInt16 len.toNat
  return .running

def setRegs (regs : Vector Int32 8) (args : List Int32) : Vector Int32 8 :=
  Vector.ofFn fun i => args.getD i.val regs[i]

def takeArgs (s : Signature) : Exec (List Int32) := do
  if s.variadic then
    let count ← onStack Stack.last
    if count.toInt < s.args then throw .stackUnderflow
    let n := count.toInt.toNat
    let args ← onStack (Stack.window 1 n)
    onStack (Stack.drop (n + 1))
    return args
  else
    let args ← onStack (Stack.window 0 s.args)
    onStack (Stack.drop s.args)
    return args

def libraryCall (code : UInt8) : Exec Progress := do
  match Call.ofCode? code with
  | none =>
    push 0
    return .running
  | some c =>
    let s := c.signature
    if s.blocking && !(← get).inputReady c then
      -- the call is made again when there are keys
      modify fun m => { m with pc := m.lastPc }
      return .blocked
    let args ← takeArgs s
    modify fun m => { m with regs := setRegs m.regs args }
    let value ← modifyGet (·.dispatch c (args.drop s.args))
    if s.returns then push value
    return if (← get).halted then .halted else .running

def step : Exec Progress := do
  let m ← get
  if !m.loaded then throw .notLoaded
  if m.halted then return .halted
  modify fun m => { m with lastPc := m.pc }
  let code := (← fetch 1).toUInt8
  if Call.firstCode ≤ code && code ≤ Call.lastCode then
    libraryCall code
  else
    match Opcode.ofCode? code with
    | some op => execute op
    | none => throw (.invalidOpcode code)

end Machine
end Handheld
