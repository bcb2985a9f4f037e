import Handheld.Proofs.Asm.RoundTrip

/-!
Which lines have bytes: those with operands in range.
-/
namespace Handheld.Asm

variable {low high v : Int} {bytes : List UInt8} {addr size count : Nat}

def Line.target? : Line → Option Label
  | op _ [.label l] => some l
  | _ => none

def Line.Encodes (mask : UInt8) (line : Line) : Prop :=
  ∀ n, ∃ e, (line.statement n).encoding mask = .ok e ∧ e.label = line.target?.map Label.text

section Encoding

variable {mask : UInt8} {n : Nat} {opcode : Opcode} {args : List Arg} {e : Instr.Encoding}

theorem Line.encoding_op (h : Instr.encodeOperands mask n opcode.layout (args.map Arg.operand) = .ok e)
    (hcount : args.length ≤ Instr.operandCount opcode.layout (args.map Arg.operand))
    : ((Line.op opcode args).statement n).encoding mask = .ok { e with bytes := opcode.code :: e.bytes } := by
  have hdrop : (args.map Arg.operand).drop (Instr.operandCount opcode.layout (args.map Arg.operand)) = [] := by
    rw [List.drop_eq_nil_iff, List.length_map]
    exact hcount
  simp only [Statement.encoding, Line.statement, Line.instr, Instr.encode, h, hdrop, Bind.bind, Except.bind]
  rfl

theorem Line.encoding_op_of_error {err : Error}
    (h : Instr.encodeOperands mask n opcode.layout (args.map Arg.operand) = .error err)
    : ((Line.op opcode args).statement n).encoding mask = .error err := by
  simp only [Statement.encoding, Line.statement, Line.instr, Instr.encode, h, Bind.bind, Except.bind]

theorem Line.encodes_plain (h : opcode.layout = .none) : (Line.op opcode).Encodes mask := by
  intro n
  refine ⟨_, encoding_op (e := { bytes := [] }) ?_ (Nat.zero_le _), rfl⟩
  rw [h]
  rfl

theorem Line.encodes_target (h : opcode.layout = .target) (l : Label) : (Line.op opcode [.label l]).Encodes mask := by
  intro n
  refine ⟨_, encoding_op (e := { bytes := [0, 0, 0], label := some l.text }) ?_ ?_, rfl⟩
  · rw [h]
    rfl
  · rw [h]
    exact Nat.le_refl 1

theorem Line.encodes_int {a : Arg} {len : Nat} (hlayout : ∀ n operands,
      Instr.encodeOperands mask n opcode.layout operands = Instr.encodeInt n low high len operands)
    (hcount : ∀ operands, Instr.operandCount opcode.layout operands = 1) (ha : a.operand = .int v) (hlow : low ≤ v)
    (hhigh : v ≤ high)
    : (Line.op opcode [a]).Encodes mask := by
  intro n
  have htarget : (Line.op opcode [a]).target? = none := by
    cases a with
    | label => cases ha
    | int | addr | text => rfl
  refine ⟨_, encoding_op (e := { bytes := littleEndian len v }) ?_ ?_, by rw [htarget]; rfl⟩
  · rw [hlayout, List.map_cons, List.map_nil, ha]
    exact encodeInt_eq_ok hlow hhigh
  · rw [hcount]
    exact Nat.le_refl 1

theorem Line.encodes_text (h : opcode.layout = .str) : (Line.op opcode [.text bytes]).Encodes mask := by
  intro n
  refine ⟨_, encoding_op (e := { bytes := (payload bytes).map (· ^^^ mask) ++ [mask] }) ?_ ?_, rfl⟩
  · rw [h]
    rfl
  · rw [h]
    exact Nat.le_refl 1

theorem encodeData_bytes (h : addr + bytes.length ≤ 0xFFFF) :
    Instr.encodeData n (.int addr :: bytes.map fun b => .int b.toNat)
      = .ok { bytes := littleEndian 2 addr ++ littleEndian 2 bytes.length ++ bytes } := by
  have hlength : ¬0xFFFF < bytes.length := by omega
  have haddr : ranged n 0 65535 (.int addr) = .ok (addr : Int) := ranged_eq_ok (by omega) (by omega)
  have hbytes : (bytes.map fun b => (b.toNat : Int)).map byteOf = bytes := by
    rw [List.map_map]
    exact List.map_id'' (fun b => byteOf_toNat b) bytes
  simp only [Instr.encodeData, Instr.first, Bind.bind, Except.bind, List.tail_cons, if_neg hlength, mapM_ranged, haddr,
    hbytes, List.length_map]
  rfl

theorem Line.encodes_init (h : addr + bytes.length ≤ 0xFFFF) :
    (Line.op .init (.addr addr :: bytes.map fun b => .int b.toNat)).Encodes mask := by
  intro n
  have htarget : (Line.op .init (.addr addr :: bytes.map fun b => .int b.toNat)).target? = none := by
    cases bytes with
    | nil | cons => rfl
  refine ⟨_, encoding_op (e := { bytes := littleEndian 2 addr ++ littleEndian 2 bytes.length ++ bytes }) ?_ ?_,
    by rw [htarget]; rfl⟩
  · rw [List.map_cons, List.map_map]
    exact encodeData_bytes h
  · simp [Instr.operandCount, Opcode.layout]

theorem encodeFrame_eq (hsize : size ≤ 0xFFFF) (hcount : count ≤ 255) :
    Instr.encodeFrame n [.int size, .int count] = .ok { bytes := littleEndian 2 size ++ littleEndian 1 count } := by
  have hframe : ranged n 0 65535 (.int size) = .ok (size : Int) := ranged_eq_ok (by omega) (by omega)
  have hparams : ranged n 0 255 (.int count) = .ok (count : Int) := ranged_eq_ok (by omega) (by omega)
  simp only [Instr.encodeFrame, Instr.first, Bind.bind, Except.bind, List.tail_cons, hframe, hparams]
  rfl

theorem Line.encodes_func (hsize : size ≤ 0xFFFF) (hcount : count ≤ 255) :
    (Line.op .func [.int size, .int count]).Encodes mask := by
  intro n
  exact ⟨_, encoding_op (encodeFrame_eq hsize hcount) (Nat.le_refl 2), rfl⟩

theorem Line.encoding_func_of_lt (hsize : size ≤ 0xFFFF) (hcount : 255 < count) :
    ((Line.op .func [.int size, .int count]).statement n).encoding mask = .error (badOperand n (.int count)) := by
  have hframe : ranged n 0 65535 (.int size) = .ok (size : Int) := ranged_eq_ok (by omega) (by omega)
  have hparams : ranged n 0 255 (.int count) = .error (badOperand n (.int count)) := by
    rw [ranged, if_neg (by simp; omega)]
  apply encoding_op_of_error
  change Instr.encodeFrame n [.int size, .int count] = _
  simp only [Instr.encodeFrame, Instr.first, Bind.bind, Except.bind, List.tail_cons, hframe, hparams]

end Encoding

end Handheld.Asm
