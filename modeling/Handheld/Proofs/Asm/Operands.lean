import Handheld.Proofs.Asm.Encoding
import Handheld.Proofs.Asm.Placement

/-!
Lines and their bytes in an image. The bytes of data and of strings are as many as the text says.
-/
namespace Handheld.Asm

def Line.Lies (image : Array UInt8) (mask : UInt8) (pos : Nat) (line : Line) : Prop :=
  ∃ find n bs rest, (line.statement n).bytes? mask find = some bs ∧ image.toList.drop pos = bs ++ rest

def Code.Lies (image : Array UInt8) (mask : UInt8) : Nat → Code → Prop
  | _, [] => True
  | pos, line :: code => line.Lies image mask pos ∧ Code.Lies image mask (pos + line.size) code

variable {image : Array UInt8} {mask : UInt8} {pos : Nat}

theorem Code.lies_append {a b : Code} :
    Code.Lies image mask pos (a ++ b) ↔ Code.Lies image mask pos a ∧ Code.Lies image mask (pos + a.extent) b := by
  induction a generalizing pos with
  | nil => simp [Code.Lies]
  | cons line a ih => simp [Code.Lies, ih, and_assoc, Nat.add_assoc]

theorem Code.lies_of_bytes? {find : String → Option Nat} {code : Code} {n : Nat} {bs : List (List UInt8)}
    {tail : List UInt8} (h : List.Forall₂ (fun s b => s.bytes? mask find = some b) (code.statements n) bs)
    (himage : image.toList.drop pos = bs.flatten ++ tail)
    : Code.Lies image mask pos code := by
  induction code generalizing n pos bs with
  | nil => trivial
  | cons line code ih =>
    rw [Code.statements] at h
    cases h with
    | @cons _ b _ bs hline hcode =>
      rw [List.flatten_cons, List.append_assoc] at himage
      have hsize : b.length = line.size := Statement.length_bytes? hline
      refine ⟨⟨find, n, b, _, hline, himage⟩, ?_⟩
      apply ih hcode
      rw [← hsize, ← List.drop_drop, himage, List.drop_left]

theorem Code.lies_in_text {front code rest : Code} {options : Options} (hreadable : ∀ line ∈ code, line.Readable)
    (h : assemble (Code.render (front ++ code ++ rest)) options = .ok image)
    : Code.Lies image options.mask front.stop code := by
  obtain ⟨ss, offset, n, bs, tail, -, -, hfront, -, -, hbs, hdrop⟩ := Code.bytes_of_assemble hreadable h
  rw [hfront]
  exact Code.lies_of_bytes? hbs hdrop

theorem Code.lies_of_assemble {code rest : Code} {options : Options} (hreadable : ∀ line ∈ code, line.Readable)
    (h : assemble (Code.render (code ++ rest)) options = .ok image)
    : Code.Lies image options.mask Header.length code :=
  @Code.lies_in_text image [] code rest options hreadable h

theorem parse_of_assemble {text : String} {options : Options} (h : assemble text options = .ok image)
    (hcode : Header.length < image.size)
    : Header.parse image.toList = .ok options.header := by
  obtain ⟨hgeometry, ss, -, himage⟩ := assemble_eq_ok_iff.mp h
  obtain ⟨-, -, bs, -, rfl⟩ := assembleStatements_eq_ok_iff.mp himage
  apply Header.parse_toBytes hgeometry rfl
  intro hnil
  rw [hnil, List.append_nil, List.size_toArray, Header.length_toBytes] at hcode
  exact Nat.lt_irrefl _ hcode

theorem payload_eq {bytes : List UInt8} (h : 0 ∉ bytes) : payload bytes = bytes := by
  apply List.takeWhile_eq_self_iff.mpr
  intro b hb
  rw [bne_iff_ne]
  rintro rfl
  exact h hb

namespace Line.Lies

theorem size_le {line : Line} (h : line.Lies image mask pos) : line.size ≤ image.size - pos := by
  obtain ⟨find, n, bs, rest, hbs, hdrop⟩ := h
  have hsize : bs.length = line.size := Statement.length_bytes? hbs
  have hlength := congrArg List.length hdrop
  rw [List.length_drop, Array.length_toList, List.length_append, hsize] at hlength
  omega

theorem plain {opcode : Opcode} (h : (Line.op opcode []).Lies image mask pos) (hlayout : opcode.layout = .none) :
    Machine.Stands image pos opcode 0 := by
  obtain ⟨find, n, bs, rest, hbs, hdrop⟩ := h
  exact stands_plain rfl hlayout hbs hdrop

theorem number {opcode : Opcode} {a : Arg} {v len : Nat} (h : (Line.op opcode [a]).Lies image mask pos)
    (ha : a.operand = .int v) (hlayout : opcode.layout.isNumber) (hlength : opcode.layout.fixedLength = some len)
    (hv : v < 256 ^ len)
    : Machine.Stands image pos opcode v := by
  obtain ⟨find, n, bs, rest, hbs, hdrop⟩ := h
  have hinstr : ((Line.op opcode [a]).statement n).instr = some (.op opcode [.int v]) := by
    rw [← ha]
    rfl
  have hstands := stands_number hinstr hlayout hbs hdrop
  have hmod : ((v : Int) % 256 ^ len).toNat = v := by
    rw [← Nat.cast_ofNat, ← Nat.cast_pow, ← Int.natCast_mod, Int.toNat_natCast, Nat.mod_eq_of_lt hv]
  rwa [hlength, Option.getD_some, hmod] at hstands

theorem init {addr : Nat} {bytes : List UInt8}
    (h : (Line.op .init (.addr addr :: bytes.map fun b => .int b.toNat)).Lies image mask pos)
    (hfits : addr + bytes.length ≤ 0xFFFF)
    : ∃ rest, image.toList.drop pos
        = Opcode.init.code :: (littleEndian 2 addr ++ (littleEndian 2 bytes.length ++ (bytes ++ rest))) := by
  obtain ⟨find, n, bs, rest, hbs, hdrop⟩ := h
  obtain ⟨e, he, hresolve⟩ := bytes?_op_eq_some rfl hbs
  have hencode : Instr.encodeOperands mask n .data (.int addr :: bytes.map fun b => .int b.toNat) = .ok _ :=
    encodeData_bytes hfits
  rw [List.map_cons, List.map_map] at he
  cases hencode.symm.trans he
  cases hresolve
  refine ⟨rest, ?_⟩
  rw [hdrop, List.cons_append, List.append_assoc, List.append_assoc]

theorem func {size count : Nat} (h : (Line.op .func [.int size, .int count]).Lies image mask pos)
    (hsize : size ≤ 0xFFFF) (hcount : count ≤ 255)
    : Machine.StandsFunc image pos size count := by
  obtain ⟨find, n, bs, rest, hbs, hdrop⟩ := h
  obtain ⟨e, he, hresolve⟩ := bytes?_op_eq_some rfl hbs
  have hencode : Instr.encodeOperands mask n .frame [.int size, .int count] = .ok _ := encodeFrame_eq hsize hcount
  cases hencode.symm.trans he
  cases hresolve
  rw [List.cons_append, List.append_assoc] at hdrop
  have hoperands : image.toList.drop (pos + 1) = littleEndian 2 size ++ (littleEndian 1 count ++ rest) := by
    rw [← List.tail_drop, hdrop]
    rfl
  have hlast : image.toList.drop (pos + 3) = littleEndian 1 count ++ rest := by
    have hdrop' : image.toList.drop (pos + 3) = (image.toList.drop (pos + 1)).drop 2 := by rw [List.drop_drop]
    rw [hdrop', hoperands]
    exact List.drop_left' (length_littleEndian 2 size)
  have hlength := congrArg List.length hdrop
  simp only [List.length_drop, Array.length_toList, List.length_append, List.length_cons, length_littleEndian] at hlength
  refine ⟨by omega, ?_, ?_, ?_⟩
  · rw [Array.getD_eq_getD_getElem?, ← Array.getElem?_toList, ← List.head?_drop, hdrop]
    rfl
  · exact toNat_codeLE_littleEndian hoperands (by omega) (by omega)
  · exact toNat_codeLE_littleEndian hlast (by omega) (by omega)

theorem text {bytes : List UInt8} (h : (Line.op .pushStr [.text bytes]).Lies image mask pos) :
    ∃ rest, image.toList.drop pos
      = Opcode.pushStr.code :: ((payload bytes).map (· ^^^ mask) ++ mask :: rest) := by
  obtain ⟨find, n, bs, rest, hbs, hdrop⟩ := h
  obtain ⟨e, he, hresolve⟩ := bytes?_op_eq_some rfl hbs
  cases he
  cases hresolve
  refine ⟨rest, ?_⟩
  rw [hdrop, List.cons_append, List.append_assoc]
  rfl

theorem call {c : Call} (h : (Line.call c).Lies image mask pos) : ∃ rest, image.toList.drop pos = c.code :: rest := by
  obtain ⟨find, n, bs, rest, hbs, hdrop⟩ := h
  cases hbs
  exact ⟨rest, hdrop⟩

end Line.Lies

theorem Code.labelsFrom_eq_nil {code : Code} (h : ∀ line ∈ code, ∀ l, line ≠ .label l) (offset n : Nat) :
    labelsFrom offset (code.statements n) = [] := by
  induction code generalizing offset n with
  | nil => rfl
  | cons line code ih =>
    have hcode := ih (fun l hl => h l (List.mem_cons_of_mem _ hl)) (offset + (line.statement n).size) (n + 1)
    cases line with
    | label l => exact absurd rfl (h _ List.mem_cons_self l)
    | op | call | sys | data => exact hcode

theorem le_of_addressIn {code rest : Code} {l : Label} {target : Nat}
    (hreadable : ∀ line ∈ code, line.Readable) (hlabels : ∀ line ∈ code, ∀ l, line ≠ .label l)
    (h : addressIn (Code.render (code ++ rest)) l = some target)
    : Header.length + code.extent ≤ target := by
  rw [addressIn] at h
  cases hss : statements (Code.render (code ++ rest)) with
  | error e => simp [hss] at h
  | ok ss =>
    obtain ⟨ss1, ss2, hss1, -, rfl⟩ := statements_render_append hss
    rw [statements, Code.statementsFrom_render_eq _ hreadable, Except.ok.injEq] at hss1
    subst hss1
    simp only [hss] at h
    obtain ⟨offset, hoffset, rfl⟩ := Option.map_eq_some_iff.mp h
    have hmem : (l.text, offset) ∈ labelsFrom 0 (code.statements 1 ++ ss2) := by
      obtain ⟨front, back, hsplit, -⟩ := List.lookup_eq_some_iff.mp hoffset
      rw [hsplit]
      exact List.mem_append_right _ List.mem_cons_self
    rw [labelsFrom_append, Code.labelsFrom_eq_nil hlabels, List.nil_append] at hmem
    obtain ⟨before, -, -, -, -, rfl⟩ := exists_of_mem_labelsFrom hmem
    rw [Code.codeSize_statements]
    omega

end Handheld.Asm
