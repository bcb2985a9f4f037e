import Handheld.Proofs.Asm.Bytes
import Handheld.Proofs.Asm.Reading
import Handheld.Proofs.Image
import Handheld.Proofs.Machine.Run

/-!
Code in the image that it was assembled to: instructions with their operands, and labels with the addresses of what is
behind.
-/
namespace Handheld

variable {opcode : Opcode} {image : Array UInt8} {pos : Nat} {bs rest : List UInt8} {s : Statement}
  {ss : List Statement} {mask : UInt8} {code : Code}

def Layout.isNumber : Layout → Bool
  | byte | word | dword | addr | size => true
  | _ => false

namespace Asm

def Line.size (line : Line) : Nat :=
  (line.instr.map Instr.size).getD 0

theorem Line.size_op {len : Nat} (h : opcode.layout.fixedLength = some len) (args : List Arg) :
    (Line.op opcode args).size = 1 + len := by
  rw [Line.size, Line.instr, Option.map_some, Option.getD_some, Instr.size]
  unfold Instr.operandSize
  split
  next hlayout => rw [hlayout] at h; cases h
  next hlayout => rw [hlayout] at h; cases h
  next => rw [h, Option.getD_some]

def Code.extent : Code → Nat
  | [] => 0
  | line :: code => line.size + Code.extent code

@[simp]
theorem Code.extent_nil : Code.extent [] = 0 :=
  rfl

@[simp]
theorem Code.extent_cons (line : Line) (code : Code) : Code.extent (line :: code) = line.size + Code.extent code :=
  rfl

@[simp]
theorem Code.extent_append (a b : Code) : Code.extent (a ++ b) = Code.extent a + Code.extent b := by
  induction a with
  | nil => simp
  | cons line a ih => simp [ih, Nat.add_assoc]

def Line.Stands (image : Array UInt8) (address : Label → Option Nat) (pos : Nat) : Line → Prop
  | .label l => address l = some pos
  | .op opcode [] => opcode.layout = .none → Machine.Stands image pos opcode 0
  | .op opcode [.int n] => opcode.layout.isNumber →
    Machine.Stands image pos opcode (n % 256 ^ opcode.layout.fixedLength.getD 0).toNat
  | .op opcode [.addr n] => opcode.layout.isNumber →
    Machine.Stands image pos opcode (n % 256 ^ opcode.layout.fixedLength.getD 0)
  | .op opcode [.label l] => opcode.layout = .target →
    ∃ target < 2 ^ 24, address l = some target ∧ Machine.Stands image pos opcode target
  | _ => True

def Code.Stands (image : Array UInt8) (address : Label → Option Nat) : Nat → Code → Prop
  | _, [] => True
  | pos, line :: code => line.Stands image address pos ∧ Code.Stands image address (pos + line.size) code

theorem Code.stands_append {address : Label → Option Nat} {a b : Code}
    : Code.Stands image address pos (a ++ b)
        ↔ Code.Stands image address pos a ∧ Code.Stands image address (pos + Code.extent a) b := by
  induction a generalizing pos with
  | nil => simp [Code.Stands]
  | cons line a ih => simp [Code.Stands, ih, and_assoc, Nat.add_assoc]

theorem toNat_codeLE (h : image.toList.drop pos = bs ++ rest) (hlen : bs.length ≤ 4) :
    (Machine.codeLE image pos bs.length).toNat = valueOf bs := by
  induction bs generalizing pos with
  | nil => rfl
  | cons b bs ih =>
    rw [List.length_cons] at hlen
    have hbyte : image.getD pos 0 = b := by
      rw [Array.getD_eq_getD_getElem?, ← Array.getElem?_toList, ← List.head?_drop, h]
      rfl
    have hrest : image.toList.drop (pos + 1) = bs ++ rest := by
      rw [← List.tail_drop, h]
      rfl
    have hpow : 256 ^ bs.length ≤ 2 ^ 24 := Nat.pow_le_pow_right (by omega) (by omega : bs.length ≤ 3)
    have hlt := valueOf_lt bs
    rw [List.length_cons, Machine.codeLE, hbyte, Memory.toNat_shiftLeft_or, ih hrest (by omega), valueOf]
    · omega
    · rw [ih hrest (by omega)]
      omega

theorem toNat_codeLE_littleEndian {pos len n : Nat}
    (h : image.toList.drop pos = littleEndian len n ++ rest) (hlen : len ≤ 4) (hn : n < 256 ^ len)
    : (Machine.codeLE image pos len).toNat = n := by
  have hvalue := toNat_codeLE h (by rwa [length_littleEndian])
  rwa [length_littleEndian, valueOf_littleEndian hn] at hvalue

theorem fixedLength_le {layout : Layout} {len : Nat} (h : layout.fixedLength = some len) : len ≤ 4 := by
  cases layout <;> simp [Layout.fixedLength] at h <;> omega

theorem stands_of_drop {op : Opcode} (h : image.toList.drop pos = op.code :: bs ++ rest)
    (hlen : op.layout.fixedLength = some bs.length)
    : Machine.Stands image pos op (valueOf bs) := by
  have hrest : image.toList.drop (pos + 1) = bs ++ rest := by
    rw [← List.tail_drop, h]
    rfl
  constructor
  · have hsize := congrArg List.length h
    simp only [List.length_drop, Array.length_toList, List.length_append, List.length_cons] at hsize
    rw [hlen, Option.getD_some]
    omega
  · rw [Array.getD_eq_getD_getElem?, ← Array.getElem?_toList, ← List.head?_drop, h]
    rfl
  · rw [hlen, Option.getD_some]
    exact toNat_codeLE hrest (fixedLength_le hlen)

theorem valueOf_littleEndian_int (n : Nat) (v : Int) : valueOf (littleEndian n v) = (v % 256 ^ n).toNat := by
  have hpos : (0 : Int) < 256 ^ n := by positivity
  have hnonneg := Int.emod_nonneg v hpos.ne'
  have hlt := Int.emod_lt_of_pos v hpos
  have hcongr : littleEndian n v = littleEndian n ((v % 256 ^ n).toNat : Nat) := by
    apply littleEndian_congr
    rw [Int.toNat_of_nonneg hnonneg]
    exact Int.dvd_self_sub_emod
  rw [hcongr, valueOf_littleEndian]
  rw [Int.toNat_lt hnonneg]
  exact_mod_cast hlt

section Lines

variable {find : String → Option Nat} {pos n : Nat}

def addressOf (find : String → Option Nat) (l : Label) : Option Nat :=
  (find l.text).map (· + Header.length)

theorem bytes?_op_eq_some {operands : List Operand} (hs : s.instr = some (.op opcode operands))
    (h : s.bytes? mask find = some bs)
    : ∃ e, Instr.encodeOperands mask s.line opcode.layout operands = .ok e
        ∧ Instr.Encoding.resolve find { e with bytes := opcode.code :: e.bytes } = some bs := by
  unfold Statement.bytes? Statement.encoding at h
  simp only [hs] at h
  split at h
  next e he =>
    obtain ⟨e0, he0, he⟩ := Except.bind_eq_ok_iff.mp he
    split at he
    next => cases he
    next =>
      cases he
      exact ⟨e0, he0, h⟩
  next => cases h

theorem encodeInt_bytes {line len : Nat} {low high v : Int} {e : Instr.Encoding}
    (h : Instr.encodeInt line low high len [.int v] = .ok e)
    : e = { bytes := littleEndian len v } := by
  simp only [Instr.encodeInt, Except.bind_eq_ok_iff, Except.pure_eq_ok_iff] at h
  obtain ⟨_, ⟨⟩, w, hw, rfl⟩ := h
  rw [ranged] at hw
  split at hw
  next =>
    cases hw
    rfl
  next => cases hw

theorem stands_number {v : Int} (hs : s.instr = some (.op opcode [.int v]))
    (hlayout : opcode.layout.isNumber) (h : s.bytes? mask find = some bs) (himage : image.toList.drop pos = bs ++ rest)
    : Machine.Stands image pos opcode (v % 256 ^ opcode.layout.fixedLength.getD 0).toNat := by
  obtain ⟨e, he, hbs⟩ := bytes?_op_eq_some hs h
  have hlen : ∃ len, opcode.layout.fixedLength = some len ∧ e = { bytes := littleEndian len v } := by
    cases hl : opcode.layout with
    | byte | word | dword | addr | size =>
      rw [hl] at he
      exact ⟨_, rfl, encodeInt_bytes he⟩
    | _ =>
      rw [hl] at hlayout
      cases hlayout
  obtain ⟨len, hlen, rfl⟩ := hlen
  simp only [Instr.Encoding.resolve, Option.some.injEq] at hbs
  rw [hlen, Option.getD_some, ← valueOf_littleEndian_int]
  apply stands_of_drop
  · rw [himage, ← hbs]
  · rw [hlen, length_littleEndian]

theorem stands_plain (hs : s.instr = some (.op opcode [])) (hlayout : opcode.layout = .none)
    (h : s.bytes? mask find = some bs) (himage : image.toList.drop pos = bs ++ rest)
    : Machine.Stands image pos opcode 0 := by
  obtain ⟨e, he, hbs⟩ := bytes?_op_eq_some hs h
  rw [hlayout] at he
  cases he
  simp only [Instr.Encoding.resolve, Option.some.injEq] at hbs
  rw [← hbs] at himage
  exact stands_of_drop himage (by rw [hlayout]; rfl)

theorem stands_jump {l : Label} (hs : s.instr = some (.op opcode [.name l.text])) (hlayout : opcode.layout = .target)
    (hfind : ∀ k offset, find k = some offset → offset + Header.length < 2 ^ 24)
    (h : s.bytes? mask find = some bs) (himage : image.toList.drop pos = bs ++ rest)
    : ∃ target < 2 ^ 24, addressOf find l = some target ∧ Machine.Stands image pos opcode target := by
  obtain ⟨e, he, hbs⟩ := bytes?_op_eq_some hs h
  rw [hlayout] at he
  cases he
  simp only [Instr.Encoding.resolve] at hbs
  cases hl : find l.text with
  | none => simp [hl] at hbs
  | some offset =>
    have hlt := hfind _ _ hl
    simp only [hl, Option.map_some, List.take_succ_cons, List.take_zero, Option.some.injEq] at hbs
    refine ⟨offset + Header.length, hlt, by rw [addressOf, hl]; rfl, ?_⟩
    rw [← valueOf_littleEndian (n := 3) hlt]
    apply stands_of_drop
    · rw [himage, ← hbs]
      rfl
    · rw [hlayout, length_littleEndian]
      rfl

theorem Line.stands_of_bytes? {line : Line} (hfind : ∀ k offset, find k = some offset → offset + Header.length < 2 ^ 24)
    (hlabel : ∀ l, line = .label l → addressOf find l = some pos)
    (h : (line.statement n).bytes? mask find = some bs) (himage : image.toList.drop pos = bs ++ rest)
    : line.Stands image (addressOf find) pos := by
  unfold Line.Stands
  split
  next l => exact hlabel l rfl
  next => exact fun hlayout => stands_plain rfl hlayout h himage
  next => exact fun hlayout => stands_number rfl hlayout h himage
  next opcode v =>
    intro hlayout
    have hstands := stands_number rfl hlayout h himage
    rwa [← Nat.cast_ofNat, ← Nat.cast_pow, ← Int.natCast_mod, Int.toNat_natCast] at hstands
  next => exact fun hlayout => stands_jump rfl hlayout hfind h himage
  next => trivial

theorem resolve_length {e : Instr.Encoding} (h : e.WellSized) (hbs : e.resolve find = some bs) :
    bs.length = e.bytes.length := by
  unfold Instr.Encoding.resolve at hbs
  split at hbs
  next l hl =>
    have hfour := h (by simp [hl])
    obtain ⟨offset, -, rfl⟩ := Option.map_eq_some_iff.mp hbs
    simp [length_littleEndian, hfour]
  next =>
    cases hbs
    rfl

theorem Statement.length_bytes? (h : s.bytes? mask find = some bs) : bs.length = s.size := by
  unfold Statement.bytes? at h
  split at h
  next e he =>
    obtain ⟨hsize, hwell⟩ := Statement.encoding_size he
    rw [resolve_length hwell h, hsize]
  next => cases h

end Lines

theorem le_of_mem_labelsFrom {offset : Nat} {p : String × Nat} (h : p ∈ labelsFrom offset ss) :
    p.2 ≤ offset + codeSize ss := by
  induction ss generalizing offset with
  | nil => simp [labelsFrom] at h
  | cons s ss ih =>
    rw [codeSize_eq_sum, List.map_cons, List.sum_cons, ← codeSize_eq_sum]
    simp only [labelsFrom] at h
    split at h
    next =>
      rw [List.mem_cons] at h
      obtain rfl | h := h
      · simp only
        omega
      · have := ih h
        omega
    next =>
      have := ih h
      omega

theorem labelsFrom_append (offset : Nat) (ss ss' : List Statement) :
    labelsFrom offset (ss ++ ss') = labelsFrom offset ss ++ labelsFrom (offset + codeSize ss) ss' := by
  induction ss generalizing offset with
  | nil => rfl
  | cons s ss ih =>
    rw [codeSize_eq_sum, List.map_cons, List.sum_cons, ← codeSize_eq_sum, ← Nat.add_assoc]
    simp only [List.cons_append, labelsFrom, ih]
    split <;> rfl

theorem mem_labelsFrom_middle {ss1 ss2 ss3 : List Statement} {p : String × Nat} (h : p ∈ labelsFrom (codeSize ss1) ss2)
    : p ∈ labelsFrom 0 (ss1 ++ ss2 ++ ss3) := by
  rw [List.append_assoc, labelsFrom_append, labelsFrom_append, Nat.zero_add]
  exact List.mem_append_right _ (List.mem_append_left _ h)

theorem Code.codeSize_statements (n : Nat) (code : Code) : codeSize (code.statements n) = code.extent := by
  induction code generalizing n with
  | nil => rfl
  | cons line code ih =>
    rw [Code.statements, codeSize_eq_sum, List.map_cons, List.sum_cons, ← codeSize_eq_sum, ih]
    rfl

theorem codeSize_append (ss ss' : List Statement) : codeSize (ss ++ ss') = codeSize ss + codeSize ss' := by
  rw [codeSize_eq_sum, List.map_append, List.sum_append, ← codeSize_eq_sum, ← codeSize_eq_sum]

theorem forall₂_append_left {α β : Type} {R : α → β → Prop} {xs ys : List α} {zs : List β}
    (h : List.Forall₂ R (xs ++ ys) zs)
    : ∃ zs1 zs2, zs = zs1 ++ zs2 ∧ List.Forall₂ R xs zs1 ∧ List.Forall₂ R ys zs2 := by
  induction xs generalizing zs with
  | nil => exact ⟨[], zs, rfl, .nil, h⟩
  | cons x xs ih =>
    cases h with
    | @cons _ z _ zs hx hrest =>
      obtain ⟨zs1, zs2, rfl, h1, h2⟩ := ih hrest
      exact ⟨z :: zs1, zs2, rfl, .cons hx h1, h2⟩

theorem length_flatten_bytes? {find : String → Option Nat} {bs : List (List UInt8)}
    (h : List.Forall₂ (fun s b => s.bytes? mask find = some b) ss bs)
    : bs.flatten.length = codeSize ss := by
  induction h with
  | nil => rfl
  | cons hs _ ih =>
    rw [codeSize_eq_sum, List.map_cons, List.sum_cons, ← codeSize_eq_sum, List.flatten_cons, List.length_append,
      ih, Statement.length_bytes? hs]

theorem Code.stands_of_bytes? {find : String → Option Nat} {n offset : Nat} {bs : List (List UInt8)}
    (hfind : ∀ k offset, find k = some offset → offset + Header.length < 2 ^ 24)
    (hlabels : ∀ p ∈ labelsFrom offset (code.statements n), find p.1 = some p.2)
    (h : List.Forall₂ (fun s b => s.bytes? mask find = some b) (code.statements n) bs)
    (himage : image.toList.drop (offset + Header.length) = bs.flatten ++ rest)
    : Code.Stands image (addressOf find) (offset + Header.length) code := by
  induction code generalizing n offset bs with
  | nil => trivial
  | cons line code ih =>
    rw [Code.statements] at h hlabels
    cases h with
    | @cons _ b _ bs hline hcode =>
      rw [List.flatten_cons, List.append_assoc] at himage
      have hsize : b.length = line.size := Statement.length_bytes? hline
      have hrest : ∀ p ∈ labelsFrom (offset + line.size) (Code.statements (n + 1) code),
          find p.1 = some p.2 := by
        intro p hp
        apply hlabels
        simp only [labelsFrom]
        split
        next => exact List.mem_cons_of_mem _ hp
        next => exact hp
      refine ⟨Line.stands_of_bytes? hfind ?_ hline himage, ?_⟩
      · rintro l rfl
        have hl := hlabels (l.text, offset) (List.mem_cons_self ..)
        rw [addressOf, hl]
        rfl
      · rw [Nat.add_right_comm]
        apply ih hrest hcode
        rw [Nat.add_right_comm, ← hsize, ← List.drop_drop, himage, List.drop_left]

def Code.stop (code : Code) : Nat :=
  match Asm.statements code.render with
  | .ok ss => Header.length + codeSize ss
  | .error _ => Header.length

theorem statementsFrom_append_eq_ok {n : Nat} {xs ys : List String} (h : statementsFrom n (xs ++ ys) = .ok ss)
    : ∃ ss1 ss2, statementsFrom n xs = .ok ss1 ∧ statementsFrom (n + xs.length) ys = .ok ss2 ∧ ss = ss1 ++ ss2 := by
  simp only [statementsFrom_append, Except.bind_eq_ok_iff, Except.pure_eq_ok_iff] at h
  obtain ⟨ss1, h1, ss2, h2, rfl⟩ := h
  exact ⟨ss1, ss2, h1, h2, rfl⟩

theorem statements_render_append {a b : Code} (h : statements (Code.render (a ++ b)) = .ok ss)
    : ∃ ss1 ss2, statements a.render = .ok ss1
        ∧ statementsFrom (1 + (Text.lines a.render).length) (Text.lines b.render) = .ok ss2
        ∧ ss = ss1 ++ ss2 := by
  rw [statements, Code.render_append, Code.lines_render_append] at h
  exact statementsFrom_append_eq_ok h

theorem Code.statementsFrom_render_eq (n : Nat) (h : ∀ line ∈ code, line.Readable) :
    statementsFrom n (Text.lines code.render) = .ok (code.statements n) := by
  rw [Code.lines_render fun line hline => (h line hline).named, statementsFrom_render n h]

theorem assemble_render {options : Options} (h : ∀ line ∈ code, line.Readable)
    (hgeometry : options.header.geometryEncodable)
    : assemble code.render options = assembleStatements options.header (code.statements 1) := by
  have hstatements : statements code.render = .ok (code.statements 1) := Code.statementsFrom_render_eq 1 h
  simp only [assemble, hgeometry, hstatements, bind, Except.bind, Bool.not_true, Bool.false_eq_true, if_false]

theorem labelOffset?_lt (hnodup : ((labelsFrom 0 ss).map (·.1)).Nodup)
    (hsize : Header.length + codeSize ss ≤ 0xFFFFFF) (k : String) (offset : Nat) (h : labelOffset? ss k = some offset)
    : offset + Header.length < 2 ^ 24 := by
  have hle := le_of_mem_labelsFrom ((lookup_eq_some_iff_mem hnodup).mp h)
  simp only at hle
  omega

theorem Code.bytes_of_assemble {front code rest : Code} {options : Options} (hreadable : ∀ line ∈ code, line.Readable)
    (h : assemble (Code.render (front ++ code ++ rest)) options = .ok image)
    : ∃ ss offset n bs tail, Asm.statements (Code.render (front ++ code ++ rest)) = .ok ss
        ∧ (∀ k target, labelOffset? ss k = some target → target + Header.length < 2 ^ 24)
        ∧ front.stop = offset + Header.length ∧ Code.stop (front ++ code) = front.stop + code.extent
        ∧ (∀ p ∈ labelsFrom offset (code.statements n), labelOffset? ss p.1 = some p.2)
        ∧ List.Forall₂ (fun s b => s.bytes? options.mask (labelOffset? ss) = some b) (code.statements n) bs
        ∧ image.toList.drop (offset + Header.length) = bs.flatten ++ tail := by
  obtain ⟨-, ss, hss, himage⟩ := assemble_eq_ok_iff.mp h
  obtain ⟨ss', ss3, hss', hss3, rfl⟩ := statements_render_append hss
  obtain ⟨ss1, ss2, hss1, hss2, rfl⟩ := statements_render_append hss'
  rw [Code.statementsFrom_render_eq _ hreadable, Except.ok.injEq] at hss2
  subst hss2
  obtain ⟨hnodup, hsize, bs, hbs, rfl⟩ := assembleStatements_eq_ok_iff.mp himage
  obtain ⟨bs', bs3, rfl, hbs', hbs3⟩ := forall₂_append_left hbs
  obtain ⟨bs1, bs2, rfl, hbs1, hbs2⟩ := forall₂_append_left hbs'
  have hstop : front.stop = codeSize ss1 + Header.length := by
    rw [Code.stop, hss1, Nat.add_comm]
  refine ⟨_, codeSize ss1, _, bs2, bs3.flatten, hss, labelOffset?_lt hnodup hsize, hstop, ?_, ?_, hbs2, ?_⟩
  · rw [hstop, Code.stop, hss']
    simp only
    rw [codeSize_append, Code.codeSize_statements]
    omega
  · intro p hp
    exact (lookup_eq_some_iff_mem hnodup).mpr (mem_labelsFrom_middle hp)
  · rw [List.flatten_append, List.flatten_append, ← List.append_assoc, ← List.append_assoc,
      List.append_assoc _ _ bs3.flatten]
    apply List.drop_left'
    rw [List.length_append, Header.length_toBytes, length_flatten_bytes? hbs1, Nat.add_comm]

def addressIn (text : String) (l : Label) : Option Nat :=
  match statements text with
  | .ok ss => addressOf (labelOffset? ss) l
  | .error _ => none

theorem Code.stands_in_text {front code rest : Code} {options : Options} {image : Array UInt8}
    (hreadable : ∀ line ∈ code, line.Readable) (h : assemble (Code.render (front ++ code ++ rest)) options = .ok image)
    : Code.Stands image (addressIn (Code.render (front ++ code ++ rest))) front.stop code := by
  obtain ⟨ss, offset, n, bs, tail, hss, hfind, hfront, -, hlabels, hbs, hdrop⟩ := bytes_of_assemble hreadable h
  have haddress : addressIn (Code.render (front ++ code ++ rest)) = addressOf (labelOffset? ss) := by
    funext l
    rw [addressIn, hss]
  rw [haddress, hfront]
  exact Code.stands_of_bytes? hfind hlabels hbs hdrop

theorem Code.stands_of_assemble {front code rest : Code} {options : Options} {image : Array UInt8}
    (hreadable : ∀ line ∈ code, line.Readable) (h : assemble (Code.render (front ++ code ++ rest)) options = .ok image)
    : (∃ address, Code.Stands image address front.stop code)
        ∧ Code.stop (front ++ code) = front.stop + code.extent := by
  obtain ⟨-, -, -, -, -, -, -, -, hstop, -⟩ := bytes_of_assemble hreadable h
  exact ⟨⟨_, stands_in_text hreadable h⟩, hstop⟩

end Asm
end Handheld
