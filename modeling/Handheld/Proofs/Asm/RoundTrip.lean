import Handheld.Proofs.Asm.Bytes
import Handheld.Proofs.Asm.Reading
import Handheld.Proofs.Asm.Sweep
import Handheld.Proofs.Image
import Mathlib.Data.List.TakeWhile

/-!
Assembling a listing again. Listed lines are read as statements of the same size and with the same bytes; a jump gets
back its address if this lies behind the header and is not the end of the image.
-/
namespace Handheld.Asm

variable {line n offset o target : Nat} {low high : Int} {layout : Layout} {d : Decoded}

section Operands

variable {mask : UInt8} {boundaries : List Nat} {operands : List UInt8}

theorem ranged_eq_ok {n : Int} (hlow : low ≤ n) (hhigh : n ≤ high) : ranged line low high (.int n) = .ok n := by
  simp [ranged, hlow, hhigh]

theorem encodeInt_eq_ok {v : Int} (hlow : low ≤ v) (hhigh : v ≤ high) :
    Instr.encodeInt line low high n [.int v] = .ok { bytes := littleEndian n v } := by
  simp [Instr.encodeInt, Instr.first, ranged_eq_ok hlow hhigh, Bind.bind, Except.bind, pure,
    Except.pure]

theorem encodeInt_valueOf (line : Nat) (hlow : low ≤ 0) (hhigh : (256 ^ operands.length : Nat) ≤ high + 1)
    : Instr.encodeInt line low high operands.length [.int (valueOf operands)]
        =
      .ok { bytes := operands } := by
  have hlt := valueOf_lt operands
  rw [encodeInt_eq_ok (by omega) (by omega), littleEndian_valueOf]

theorem encode_byte (line : Nat) (h : Fits mask .byte operands) :
    Instr.encodeInt line (-128) 255 1 [.int (valueOf operands)] = .ok { bytes := operands } := by
  have hlen : operands.length = 1 := by simpa [Fits, Layout.fixedLength, eq_comm] using h
  rw [← hlen]
  exact encodeInt_valueOf line (by omega) (by simp [hlen])

theorem encode_addr (line : Nat) (hlen : operands.length = 2) :
    Instr.encodeInt line 0 65535 2 [.int (valueOf operands)] = .ok { bytes := operands } := by
  rw [← hlen]
  exact encodeInt_valueOf line (by omega) (by simp [hlen])

theorem encode_word (line : Nat) (h : Fits mask .word operands) :
    Instr.encodeInt line (-32768) 65535 2 [.int (UInt16.ofNat (valueOf operands)).toInt16.toInt]
      =
    .ok { bytes := operands } := by
  have hlen : operands.length = 2 := by simpa [Fits, Layout.fixedLength, eq_comm] using h
  have hlow := Int16.le_toInt (UInt16.ofNat (valueOf operands)).toInt16
  have hhigh := Int16.toInt_lt (UInt16.ofNat (valueOf operands)).toInt16
  rw [encodeInt_eq_ok (by omega) (by omega), littleEndian_word, ← hlen, littleEndian_valueOf]

theorem encode_dword (line : Nat) (h : Fits mask .dword operands) :
    Instr.encodeInt line (-2147483648) 4294967295 4
      [.int (UInt32.ofNat (valueOf operands)).toInt32.toInt]
      =
    .ok { bytes := operands } := by
  have hlen : operands.length = 4 := by simpa [Fits, Layout.fixedLength, eq_comm] using h
  have hlow := Int32.le_toInt (UInt32.ofNat (valueOf operands)).toInt32
  have hhigh := Int32.toInt_lt (UInt32.ofNat (valueOf operands)).toInt32
  rw [encodeInt_eq_ok (by omega) (by omega), littleEndian_dword, ← hlen, littleEndian_valueOf]

theorem encode_frame (line : Nat) (h : Fits mask .frame operands) :
    Instr.encodeFrame line [.int (valueOf (operands.take 2)), .int (valueOf (operands.drop 2))]
      =
    .ok { bytes := operands } := by
  match operands, h with
  | [a, b, c], _ =>
    have hframe := valueOf_lt [a, b]
    have hcount := valueOf_lt [c]
    simp only [List.length_cons, List.length_nil] at hframe hcount
    simp only [Instr.encodeFrame, Instr.first, List.take_succ_cons, List.take_zero,
      List.drop_succ_cons, List.drop_zero, List.tail_cons, Bind.bind, Except.bind]
    rw [ranged_eq_ok (by omega) (by omega), ranged_eq_ok (by omega) (by omega)]
    simp only [pure, Except.pure, Except.ok.injEq, Instr.Encoding.mk.injEq, and_true]
    rw [show 2 = [a, b].length from rfl, littleEndian_valueOf]
    rw [show 1 = [c].length from rfl, littleEndian_valueOf]
    rfl

theorem payload_map_xor {text : List UInt8} (h : mask ∉ text) :
    payload (text.map (· ^^^ mask)) = text.map (· ^^^ mask) := by
  rw [payload, List.takeWhile_eq_self_iff]
  intro b hb
  rw [List.mem_map] at hb
  obtain ⟨c, hc, rfl⟩ := hb
  rw [bne_iff_ne]
  intro hzero
  rw [UInt8.xor_eq_zero_iff] at hzero
  exact h (hzero ▸ hc)

theorem encode_str (line : Nat) (h : Fits mask .str operands) :
    Instr.encodeStr mask line [.str (operands.dropLast.map (· ^^^ mask))]
      =
    .ok { bytes := operands } := by
  obtain ⟨text, hmask, rfl⟩ := h
  simp only [Instr.encodeStr, Instr.first, List.dropLast_concat, payload_map_xor hmask, Bind.bind,
    Except.bind, List.map_map]
  have hxor : ((· ^^^ mask) ∘ (· ^^^ mask) : UInt8 → UInt8) = id := by
    funext b
    rw [Function.comp_apply, UInt8.xor_assoc, UInt8.xor_self, UInt8.xor_zero, id]
  simp [hxor, pure, Except.pure]

theorem mapM_ranged (line : Nat) (data : List UInt8) :
    (data.map fun b => Operand.int b.toNat).mapM (ranged line (-128) 255)
      =
    .ok (data.map fun b => (b.toNat : Int)) := by
  induction data with
  | nil => rfl
  | cons b data ih =>
    rw [List.map_cons, List.mapM_cons, ih, ranged_byte line b (by omega)]
    rfl

theorem encode_data (line : Nat) (h : Fits mask .data operands) :
    Instr.encodeData line (.int (valueOf (operands.take 2))
      :: (operands.drop 4).map fun b => .int b.toNat)
      =
    .ok { bytes := operands } := by
  obtain ⟨a0, a1, l0, l1, data, rfl, hlen⟩ := h
  have haddr := valueOf_lt [a0, a1]
  have hlt := valueOf_lt [l0, l1]
  simp only [List.length_cons, List.length_nil] at haddr hlt
  simp only [Instr.encodeData, Instr.first, List.take_succ_cons, List.take_zero,
    List.drop_succ_cons, List.drop_zero, List.tail_cons, Bind.bind, Except.bind, List.length_map]
  rw [ranged_eq_ok (by omega) (by omega)]
  have hsmall : ¬ 0xFFFF < data.length := by omega
  simp only [hsmall, ↓reduceIte, mapM_ranged, pure, Except.pure, List.map_map, List.length_map]
  have hbytes : (byteOf ∘ fun b : UInt8 => (b.toNat : Int)) = id := by
    funext b
    exact byteOf_toNat b
  rw [hlen, hbytes]
  rw [show 2 = [a0, a1].length from rfl, littleEndian_valueOf]
  rw [show [a0, a1].length = [l0, l1].length from rfl, littleEndian_valueOf]
  simp

theorem operandCount_operandArgs (layout : Layout) (operands : List UInt8) :
    ((operandArgs mask boundaries layout operands).map Arg.operand).drop
      (Instr.operandCount layout ((operandArgs mask boundaries layout operands).map Arg.operand))
      =
    [] := by
  cases layout <;> simp [operandArgs, Instr.operandCount]
  omega

theorem encodeOperands_operandArgs (line : Nat) (h : Fits mask layout operands) (hlayout : layout ≠ .target)
    : Instr.encodeOperands mask line layout
        ((operandArgs mask boundaries layout operands).map Arg.operand)
        =
      .ok { bytes := operands } := by
  cases layout with
  | none =>
    have hnil : operands = [] := by
      simpa [Fits, Layout.fixedLength, eq_comm] using h
    rw [hnil]
    rfl
  | byte => exact encode_byte line h
  | word => exact encode_word line h
  | dword => exact encode_dword line h
  | addr | size => exact encode_addr line (by simpa [Fits, Layout.fixedLength, eq_comm] using h)
  | frame => exact encode_frame line h
  | str => exact encode_str line h
  | data =>
    simp only [operandArgs, List.map_cons, List.map_map]
    exact encode_data line h
  | target => exact absurd rfl hlayout

def address? (boundaries : List Nat) (find : String → Option Nat) (target : Nat) : Option Nat :=
  if Header.length ≤ target ∧ target - Header.length ∈ boundaries then
    (find (Label.offset (target - Header.length)).text).map (· + Header.length)
  else
    some (max target Header.length)

theorem encodeTarget_targetArg (boundaries : List Nat) (line : Nat) (find : String → Option Nat)
    (opcode : Opcode) (h : operands.length = 3)
    : ∃ e, Instr.encodeTarget line [(targetArg boundaries (valueOf operands)).operand] = .ok e
        ∧ { e with bytes := opcode.code :: e.bytes : Instr.Encoding}.resolve find
            = (address? boundaries find (valueOf operands)).map fun (target : Nat) =>
                opcode.code :: littleEndian 3 target := by
  have hlt := valueOf_lt operands
  rw [h] at hlt
  unfold targetArg address?
  simp only [Bool.and_eq_true, decide_eq_true_eq, List.contains_iff_mem]
  split
  next hlabel =>
    refine ⟨{ bytes := [0, 0, 0], label := some _ }, rfl, ?_⟩
    simp only [Instr.Encoding.resolve, Option.map_map]
    rfl
  next =>
    refine ⟨{ bytes := littleEndian 3 (max (valueOf operands) Header.length : Nat) }, ?_, rfl⟩
    simp only [Instr.encodeTarget, Arg.operand, Instr.first, Bind.bind, Except.bind, Header.length]
    rw [ranged_eq_ok (by omega) (by omega)]
    simp only [pure, Except.pure]
    congr 3
    omega

end Operands

section Pieces

variable {mask : UInt8} {boundaries : List Nat} {find : String → Option Nat}

def Decoded.again? (boundaries : List Nat) (find : String → Option Nat) (d : Decoded) :
    Option (List UInt8) :=
  match d.target? with
  | some target =>
    (address? boundaries find target).map fun (target : Nat) =>
      d.bytes.take 1 ++ littleEndian 3 target
  | none => some d.bytes

theorem Decoded.exists_encoding (find : String → Option Nat) (boundaries : List Nat) (n : Nat) (h : d.WellFormed mask) :
    ∃ e, ((d.line mask boundaries).statement n).encoding mask = .ok e
      ∧ e.bytes.length = d.bytes.length
      ∧ e.resolve find = d.again? boundaries find := by
  cases d with
  | byte b => exact ⟨{ bytes := [b] }, rfl, rfl, rfl⟩
  | sys code =>
    refine ⟨{ bytes := [code] }, ?_, rfl, rfl⟩
    simp only [Decoded.line]
    split
    next c hc =>
      rw [← Call.code_of_ofCode? hc]
      rfl
    next => rfl
  | op opcode operands =>
    simp only [Decoded.line, Line.statement, Line.instr, Statement.encoding, Instr.encode]
    rw [operandCount_operandArgs]
    by_cases hlayout : opcode.layout = .target
    · have hlen : operands.length = 3 := by
        simpa [Decoded.WellFormed, Fits, hlayout, Layout.fixedLength, eq_comm] using h
      obtain ⟨e, he, hresolve⟩ := encodeTarget_targetArg boundaries n find opcode hlen
      refine ⟨{ e with bytes := opcode.code :: e.bytes }, ?_, ?_, ?_⟩
      · simp only [hlayout, operandArgs, List.map_cons, List.map_nil, Instr.encodeOperands, he]
        rfl
      · simp [Decoded.bytes, Instr.encodeTarget_size he, hlen]
      · rw [hresolve]
        simp [Decoded.again?, Decoded.target?, Opcode.isJump, hlayout, Decoded.bytes]
    · refine ⟨{ bytes := opcode.code :: operands }, ?_, rfl, ?_⟩
      · rw [encodeOperands_operandArgs n h hlayout]
        rfl
      · simp [Decoded.again?, Decoded.target?, Opcode.isJump, hlayout, Decoded.bytes,
          Instr.Encoding.resolve]

theorem Decoded.size_line (n : Nat) (h : d.WellFormed mask) :
    ((d.line mask boundaries).statement n).size = d.bytes.length := by
  obtain ⟨e, he, hlen, -⟩ := d.exists_encoding (fun _ => none) boundaries n h
  rw [← (Statement.encoding_size he).1, hlen]

theorem Decoded.bytes?_line (n : Nat) (h : d.WellFormed mask) :
    ((d.line mask boundaries).statement n).bytes? mask find = d.again? boundaries find := by
  obtain ⟨e, he, -, hresolve⟩ := d.exists_encoding find boundaries n h
  simp only [Statement.bytes?, he, hresolve]

theorem Decoded.label_line (n : Nat) (d : Decoded) : ((d.line mask boundaries).statement n).label = none := by
  cases d with
  | sys code =>
    simp only [Decoded.line]
    split <;> rfl
  | _ => rfl

end Pieces

section Listing

variable {mask : UInt8} {boundaries targets : List Nat} {ps : List (Nat × Decoded)}

theorem Label.text_offset_inj {m : Nat} (h : (Label.offset m).text = (Label.offset n).text) : m = n := by
  have hchars := congrArg String.toList h
  simp only [Label.text, Text.hex, String.toList_append, List.append_cancel_left_eq,
    String.toList_ofList] at hchars
  have hvalue := Text.numeral?_padLeft_upperHex 4 m
  rw [hchars, Text.numeral?_padLeft_upperHex] at hvalue
  exact (Option.some.inj hvalue).symm

theorem labelsFrom_listingLines (n : Nat) (hwf : ∀ p ∈ ps, p.2.WellFormed mask) (hps : Consecutive offset ps)
    : labelsFrom offset (Code.statements n (listingLines mask boundaries targets ps))
        =
      ((ps.map (·.1)).filter fun o => targets.contains (o + Header.length)).map fun o =>
        ((Label.offset o).text, o) := by
  induction ps generalizing n offset with
  | nil => rfl
  | cons p ps ih =>
    obtain ⟨o, d⟩ := p
    obtain ⟨rfl, hps⟩ := hps
    have hd : d.WellFormed mask := hwf (o, d) (by simp)
    have htail := fun n => ih n (fun p hp => hwf p (by simp [hp])) hps
    simp only [listingLines, List.map_cons, List.filter_cons]
    split
    · rw [Code.statements, labelsFrom]
      change _ :: labelsFrom o _ = _
      rw [Code.statements, labelsFrom, Decoded.label_line, Decoded.size_line _ hd, htail]
      rfl
    · rw [Code.statements, labelsFrom, Decoded.label_line, Decoded.size_line n hd, htail]

theorem codeSize_listingLines (n : Nat) (hwf : ∀ p ∈ ps, p.2.WellFormed mask) :
    codeSize (Code.statements n (listingLines mask boundaries targets ps))
      =
    (ps.flatMap (·.2.bytes)).length := by
  rw [codeSize_eq_sum]
  induction ps generalizing n with
  | nil => rfl
  | cons p ps ih =>
    obtain ⟨o, d⟩ := p
    have hd : d.WellFormed mask := hwf (o, d) (by simp)
    have htail := fun n => ih n (fun p hp => hwf p (by simp [hp]))
    simp only [listingLines, List.flatMap_cons, List.length_append]
    split
    · simp only [Code.statements, List.map_cons, List.sum_cons, Decoded.size_line _ hd, htail]
      simp [Line.statement, Line.instr, Statement.size]
    · simp only [Code.statements, List.map_cons, List.sum_cons, Decoded.size_line _ hd, htail]

theorem exists_forall₂_cons_iff {α : Type} {R : α → List UInt8 → Prop} {x : α} {xs : List α} {out : List UInt8} :
    (∃ bs, List.Forall₂ R (x :: xs) bs ∧ out = bs.flatten)
      ↔ ∃ b, R x b ∧ ∃ rest, (∃ bs, List.Forall₂ R xs bs ∧ rest = bs.flatten) ∧ out = b ++ rest := by
  simp only [List.forall₂_cons_left_iff]
  grind

theorem forall₂_listingLines (boundaries targets : List Nat) (n : Nat) (find : String → Option Nat)
    (hwf : ∀ p ∈ ps, p.2.WellFormed mask) (out : List UInt8)
    : (∃ bs, List.Forall₂ (fun s b => Statement.bytes? mask find s = some b)
          (Code.statements n (listingLines mask boundaries targets ps)) bs ∧ out = bs.flatten)
        ↔ ∃ cs, List.Forall₂ (fun p c => Decoded.again? boundaries find p.2 = some c) ps cs
          ∧ out = cs.flatten := by
  induction ps generalizing n out with
  | nil => simp [listingLines, Code.statements]
  | cons p ps ih =>
    obtain ⟨o, d⟩ := p
    have hd : d.WellFormed mask := hwf (o, d) (by simp)
    have htail := fun n => ih n (fun p hp => hwf p (by simp [hp]))
    have hlabel : ∀ n, ((Line.label (.offset o)).statement n).bytes? mask find = some [] := fun _ => rfl
    simp only [listingLines]
    split
    · simp only [Code.statements, exists_forall₂_cons_iff, Decoded.bytes?_line _ hd, htail, hlabel]
      simp [and_assoc]
    · simp only [Code.statements, exists_forall₂_cons_iff, Decoded.bytes?_line _ hd, htail]

theorem Consecutive.bounds (h : Consecutive offset ps) (ho : o ∈ ps.map (·.1))
    : offset ≤ o ∧ o < offset + (ps.flatMap (·.2.bytes)).length := by
  induction ps generalizing offset with
  | nil => simp at ho
  | cons p ps ih =>
    obtain ⟨o', d⟩ := p
    obtain ⟨rfl, h⟩ := h
    have hpos := List.length_pos_iff.mpr d.bytes_ne_nil
    simp only [List.map_cons, List.mem_cons, List.flatMap_cons, List.length_append] at ho ⊢
    cases ho with
    | inl ho => omega
    | inr ho =>
      have := ih h ho
      omega

theorem Consecutive.nodup (h : Consecutive offset ps) : (ps.map (·.1)).Nodup := by
  induction ps generalizing offset with
  | nil => simp
  | cons p ps ih =>
    obtain ⟨o, d⟩ := p
    obtain ⟨rfl, h⟩ := h
    have hpos := List.length_pos_iff.mpr d.bytes_ne_nil
    rw [List.map_cons, List.nodup_cons]
    refine ⟨?_, ih h⟩
    intro hmem
    have := (h.bounds hmem).1
    omega

theorem nodup_labelsFrom_listingLines (boundaries targets : List Nat) (n : Nat)
    (hwf : ∀ p ∈ ps, p.2.WellFormed mask) (hps : Consecutive offset ps)
    : ((labelsFrom offset (Code.statements n (listingLines mask boundaries targets ps))).map
        (·.1)).Nodup := by
  rw [labelsFrom_listingLines n hwf hps, List.map_map]
  exact (hps.nodup.filter _).map_on fun _ _ _ _ => Label.text_offset_inj

theorem labelOffset?_listingLines (n : Nat) (hwf : ∀ p ∈ ps, p.2.WellFormed mask) (hps : Consecutive 0 ps) {v : Nat}
    : labelOffset? (Code.statements n (listingLines mask boundaries targets ps))
          (Label.offset o).text
          =
        some v
        ↔ v = o ∧ o ∈ ps.map (·.1) ∧ o + Header.length ∈ targets := by
  rw [labelOffset?, lookup_eq_some_iff_mem (nodup_labelsFrom_listingLines _ _ n hwf hps)]
  rw [labelsFrom_listingLines n hwf hps, List.mem_map]
  simp only [List.mem_filter, List.contains_iff_mem, Prod.mk.injEq]
  constructor
  · rintro ⟨o', ⟨hmem, htarget⟩, htext, rfl⟩
    obtain rfl := Label.text_offset_inj htext
    exact ⟨rfl, hmem, htarget⟩
  · rintro ⟨rfl, hmem, htarget⟩
    exact ⟨v, ⟨hmem, htarget⟩, rfl, rfl⟩

end Listing

section Again

variable {mask : UInt8} {code : List UInt8}

abbrev boundaries (mask : UInt8) (code : List UInt8) : List Nat :=
  (sweep mask 0 code).map (·.1) ++ [code.length]

abbrev targets (mask : UInt8) (code : List UInt8) : List Nat :=
  (sweep mask 0 code).filterMap (·.2.target?)

theorem address?_eq_some_self_iff (n : Nat) (h : target ∈ targets mask code) :
    address? (boundaries mask code) (labelOffset? (Code.statements n (listing mask code))) target
        =
      some target
      ↔ Header.length ≤ target ∧ target ≠ Header.length + code.length := by
  have hwf : ∀ p ∈ sweep mask 0 code, p.2.WellFormed mask := fun p hp => sweep_wellFormed hp
  have hcons := sweep_consecutive mask 0 code
  unfold address? listing
  split
  next hlabel =>
    obtain ⟨hle, hmem⟩ := hlabel
    have hback : target - Header.length + Header.length = target := by omega
    rw [Option.map_eq_some_iff]
    simp only [labelOffset?_listingLines n hwf hcons, hback]
    rw [List.mem_append, List.mem_singleton] at hmem
    constructor
    · rintro ⟨v, ⟨rfl, hstart, -⟩, -⟩
      have hlt := (hcons.bounds hstart).2
      rw [sweep_bytes] at hlt
      omega
    · rintro ⟨-, hend⟩
      have hstart : target - Header.length ∈ (sweep mask 0 code).map (·.1) :=
        hmem.resolve_right (by omega)
      exact ⟨target - Header.length, ⟨rfl, hstart, h⟩, hback⟩
  next hplain =>
    rw [Option.some.injEq]
    constructor
    · intro heq
      refine ⟨by omega, ?_⟩
      rintro rfl
      apply hplain
      simp
    · rintro ⟨hle, -⟩
      omega

theorem eq_max_of_address? (n : Nat) {address : Nat}
    (h : address? (boundaries mask code) (labelOffset? (Code.statements n (listing mask code))) target
      = some address)
    : address = max target Header.length := by
  unfold address? listing at h
  split at h
  next hlabel =>
    obtain ⟨v, hv, rfl⟩ := Option.map_eq_some_iff.mp h
    rw [labelOffset?_listingLines n (fun p hp => sweep_wellFormed hp)
      (sweep_consecutive mask 0 code)] at hv
    omega
  next => exact (Option.some.inj h).symm

theorem Decoded.bytes_of_target? (hwf : d.WellFormed mask) (h : d.target? = some target)
    : target < 256 ^ 3 ∧ ∃ b, d.bytes = b :: littleEndian 3 target := by
  cases d with
  | op opcode operands =>
    simp only [Decoded.target?, Opcode.isJump, beq_iff_eq, Option.ite_none_right_eq_some,
      Option.some.injEq] at h
    obtain ⟨hlayout, rfl⟩ := h
    have hlen : operands.length = 3 := by
      simpa [Decoded.WellFormed, Fits, hlayout, Layout.fixedLength, eq_comm] using hwf
    rw [← hlen, littleEndian_valueOf]
    exact ⟨valueOf_lt operands, opcode.code, rfl⟩
  | _ => simp [Decoded.target?] at h

theorem Decoded.length_again? {boundaries : List Nat} {find : String → Option Nat}
    (hwf : d.WellFormed mask) {c : List UInt8} (h : d.again? boundaries find = some c)
    : c.length = d.bytes.length := by
  unfold Decoded.again? at h
  split at h
  next target htarget =>
    obtain ⟨-, b, hbytes⟩ := d.bytes_of_target? hwf htarget
    obtain ⟨address, -, rfl⟩ := Option.map_eq_some_iff.mp h
    simp [hbytes, length_littleEndian]
  next => rw [Option.some.inj h]

theorem Decoded.again?_eq_some_bytes_iff (n : Nat) (h : (o, d) ∈ sweep mask 0 code)
    : d.again? (boundaries mask code) (labelOffset? (Code.statements n (listing mask code)))
          =
        some d.bytes
        ↔ ∀ target, d.target? = some target →
          Header.length ≤ target ∧ target ≠ Header.length + code.length := by
  have hwf := sweep_wellFormed h
  unfold Decoded.again?
  split
  next target htarget =>
    have hmem : target ∈ targets mask code := List.mem_filterMap.mpr ⟨(o, d), h, htarget⟩
    obtain ⟨hlt, b, hbytes⟩ := d.bytes_of_target? hwf htarget
    simp only [Option.some.injEq, forall_eq', htarget]
    rw [← address?_eq_some_self_iff n hmem, hbytes, Option.map_eq_some_iff]
    constructor
    · rintro ⟨address, haddress, heq⟩
      have hmax := eq_max_of_address? n haddress
      have hvalue : littleEndian 3 address = littleEndian 3 target := by simpa using heq
      have hsame : address = target := by
        rw [← valueOf_littleEndian hlt, ← hvalue, valueOf_littleEndian]
        simp only [Header.length] at hmax
        omega
      rw [haddress, hsame]
    · intro haddress
      exact ⟨target, haddress, rfl⟩
  next htarget => simp [htarget]

end Again

theorem flatten_inj_of_length {cs ds : List (List UInt8)} (h : List.Forall₂ (fun c d => c.length = d.length) cs ds)
    : cs.flatten = ds.flatten ↔ cs = ds := by
  induction h with
  | nil => simp
  | cons hcd _ ih =>
    simp only [List.flatten_cons, List.cons.injEq]
    rw [List.append_eq_append_iff_of_size_eq_left hcd, ih]

theorem forall₂_again?_iff {mask : UInt8} {boundaries : List Nat} {find : String → Option Nat}
    {ps : List (Nat × Decoded)} (hwf : ∀ p ∈ ps, p.2.WellFormed mask) {code : List UInt8}
    (hcode : ps.flatMap (·.2.bytes) = code)
    : (∃ cs, List.Forall₂ (fun p c => Decoded.again? boundaries find p.2 = some c) ps cs
          ∧ code = cs.flatten)
        ↔ ∀ p ∈ ps, p.2.again? boundaries find = some p.2.bytes := by
  rw [List.flatMap_def] at hcode
  subst hcode
  constructor
  · rintro ⟨cs, hcs, hflat⟩
    have hlen : List.Forall₂ (fun d c => d.length = c.length) (ps.map (·.2.bytes)) cs := by
      rw [List.forall₂_map_left_iff, List.forall₂_iff_zip]
      rw [List.forall₂_iff_zip] at hcs
      refine ⟨hcs.1, ?_⟩
      intro p c hpc
      exact (Decoded.length_again? (hwf p (List.of_mem_zip hpc).1) (hcs.2 hpc)).symm
    rw [flatten_inj_of_length hlen] at hflat
    subst hflat
    rwa [List.forall₂_map_right_iff, List.forall₂_same] at hcs
  · intro h
    refine ⟨ps.map (·.2.bytes), ?_, rfl⟩
    rwa [List.forall₂_map_right_iff, List.forall₂_same]

theorem assembleStatements_listing_iff (header : Header) (code : List UInt8) (n : Nat)
    (hsize : Header.length + code.length ≤ 0xFFFFFF)
    : assembleStatements header (Code.statements n (listing header.mask code))
          =
        .ok (header.toBytes ++ code).toArray
        ↔ ∀ p ∈ sweep header.mask 0 code, ∀ target, p.2.target? = some target →
          Header.length ≤ target ∧ target ≠ Header.length + code.length := by
  have hwf : ∀ p ∈ sweep header.mask 0 code, p.2.WellFormed header.mask :=
    fun p hp => sweep_wellFormed hp
  have hbytes := sweep_bytes header.mask 0 code
  have hnodup := nodup_labelsFrom_listingLines (boundaries header.mask code)
    (targets header.mask code) n hwf (sweep_consecutive header.mask 0 code)
  have hfits : Header.length + codeSize (Code.statements n (listing header.mask code)) ≤ 0xFFFFFF := by
    rw [listing, codeSize_listingLines n hwf, hbytes]
    exact hsize
  have hpieces := forall₂_listingLines (boundaries header.mask code) (targets header.mask code) n
    (labelOffset? (Code.statements n (listing header.mask code))) hwf code
  rw [forall₂_again?_iff hwf hbytes] at hpieces
  rw [assembleStatements_eq_ok_iff]
  simp only [Array.mk.injEq, List.append_cancel_left_eq]
  constructor
  · rintro ⟨-, -, hbs⟩ ⟨o, d⟩ hp
    rw [← Decoded.again?_eq_some_bytes_iff n hp]
    exact hpieces.mp hbs (o, d) hp
  · intro h
    refine ⟨hnodup, hfits, hpieces.mpr ?_⟩
    rintro ⟨o, d⟩ hp
    rw [Decoded.again?_eq_some_bytes_iff n hp]
    exact h (o, d) hp

section Text

open Text

theorem targetArg_readable (boundaries : List Nat) (h : target < 2 ^ 63) : (targetArg boundaries target).Readable := by
  unfold targetArg
  split
  next => exact Label.readable_offset _
  next =>
    simp only [Arg.Readable]
    omega

theorem valueOf_lt_of_length_le {operands : List UInt8} (h : operands.length ≤ 4) : valueOf operands < 2 ^ 63 := by
  calc valueOf operands < 256 ^ operands.length := valueOf_lt operands
    _ ≤ 256 ^ 4 := Nat.pow_le_pow_right (by omega) h
    _ < 2 ^ 63 := by decide

theorem operandArgs_readable {mask : UInt8} (boundaries : List Nat)
    {operands : List UInt8} (h : Fits mask layout operands) {a : Arg}
    (ha : a ∈ operandArgs mask boundaries layout operands)
    : a.Readable := by
  have hfixed : ∀ n, n ≤ 4 → layout.fixedLength = some n →
      layout.fixedLength = some operands.length → valueOf operands < 2 ^ 63 := by
    intro n hn hlen hlen'
    rw [hlen, Option.some.injEq] at hlen'
    exact valueOf_lt_of_length_le (by omega)
  have hword := Int16.le_toInt (UInt16.ofNat (valueOf operands)).toInt16
  have hword' := Int16.toInt_lt (UInt16.ofNat (valueOf operands)).toInt16
  have hdword := Int32.le_toInt (UInt32.ofNat (valueOf operands)).toInt32
  have hdword' := Int32.toInt_lt (UInt32.ofNat (valueOf operands)).toInt32
  cases layout with
  | none => simp [operandArgs] at ha
  | byte =>
    have := hfixed 1 (by omega) rfl h
    simp only [operandArgs, List.mem_singleton] at ha
    simp only [ha, Arg.Readable]
    omega
  | word | dword =>
    simp only [operandArgs, List.mem_singleton] at ha
    simp only [ha, Arg.Readable]
    omega
  | addr | size =>
    have := hfixed 2 (by omega) rfl h
    simp only [operandArgs, List.mem_singleton] at ha
    simpa [ha, Arg.Readable]
  | target =>
    have := hfixed 3 (by omega) rfl h
    simp only [operandArgs, List.mem_singleton] at ha
    rw [ha]
    exact targetArg_readable boundaries this
  | frame =>
    have hlen : operands.length = 3 := by simpa [Fits, Layout.fixedLength, eq_comm] using h
    have hframe := @valueOf_lt_of_length_le (operands.take 2) (by simp)
    have hcount := @valueOf_lt_of_length_le (operands.drop 2) (by simp [hlen])
    simp only [operandArgs, List.mem_cons, List.not_mem_nil, or_false] at ha
    rcases ha with rfl | rfl
    all_goals
      simp only [Arg.Readable]
      omega
  | str =>
    simp only [operandArgs, List.mem_singleton] at ha
    simp [ha, Arg.Readable]
  | data =>
    have haddr := @valueOf_lt_of_length_le (operands.take 2) (by simp)
    simp only [operandArgs, List.mem_cons, List.mem_map] at ha
    rcases ha with rfl | ⟨b, -, rfl⟩
    · exact haddr
    · have := b.toNat_lt
      simp only [Arg.Readable]
      omega

theorem Decoded.line_readable {mask : UInt8} (boundaries : List Nat) (h : d.WellFormed mask)
    : (d.line mask boundaries).Readable := by
  cases d with
  | op opcode operands => exact fun a ha => operandArgs_readable boundaries h ha
  | sys code =>
    simp only [Decoded.line]
    split
    next => trivial
    next => exact h
  | byte b => trivial

theorem listingLines_readable {mask : UInt8} {boundaries targets : List Nat}
    {ps : List (Nat × Decoded)} (hwf : ∀ p ∈ ps, p.2.WellFormed mask)
    : ∀ line ∈ listingLines mask boundaries targets ps, line.Readable := by
  induction ps with
  | nil => simp [listingLines]
  | cons p ps ih =>
    have hhead := Decoded.line_readable boundaries (hwf p (by simp))
    have htail := ih fun p hp => hwf p (by simp [hp])
    simp only [listingLines]
    split
    next =>
      simp only [List.forall_mem_cons]
      exact ⟨Label.readable_offset _, hhead, htail⟩
    next =>
      simp only [List.forall_mem_cons]
      exact ⟨hhead, htail⟩

theorem headerComment_toList (h : Header) :
    ∃ comment, (headerComment h).toList = ';' :: comment ++ ['\n']
      ∧ ∀ c ∈ comment, c ≠ '\n' ∧ c ≠ '\r' := by
  have hhex : ∀ width n, ∀ c ∈ (hex width n).toList, c ≠ '\n' ∧ c ≠ '\r' :=
    fun width n c hc => not_break_of_isPlain (isPlain_of_mem_hex hc)
  have hdec : ∀ n : Nat, ∀ c ∈ (toString n).toList, c ≠ '\n' ∧ c ≠ '\r' := by
    intro n c hc
    rw [Nat.toString_eq_repr, Nat.toList_repr] at hc
    exact not_break_of_isPlain (isPlain_of_mem_toDigits (by omega) (by omega) hc)
  have hfront : "; LAV version 0x".toList = ';' :: " LAV version 0x".toList := by decide +kernel
  have hback : "\n".toList = ['\n'] := by decide +kernel
  unfold headerComment
  rw [String.toList_append, hback]
  simp only [String.toList_append, hfront]
  refine ⟨" LAV version 0x".toList ++ (hex 2 h.version.toNat).toList ++ " mask 0x".toList
    ++ (hex 2 h.mask.toNat).toList ++ (" screen ".toList ++ (toString h.width.toNat).toList
    ++ "x".toList ++ (toString h.height.toNat).toList ++ " entry 0x".toList)
    ++ (hex 1 h.entry.toNat).toList, rfl, ?_⟩
  simp only [List.forall_mem_append]
  refine ⟨⟨⟨⟨⟨?_, hhex _ _⟩, ?_⟩, hhex _ _⟩, ⟨⟨⟨?_, hdec _⟩, ?_⟩, hdec _⟩, ?_⟩, hhex _ _⟩
  all_goals exact not_break_of_all (by decide +kernel)

theorem listing_readable (mask : UInt8) (code : List UInt8) : ∀ line ∈ listing mask code, line.Readable :=
  listingLines_readable fun _ hp => sweep_wellFormed hp

theorem statements_headerComment_append (h : Header) {code : Code} (hcode : ∀ line ∈ code, line.Readable)
    : statements (headerComment h ++ code.render) = .ok (code.statements 2) := by
  obtain ⟨comment, htext, hbreak⟩ := headerComment_toList h
  have hlines : Text.lines (headerComment h ++ code.render)
      = String.ofList (';' :: comment) :: Text.lines code.render := by
    rw [Text.lines, String.toList_append, htext, List.append_assoc, List.singleton_append]
    rw [linesFrom_append, linesFrom_line, List.map_append]
    · rfl
    · rw [List.forall_mem_cons]
      exact ⟨by decide, hbreak⟩
  have hempty : words (String.ofList (';' :: comment)).toList = .ok [] := by
    rw [String.toList_ofList]
    rfl
  rw [statements, hlines, Code.lines_render fun line hline => (hcode line hline).named, statementsFrom, hempty]
  exact statementsFrom_render 2 hcode

end Text

theorem toBytes_append_of_assembleStatements {header : Header} {ss : List Statement}
    {image : Array UInt8} (h : assembleStatements header ss = .ok image)
    : image = (header.toBytes ++ image.toList.drop Header.length).toArray := by
  obtain ⟨-, -, bs, -, rfl⟩ := assembleStatements_eq_ok_iff.mp h
  rw [← Header.length_toBytes header]
  simp

theorem assemble_listing_iff {image : List UInt8} {h : Header} (hparse : Header.parse image = .ok h)
    (code : List UInt8) {options : Options}
    (hoptions : options = { mask := h.mask, width := h.width, height := h.height }) {again : Array UInt8}
    : assemble (headerComment h ++ (listing h.mask code).render) options = .ok again
        ↔ assembleStatements options.header (Code.statements 2 (listing options.header.mask code))
          = .ok again := by
  subst hoptions
  rw [assemble_eq_ok_iff, statements_headerComment_append h (listing_readable h.mask code)]
  simp only [Except.ok.injEq, exists_eq_left']
  have hgeometry := Header.geometryEncodable_of_parse hparse
  exact and_iff_right hgeometry

/--
A listing assembles to the code it lists exactly if no jump of the code goes into the header or to the end of the image.
The header is always the plain one of the same mask and screen.
-/
theorem assemble_disassemble_iff {image : List UInt8} {h : Header}
    (hsize : image.length ≤ 0xFFFFFF) (hparse : Header.parse image = .ok h)
    : ∃ text, disassemble image = .ok text
        ∧ ((∃ again, assemble text { mask := h.mask, width := h.width, height := h.height } = .ok again
              ∧ again.toList.drop Header.length = image.drop Header.length)
            ↔ ∀ p ∈ sweep h.mask 0 (image.drop Header.length), ∀ target, p.2.target? = some target →
              Header.length ≤ target ∧ target ≠ image.length)
        ∧ ∀ again, assemble text { mask := h.mask, width := h.width, height := h.height } = .ok again →
            again.toList.take Header.length
              = Header.toBytes { mask := h.mask, width := h.width, height := h.height } := by
  have hlen := Header.length_le_of_parse hparse
  have hcode : Header.length + (image.drop Header.length).length = image.length := by
    rw [List.length_drop]
    omega
  refine ⟨headerComment h ++ (listing h.mask (image.drop Header.length)).render, ?_, ?_, ?_⟩
  · simp [disassemble, hparse, Bind.bind, Except.bind, pure, Except.pure]
  · rw [← hcode]
    refine Iff.trans ?_ (assembleStatements_listing_iff
      { mask := h.mask, width := h.width, height := h.height } (image.drop Header.length) 2 (by omega))
    simp only [assemble_listing_iff hparse _ rfl]
    constructor
    · rintro ⟨again, hagain, hdrop⟩
      have hback := toBytes_append_of_assembleStatements hagain
      rw [hdrop] at hback
      rwa [hback] at hagain
    · intro hagain
      exact ⟨_, hagain, List.drop_left' (Header.length_toBytes _)⟩
  · intro again hagain
    have hback := toBytes_append_of_assembleStatements ((assemble_listing_iff hparse _ rfl).mp hagain)
    rw [hback]
    exact List.take_left' (Header.length_toBytes _)

def loopImage : List UInt8 :=
  Header.toBytes {} ++ [Opcode.jmp.code, 16, 0, 0, Opcode.jmp.code]

theorem assemble_disassemble_loopImage :
    Header.parse loopImage = .ok {} ∧ loopImage.length ≤ 0xFFFFFF
      ∧ ∃ text again, disassemble loopImage = .ok text ∧ assemble text {} = .ok again
        ∧ again.toList = loopImage := by
  have hparse : Header.parse loopImage = .ok {} := by decide +kernel
  have hsize : loopImage.length ≤ 0xFFFFFF := by decide
  have hsweep : sweep 0 0 (loopImage.drop Header.length)
      = [(0, .op .jmp [16, 0, 0]), (4, .byte Opcode.jmp.code)] := by
    have hcode : loopImage.drop Header.length
        = [Opcode.jmp.code, 16, 0, 0, Opcode.jmp.code] := rfl
    have hjmp : decode 0 Opcode.jmp.code [16, 0, 0, Opcode.jmp.code] = (.op .jmp [16, 0, 0], 3) := by
      decide +kernel
    have hbyte : decode 0 Opcode.jmp.code [] = (.byte Opcode.jmp.code, 0) := by
      decide +kernel
    rw [hcode, sweep, hjmp]
    simp only [List.drop_succ_cons, List.drop_zero]
    rw [sweep, hbyte]
    simp [sweep]
  obtain ⟨text, htext, hiff, hheader⟩ := assemble_disassemble_iff hsize hparse
  obtain ⟨again, hagain, hdrop⟩ := hiff.mpr (by
    rw [hsweep]
    decide)
  refine ⟨hparse, hsize, text, again, htext, hagain, ?_⟩
  rw [← List.take_append_drop Header.length again.toList, hheader again hagain, hdrop]
  rfl

end Handheld.Asm
