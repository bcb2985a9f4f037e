import Handheld.Asm.Listing
import Handheld.Proofs.Opcode

/-!
The sweep of a disassembler cuts code into pieces, each at its offset, that together are the code again.
-/
namespace Handheld.Asm

variable {mask : UInt8} {rest : List UInt8}

def Decoded.bytes : Decoded → List UInt8
  | .op opcode operands => opcode.code :: operands
  | .sys code => [code]
  | .byte b => [b]

def Fits (mask : UInt8) (layout : Layout) (operands : List UInt8) : Prop :=
  match layout with
  | .str => ∃ text, mask ∉ text ∧ operands = text ++ [mask]
  | .data =>
    ∃ a0 a1 l0 l1 data, operands = a0 :: a1 :: l0 :: l1 :: data ∧ data.length = valueOf [l0, l1]
  | layout => layout.fixedLength = some operands.length

def Decoded.WellFormed (mask : UInt8) : Decoded → Prop
  | .op opcode operands => Fits mask opcode.layout operands
  | .sys code => Call.firstCode ≤ code
  | .byte _ => True

theorem fits_str {i : Nat} (h : rest.findIdx? (· == mask) = some i) : Fits mask .str (rest.take (i + 1)) := by
  rw [List.findIdx?_eq_some_iff_getElem] at h
  obtain ⟨hi, heq, hlt⟩ := h
  refine ⟨rest.take i, ?_, ?_⟩
  · intro hmem
    obtain ⟨j, hj, hjm⟩ := List.mem_iff_getElem.mp hmem
    rw [List.length_take] at hj
    have := hlt j (by omega)
    simp_all
  · rw [beq_iff_eq] at heq
    rw [List.take_succ_eq_append_getElem hi, heq]

theorem fits_data (h : 4 ≤ rest.length) (hn : 4 + valueOf ((rest.drop 2).take 2) ≤ rest.length)
    : Fits mask .data (rest.take (4 + valueOf ((rest.drop 2).take 2))) := by
  match rest, h with
  | a0 :: a1 :: l0 :: l1 :: data, _ =>
    simp only [List.drop_succ_cons, List.drop_zero, List.take_succ_cons, List.take_zero,
      List.length_cons] at hn ⊢
    refine ⟨a0, a1, l0, l1, data.take (valueOf [l0, l1]), ?_, ?_⟩
    · rw [Nat.add_comm]
      rfl
    · rw [List.length_take]
      omega

theorem fits_take {layout : Layout} {n : Nat} (h : operandLength? layout mask rest = some n)
    : Fits mask layout (rest.take n) ∧ n ≤ rest.length := by
  have hle : n ≤ rest.length := by
    unfold operandLength? at h
    simpa using (Option.filter_eq_some_iff.mp h).2
  refine ⟨?_, hle⟩
  cases layout with
  | str =>
    obtain ⟨hlen, -⟩ := Option.filter_eq_some_iff.mp h
    obtain ⟨i, hi, rfl⟩ := Option.map_eq_some_iff.mp hlen
    exact fits_str hi
  | data =>
    obtain ⟨hlen, -⟩ := Option.filter_eq_some_iff.mp h
    simp only at hlen
    split at hlen
    next h4 =>
      rw [Option.some.injEq] at hlen
      subst hlen
      exact fits_data h4 hle
    next => simp at hlen
  | _ =>
    simp only [operandLength?, Option.filter_eq_some_iff] at h
    simp only [Fits, List.length_take, Nat.min_eq_left hle]
    exact h.1

theorem decode_spec (mask b : UInt8) (rest : List UInt8) :
    (decode mask b rest).1.WellFormed mask
      ∧ (decode mask b rest).2 ≤ rest.length
      ∧ (decode mask b rest).1.bytes = b :: rest.take (decode mask b rest).2 := by
  unfold decode
  split
  next h => exact ⟨h, by simp, by simp [Decoded.bytes]⟩
  next =>
    split
    next => exact ⟨trivial, by simp, by simp [Decoded.bytes]⟩
    next opcode hop =>
      split
      next n hn =>
        obtain ⟨hfits, hle⟩ := fits_take hn
        refine ⟨hfits, hle, ?_⟩
        simp [Decoded.bytes, Opcode.code_of_ofCode? hop]
      next => exact ⟨trivial, by simp, by simp [Decoded.bytes]⟩

theorem Decoded.bytes_ne_nil (d : Decoded) : d.bytes ≠ [] := by
  cases d <;> simp [Decoded.bytes]

theorem sweep_wellFormed {offset : Nat} {code : List UInt8} {p : Nat × Decoded} (h : p ∈ sweep mask offset code)
    : p.2.WellFormed mask := by
  fun_induction sweep mask offset code with
  | case1 => simp at h
  | case2 offset b rest d n hdec ih =>
    have hspec := (decode_spec mask b rest).1
    rw [List.mem_cons] at h
    cases h with
    | inl h =>
      rw [h]
      rw [hdec] at hspec
      exact hspec
    | inr h => exact ih h

theorem sweep_bytes (mask : UInt8) (offset : Nat) (code : List UInt8) :
    (sweep mask offset code).flatMap (·.2.bytes) = code := by
  fun_induction sweep mask offset code with
  | case1 => rfl
  | case2 offset b rest d n hdec ih =>
    have hspec := (decode_spec mask b rest).2.2
    rw [hdec] at hspec
    rw [List.flatMap_cons, ih]
    simp only at hspec
    rw [hspec, List.cons_append, List.take_append_drop]

def Consecutive : Nat → List (Nat × Decoded) → Prop
  | _, [] => True
  | offset, (o, d) :: ps => o = offset ∧ Consecutive (offset + d.bytes.length) ps

theorem sweep_consecutive (mask : UInt8) (offset : Nat) (code : List UInt8) :
    Consecutive offset (sweep mask offset code) := by
  fun_induction sweep mask offset code with
  | case1 => trivial
  | case2 offset b rest d n hdec ih =>
    obtain ⟨-, hle, hbytes⟩ := decode_spec mask b rest
    rw [hdec] at hle hbytes
    simp only at hle hbytes
    refine ⟨rfl, ?_⟩
    rw [hbytes, List.length_cons, List.length_take, Nat.min_eq_left hle]
    rw [show offset + (n + 1) = offset + 1 + n by omega]
    exact ih

end Handheld.Asm
