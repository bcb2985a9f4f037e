import Handheld.Call
import Handheld.Opcode

/-!
Instructions and library calls have bytes of their own, by which they are found.
-/
namespace Handheld

namespace Opcode

theorem ofCode?_eq_find? (code : UInt8) (h : code.toNat < 0x80) : ofCode? code = all.find? (·.code == code) := by
  simp [ofCode?, byCode, h]

theorem code_of_ofCode? {code : UInt8} {op : Opcode} (h : ofCode? code = some op) : op.code = code := by
  by_cases hlt : code.toNat < 0x80
  · rw [ofCode?_eq_find? code hlt] at h
    simpa using List.find?_some h
  · simp [ofCode?, byCode, hlt] at h

theorem mem_all (op : Opcode) : op ∈ all := by
  cases op with
  | push w | cast w => cases w <;> decide
  | access a w relative => cases a <;> cases w <;> cases relative <;> decide
  | step up before => cases up <;> cases before <;> decide
  | binary op => cases op <;> decide
  | _ => decide

theorem code_lt (op : Opcode) : op.code.toNat < 0x80 := by
  have hall : ∀ op ∈ all, op.code.toNat < 0x80 := by decide
  exact hall op op.mem_all

theorem ofCode?_code (op : Opcode) : ofCode? op.code = some op := by
  have hall : ∀ op ∈ all, all.find? (·.code == op.code) = some op := by decide +kernel
  rw [ofCode?_eq_find? op.code op.code_lt, hall op op.mem_all]

end Opcode

namespace Call

theorem map_code_all : all.map code = (List.range all.length).map fun i => firstCode + UInt8.ofNat i := by
  decide

theorem code_of_ofCode? {code : UInt8} {c : Call} (h : ofCode? code = some c) : c.code = code := by
  unfold ofCode? at h
  split at h
  next => simp at h
  next =>
    have hcode : (all.map Call.code)[(code - firstCode).toNat]? = some c.code := by
      simp only [byCode, List.getElem?_toArray] at h
      rw [List.getElem?_map, h]
      rfl
    rw [map_code_all, List.getElem?_map] at hcode
    obtain ⟨i, hi, hic⟩ := Option.map_eq_some_iff.mp hcode
    obtain ⟨hlt, hget⟩ := List.getElem?_eq_some_iff.mp hi
    rw [List.getElem_range] at hget
    rw [← hic, ← hget, UInt8.ofNat_toNat, UInt8.add_comm, UInt8.sub_add_cancel]

end Call

end Handheld
