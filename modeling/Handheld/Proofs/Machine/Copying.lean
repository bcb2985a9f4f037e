import Handheld.Proofs.Machine.Display
import Handheld.Proofs.Memory.Strings

/-!
Calls that move strings and blocks. A copy comes out as if all bytes were read before the first is written, however it
overlaps and wraps; enciphering a block twice brings it back.
-/
namespace Handheld.Machine

open Memory (Apart ChangedWithin)

variable {m : Machine} {d s n dst count key : Int32}

theorem address_invoke (m : Machine) (c : Call) (args : List Int32) (value : Int32) :
    (m.invoke c args).address value = m.address value := by
  have hspared : SparedByCall (fun m => m.base) c := {}
  have hbase : (m.invoke c args).base = m.base := hspared.dispatch (m.called args) _
  rw [address, address, hbase]

theorem cstr_invoke (m : Machine) (c : Call) (args : List Int32) (value : Int32) :
    (m.invoke c args).cstr value = (m.invoke c args).memory.cstr (m.address value) := by
  rw [cstr, address_invoke]

theorem memory_invoke_strcpy (m : Machine) (d s : Int32) :
    (m.invoke .strcpy [d, s]).memory = m.memory.putString (m.address d) (m.cstr s) := by
  rfl

theorem memory_invoke_strcat (m : Machine) (d s : Int32) :
    (m.invoke .strcat [d, s]).memory
      = m.memory.putString (m.address d + UInt16.ofNat (m.cstr d).length) (m.cstr s) := by
  rfl

theorem memory_invoke_memcpy (m : Machine) (d s n : Int32) :
    (m.invoke .memcpy [d, s, n]).memory = m.memory.copyIn (m.address d) (m.slice s (span n)) := by
  rfl

theorem span_le (n : Int32) : span n ≤ 0x10000 :=
  Nat.min_le_right _ _

theorem span_eq (h : n.toInt ≤ 0x10000) : span n = n.toInt.toNat := by
  apply Nat.min_eq_left
  omega

theorem cstr_invoke_strcpy (h : (m.cstr s).length < 0x10000) : (m.invoke .strcpy [d, s]).cstr d = m.cstr s := by
  rw [cstr_invoke, memory_invoke_strcpy]
  exact Memory.cstr_putString h (Memory.zero_not_mem_cstr _ _)

theorem cstr_invoke_strcat (h : (m.cstr d).length + (m.cstr s).length < 0x10000) :
    (m.invoke .strcat [d, s]).cstr d = m.cstr d ++ m.cstr s := by
  rw [cstr_invoke, memory_invoke_strcat]
  exact Memory.cstr_putString_append _ _ (Memory.zero_not_mem_cstr _ _) h

theorem byte_invoke_memcpy (m : Machine) (d s n : Int32) {i : Nat} (h : i < span n) :
    (m.invoke .memcpy [d, s, n]).memory.byte (m.address d + UInt16.ofNat i)
      = m.memory.byte (m.address s + UInt16.ofNat i) := by
  have hlength : (m.slice s (span n)).length = span n := Memory.length_slice _ _ _
  have hle := span_le n
  rw [memory_invoke_memcpy, Memory.byte_copyIn_of_mem (by omega) (by omega), List.getD_eq_getElem?_getD, slice,
    Memory.getElem?_slice _ _ h, Option.getD_some]

theorem changedWithin_memcpy (m : Machine) (d s n : Int32) :
    ChangedWithin (m.address d) (span n) m.memory (m.invoke .memcpy [d, s, n]).memory := by
  have hlength : (m.slice s (span n)).length = span n := Memory.length_slice _ _ _
  have hcopy := Memory.changedWithin_copyIn m.memory (m.address d) (m.slice s (span n))
  rwa [hlength] at hcopy

/--
Copies of strings and blocks, wherever they overlap and wrap at the top. A string that is shorter than the memory is
found again at its destination; one that is appended to another, even to itself, continues the old one as long as both
together are shorter than the memory; and a block is copied byte by byte as it was before. Nothing but the place that
is written, with the terminator of a string, changes.
-/
theorem copies_as_if_buffered (m : Machine) (d s : Int32) :
    ((m.cstr s).length < 0x10000 →
        (m.invoke .strcpy [d, s]).cstr d = m.cstr s
        ∧ ChangedWithin (m.address d) ((m.cstr s).length + 1) m.memory (m.invoke .strcpy [d, s]).memory)
      ∧ ((m.cstr d).length + (m.cstr s).length < 0x10000 →
        (m.invoke .strcat [d, s]).cstr d = m.cstr d ++ m.cstr s
        ∧ ChangedWithin (m.address d + UInt16.ofNat (m.cstr d).length) ((m.cstr s).length + 1) m.memory
          (m.invoke .strcat [d, s]).memory)
      ∧ ∀ n : Int32, 0 ≤ n.toInt → n.toInt ≤ 0x10000 →
        (∀ i < n.toInt.toNat, (m.invoke .memcpy [d, s, n]).memory.byte (m.address d + UInt16.ofNat i)
          = m.memory.byte (m.address s + UInt16.ofNat i))
        ∧ ChangedWithin (m.address d) n.toInt.toNat m.memory (m.invoke .memcpy [d, s, n]).memory := by
  refine ⟨fun h => ⟨cstr_invoke_strcpy h, ?_⟩, fun h => ⟨cstr_invoke_strcat h, ?_⟩, fun n _ hn => ?_⟩
  · rw [memory_invoke_strcpy]
    apply Memory.changedWithin_putString
  · rw [memory_invoke_strcat]
    apply Memory.changedWithin_putString
  · rw [← span_eq hn]
    exact ⟨fun i hi => byte_invoke_memcpy m d s n hi, changedWithin_memcpy m d s n⟩

def greeting : Machine where
  memory := Memory.blank.putString 0xFFFE [0x68, 0x65, 0x6C, 0x6C, 0x6F]

theorem cstr_greeting : greeting.cstr 0xFFFE = [0x68, 0x65, 0x6C, 0x6C, 0x6F] :=
  Memory.cstr_putString (by decide) (by decide)

theorem copies_as_if_buffered_greeting :
    (greeting.invoke .strcpy [0, 0xFFFE]).cstr 0 = [0x68, 0x65, 0x6C, 0x6C, 0x6F]
      ∧ (greeting.invoke .strcat [0xFFFE, 0xFFFE]).cstr 0xFFFE
        = [0x68, 0x65, 0x6C, 0x6C, 0x6F, 0x68, 0x65, 0x6C, 0x6C, 0x6F]
      ∧ ∀ i < 6, (greeting.invoke .memcpy [0xFFFF, 0xFFFE, 6]).memory.byte (greeting.address 0xFFFF + UInt16.ofNat i)
        = greeting.memory.byte (greeting.address 0xFFFE + UInt16.ofNat i) := by
  have hcopy := (copies_as_if_buffered greeting 0 0xFFFE).1
  have happend := (copies_as_if_buffered greeting 0xFFFE 0xFFFE).2.1
  have hblock := (copies_as_if_buffered greeting 0xFFFF 0xFFFE).2.2 6 (by decide) (by decide)
  rw [cstr_greeting] at hcopy happend
  exact ⟨(hcopy (by decide)).1, (happend (by decide)).1, hblock.1⟩

theorem getElem?_xorKey (key : Array UInt8) (bytes : List UInt8) (i : Nat) :
    (xorKey key bytes)[i]? = bytes[i]?.map (· ^^^ key.getD (i % key.size) 0) := by
  rw [xorKey, List.getElem?_map, List.getElem?_zipIdx, Option.map_map, Nat.zero_add]
  rfl

def keyByte (key : List UInt8) (i : Nat) : UInt8 :=
  key.getD (i % key.length) 0

theorem memory_invoke_secret (m : Machine) (dst count key : Int32) :
    (m.invoke .secret [dst, count, key]).memory
      = if (m.cstr key).toArray.isEmpty then m.memory
        else m.memory.copyIn (m.address dst) (xorKey (m.cstr key).toArray (m.slice dst (span count))) := by
  have hcall : m.invoke .secret [dst, count, key] = (m.called [dst, count, key]).secret dst count key := by
    rfl
  rw [hcall, secret]
  split
  next hempty => exact (if_pos hempty).symm
  next hempty => exact (if_neg hempty).symm

theorem byte_invoke_secret (m : Machine) (dst count key : Int32) (b : UInt16) :
    (m.invoke .secret [dst, count, key]).memory.byte b
      = if (b - m.address dst).toNat < span count
        then m.memory.byte b ^^^ keyByte (m.cstr key) (b - m.address dst).toNat else m.memory.byte b := by
  have hlength : (m.slice dst (span count)).length = span count := Memory.length_slice _ _ _
  have hle := span_le count
  rw [memory_invoke_secret]
  split
  next hempty =>
    have hkey : m.cstr key = [] := by simpa using hempty
    have hzero : keyByte (m.cstr key) (b - m.address dst).toNat = 0 := by
      rw [hkey]
      rfl
    rw [hzero, UInt8.xor_zero, ite_self]
  next =>
    rw [Memory.byte_copyIn (by rw [xorKey, List.length_map, List.length_zipIdx]; omega), getElem?_xorKey]
    split
    next hlt =>
      rw [slice, Memory.getElem?_slice _ _ hlt, Memory.add_ofNat_sub]
      simp [keyByte]
    next hge => rw [List.getElem?_eq_none (by omega), Option.map_none, Option.getD_none]

theorem changedWithin_secret (m : Machine) (dst count key : Int32) :
    ChangedWithin (m.address dst) (span count) m.memory (m.invoke .secret [dst, count, key]).memory := by
  intro b hb
  have hout : ¬(b - m.address dst).toNat < span count := fun hlt => hb _ hlt (Memory.add_ofNat_sub _ _)
  rw [byte_invoke_secret, if_neg hout]

theorem cstr_invoke_secret
    (h : Apart (m.address dst) (span count) (m.address key) ((m.cstr key).length + 1))
    : (m.invoke .secret [dst, count, key]).cstr key = m.cstr key := by
  rw [cstr_invoke]
  apply Memory.cstr_congr
  intro j hj
  apply changedWithin_secret
  intro i hi
  exact h i hi j (Nat.lt_succ_of_le hj)

/--
Enciphering a block twice with one key leaves the memory as it was, if the key with its terminator and the block are
apart. Wherever the block wraps at the top, every byte of it is combined with the byte of the repeated key that stands
over it, and no other byte changes.
-/
theorem secret_twice (m : Machine) (dst count key : Int32)
    (hapart : Apart (m.address dst) (span count) (m.address key) ((m.cstr key).length + 1))
    : ((m.invoke .secret [dst, count, key]).invoke .secret [dst, count, key]).memory = m.memory
      ∧ ChangedWithin (m.address dst) (span count) m.memory (m.invoke .secret [dst, count, key]).memory
      ∧ ∀ i < span count, (m.invoke .secret [dst, count, key]).memory.byte (m.address dst + UInt16.ofNat i)
        = m.memory.byte (m.address dst + UInt16.ofNat i) ^^^ keyByte (m.cstr key) i := by
  refine ⟨?_, changedWithin_secret m dst count key, fun i hi => ?_⟩
  · apply Memory.ext_byte
    intro b
    rw [byte_invoke_secret, cstr_invoke_secret hapart, address_invoke, byte_invoke_secret]
    split
    next => rw [UInt8.xor_assoc, UInt8.xor_self, UInt8.xor_zero]
    next => rfl
  · have hoffset := Memory.toNat_add_ofNat_sub (m.address dst) (hi.trans_le (span_le count))
    rw [byte_invoke_secret, hoffset, if_pos hi]

def coded : Machine where
  memory := greeting.memory.putString 0x2000 [0x2A, 0x17]

theorem cstr_coded : coded.cstr 0x2000 = [0x2A, 0x17] :=
  Memory.cstr_putString (by decide) (by decide)

theorem secret_twice_coded :
    ((coded.invoke .secret [0xFFFE, 5, 0x2000]).invoke .secret [0xFFFE, 5, 0x2000]).memory = coded.memory
      ∧ (coded.invoke .secret [0xFFFE, 5, 0x2000]).memory.byte 1 = coded.memory.byte 1 ^^^ 0x17 := by
  have hapart : Apart (coded.address 0xFFFE) (span 5) (coded.address 0x2000) ((coded.cstr 0x2000).length + 1) := by
    rw [cstr_coded]
    unfold Apart
    decide
  obtain ⟨htwice, -, honce⟩ := secret_twice coded 0xFFFE 5 0x2000 hapart
  have hbyte := honce 3 (by decide)
  rw [cstr_coded] at hbyte
  exact ⟨htwice, hbyte⟩

end Handheld.Machine
