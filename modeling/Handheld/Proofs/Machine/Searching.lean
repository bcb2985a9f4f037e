import Handheld.Proofs.Machine.Copying

/-!
Calls that compare strings and search in them. The comparison is the lexicographic order of unsigned bytes, and a search
finds the first of all places.
-/
namespace Handheld

namespace Handle

theorem toNat_rebase (value : Int32) (addr : UInt16) :
    (rebase value addr).toUInt32.toNat = 2 ^ 16 * (value.toUInt32.toNat / 2 ^ 16) + addr.toNat := by
  have haddr := addr.toNat_lt
  have hupper : value.toUInt32.toNat &&& 0xFFFF0000 = 2 ^ 16 * (value.toUInt32.toNat / 2 ^ 16) := by
    have hmask : 0xFFFF0000 = (2 ^ 16 - 1) <<< 16 := by decide
    rw [hmask, Nat.mul_comm, ← Nat.shiftLeft_eq, ← Nat.shiftRight_eq_div_pow]
    apply Nat.eq_of_testBit_eq
    intro i
    simp only [Nat.testBit_and, Nat.testBit_shiftLeft, Nat.testBit_shiftRight, Nat.testBit_two_pow_sub_one]
    rcases Nat.lt_or_ge i 16 with hlow | hhigh
    · simp [Nat.not_le.mpr hlow]
    · rcases Nat.lt_or_ge i 32 with hi | hi
      · simp [hhigh, Nat.add_sub_cancel' hhigh, show i - 16 < 16 by omega]
      · have hbit : value.toUInt32.toNat.testBit i = false :=
          Nat.testBit_lt_two_pow (value.toUInt32.toNat_lt.trans_le (Nat.pow_le_pow_right (by omega) hi))
        simp [Nat.add_sub_cancel' hhigh, hbit]
  rw [rebase, UInt32.toUInt32_toInt32, UInt32.toNat_or, UInt16.toNat_toUInt32, UInt32.toNat_and]
  rw [Nat.two_pow_add_eq_or_of_lt haddr, ← hupper]
  rfl

structure Advanced (value : Int32) (k : Nat) (value' : Int32) : Prop where
  addr : (decode value').addr = (decode value).addr + UInt16.ofNat k
  upper : value'.toUInt32 >>> 16 = value.toUInt32 >>> 16

theorem advanced_rebase (value : Int32) (k : Nat) :
    Advanced value k (rebase value ((decode value).addr + UInt16.ofNat k)) := by
  have hbits := toNat_rebase value ((decode value).addr + UInt16.ofNat k)
  have haddr := ((decode value).addr + UInt16.ofNat k).toNat_lt
  constructor
  · rw [← UInt16.toNat_inj]
    change (rebase value _).toUInt32.toUInt16.toNat = _
    rw [UInt32.toNat_toUInt16, hbits]
    omega
  · have hshift : (16 : UInt32).toNat % 32 = 16 := by decide
    rw [← UInt32.toNat_inj, UInt32.toNat_shiftRight, UInt32.toNat_shiftRight, hshift, Nat.shiftRight_eq_div_pow,
      Nat.shiftRight_eq_div_pow, hbits]
    omega

end Handle

namespace Machine

section Comparison

def Before (x y : List UInt8) : Prop :=
  List.Lex (fun a b => a.toNat < b.toNat) x y

theorem Before.trans {x y z : List UInt8} (h : Before x y) (h' : Before y z) : Before x z :=
  List.lex_trans Nat.lt_trans h h'

theorem Before.asymm {x y : List UInt8} (h : Before x y) : ¬Before y x :=
  List.lex_asymm Nat.lt_asymm h

theorem Before.irrefl (x : List UInt8) : ¬Before x x :=
  fun h => h.asymm h

structure Compares (x y : List UInt8) (v : Int) : Prop where
  zero : v = 0 ↔ x = y
  negative : v < 0 ↔ Before x y
  positive : 0 < v ↔ Before y x

variable {x y z : List UInt8} {v w u : Int}

theorem Compares.of_eq (hv : v = 0) (h : x = y) : Compares x y v where
  zero := by simp [hv, h]
  negative := by simp [hv, h, Before.irrefl]
  positive := by simp [hv, h, Before.irrefl]

theorem Compares.of_before (hv : v < 0) (h : Before x y) : Compares x y v where
  zero := ⟨fun hzero => by omega, fun heq => absurd (heq ▸ h) (Before.irrefl _)⟩
  negative := ⟨fun _ => h, fun _ => hv⟩
  positive := ⟨fun hpos => by omega, fun hbefore => absurd hbefore h.asymm⟩

theorem Compares.swap (h : Compares x y v) : Compares y x (-v) where
  zero := by rw [Int.neg_eq_zero, h.zero, eq_comm]
  negative := by rw [← h.positive]; omega
  positive := by rw [← h.negative]; omega

theorem Compares.of_after (hv : 0 < v) (h : Before y x) : Compares x y v := by
  have hswap := (Compares.of_before (Int.neg_neg_of_pos hv) h).swap
  rwa [Int.neg_neg] at hswap

theorem before_cons_iff (a : UInt8) : Before (a :: x) (a :: y) ↔ Before x y := by
  constructor
  · intro h
    cases h with
    | rel hlt => exact absurd hlt (Nat.lt_irrefl _)
    | cons h => exact h
  · exact .cons

theorem Compares.cons (h : Compares x y v) (a : UInt8) : Compares (a :: x) (a :: y) v where
  zero := by rw [h.zero, List.cons_inj_right]
  negative := by rw [h.negative, before_cons_iff]
  positive := by rw [h.positive, before_cons_iff]

theorem Compares.sign_eq (h : Compares x y v) (h' : Compares x y w) : v.sign = w.sign := by
  rcases Int.lt_trichotomy v 0 with hv | hv | hv
  · rw [Int.sign_eq_neg_one_of_neg hv, Int.sign_eq_neg_one_of_neg (h'.negative.mpr (h.negative.mp hv))]
  · rw [hv, h'.zero.mpr (h.zero.mp hv)]
  · rw [Int.sign_eq_one_of_pos hv, Int.sign_eq_one_of_pos (h'.positive.mpr (h.positive.mp hv))]

theorem Compares.nonpos_iff (h : Compares x y v) : v ≤ 0 ↔ x = y ∨ Before x y := by
  rw [← h.zero, ← h.negative]
  omega

theorem Compares.trans (h : Compares x y v) (h' : Compares y z w) (h'' : Compares x z u) (hv : v ≤ 0) (hw : w ≤ 0) :
    u ≤ 0 ∧ (v < 0 ∨ w < 0 → u < 0) := by
  rw [h''.nonpos_iff, h.negative, h'.negative, h''.negative]
  rcases h.nonpos_iff.mp hv with rfl | hxy
  · rcases h'.nonpos_iff.mp hw with rfl | hyz
    · exact ⟨.inl rfl, fun hlt => hlt.elim id id⟩
    · exact ⟨.inr hyz, fun _ => hyz⟩
  · rcases h'.nonpos_iff.mp hw with rfl | hyz
    · exact ⟨.inr hxy, fun _ => hxy⟩
    · exact ⟨.inr (hxy.trans hyz), fun _ => hxy.trans hyz⟩

theorem toNat_pos_of_not_mem {a : UInt8} (h : 0 ∉ a :: x) : 0 < a.toNat := by
  apply Nat.pos_of_ne_zero
  intro hzero
  rw [← UInt8.toNat_zero, UInt8.toNat_inj] at hzero
  exact h (hzero ▸ List.mem_cons_self)

theorem toInt_ofNat_toNat (a : UInt8) : (Int32.ofNat a.toNat).toInt = a.toNat := by
  have ha := a.toNat_lt
  exact Int32.toInt_ofNat_of_lt (by omega)

theorem toInt_sub_bytes (a b : UInt8) : (Int32.ofNat a.toNat - Int32.ofNat b.toNat).toInt = a.toNat - b.toNat := by
  have ha := a.toNat_lt
  have hb := b.toNat_lt
  rw [Int32.toInt_sub, toInt_ofNat_toNat, toInt_ofNat_toNat]
  apply Int.bmod_eq_of_le
  · omega
  · omega

theorem toInt_neg_byte (b : UInt8) : (-Int32.ofNat b.toNat).toInt = -b.toNat := by
  have hb := b.toNat_lt
  rw [Int32.toInt_neg, toInt_ofNat_toNat]
  apply Int.bmod_eq_of_le
  · omega
  · omega

theorem compares_difference (hx : 0 ∉ x) (hy : 0 ∉ y) : Compares x y (difference x y).toInt := by
  fun_induction difference x y with
  | case1 => exact .of_eq rfl rfl
  | case2 a as =>
    have ha := toNat_pos_of_not_mem hx
    rw [toInt_ofNat_toNat]
    exact .of_after (by omega) .nil
  | case3 b bs =>
    have hb := toNat_pos_of_not_mem hy
    rw [toInt_neg_byte]
    exact .of_before (by omega) .nil
  | case4 a as b bs heq ih =>
    rw [beq_iff_eq] at heq
    subst heq
    exact (ih (List.not_mem_of_not_mem_cons hx) (List.not_mem_of_not_mem_cons hy)).cons a
  | case5 a as b bs hne =>
    have hne' : a.toNat ≠ b.toNat := fun heq => hne (beq_iff_eq.mpr (UInt8.toNat_inj.mp heq))
    rw [toInt_sub_bytes]
    rcases Nat.lt_or_gt_of_ne hne' with hlt | hgt
    · exact .of_before (by omega) (.rel hlt)
    · exact .of_after (by omega) (.rel hgt)

end Comparison

section Search

def OccursAt (needle text : List UInt8) (k : Nat) : Prop :=
  ∃ front back, text = front ++ needle ++ back ∧ front.length = k

def FirstAt (needle text : List UInt8) (k : Nat) : Prop :=
  OccursAt needle text k ∧ ∀ j < k, ¬OccursAt needle text j

variable {needle text : List UInt8} {b : UInt8} {k : Nat}

theorem occursAt_zero_iff : OccursAt needle text 0 ↔ needle.isPrefixOf text = true := by
  rw [List.isPrefixOf_iff_prefix]
  constructor
  · rintro ⟨front, back, rfl, hfront⟩
    rw [List.length_eq_zero_iff.mp hfront]
    exact ⟨back, rfl⟩
  · rintro ⟨back, rfl⟩
    exact ⟨[], back, rfl, rfl⟩

theorem occursAt_cons_succ_iff : OccursAt needle (b :: text) (k + 1) ↔ OccursAt needle text k := by
  constructor
  · rintro ⟨front, back, heq, hfront⟩
    obtain ⟨c, front, rfl⟩ := List.exists_cons_of_length_eq_add_one hfront
    exact ⟨front, back, List.tail_eq_of_cons_eq heq, Nat.succ.inj hfront⟩
  · rintro ⟨front, back, rfl, rfl⟩
    exact ⟨b :: front, back, rfl, rfl⟩

theorem not_occursAt_nil_succ : ¬OccursAt needle [] (k + 1) := by
  rintro ⟨front, back, heq, hfront⟩
  have hlength := congrArg List.length heq
  rw [List.length_append, List.length_append, hfront, List.length_nil] at hlength
  omega

theorem firstAt_zero (h : needle.isPrefixOf text = true) : FirstAt needle text 0 :=
  ⟨occursAt_zero_iff.mpr h, fun _ hj => absurd hj (Nat.not_lt_zero _)⟩

theorem FirstAt.cons (h : FirstAt needle text k) (hfirst : ¬needle.isPrefixOf (b :: text) = true) :
    FirstAt needle (b :: text) (k + 1) := by
  refine ⟨occursAt_cons_succ_iff.mpr h.1, fun j hj => ?_⟩
  cases j with
  | zero => rwa [occursAt_zero_iff]
  | succ j =>
    rw [occursAt_cons_succ_iff]
    exact h.2 j (Nat.lt_of_succ_lt_succ hj)

theorem firstAt_of_indexOf? (h : indexOf? needle text = some k) : FirstAt needle text k := by
  induction text generalizing k with
  | nil =>
    rw [indexOf?] at h
    split at h
    next hempty =>
      cases h
      apply firstAt_zero
      rw [List.isEmpty_iff.mp hempty]
      rfl
    next => cases h
  | cons b text ih =>
    rw [indexOf?] at h
    split at h
    next hfirst =>
      cases h
      exact firstAt_zero hfirst
    next hfirst =>
      obtain ⟨k, hrest, rfl⟩ := Option.map_eq_some_iff.mp h
      exact (ih hrest).cons hfirst

theorem not_occursAt_of_indexOf? (h : indexOf? needle text = none) (k : Nat) : ¬OccursAt needle text k := by
  induction text generalizing k with
  | nil =>
    rw [indexOf?] at h
    split at h
    next => cases h
    next hempty =>
      cases k with
      | zero =>
        rw [occursAt_zero_iff, List.isPrefixOf_iff_prefix, List.prefix_nil]
        rwa [List.isEmpty_iff] at hempty
      | succ k => exact not_occursAt_nil_succ
  | cons b text ih =>
    rw [indexOf?] at h
    split at h
    next => cases h
    next hfirst =>
      cases k with
      | zero => rwa [occursAt_zero_iff]
      | succ k =>
        rw [occursAt_cons_succ_iff]
        exact ih (Option.map_eq_none_iff.mp h) k

theorem findIdx?_eq_indexOf? (b : UInt8) (text : List UInt8) : text.findIdx? (· == b) = indexOf? [b] text := by
  induction text with
  | nil => rfl
  | cons c text ih =>
    have hfirst : [b].isPrefixOf (c :: text) = (c == b) := by
      rw [List.isPrefixOf_cons_cons, List.isPrefixOf_nil_left, Bool.and_true, Bool.beq_comm]
    rw [List.findIdx?_cons, indexOf?, hfirst, ih]

inductive Found (value : Int32) (needle text : List UInt8) : Int32 → Prop where
  | first {k : Nat} {value' : Int32} (h : FirstAt needle text k) (hvalue : Handle.Advanced value k value') :
    Found value needle text value'
  | nowhere (h : ∀ k, ¬OccursAt needle text k) : Found value needle text 0

theorem found_advance {m : Machine} {value : Int32} (habsolute : (Handle.decode value).relative = false)
    (needle text : List UInt8)
    : Found value needle text (m.advance value (indexOf? needle text)) := by
  cases hindex : indexOf? needle text with
  | none => exact .nowhere (not_occursAt_of_indexOf? hindex)
  | some k =>
    have haddress : m.address value = (Handle.decode value).addr := by
      rw [address, Handle.resolve, habsolute]
      rfl
    rw [advance, haddress]
    exact .first (firstAt_of_indexOf? hindex) (Handle.advanced_rebase value k)

end Search

def valueOf (m : Machine) (c : Call) (args : List Int32) : Int32 :=
  ((m.called args).dispatch c (args.drop c.signature.args)).1

theorem valueOf_strcmp (m : Machine) (a b : Int32) : m.valueOf .strcmp [a, b] = difference (m.cstr a) (m.cstr b) := by
  rfl

theorem valueOf_strstr (m : Machine) (h n : Int32) :
    m.valueOf .strstr [h, n] = m.advance h (indexOf? (m.cstr n) (m.cstr h)) := by
  rfl

theorem valueOf_strchr (m : Machine) (h c : Int32) :
    m.valueOf .strchr [h, c] = m.advance h (indexOf? [c.toUInt32.toUInt8] (m.cstr h)) := by
  rw [← findIdx?_eq_indexOf?]
  rfl

theorem compares_strcmp (m : Machine) (a b : Int32) :
    Compares (m.cstr a) (m.cstr b) (m.valueOf .strcmp [a, b]).toInt := by
  rw [valueOf_strcmp]
  exact compares_difference (Memory.zero_not_mem_cstr _ _) (Memory.zero_not_mem_cstr _ _)

/--
The sign that a comparison returns is that of the lexicographic order of the two strings, so it turns round with them and
is transitive. A search in a string that an absolute pointer names returns the pointer, advanced to the first place at
which the other string, or the byte, stands; and zero if there is none.
-/
theorem comparison_and_search (m : Machine) :
    (∀ a b, Compares (m.cstr a) (m.cstr b) (m.valueOf .strcmp [a, b]).toInt)
      ∧ (∀ a b, (m.valueOf .strcmp [b, a]).toInt.sign = -(m.valueOf .strcmp [a, b]).toInt.sign)
      ∧ (∀ a b c, (m.valueOf .strcmp [a, b]).toInt ≤ 0 → (m.valueOf .strcmp [b, c]).toInt ≤ 0 →
        (m.valueOf .strcmp [a, c]).toInt ≤ 0
        ∧ ((m.valueOf .strcmp [a, b]).toInt < 0 ∨ (m.valueOf .strcmp [b, c]).toInt < 0 →
          (m.valueOf .strcmp [a, c]).toInt < 0))
      ∧ ∀ h, (Handle.decode h).relative = false →
        (∀ n, Found h (m.cstr n) (m.cstr h) (m.valueOf .strstr [h, n]))
        ∧ ∀ c, Found h [c.toUInt32.toUInt8] (m.cstr h) (m.valueOf .strchr [h, c]) := by
  refine ⟨m.compares_strcmp, fun a b => ?_, fun a b c => ?_, fun h habsolute => ⟨fun n => ?_, fun c => ?_⟩⟩
  · have hsign := (m.compares_strcmp b a).sign_eq (m.compares_strcmp a b).swap
    rwa [Int.sign_neg] at hsign
  · exact (m.compares_strcmp a b).trans (m.compares_strcmp b c) (m.compares_strcmp a c)
  · rw [valueOf_strstr]
    exact found_advance habsolute _ _
  · rw [valueOf_strchr]
    exact found_advance habsolute _ _

theorem cstr_greeting_tails : greeting.cstr 0 = [0x6C, 0x6C, 0x6F] ∧ greeting.cstr 2 = [0x6F] := by
  have hslice : greeting.memory.slice 0xFFFE 6 = [0x68, 0x65, 0x6C, 0x6C, 0x6F, 0] :=
    Memory.blank.slice_putString 0xFFFE (by decide)
  have htail : greeting.memory.slice 0 4 = [0x6C, 0x6C, 0x6F, 0] := congrArg (List.drop 2) hslice
  have hlast : greeting.memory.slice 2 2 = [0x6F, 0] := congrArg (List.drop 4) hslice
  exact ⟨Memory.cstr_eq_of_slice htail (by decide) (by decide), Memory.cstr_eq_of_slice hlast (by decide) (by decide)⟩

theorem comparison_and_search_greeting :
    (greeting.valueOf .strcmp [0xFFFE, 2]).toInt < 0
      ∧ greeting.valueOf .strstr [0xFFFE, 2] = 2
      ∧ Found 0xFFFE [0x6F] [0x68, 0x65, 0x6C, 0x6C, 0x6F] 2
      ∧ Found 0xFFFE [0x6F] [0x68, 0x65, 0x6C, 0x6C, 0x6F] (greeting.valueOf .strchr [0xFFFE, 0x16F]) := by
  obtain ⟨htail, hlast⟩ := cstr_greeting_tails
  obtain ⟨-, -, htrans, hsearch⟩ := comparison_and_search greeting
  have hfirst : (greeting.valueOf .strcmp [0xFFFE, 0]).toInt = -4 := by
    rw [valueOf_strcmp, cstr_greeting, htail]
    decide
  have hsecond : (greeting.valueOf .strcmp [0, 2]).toInt = -3 := by
    rw [valueOf_strcmp, htail, hlast]
    decide
  have hfound : greeting.valueOf .strstr [0xFFFE, 2] = 2 := by
    rw [valueOf_strstr, cstr_greeting, hlast]
    decide
  obtain ⟨hstring, hbyte⟩ := hsearch 0xFFFE (by decide)
  have hstring := hstring 2
  have hbyte := hbyte 0x16F
  rw [cstr_greeting, hlast, hfound] at hstring
  rw [cstr_greeting] at hbyte
  exact ⟨(htrans 0xFFFE 0 2 (by omega) (by omega)).2 (.inl (by omega)), hfound, hstring, hbyte⟩

end Machine
end Handheld
