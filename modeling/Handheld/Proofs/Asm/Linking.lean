import Handheld.Asm.Assemble
import Handheld.Proofs.Except
import Mathlib.Algebra.GroupWithZero.Nat
import Mathlib.Data.List.Forall2
import Mathlib.Data.List.Nodup

/-!
What an assembled image holds: the header and the bytes of its instructions, in which jumps have the addresses of their
labels. It is assembled exactly if nothing is in the way of that.
-/
namespace Handheld.Asm

variable {mask : UInt8} {line : Nat} {operands : List Operand} {e : Encoding} {ss : List Statement}
  {image : Array UInt8}

def labelsFrom (offset : Nat) : List Statement → List (String × Nat)
  | [] => []
  | s :: ss =>
    match s.label with
    | some label => (label, offset) :: labelsFrom (offset + s.size) ss
    | none => labelsFrom (offset + s.size) ss

def Statement.encoding (mask : UInt8) (s : Statement) : Except Error Instr.Encoding :=
  match s.instr with
  | some instr => instr.encode mask s.line
  | none => .ok { bytes := [] }

def Instr.Encoding.resolve (find : String → Option Nat) (e : Instr.Encoding) : Option (List UInt8) :=
  match e.label with
  | some label => (find label).map fun offset => e.bytes.take 1 ++ littleEndian 3 (offset + Header.length : Nat)
  | none => some e.bytes

def fixupsFrom (position : Nat) : List (Nat × Instr.Encoding) → List Fixup
  | [] => []
  | (line, e) :: es =>
    match e.label with
    | some label =>
      { position := position + 1, label := label, line := line } ::
        fixupsFrom (position + e.bytes.length) es
    | none => fixupsFrom (position + e.bytes.length) es

theorem map_fst_labelsFrom (offset : Nat) (ss : List Statement) :
    (labelsFrom offset ss).map (·.1) = ss.filterMap (·.label) := by
  induction ss generalizing offset with
  | nil => rfl
  | cons s ss ih =>
    rw [labelsFrom]
    cases hs : s.label with
    | none => simp [hs, ih]
    | some label => simp [hs, ih]

theorem define_eq_ok_iff {label : String} {offset line : Nat} {l l' : Linker} :
    Linker.define label offset line l = .ok () l'
      ↔ l.get? label = none ∧ l' = { l with labels := (label, offset) :: l.labels } := by
  unfold Linker.define
  cases h : l.get? label with
  | none => simp [eq_comm]
  | some n => simp

theorem get?_cons_eq_none_iff {l : Linker} {label label' : String} {offset : Nat} :
    ({ l with labels := (label, offset) :: l.labels } : Linker).get? label' = none
      ↔ label' ≠ label ∧ l.get? label' = none := by
  simp only [Linker.get?, List.lookup_cons]
  cases h : label' == label with
  | true => simp_all
  | false => simp_all

theorem place_eq_ok_iff {offset : Nat} {ss : List Statement} {l l' : Linker} :
    place offset ss l = .ok () l'
      ↔ ((labelsFrom offset ss).map (·.1)).Nodup
        ∧ (∀ label ∈ (labelsFrom offset ss).map (·.1), l.get? label = none)
        ∧ l' = { l with labels := (labelsFrom offset ss).reverse ++ l.labels } := by
  induction ss generalizing offset l with
  | nil => simp [place, labelsFrom, pure, EStateM.pure, eq_comm]
  | cons s ss ih =>
    unfold place labelsFrom
    cases hs : s.label with
    | none => simpa [Bind.bind, EStateM.bind, pure, EStateM.pure] using ih
    | some label =>
      have hdef := @define_eq_ok_iff label offset s.line l
      simp only [Bind.bind, EStateM.bind]
      rw [List.map_cons, List.nodup_cons, List.forall_mem_cons, List.reverse_cons]
      split
      next _ l1 hok =>
        obtain ⟨hnone, rfl⟩ := hdef.mp hok
        rw [ih]
        simp only [get?_cons_eq_none_iff, List.append_assoc, List.singleton_append]
        grind
      next e l1 herr =>
        have hsome : l.get? label ≠ none := by
          intro hnone
          have := hdef.mpr ⟨hnone, rfl⟩
          simp [herr] at this
        simp [hsome]

def Linker.awaitAll (l : Linker) (fixups : List Fixup) : Linker :=
  { l with fixups := l.fixups ++ fixups }

@[simp]
theorem Linker.awaitAll_nil (l : Linker) : l.awaitAll [] = l := by
  simp [Linker.awaitAll]

theorem Linker.awaitAll_append (l : Linker) (xs ys : List Fixup) :
    l.awaitAll (xs ++ ys) = (l.awaitAll xs).awaitAll ys := by
  simp [Linker.awaitAll]

theorem emit_eq_ok_iff {s : Statement} {code : Array UInt8} {l : Linker} {r : Array UInt8 × Linker}
    : emit mask s code l = .ok r
        ↔ ∃ e, s.encoding mask = .ok e
          ∧ r = (code ++ e.bytes.toArray, l.awaitAll (fixupsFrom code.size [(s.line, e)])) := by
  unfold emit Statement.encoding
  cases hs : s.instr with
  | none => simp [fixupsFrom, eq_comm]
  | some instr =>
    cases he : instr.encode mask s.line with
    | error err => simp [Bind.bind, Except.bind, he]
    | ok e =>
      simp only [Bind.bind, Except.bind, he, pure, Except.pure, Except.ok.injEq, exists_eq_left']
      cases hl : e.label with
      | none => simp [fixupsFrom, hl, eq_comm]
      | some label => simp [fixupsFrom, hl, Linker.await, Linker.awaitAll, eq_comm]

theorem fixupsFrom_append (position : Nat) (xs ys : List (Nat × Instr.Encoding)) :
    fixupsFrom position (xs ++ ys)
      =
    fixupsFrom position xs ++ fixupsFrom (position + (xs.flatMap (·.2.bytes)).length) ys := by
  induction xs generalizing position with
  | nil => simp [fixupsFrom]
  | cons x xs ih =>
    simp only [List.cons_append, fixupsFrom, ih, List.flatMap_cons, List.length_append,
      Nat.add_assoc]
    split <;> rfl

def Encodes (mask : UInt8) : List Statement → List (Nat × Instr.Encoding) → Prop :=
  List.Forall₂ fun s e => s.encoding mask = .ok e.2 ∧ e.1 = s.line

theorem emitAll_eq_ok_iff {mask : UInt8} {ss : List Statement} {code : Array UInt8} {l : Linker}
    {r : Array UInt8 × Linker}
    : emitAll mask ss code l = .ok r
        ↔ ∃ es, Encodes mask ss es
          ∧ r = (code ++ (es.flatMap (·.2.bytes)).toArray, l.awaitAll (fixupsFrom code.size es)) := by
  induction ss generalizing code l with
  | nil => simp [emitAll, Encodes, fixupsFrom, eq_comm]
  | cons s ss ih =>
    have hcons : ∀ e es,
        (code ++ e.bytes.toArray ++ (es.flatMap (·.2.bytes)).toArray,
          (l.awaitAll (fixupsFrom code.size [(s.line, e)])).awaitAll
            (fixupsFrom (code ++ e.bytes.toArray).size es))
          =
        (code ++ (((s.line, e) :: es).flatMap (·.2.bytes)).toArray,
          l.awaitAll (fixupsFrom code.size ((s.line, e) :: es))) := by
      intro e es
      have hfixups := fixupsFrom_append code.size [(s.line, e)] es
      rw [List.singleton_append] at hfixups
      rw [hfixups, Linker.awaitAll_append]
      simp
    unfold emitAll
    rw [Except.bind_eq_ok_iff]
    constructor
    · rintro ⟨p, hemit, h⟩
      obtain ⟨e, he, rfl⟩ := emit_eq_ok_iff.mp hemit
      obtain ⟨es, hes, rfl⟩ := ih.mp h
      exact ⟨(s.line, e) :: es, List.Forall₂.cons ⟨he, rfl⟩ hes, hcons e es⟩
    · rintro ⟨_, hes, rfl⟩
      cases hes with
      | @cons _ e _ es he hes =>
        obtain ⟨line, e⟩ := e
        obtain ⟨he, rfl⟩ := he
        exact ⟨_, emit_eq_ok_iff.mpr ⟨e, he, rfl⟩, ih.mpr ⟨es, hes, (hcons e es).symm⟩⟩

theorem byteOf_natCast (n : Nat) : byteOf n = UInt8.ofNat n := by
  have hmod : ((n : Int) % 2 ^ 8).toNat = n % 2 ^ 8 := by omega
  rw [byteOf, UInt8.ofInt, hmod, ← UInt8.toNat_inj]
  simp

theorem patch_append (A B C : List UInt8) (value : Nat) :
    Linker.patch (A ++ B ++ C).toArray A.length B.length value
      =
    (A ++ littleEndian B.length value ++ C).toArray := by
  induction B generalizing A value with
  | nil => simp [Linker.patch, littleEndian]
  | cons b B ih =>
    have hset : (A ++ b :: B ++ C).toArray.setIfInBounds A.length (UInt8.ofNat value)
        = ((A ++ [UInt8.ofNat value]) ++ B ++ C).toArray := by
      simp
    have ih := ih (A ++ [UInt8.ofNat value]) (value / 256)
    rw [List.length_append, List.length_singleton] at ih
    rw [List.length_cons, Linker.patch, hset, ih]
    simp [littleEndian, byteOf_natCast]

def Instr.Encoding.WellSized (e : Instr.Encoding) : Prop :=
  e.label ≠ none → e.bytes.length = 4

theorem patch_encoding {e : Instr.Encoding} (h : e.bytes.length = 4) (done rest : List UInt8) (value : Nat)
    : Linker.patch (done ++ (e.bytes ++ rest)).toArray (done.length + 1) 3 value
        =
      (done ++ (e.bytes.take 1 ++ littleEndian 3 value) ++ rest).toArray := by
  match hb : e.bytes, h with
  | [op, x, y, z], _ =>
    have := patch_append (done ++ [op]) [x, y, z] rest value
    simpa using this

theorem resolve_eq_ok_iff {l : Linker} (hl : l.bias = Header.length)
    {es : List (Nat × Instr.Encoding)} (hes : ∀ e ∈ es, e.2.WellSized) (done : List UInt8) {image : Array UInt8}
    : l.resolve (fixupsFrom done.length es) (done ++ es.flatMap (·.2.bytes)).toArray = .ok () image
        ↔ ∃ bs, List.Forall₂ (fun e b => e.2.resolve l.get? = some b) es bs
          ∧ image = (done ++ bs.flatten).toArray := by
  induction es generalizing done with
  | nil => simp [fixupsFrom, Linker.resolve, pure, EStateM.pure, eq_comm]
  | cons e es ih =>
    obtain ⟨line, e⟩ := e
    have hsize : e.WellSized := hes (line, e) (by simp)
    have ih := ih (fun e' he' => hes e' (by simp [he']))
    -- What is left to resolve behind the bytes of this encoding.
    have hrest : ∀ b, e.resolve l.get? = some b →
        ((∃ bs, List.Forall₂ (fun e b => e.2.resolve l.get? = some b) es bs
            ∧ image = (done ++ b ++ bs.flatten).toArray)
          ↔ ∃ bs, List.Forall₂ (fun e b => e.2.resolve l.get? = some b) ((line, e) :: es) bs
            ∧ image = (done ++ bs.flatten).toArray) := by
      intro b hb
      constructor
      · rintro ⟨bs, hbs, rfl⟩
        exact ⟨b :: bs, List.Forall₂.cons hb hbs, by simp⟩
      · rintro ⟨_, hbs, rfl⟩
        cases hbs with
        | @cons _ b' _ bs hb' hbs =>
          simp only [hb, Option.some.injEq] at hb'
          subst hb'
          exact ⟨bs, hbs, by simp⟩
    rw [List.flatMap_cons, fixupsFrom]
    cases hlabel : e.label with
    | none =>
      rw [← hrest e.bytes (by simp [Instr.Encoding.resolve, hlabel])]
      rw [← ih (done ++ e.bytes)]
      simp
    | some label =>
      have hlen := hsize (by simp [hlabel])
      simp only [Linker.resolve]
      cases hget : l.get? label with
      | none =>
        have hnone : e.resolve l.get? = none := by
          simp [Instr.Encoding.resolve, hlabel, hget]
        have hno : ¬ ∃ bs, List.Forall₂ (fun e b => e.2.resolve l.get? = some b) ((line, e) :: es) bs
            ∧ image = (done ++ bs.flatten).toArray := by
          rintro ⟨_, hbs, rfl⟩
          cases hbs with
          | cons hb _ => simp [hnone] at hb
        refine iff_of_false ?_ hno
        rintro ⟨_, ⟨⟩⟩
      | some offset =>
        have hsome : e.resolve l.get?
            = some (e.bytes.take 1 ++ littleEndian 3 (offset + Header.length : Nat)) := by
          simp [Instr.Encoding.resolve, hlabel, hget]
        rw [← hrest _ hsome]
        rw [← ih]
        have hmodify (f : Array UInt8 → Array UInt8) (code : Array UInt8) :
            (modify f : EStateM Error (Array UInt8) Unit) code = .ok () (f code) := rfl
        simp only [Bind.bind, EStateM.bind, hmodify, patch_encoding hlen, hl]
        simp [hlen, littleEndian]

theorem length_littleEndian (n : Nat) (value : Int) : (littleEndian n value).length = n := by
  induction n generalizing value with
  | zero => rfl
  | succ n ih => simp [littleEndian, ih]

theorem length_of_mapM_eq_ok {α β ε : Type} {f : α → Except ε β} {xs : List α} {ys : List β} (h : xs.mapM f = .ok ys)
    : ys.length = xs.length := by
  induction xs generalizing ys with
  | nil =>
    cases h
    rfl
  | cons x xs ih =>
    simp only [List.mapM_cons, Except.bind_eq_ok_iff, Except.pure_eq_ok_iff] at h
    obtain ⟨y, -, ys', hys', rfl⟩ := h
    rw [List.length_cons, List.length_cons, ih hys']

namespace Instr

theorem encodeInt_size {line n : Nat} {low high : Int} (h : encodeInt line low high n operands = .ok e)
    : e.bytes.length = n ∧ e.label = none := by
  simp only [encodeInt, Except.bind_eq_ok_iff, Except.pure_eq_ok_iff] at h
  obtain ⟨_, -, _, -, rfl⟩ := h
  exact ⟨length_littleEndian _ _, rfl⟩

theorem encodeTarget_size (h : encodeTarget line operands = .ok e) : e.bytes.length = 3 := by
  obtain ⟨operand, -, h⟩ := Except.bind_eq_ok_iff.mp h
  split at h
  next =>
    cases h
    rfl
  next =>
    obtain ⟨_, -, ⟨⟩⟩ := Except.bind_eq_ok_iff.mp h
    exact length_littleEndian _ _

theorem encodeFrame_size (h : encodeFrame line operands = .ok e) : e.bytes.length = 3 ∧ e.label = none := by
  simp only [encodeFrame, Except.bind_eq_ok_iff, Except.pure_eq_ok_iff] at h
  obtain ⟨_, -, _, -, _, -, _, -, rfl⟩ := h
  simp [length_littleEndian]

theorem encodeStr_size (h : encodeStr mask line operands = .ok e) :
    e.bytes.length = operandSize .str operands ∧ e.label = none := by
  match operands with
  | [] | .int _ :: _ | .name _ :: _ => cases h
  | .str text :: _ =>
    cases h
    simp [operandSize]

theorem encodeData_size (h : encodeData line operands = .ok e) :
    e.bytes.length = operandSize .data operands ∧ e.label = none := by
  obtain ⟨_, -, h⟩ := Except.bind_eq_ok_iff.mp h
  obtain ⟨addr, -, h⟩ := Except.bind_eq_ok_iff.mp h
  dsimp only at h
  split at h
  next => cases h
  obtain ⟨data, hdata, ⟨⟩⟩ := Except.bind_eq_ok_iff.mp h
  have hlength := length_of_mapM_eq_ok hdata
  rw [List.length_tail] at hlength
  simp only [List.length_append, length_littleEndian, List.length_map, operandSize, and_true]
  omega

theorem encodeOperands_size {layout : Layout} (h : encodeOperands mask line layout operands = .ok e) :
    e.bytes.length = operandSize layout operands ∧ (e.label ≠ none → layout = .target) := by
  cases layout with
  | none =>
    simp only [encodeOperands, Except.ok.injEq] at h
    simp [← h, operandSize, Layout.fixedLength]
  | byte | word | dword | addr | size =>
    obtain ⟨hlen, hlabel⟩ := encodeInt_size h
    simp [hlen, hlabel, operandSize, Layout.fixedLength]
  | target => exact ⟨encodeTarget_size h, fun _ => rfl⟩
  | frame =>
    obtain ⟨hlen, hlabel⟩ := encodeFrame_size h
    simp [hlen, hlabel, operandSize, Layout.fixedLength]
  | str =>
    obtain ⟨hlen, hlabel⟩ := encodeStr_size h
    simp [hlen, hlabel]
  | data =>
    obtain ⟨hlen, hlabel⟩ := encodeData_size h
    simp [hlen, hlabel]

theorem encode_size {instr : Instr} (h : instr.encode mask line = .ok e) :
    e.bytes.length = instr.size ∧ e.WellSized := by
  cases instr with
  | call code | bytes data =>
    simp only [encode, Except.ok.injEq] at h
    simp [← h, size, Encoding.WellSized]
  | op opcode operands =>
    obtain ⟨e0, he0, h⟩ := Except.bind_eq_ok_iff.mp h
    split at h
    next => cases h
    next =>
      cases h
      obtain ⟨hlen, hlabel⟩ := encodeOperands_size he0
      refine ⟨by simp [size, hlen, Nat.add_comm], ?_⟩
      intro hsome
      have htarget := hlabel hsome
      simp [hlen, htarget, operandSize, Layout.fixedLength]

end Instr

theorem Statement.encoding_size {s : Statement} {e : Instr.Encoding} (h : s.encoding mask = .ok e) :
    e.bytes.length = s.size ∧ e.WellSized := by
  unfold Statement.encoding at h
  unfold Statement.size
  cases hs : s.instr with
  | none =>
    simp only [hs, Except.ok.injEq] at h
    simp [← h, Instr.Encoding.WellSized]
  | some instr =>
    simp only [hs] at h
    simpa using Instr.encode_size h

def Statement.bytes? (mask : UInt8) (find : String → Option Nat) (s : Statement) :
    Option (List UInt8) :=
  match s.encoding mask with
  | .ok e => e.resolve find
  | .error _ => none

theorem lookup_eq_some_iff_mem {l : List (String × Nat)} (h : (l.map (·.1)).Nodup) {k : String} {v : Nat}
    : l.lookup k = some v ↔ (k, v) ∈ l := by
  induction l with
  | nil => simp
  | cons p l ih =>
    obtain ⟨k', v'⟩ := p
    rw [List.map_cons, List.nodup_cons] at h
    rw [List.lookup_cons, List.mem_cons, ← ih h.2]
    cases hk : k == k' with
    | true =>
      rw [beq_iff_eq] at hk
      subst hk
      have hnot : l.lookup k ≠ some v := by
        intro hl
        exact h.1 (List.mem_map.mpr ⟨(k, v), (ih h.2).mp hl, rfl⟩)
      simp [hnot, eq_comm]
    | false =>
      rw [beq_eq_false_iff_ne] at hk
      simp [hk]

theorem lookup_reverse {l : List (String × Nat)} (h : (l.map (·.1)).Nodup) (k : String) :
    l.reverse.lookup k = l.lookup k := by
  have hrev : (l.reverse.map (·.1)).Nodup := by
    rw [List.map_reverse, List.nodup_reverse]
    exact h
  apply Option.ext
  intro v
  rw [lookup_eq_some_iff_mem h, lookup_eq_some_iff_mem hrev, List.mem_reverse]

theorem forall₂_bytes?_iff {find : String → Option Nat} {bs : List (List UInt8)}
    : List.Forall₂ (fun s b => s.bytes? mask find = some b) ss bs
        ↔ ∃ es, Encodes mask ss es
          ∧ List.Forall₂ (fun e b => e.2.resolve find = some b) es bs := by
  constructor
  · intro h
    induction h with
    | nil => exact ⟨[], .nil, .nil⟩
    | @cons s b ss bs hb _ ih =>
      obtain ⟨es, hes, hbs⟩ := ih
      unfold Statement.bytes? at hb
      split at hb
      next e he => exact ⟨(s.line, e) :: es, .cons ⟨he, rfl⟩ hes, .cons hb hbs⟩
      next => simp at hb
  · rintro ⟨es, hes, hbs⟩
    induction hes generalizing bs with
    | nil =>
      cases hbs
      exact .nil
    | cons he _ ih =>
      cases hbs with
      | cons hb hbs => exact .cons (by simp [Statement.bytes?, he.1, hb]) (ih hbs)

theorem Encodes.wellSized {es : List (Nat × Instr.Encoding)} (h : Encodes mask ss es) : ∀ e ∈ es, e.2.WellSized := by
  induction h with
  | nil => simp
  | cons he _ ih =>
    intro e' he'
    rw [List.mem_cons] at he'
    cases he' with
    | inl he' =>
      subst he'
      exact (Statement.encoding_size he.1).2
    | inr he' => exact ih e' he'

theorem Encodes.unique {es es' : List (Nat × Instr.Encoding)} (h : Encodes mask ss es) (h' : Encodes mask ss es')
    : es = es' := by
  induction h generalizing es' with
  | nil =>
    cases h'
    rfl
  | cons he _ ih =>
    cases h' with
    | cons he' hes' =>
      rw [ih hes']
      congr 1
      apply Prod.ext
      · rw [he.2, he'.2]
      · exact Except.ok.inj (he.1.symm.trans he'.1)

theorem codeSize_eq_sum (ss : List Statement) : codeSize ss = (ss.map Statement.size).sum := by
  have hgo : ∀ n, ss.foldl (fun n s => n + s.size) n = n + (ss.map Statement.size).sum := by
    induction ss with
    | nil => simp
    | cons s ss ih =>
      intro n
      rw [List.foldl_cons, ih, List.map_cons, List.sum_cons, Nat.add_assoc]
  rw [codeSize, hgo, Nat.zero_add]

def labelOffset? (ss : List Statement) (label : String) : Option Nat :=
  (labelsFrom 0 ss).lookup label

theorem emitAll_link_eq_ok_iff {header : Header} (hnodup : ((labelsFrom 0 ss).map (·.1)).Nodup)
    : (do
        let (code, linker) ← emitAll header.mask ss header.toBytes.toArray
          { bias := Header.length, labels := (labelsFrom 0 ss).reverse }
        match (linker.link code).1 with
        | .error e _ => throw e
        | .ok () image => return image) = Except.ok image
        ↔ ∃ bs, List.Forall₂ (fun s b => s.bytes? header.mask (labelOffset? ss) = some b) ss bs
          ∧ image = (header.toBytes ++ bs.flatten).toArray := by
  have hemit := @emitAll_eq_ok_iff header.mask ss header.toBytes.toArray
    { bias := Header.length, labels := (labelsFrom 0 ss).reverse }
  have hget : ∀ fixups,
      Linker.get? { bias := Header.length, labels := (labelsFrom 0 ss).reverse, fixups := fixups }
        = labelOffset? ss := by
    intro fixups
    funext label
    exact lookup_reverse hnodup label
  simp only [forall₂_bytes?_iff, Bind.bind, Except.bind]
  split
  next e herr =>
    simp only [reduceCtorEq, false_iff]
    rintro ⟨bs, ⟨es, hes, -⟩, -⟩
    have := hemit.mpr ⟨es, hes, rfl⟩
    simp [herr] at this
  next r hok =>
    obtain ⟨es, hes, rfl⟩ := hemit.mp hok
    have hresolve := @resolve_eq_ok_iff
      (Linker.awaitAll { bias := Header.length, labels := (labelsFrom 0 ss).reverse }
        (fixupsFrom header.toBytes.length es)) rfl es hes.wellSized header.toBytes image
    have hiff : (∃ bs, (∃ es, Encodes header.mask ss es
          ∧ List.Forall₂ (fun e b => e.2.resolve (labelOffset? ss) = some b) es bs)
          ∧ image = (header.toBytes ++ bs.flatten).toArray)
        ↔ ∃ bs, List.Forall₂ (fun e b => e.2.resolve (labelOffset? ss) = some b) es bs
          ∧ image = (header.toBytes ++ bs.flatten).toArray := by
      constructor
      · rintro ⟨bs, ⟨es', hes', hbs⟩, himage⟩
        exact ⟨bs, by rwa [hes.unique hes'], himage⟩
      · rintro ⟨bs, hbs, himage⟩
        exact ⟨bs, ⟨es, hes, hbs⟩, himage⟩
    simp only [Linker.awaitAll, List.nil_append, hget] at hresolve
    rw [hiff, ← hresolve]
    simp only [Linker.link, Linker.awaitAll, List.nil_append, List.append_toArray, List.size_toArray]
    split
    next e _ herr => simp [herr, throw, throwThe, MonadExceptOf.throw]
    next image' hok => simp [hok, pure, Except.pure]

theorem assembleStatements_eq_ok_iff {header : Header} :
    assembleStatements header ss = .ok image
      ↔ ((labelsFrom 0 ss).map (·.1)).Nodup ∧ Header.length + codeSize ss ≤ 0xFFFFFF
        ∧ ∃ bs, List.Forall₂ (fun s b => s.bytes? header.mask (labelOffset? ss) = some b) ss bs
          ∧ image = (header.toBytes ++ bs.flatten).toArray := by
  have hplace := @place_eq_ok_iff 0 ss { bias := Header.length }
  have hfree : ∀ label ∈ (labelsFrom 0 ss).map (·.1),
      ({ bias := Header.length } : Linker).get? label = none := by
    simp [Linker.get?]
  unfold assembleStatements
  by_cases hnodup : ((labelsFrom 0 ss).map (·.1)).Nodup
  · rw [hplace.mpr ⟨hnodup, hfree, rfl⟩]
    by_cases hsize : Header.length + codeSize ss ≤ 0xFFFFFF
    · have hsize' : ¬ 0xFFFFFF < Header.length + codeSize ss := by omega
      simp only [hnodup, hsize, true_and, hsize', ↓reduceIte, List.append_nil]
      exact emitAll_link_eq_ok_iff hnodup
    · have hsize' : 0xFFFFFF < Header.length + codeSize ss := by omega
      simp [hsize, hsize', throw, throwThe, MonadExceptOf.throw, Bind.bind, Except.bind]
  · simp only [hnodup, false_and, iff_false]
    split
    next => simp [throw, throwThe, MonadExceptOf.throw]
    next l hl => exact absurd (hplace.mp hl).1 hnodup

theorem assemble_eq_ok_iff {text : String} {options : Options} :
    assemble text options = .ok image
      ↔ options.header.geometryEncodable
        ∧ ∃ ss, statements text = .ok ss ∧ assembleStatements options.header ss = .ok image := by
  unfold assemble
  cases hgeometry : options.header.geometryEncodable with
  | false => simp [hgeometry, throw, throwThe, MonadExceptOf.throw, Bind.bind, Except.bind]
  | true =>
    cases hss : statements text with
    | error e | ok ss => simp [hgeometry, Bind.bind, Except.bind]

end Handheld.Asm
