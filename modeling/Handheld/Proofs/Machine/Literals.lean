import Handheld.Proofs.Machine.Reached
import Handheld.Proofs.Memory.Strings
import Mathlib.Data.List.Nodup
import Mathlib.Data.List.Pairwise

/-!
The slots of string literals never overlap, and none of them is lost as long as all literals pushed so far fit into the
buffer together.
-/
namespace Handheld

variable {image : Array UInt8} {l : Literal} {pushed : List Nat}

def Literal.Apart (a b : Literal) : Prop :=
  a.stop ≤ b.addr.toNat ∨ b.stop ≤ a.addr.toNat

instance : Std.Symm Literal.Apart :=
  ⟨fun _ _ => Or.symm⟩

namespace Machine

variable {m m' : Machine} {bytes : List UInt8} {position : Nat}

def literalAt (m : Machine) (position : Nat) : Option (List UInt8) :=
  maskedString? m.image m.header.mask (position + 1)

theorem zero_not_mem_of_maskedString? {mask : UInt8} {pos : Nat} {bytes : List UInt8}
    (h : maskedString? image mask pos = some bytes) : 0 ∉ bytes := by
  fun_induction maskedString? image mask pos generalizing bytes with
  | case1 =>
    cases h
    exact List.not_mem_nil
  | case2 pos _ b hzero =>
    rename_i ih
    obtain ⟨rest, hrest, rfl⟩ := Option.map_eq_some_iff.mp h
    have hne : (0 : UInt8) ≠ b := by
      intro heq
      exact hzero (by simp [← heq])
    simpa [hne] using ih hrest
  | case3 => cases h

def program (m : Machine) : Array UInt8 × Header :=
  (m.image, m.header)

theorem literalAt_congr (h : m'.program = m.program) : m'.literalAt = m.literalAt := by
  simp only [program, Prod.mk.injEq] at h
  unfold literalAt
  rw [h.1, h.2]

def table (m : Machine) : UInt16 × List Literal × Array UInt8 × Header :=
  (m.strings, m.literals, m.program)

/-- The slots lie in the buffer and share no byte; each belongs to one instruction, whose literal it fits. -/
structure Slots (m : Machine) : Prop where
  cursor : Memory.stringStart.toNat ≤ m.strings.toNat ∧ m.strings.toNat ≤ Memory.stringEnd.toNat
  inside : ∀ l ∈ m.literals, Memory.stringStart.toNat ≤ l.addr.toNat ∧ l.stop ≤ Memory.stringEnd.toNat
  apart : m.literals.Pairwise Literal.Apart
  single : (m.literals.map Literal.position).Nodup
  fits : ∀ l ∈ m.literals, ∃ bytes, m.literalAt l.position = some bytes ∧ l.length = (bytes.take stringRoom).length + 1

theorem Slots.congr (h : m.Slots) (htable : m'.table = m.table) : m'.Slots := by
  simp only [table, Prod.mk.injEq] at htable
  obtain ⟨hstrings, hliterals, hprogram⟩ := htable
  constructor
  · rw [hstrings]
    exact h.cursor
  · rw [hliterals]
    exact h.inside
  · rw [hliterals]
    exact h.apart
  · rw [hliterals]
    exact h.single
  · intro l hl
    rw [literalAt_congr hprogram]
    exact h.fits l (hliterals ▸ hl)

theorem slot_or_none (m : Machine) (position : Nat) :
    (∃ l ∈ m.literals, l.position = position) ∨ ∀ l ∈ m.literals, l.position ≠ position := by
  by_cases hmem : ∃ l ∈ m.literals, l.position = position
  · exact .inl hmem
  · exact .inr fun l hl heq => hmem ⟨l, hl, heq⟩

theorem Slots.length_eq (h : m.Slots) (hl : l ∈ m.literals) (hat : m.literalAt l.position = some bytes) :
    l.length = (bytes.take stringRoom).length + 1 := by
  obtain ⟨bytes', hat', hlength⟩ := h.fits l hl
  cases hat.symm.trans hat'
  exact hlength

theorem Slots.eq_of_position (h : m.Slots) {l' : Literal} (hl : l ∈ m.literals) (hl' : l' ∈ m.literals)
    (heq : l.position = l'.position) : l = l' :=
  List.inj_on_of_nodup_map h.single hl hl' heq

def fresh (m : Machine) (length : Nat) : UInt16 :=
  if Memory.stringEnd.toNat < m.strings.toNat + length + 1 then Memory.stringStart else m.strings

example : stringRoom = 3071 := rfl

theorem fresh_bounds (h : m.Slots) {length : Nat} (hlength : length ≤ stringRoom) :
    Memory.stringStart.toNat ≤ (m.fresh length).toNat
      ∧ (m.fresh length).toNat + length + 1 ≤ Memory.stringEnd.toNat := by
  have hcursor := h.cursor
  have hroom : stringRoom + Memory.stringStart.toNat + 1 = Memory.stringEnd.toNat := rfl
  unfold fresh
  split
  next => omega
  next => omega

def newSlot (m : Machine) (position : Nat) (bytes : List UInt8) : Literal where
  position := position
  addr := m.fresh (bytes.take stringRoom).length
  length := (bytes.take stringRoom).length + 1

theorem newSlot_bounds (h : m.Slots) (position : Nat) (bytes : List UInt8) :
    Memory.stringStart.toNat ≤ (m.newSlot position bytes).addr.toNat
      ∧ (m.newSlot position bytes).stop ≤ Memory.stringEnd.toNat :=
  fresh_bounds h (List.length_take_le _ _)

theorem toNat_newSlot_stop (h : m.Slots) (position : Nat) (bytes : List UInt8) :
    (UInt16.ofNat (m.newSlot position bytes).stop).toNat = (m.newSlot position bytes).stop := by
  have hend : Memory.stringEnd.toNat = 0x1000 := rfl
  obtain ⟨-, hstop⟩ := newSlot_bounds h position bytes
  rw [UInt16.toNat_ofNat', Nat.mod_eq_of_lt (by omega)]

theorem literal_of_mem (h : m.Slots) (hl : l ∈ m.literals) (hat : m.literalAt l.position = some bytes) :
    m.literal l.position bytes
      =
    (l.addr, { m with memory := m.memory.putString l.addr (bytes.take stringRoom) }) := by
  have hfind : m.literals.find? (·.position == l.position) = some l := by
    cases hfind : m.literals.find? (·.position == l.position) with
    | none =>
      have hnone := List.find?_eq_none.mp hfind l hl
      simp at hnone
    | some l' =>
      have hposition : l'.position = l.position := by simpa using List.find?_some hfind
      rw [h.eq_of_position (List.mem_of_find?_eq_some hfind) hl hposition]
  have htake : bytes.take (l.length - 1) = bytes.take stringRoom := by
    rw [h.length_eq hl hat, Nat.add_sub_cancel, List.length_take, ← List.take_take, List.take_length]
  simp only [literal, hfind, htake]
  rfl

theorem literal_of_not_mem (h : m.Slots) (hnone : ∀ l ∈ m.literals, l.position ≠ position) :
    m.literal position bytes
      =
    ((m.newSlot position bytes).addr,
      { m with
        memory := m.memory.putString (m.newSlot position bytes).addr (bytes.take stringRoom)
        strings := UInt16.ofNat (m.newSlot position bytes).stop
        literals := m.newSlot position bytes :: m.literals.filter fun l =>
          l.stop ≤ (m.newSlot position bytes).addr.toNat || (m.newSlot position bytes).stop ≤ l.addr.toNat }) := by
  have hfind : m.literals.find? (·.position == position) = none :=
    List.find?_eq_none.mpr fun l hl heq => hnone l hl (eq_of_beq heq)
  have hcursor : (m.newSlot position bytes).addr + UInt16.ofNat (m.newSlot position bytes).length
      = UInt16.ofNat (m.newSlot position bytes).stop := by
    rw [Literal.stop, UInt16.ofNat_add, UInt16.ofNat_toNat]
  have hlength : (UInt16.ofNat (m.newSlot position bytes).stop).toNat - (m.newSlot position bytes).addr.toNat
      = (m.newSlot position bytes).length := by
    rw [toNat_newSlot_stop h, Literal.stop, Nat.add_sub_cancel_left]
  have hintern : m.intern bytes = ((m.newSlot position bytes).addr,
      { m with
        memory := m.memory.putString (m.newSlot position bytes).addr (bytes.take stringRoom)
        strings := UInt16.ofNat (m.newSlot position bytes).stop }) := by
    rw [← hcursor]
    rfl
  simp only [literal, hfind, hintern, hlength]
  rfl

theorem table_literal_of_mem (h : m.Slots) (hl : l ∈ m.literals)
    (hat : m.literalAt l.position = some bytes) : (m.literal l.position bytes).2.table = m.table := by
  rw [literal_of_mem h hl hat]
  rfl

theorem Slots.literal (h : m.Slots) (hat : m.literalAt position = some bytes) : (m.literal position bytes).2.Slots := by
  rcases m.slot_or_none position with ⟨l, hl, rfl⟩ | hnone
  · exact h.congr (table_literal_of_mem h hl hat)
  · obtain ⟨hstart, hstop⟩ := newSlot_bounds h position bytes
    rw [literal_of_not_mem h hnone]
    constructor
    · dsimp only
      rw [toNat_newSlot_stop h]
      exact ⟨hstart.trans (Nat.le_add_right _ _), hstop⟩
    · intro l hl
      rcases List.mem_cons.mp hl with rfl | hl
      · exact ⟨hstart, hstop⟩
      · exact h.inside l (List.mem_of_mem_filter hl)
    · refine List.pairwise_cons.mpr ⟨?_, h.apart.filter _⟩
      intro l hl
      have happart := (List.mem_filter.mp hl).2
      simp only [Bool.or_eq_true, decide_eq_true_eq] at happart
      exact happart.symm
    · refine List.nodup_cons.mpr ⟨?_, h.single.sublist (List.filter_sublist.map _)⟩
      intro hposition
      obtain ⟨l, hl, heq⟩ := List.mem_map.mp hposition
      exact hnone l (List.mem_of_mem_filter hl) heq
    · intro l hl
      rcases List.mem_cons.mp hl with rfl | hl
      · exact ⟨bytes, hat, rfl⟩
      · exact h.fits l (List.mem_of_mem_filter hl)

def pushes? (m : Machine) : Option (List UInt8) :=
  if m.loaded && !m.halted && m.pc < m.image.size && m.opcodeByte == Opcode.pushStr.code then m.literalAt m.pc else none

theorem pushes?_eq_some_iff :
    m.pushes? = some bytes ↔ m.Live ∧ m.opcodeByte = Opcode.pushStr.code ∧ m.literalAt m.pc = some bytes := by
  unfold pushes?
  constructor
  · intro h
    split at h
    next hlive =>
      simp only [Bool.and_eq_true, Bool.not_eq_true', decide_eq_true_eq, beq_iff_eq] at hlive
      obtain ⟨⟨⟨hloaded, hhalted⟩, hinside⟩, hop⟩ := hlive
      exact ⟨⟨⟨hloaded, hhalted⟩, hinside⟩, hop, h⟩
    next => cases h
  · rintro ⟨hlive, hop, hat⟩
    rw [if_pos (by simp [hlive.loaded, hlive.halted, hlive.inside, hop]), hat]

def fetched (m : Machine) (bytes : List UInt8) : Machine :=
  { m with lastPc := m.pc, pc := m.pc + 1 + bytes.length + 1 }

def placed (m : Machine) (bytes : List UInt8) : UInt16 × Machine :=
  (m.fetched bytes).literal m.pc bytes

theorem step_of_pushes? (h : m.pushes? = some bytes) :
    step m
      =
    (push ({ addr := (m.placed bytes).1, width := .byte } : Handle).encode >>= fun _ => pure .running : Exec Progress)
      (m.placed bytes).2 := by
  obtain ⟨hlive, hop, hat⟩ := pushes?_eq_some_iff.mp h
  have hfetch : fetchString m.begun = .ok bytes (m.fetched bytes) := by
    have hmasked : maskedString? m.begun.image m.begun.header.mask m.begun.pc = some bytes := hat
    simp only [fetchString, hmasked]
    rfl
  have hplace : (modifyGet fun m => m.literal m.lastPc bytes : Exec UInt16) (m.fetched bytes)
      = .ok (m.placed bytes).1 (m.placed bytes).2 := rfl
  rw [step_eq_execute hlive hop]
  have hexecute : execute .pushStr m.begun = (fetchString >>= fun bytes =>
      (modifyGet fun m => m.literal m.lastPc bytes) >>= fun addr =>
        push ({ addr := addr, width := .byte } : Handle).encode >>= fun _ => pure .running) m.begun := rfl
  rw [hexecute, bind_eq_ok hfetch, bind_eq_ok hplace]

theorem after_step_of_pushes? {γ : Type} (part : Machine → γ)
    (hstack : ∀ m stack, part { m with stack := stack } = part m) (h : m.pushes? = some bytes)
    : part (after (step m)) = part (m.placed bytes).2 := by
  rw [step_of_pushes? h]
  exact (keeps_onStack hstack _).bind (fun _ => keeps_pure _) _

theorem keeps_table_libraryCall (code : UInt8) : Keeps table (libraryCall code) := by
  apply keeps_libraryCall (fun _ _ => rfl) (fun _ _ => rfl) (fun _ _ => rfl)
  exact fun c _ => {}

theorem spared_table {op : Opcode} (hop : op ≠ .pushStr) : Spared table op where
  literals := fun h => absurd h hop

theorem table_step_of_pushes?_eq_none (h : m.pushes? = none) : (after (step m)).table = m.table := by
  apply part_step (fun _ _ _ => rfl) _ (keeps_table_libraryCall _)
  intro op hlive hop
  by_cases hpush : op = .pushStr
  · subst hpush
    have hat : m.literalAt m.pc = none := by
      by_contra hsome
      obtain ⟨bytes, hbytes⟩ := Option.ne_none_iff_exists'.mp hsome
      cases h.symm.trans (pushes?_eq_some_iff.mpr ⟨hlive, hop, hbytes⟩)
    have hfetch : fetchString m.begun = .error (.imageOverrun m.image.size) { m.begun with pc := m.image.size } := by
      have hmasked : maskedString? m.begun.image m.begun.header.mask m.begun.pc = none := hat
      simp only [fetchString, hmasked]
      rfl
    have hexecute : execute .pushStr m.begun
        = .error (.imageOverrun m.image.size) { m.begun with pc := m.image.size } :=
      bind_eq_error hfetch
    rw [hexecute]
    rfl
  · exact (spared_table hpush).execute m.begun

theorem program_step (m : Machine) : (after (step m)).program = m.program := by
  apply part_step (fun _ _ _ => rfl)
  · intro op _ _
    have hspared : Spared program op := {}
    exact hspared.execute m.begun
  · intro m'
    exact congrArg (fun t => t.2.2) (keeps_table_libraryCall m.opcodeByte m')

structure Pushes (m : Machine) (bytes : List UInt8) (a : UInt16) : Prop where
  string : (after (step m)).memory.cstr a = bytes.take stringRoom
  again : ∀ l ∈ m.literals, l.position = m.pc →
    a = l.addr ∧ (after (step m)).strings = m.strings ∧ (after (step m)).literals = m.literals
  first : (∀ l ∈ m.literals, l.position ≠ m.pc) →
    ∃ slot : Literal, slot.position = m.pc ∧ slot.addr = a ∧ slot.length = (bytes.take stringRoom).length + 1
      ∧ ∀ l, l ∈ (after (step m)).literals ↔ l = slot ∨ (l ∈ m.literals ∧ l.Apart slot)
  outside : ∀ b : UInt16, b.toNat < a.toNat ∨ a.toNat + (bytes.take stringRoom).length + 1 ≤ b.toNat →
    (after (step m)).memory.byte b = m.memory.byte b
  pushed : m.stack.size < m.stack.limit →
    step m = .ok .running (after (step m))
      ∧ (after (step m)).stack.toList = m.stack.toList ++ [({ addr := a, width := .byte } : Handle).encode]
  full : ¬m.stack.size < m.stack.limit → step m = .error .stackOverflow (after (step m))

theorem placed_bounds (h : m.Slots) (hpushes : m.pushes? = some bytes) :
    (m.placed bytes).1.toNat + (bytes.take stringRoom).length + 1 ≤ Memory.stringEnd.toNat
      ∧ (m.placed bytes).2.memory = m.memory.putString (m.placed bytes).1 (bytes.take stringRoom)
      ∧ (m.placed bytes).2.stack = m.stack := by
  obtain ⟨-, -, hat⟩ := pushes?_eq_some_iff.mp hpushes
  have hfetched : (m.fetched bytes).Slots := h.congr rfl
  unfold placed
  rcases m.slot_or_none m.pc with ⟨l, hl, hposition⟩ | hnone
  · rw [← hposition] at hat ⊢
    rw [literal_of_mem hfetched hl hat]
    have hstop := (h.inside l hl).2
    rw [Literal.stop, h.length_eq hl hat] at hstop
    exact ⟨hstop, rfl, rfl⟩
  · rw [literal_of_not_mem hfetched hnone]
    exact ⟨(newSlot_bounds hfetched m.pc bytes).2, rfl, rfl⟩

theorem push_of_lt (h : m.stack.size < m.stack.limit) (v : Int32) :
    push v m = .ok () { m with stack := { m.stack with items := m.stack.items.push v } } := by
  simp only [push, onStack, Stack.push, h, ↓reduceIte]

theorem push_of_full (h : ¬m.stack.size < m.stack.limit) (v : Int32) : push v m = .error .stackOverflow m := by
  simp only [push, onStack, Stack.push, h, ↓reduceIte]

theorem Slots.pushes (h : m.Slots) (hpushes : m.pushes? = some bytes) : m.Pushes bytes (m.placed bytes).1 := by
  obtain ⟨-, -, hat⟩ := pushes?_eq_some_iff.mp hpushes
  obtain ⟨hstop, hplaced, hstack⟩ := placed_bounds h hpushes
  have hend : Memory.stringEnd.toNat = 0x1000 := rfl
  have hfetched : (m.fetched bytes).Slots := h.congr rfl
  have hmemory := after_step_of_pushes? (fun m => m.memory) (fun _ _ => rfl) hpushes
  have htable := after_step_of_pushes? table (fun _ _ => rfl) hpushes
  have hzero : 0 ∉ bytes.take stringRoom := fun hmem => zero_not_mem_of_maskedString? hat (List.mem_of_mem_take hmem)
  constructor
  case string =>
    rw [hmemory, hplaced]
    exact Memory.cstr_putString (by omega) hzero
  case again =>
    intro l hl hposition
    rw [← hposition] at hat
    have hagain := table_literal_of_mem hfetched hl hat
    rw [hposition] at hagain
    have heq := htable.trans hagain
    simp only [table, Prod.mk.injEq] at heq
    refine ⟨?_, heq.1, heq.2.1⟩
    unfold placed
    rw [← hposition, literal_of_mem hfetched hl hat]
  case first =>
    intro hnone
    have hliteral : (m.fetched bytes).literal m.pc bytes = _ := literal_of_not_mem hfetched hnone
    refine ⟨(m.fetched bytes).newSlot m.pc bytes, rfl, ?_, rfl, ?_⟩
    · unfold placed
      rw [hliteral]
    · intro l
      have hliterals : (after (step m)).literals = (m.placed bytes).2.literals := congrArg (fun t => t.2.1) htable
      rw [hliterals]
      unfold placed
      rw [hliteral]
      simp only [List.mem_cons, List.mem_filter, Bool.or_eq_true, decide_eq_true_eq, Literal.Apart]
      rfl
  case outside =>
    intro b hb
    rw [hmemory, hplaced]
    exact Memory.byte_putString_of_not_mem (by omega) (by omega)
  case pushed =>
    intro hroom
    rw [← hstack] at hroom
    have hpush := push_of_lt hroom ({ addr := (m.placed bytes).1, width := .byte } : Handle).encode
    rw [step_of_pushes? hpushes, bind_eq_ok hpush, ← hstack]
    exact ⟨rfl, Array.toList_push⟩
  case full =>
    intro hfull
    rw [← hstack] at hfull
    have hpush := push_of_full hfull ({ addr := (m.placed bytes).1, width := .byte } : Handle).encode
    rw [step_of_pushes? hpushes, bind_eq_error hpush]
    rfl

theorem Slots.slot_of_pushes (h : m.Slots) (hpushes : m.pushes? = some bytes) :
    ∃ slot ∈ (after (Machine.step m)).literals, slot.position = m.pc ∧ slot.addr = (m.placed bytes).1
      ∧ slot.length = (bytes.take stringRoom).length + 1 := by
  obtain ⟨-, -, hat⟩ := pushes?_eq_some_iff.mp hpushes
  have hpush := h.pushes hpushes
  rcases m.slot_or_none m.pc with ⟨l, hl, hposition⟩ | hnone
  · obtain ⟨haddr, -, hliterals⟩ := hpush.again l hl hposition
    exact ⟨l, hliterals ▸ hl, hposition, haddr.symm, h.length_eq hl (hposition ▸ hat)⟩
  · obtain ⟨slot, hposition, haddr, hlength, hliterals⟩ := hpush.first hnone
    exact ⟨slot, (hliterals slot).mpr (.inl rfl), hposition, haddr, hlength⟩

theorem Slots.mem_of_pushes (h : m.Slots) (hpushes : m.pushes? = some bytes)
    (hl : l ∈ (after (Machine.step m)).literals) (hposition : l.position ≠ m.pc) : l ∈ m.literals := by
  have hpush := h.pushes hpushes
  rcases m.slot_or_none m.pc with ⟨l', hl', hposition'⟩ | hnone
  · rwa [(hpush.again l' hl' hposition').2.2] at hl
  · obtain ⟨slot, hslot, -, -, hliterals⟩ := hpush.first hnone
    rcases (hliterals l).mp hl with rfl | ⟨hl, -⟩
    · exact absurd hslot hposition
    · exact hl

theorem Slots.step (h : m.Slots) : (after (Machine.step m)).Slots := by
  cases hpushes : m.pushes? with
  | none => exact h.congr (table_step_of_pushes?_eq_none hpushes)
  | some bytes =>
    obtain ⟨-, -, hat⟩ := pushes?_eq_some_iff.mp hpushes
    have hfetched : (m.fetched bytes).Slots := h.congr rfl
    exact (hfetched.literal hat).congr (after_step_of_pushes? table (fun _ _ => rfl) hpushes)

def pushedAfter (m : Machine) (pushed : List Nat) : List Nat :=
  if m.pushes?.isSome then pushed.insert m.pc else pushed

/--
The states that a machine can get into once an image is loaded, by instructions and the arrival of keys, with the
positions whose literals were pushed.
-/
inductive Arises : List Nat → Machine → Prop where
  | load {m0 m : Machine} {image : Array UInt8} (h : m0.load image = .ok m) : Arises [] m
  | step {pushed : List Nat} {m : Machine} (h : Arises pushed m) : Arises (m.pushedAfter pushed) (after (step m))
  | key {pushed : List Nat} {m : Machine} (h : Arises pushed m) (key : UInt8) : Arises pushed (m.pushKey key)
  | tick {pushed : List Nat} {m : Machine} (h : Arises pushed m) (clock : Clock) :
    Arises pushed { m with clock := clock }

def literalSize (m : Machine) (position : Nat) : Nat :=
  match m.literalAt position with
  | some bytes => (bytes.take stringRoom).length + 1
  | none => 0

theorem literalSize_of_literalAt (h : m.literalAt position = some bytes) :
    m.literalSize position = (bytes.take stringRoom).length + 1 := by
  unfold literalSize
  rw [h]

def literalTotal (m : Machine) : List Nat → Nat
  | [] => 0
  | position :: positions => m.literalSize position + m.literalTotal positions

theorem table_load {m0 : Machine} (h : m0.load image = .ok m) : m.strings = Memory.stringStart ∧ m.literals = [] := by
  obtain ⟨header, -, rfl⟩ := load_eq_ok_iff.mp h
  exact ⟨rfl, rfl⟩

theorem Reached.slots {guard : Machine → Prop} (h : Reached guard m) : m.Slots := by
  induction h with
  | load h =>
    obtain ⟨hstrings, hliterals⟩ := table_load h
    constructor
    · rw [hstrings]
      decide
    · simp [hliterals]
    · simp [hliterals]
    · simp [hliterals]
    · simp [hliterals]
  | step _ _ ih => exact ih.step
  | outside _ _ _ _ _ _ _ _ ih => exact ih.congr rfl

theorem Arises.reached (h : Arises pushed m) : Reached (fun _ => True) m := by
  induction h with
  | load h => exact .load h
  | step _ ih => exact ih.step trivial
  | @key _ m _ key ih => exact ih.outside (m.keys ++ [key]) m.clock m.console.pending m.display m.font m.files m.halted
  | @tick _ m _ clock ih => exact ih.outside m.keys clock m.console.pending m.display m.font m.files m.halted

theorem Arises.slots (h : Arises pushed m) : m.Slots :=
  h.reached.slots

structure Filled (m : Machine) (pushed : List Nat) : Prop where
  cursor : m.strings.toNat = Memory.stringStart.toNat + m.literalTotal pushed
  below : ∀ l ∈ m.literals, l.stop ≤ m.strings.toNat
  kept : ∀ position ∈ pushed, ∃ l ∈ m.literals, l.position = position
  known : ∀ l ∈ m.literals, l.position ∈ pushed

theorem literalTotal_congr (h : m'.program = m.program) (positions : List Nat) :
    m'.literalTotal positions = m.literalTotal positions := by
  induction positions with
  | nil => rfl
  | cons position positions ih => rw [literalTotal, literalTotal, literalSize, literalSize, literalAt_congr h, ih]

theorem literalTotal_le_insert (m : Machine) (pushed : List Nat) (position : Nat) :
    m.literalTotal pushed ≤ m.literalTotal (pushed.insert position) := by
  by_cases hmem : position ∈ pushed
  · rw [List.insert_of_mem hmem]
  · rw [List.insert_of_not_mem hmem]
    exact Nat.le_add_left _ _

theorem literalTotal_le_pushedAfter (m : Machine) (pushed : List Nat) :
    m.literalTotal pushed ≤ m.literalTotal (m.pushedAfter pushed) := by
  unfold pushedAfter
  split
  next => exact literalTotal_le_insert m pushed m.pc
  next => exact Nat.le_refl _

theorem mem_pushedAfter (m : Machine) {position : Nat} (h : position ∈ pushed) : position ∈ m.pushedAfter pushed := by
  unfold pushedAfter
  split
  next => exact List.mem_insert_of_mem h
  next => exact h

theorem Filled.congr (h : Filled m pushed) (htable : m'.table = m.table) : Filled m' pushed := by
  simp only [table, Prod.mk.injEq] at htable
  obtain ⟨hstrings, hliterals, hprogram⟩ := htable
  constructor
  · rw [hstrings, literalTotal_congr hprogram]
    exact h.cursor
  · rw [hliterals, hstrings]
    exact h.below
  · rw [hliterals]
    exact h.kept
  · rw [hliterals]
    exact h.known

theorem Filled.literal (h : Filled m pushed) (hslots : m.Slots)
    (hat : m.literalAt position = some bytes) (hnone : ∀ l ∈ m.literals, l.position ≠ position)
    (htotal : m.literalTotal (position :: pushed) ≤ stringRoom + 1)
    : Filled (m.literal position bytes).2 (position :: pushed) := by
  have hcursor := h.cursor
  have hroom : stringRoom + Memory.stringStart.toNat + 1 = Memory.stringEnd.toNat := rfl
  rw [literalTotal, literalSize_of_literalAt hat] at htotal
  have haddr : (m.newSlot position bytes).addr = m.strings := if_neg (by omega)
  have hstop : (m.newSlot position bytes).stop = m.strings.toNat + (bytes.take stringRoom).length + 1 :=
    congrArg (fun a : UInt16 => a.toNat + (bytes.take stringRoom).length + 1) haddr
  have hfilter : (m.literals.filter fun l =>
      l.stop ≤ (m.newSlot position bytes).addr.toNat || (m.newSlot position bytes).stop ≤ l.addr.toNat) = m.literals := by
    apply List.filter_eq_self.mpr
    intro l hl
    simp [haddr, h.below l hl]
  have hprogram : (m.literal position bytes).2.program = m.program := by
    rw [literal_of_not_mem hslots hnone]
    rfl
  have htoNat := toNat_newSlot_stop hslots position bytes
  constructor
  · rw [literalTotal_congr hprogram, literalTotal, literalSize_of_literalAt hat, literal_of_not_mem hslots hnone]
    dsimp only
    omega
  · rw [literal_of_not_mem hslots hnone, hfilter]
    intro l hl
    dsimp only at hl ⊢
    rw [htoNat]
    rcases List.mem_cons.mp hl with rfl | hl
    · exact Nat.le_refl _
    · have hbelow := h.below l hl
      omega
  · rw [literal_of_not_mem hslots hnone, hfilter]
    intro p hp
    rcases List.mem_cons.mp hp with rfl | hp
    · exact ⟨_, List.mem_cons_self, rfl⟩
    · obtain ⟨l, hl, hposition⟩ := h.kept p hp
      exact ⟨l, List.mem_cons_of_mem _ hl, hposition⟩
  · rw [literal_of_not_mem hslots hnone, hfilter]
    intro l hl
    rcases List.mem_cons.mp hl with rfl | hl
    · exact List.mem_cons_self
    · exact List.mem_cons_of_mem _ (h.known l hl)

theorem Filled.step (h : Filled m pushed) (hslots : m.Slots)
    (htotal : m.literalTotal (m.pushedAfter pushed) ≤ stringRoom + 1)
    : Filled (after (Machine.step m)) (m.pushedAfter pushed) := by
  cases hpushes : m.pushes? with
  | none =>
    simp only [pushedAfter, hpushes, Option.isSome_none, Bool.false_eq_true, ↓reduceIte]
    exact h.congr (table_step_of_pushes?_eq_none hpushes)
  | some bytes =>
    simp only [pushedAfter, hpushes, Option.isSome_some, ↓reduceIte] at htotal ⊢
    obtain ⟨-, -, hat⟩ := pushes?_eq_some_iff.mp hpushes
    have hfetched : (m.fetched bytes).Slots := hslots.congr rfl
    have htable := after_step_of_pushes? table (fun _ _ => rfl) hpushes
    rcases m.slot_or_none m.pc with ⟨l, hl, hposition⟩ | hnone
    · rw [← hposition] at hat
      have hagain := table_literal_of_mem hfetched hl hat
      rw [hposition] at hagain
      rw [List.insert_of_mem (hposition ▸ h.known l hl)]
      exact h.congr (htable.trans hagain)
    · have hnew : m.pc ∉ pushed := fun hmem => (h.kept m.pc hmem).elim fun l hl => hnone l hl.1 hl.2
      rw [List.insert_of_not_mem hnew] at htotal ⊢
      have hfilled : Filled (m.fetched bytes) pushed := h.congr rfl
      have hprogram : (m.fetched bytes).program = m.program := rfl
      rw [← literalTotal_congr hprogram] at htotal
      exact (hfilled.literal hfetched hat hnone htotal).congr htable

theorem Arises.filled (h : Arises pushed m) (htotal : m.literalTotal pushed ≤ stringRoom + 1) : m.Filled pushed := by
  induction h with
  | load h =>
    obtain ⟨hstrings, hliterals⟩ := table_load h
    constructor
    · rw [hstrings]
      rfl
    · simp [hliterals]
    · simp
    · simp [hliterals]
  | @step pushed m h ih =>
    rw [literalTotal_congr (program_step m)] at htotal
    exact (ih ((literalTotal_le_pushedAfter m pushed).trans htotal)).step h.slots htotal
  | key _ _ ih | tick _ _ ih =>
    refine (ih (htotal.trans' (Eq.ge (literalTotal_congr ?_ _)))).congr rfl
    rfl

/--
In every state that arises, the slots lie apart in the buffer; an instruction that pushes a literal pushes the address of
its slot and touches nothing else; and as long as the literals pushed so far fit into the buffer together, each of them
keeps its slot, and no other instruction that pushes a literal changes a byte of it.
-/
theorem literals_of_arises {pushed : List Nat} (h : Arises pushed m) :
    m.Slots
      ∧ (∀ bytes, m.pushes? = some bytes → ∃ a, m.Pushes bytes a)
      ∧ (m.literalTotal (m.pushedAfter pushed) ≤ stringRoom + 1 →
          (∀ position ∈ m.pushedAfter pushed, ∃ l ∈ (after (step m)).literals, l.position = position)
            ∧ (m.pushes?.isSome → ∀ l ∈ m.literals, l.position ≠ m.pc → ∀ b : UInt16,
                l.addr.toNat ≤ b.toNat → b.toNat < l.stop →
                (after (step m)).memory.byte b = m.memory.byte b)) := by
  refine ⟨h.slots, fun bytes hpushes => ⟨_, h.slots.pushes hpushes⟩, fun htotal => ?_⟩
  have hfilled := h.filled ((literalTotal_le_pushedAfter m pushed).trans htotal)
  have hkept := (hfilled.step h.slots htotal).kept
  refine ⟨hkept, fun hsome l hl hposition b hlow hhigh => ?_⟩
  obtain ⟨bytes, hpushes⟩ := Option.isSome_iff_exists.mp hsome
  obtain ⟨slot, hslot, hat, haddr, hlength⟩ := h.slots.slot_of_pushes hpushes
  have hafter : l ∈ (after (step m)).literals := by
    obtain ⟨l', hl', heq⟩ := hkept l.position (mem_pushedAfter m (hfilled.known l hl))
    rwa [h.slots.eq_of_position (h.slots.mem_of_pushes hpushes hl' (heq ▸ hposition)) hl heq] at hl'
  have happart := h.slots.step.apart.forall hslot hafter fun heq => hposition (heq ▸ hat)
  apply (h.slots.pushes hpushes).outside
  simp only [Literal.Apart, Literal.stop, haddr, hlength] at happart hhigh
  omega

def twoLiteralsImage : Array UInt8 :=
  (({} : Header).toBytes ++ [0x16, 0x68, 0x69, 0x00, 0x16, 0x79, 0x6F, 0x00, 0x3A]).toArray

def twoLiterals : Machine :=
  match ({} : Machine).load twoLiteralsImage with
  | .ok m => m
  | .error _ => {}

theorem literals_of_arises_twoLiterals :
    let m := after (step twoLiterals)
    (∃ a, m.Pushes [0x79, 0x6F] a)
      ∧ ∀ l ∈ m.literals, l.position ≠ m.pc → ∀ b : UInt16, l.addr.toNat ≤ b.toNat → b.toNat < l.stop →
          (after (step m)).memory.byte b = m.memory.byte b := by
  have hload : ({} : Machine).load twoLiteralsImage = .ok twoLiterals := rfl
  have hpushes : (after (step twoLiterals)).pushes? = some [0x79, 0x6F] := by decide +kernel
  have htotal : (after (step twoLiterals)).literalTotal ((after (step twoLiterals)).pushedAfter (twoLiterals.pushedAfter []))
      ≤ stringRoom + 1 := by decide +kernel
  obtain ⟨-, hpush, hothers⟩ := literals_of_arises (Arises.load hload).step
  exact ⟨hpush _ hpushes, (hothers htotal).2 (by rw [hpushes]; rfl)⟩

end Machine
end Handheld
