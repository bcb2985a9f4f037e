import Handheld.Proofs.Asm.Standing
import Handheld.Proofs.Asm.Sweep
import Handheld.Proofs.Machine.DataSpace
import Handheld.Proofs.Machine.Literals

/-!
Where instructions end: code is cut for a listing where a machine goes on, and what is listed as a byte alone cannot be
run.
-/
namespace Handheld

def Opcode.diverts (m : Machine) : Opcode → Bool
  | jmp | call | ret => true
  | jz => m.stack.items.back?.any (· == 0)
  | jnz => m.stack.items.back?.any (· != 0)
  | _ => false

def Asm.Decoded.diverts (m : Machine) : Asm.Decoded → Bool
  | .op opcode _ => opcode.diverts m
  | _ => false

namespace Machine

open Asm

variable {m m' : Machine}

structure Has (m : Machine) (image : Array UInt8) : Prop where
  loaded : m.loaded = true
  image : m.image = image
  header : Header.parse m.image.toList = .ok m.header

theorem has_of_load {m0 : Machine} {image : Array UInt8} (h : m0.load image = .ok m) : m.Has image := by
  obtain ⟨header, hheader, rfl⟩ := load_eq_ok_iff.mp h
  exact ⟨rfl, rfl, hheader⟩

theorem Has.step {image : Array UInt8} (h : m.Has image) : (after (step m)).Has image := by
  have hprogram := program_step m
  simp only [program, Prod.mk.injEq] at hprogram
  constructor
  · rw [loaded_step, h.loaded]
  · rw [hprogram.1, h.image]
  · rw [hprogram.1, hprogram.2, h.header]

theorem has_of_reached {guard : Machine → Prop} (h : Reached guard m) : m.Has m.image := by
  induction h with
  | load hload =>
    have hhas := has_of_load hload
    exact ⟨hhas.loaded, rfl, hhas.header⟩
  | step _ _ ih =>
    have hhas := ih.step
    exact ⟨hhas.loaded, rfl, hhas.header⟩
  | outside _ _ _ _ _ _ _ _ ih => exact ⟨ih.loaded, rfl, ih.header⟩

section Advances

def Advances {α : Type} (act : Exec α) (len : Nat) : Prop :=
  ∀ m a m', act m = .ok a m' → m'.pc = m.pc + len

variable {α β : Type} {act : Exec α} {f : α → Exec β}

theorem Advances.bind {len len' : Nat} (h : Advances act len) (h' : ∀ a, Advances (f a) len') :
    Advances (act >>= f) (len + len') := by
  intro m b m'' hrun
  obtain ⟨a, m', hact, hrest⟩ := bind_eq_ok_iff.mp hrun
  rw [h' a m' b m'' hrest, h m a m' hact, Nat.add_assoc]

theorem advances_of_keeps (h : Keeps (fun m => m.pc) act) : Advances act 0 := by
  intro m a m' hrun
  have hpc := h m
  rw [hrun] at hpc
  exact hpc

theorem Advances.keeping {len : Nat} (h : Advances act len) (h' : ∀ a, Keeps (fun m => m.pc) (f a)) :
    Advances (act >>= f) len :=
  h.bind fun a => advances_of_keeps (h' a)

theorem advances_fetch (len : Nat) : Advances (fetch len) len := by
  intro m v m' hrun
  obtain ⟨-, -, rfl⟩ := fetch_eq_ok_iff.mp hrun
  rfl

theorem keeps_pc_onStack (act : StackM Int32 α) : Keeps (fun m => m.pc) (onStack act) :=
  keeps_onStack (fun _ _ => rfl) act

theorem keeps_pc_pushing (v : Int32) : Keeps (fun m => m.pc) (push v >>= fun _ => pure Progress.running) :=
  (keeps_pc_onStack _).bind fun _ => keeps_pure _

theorem keeps_pc_access (a : Access) (h : Handle) : Keeps (fun m => m.pc) (access a h) := by
  cases a with
  | load => exact (keeps_loadFrom h).bind fun v => keeps_pc_onStack _
  | handle => exact keeps_pc_onStack _
  | indexed =>
    exact keeps_get.bind fun _ => (keeps_pc_onStack _).bind fun _ => (keeps_loadFrom _).bind fun _ => keeps_pc_onStack _
  | effective => exact keeps_get.bind fun _ => (keeps_pc_onStack _).bind fun _ => keeps_pc_onStack _

theorem keeps_pc_openFrame (size argc : Nat) : Keeps (fun m => m.pc) (openFrame size argc) := by
  have hstop (stop : UInt16) : Keeps (fun m => m.pc) (modify fun m => { m with base2 := stop }) :=
    keeps_modify fun _ => rfl
  have hwrite (f : Memory → Memory) : Keeps (fun m => m.pc) (modify fun m => m.withMemory f) :=
    keeps_modify fun _ => rfl
  apply keeps_get.bind
  intro _
  apply (keeps_frameEnd _ _).bind
  intro stop
  apply (hstop stop).bind
  intro _
  apply (keeps_pc_onStack _).bind
  intro args
  apply (hwrite _).bind
  intro _
  exact keeps_pc_onStack _

theorem advances_execute {op : Opcode} {len : Nat} (hlen : op.layout.fixedLength = some len)
    (hop : op ≠ .jmp ∧ op ≠ .jz ∧ op ≠ .jnz ∧ op ≠ .call ∧ op ≠ .ret) : Advances (execute op) len := by
  cases op with
  | jmp | jz | jnz | call | ret => simp at hop
  | pushStr | init => cases hlen
  | nop =>
    cases hlen
    exact advances_of_keeps (keeps_pure _)
  | push w =>
    cases w <;> cases hlen <;> exact (advances_fetch _).keeping fun v => keeps_pc_pushing _
  | access a w relative =>
    cases hlen
    exact (advances_fetch 2).keeping fun addr => (keeps_pc_access a _).bind fun _ => keeps_pure _
  | cast | neg | not | lnot | dup | binary =>
    cases hlen
    exact advances_of_keeps ((keeps_pc_onStack _).bind fun v => keeps_pc_pushing _)
  | load =>
    cases hlen
    exact advances_of_keeps ((keeps_pc_onStack _).bind fun v => (keeps_loadFrom _).bind fun w => keeps_pc_pushing w)
  | store =>
    cases hlen
    apply advances_of_keeps
    apply (keeps_pc_onStack _).bind
    intro v
    apply (keeps_pc_onStack _).bind
    intro h
    have hstore : Keeps (fun m => m.pc) (storeTo (Handle.decode h) v) := fun _ => rfl
    exact hstore.bind fun w => keeps_pc_pushing w
  | pop =>
    cases hlen
    exact advances_of_keeps ((keeps_pc_onStack _).bind fun _ => keeps_pure _)
  | step up before =>
    cases hlen
    apply advances_of_keeps
    apply (keeps_pc_onStack _).bind
    intro h
    apply (keeps_loadFrom _).bind
    intro old
    have hstore : Keeps (fun m => m.pc) (storeTo (Handle.decode h) (old + if up then 1 else -1)) := fun _ => rfl
    exact hstore.bind fun new => keeps_pc_pushing _
  | func =>
    cases hlen
    change Advances _ (2 + 1)
    apply (advances_fetch 2).bind
    intro size
    exact (advances_fetch 1).keeping fun argc => (keeps_pc_openFrame _ _).bind fun _ => keeps_pure _
  | exit =>
    cases hlen
    have hhalt : Keeps (fun m => m.pc) (modify halt) := keeps_modify fun _ => rfl
    exact advances_of_keeps (hhalt.bind fun _ => keeps_pure _)
  | space =>
    cases hlen
    apply (advances_fetch 2).keeping
    intro size
    apply (keeps_frameEnd _ _).bind
    intro top
    have hclaim : Keeps (fun m => m.pc) (modify fun m => { m with base := top, base2 := top }) :=
      keeps_modify fun _ => rfl
    exact hclaim.bind fun _ => keeps_pure _

theorem pop_eq_ok_iff {v : Int32} :
    pop m = .ok v m'
      ↔ m.stack.items.back? = some v ∧ m' = { m with stack := { m.stack with items := m.stack.items.pop } } := by
  unfold pop
  rw [onStack_eq_ok_iff]
  unfold Stack.pop
  cases m.stack.items.back? with
  | none => simp
  | some w => simp [and_assoc]

theorem pc_of_branch {test : Int32 → Bool} {p : Progress} (htest : m.stack.items.back?.any test = false)
    (h : (fetch 3 >>= fun target => pop >>= fun v =>
      if test v then do jump target.toNat; pure Progress.running else pure Progress.running : Exec Progress) m = .ok p m')
    : m'.pc = m.pc + 3 := by
  obtain ⟨target, m1, hfetch, hrest⟩ := bind_eq_ok_iff.mp h
  obtain ⟨-, -, rfl⟩ := fetch_eq_ok_iff.mp hfetch
  obtain ⟨v, m2, hpop, hbranch⟩ := bind_eq_ok_iff.mp hrest
  obtain ⟨hback, rfl⟩ := pop_eq_ok_iff.mp hpop
  rw [show m.stack.items.back? = some v from hback, Option.any_some] at htest
  rw [htest] at hbranch
  cases hbranch
  rfl

end Advances

section Lengths

variable {mask : UInt8} {rest : List UInt8} {layout : Layout} {len : Nat}

theorem operandLength?_of_fixedLength (h : layout.fixedLength = some len) :
    operandLength? layout mask rest = if len ≤ rest.length then some len else none := by
  cases layout with
  | str | data => cases h
  | _ =>
    cases h
    simp [operandLength?, Layout.fixedLength, Option.filter_some]

theorem eq_of_operandLength? {n : Nat} (hfixed : layout.fixedLength = some len)
    (h : operandLength? layout mask rest = some n) : n = len := by
  rw [operandLength?_of_fixedLength hfixed] at h
  split at h
  next => exact (Option.some.inj h).symm
  next => cases h

theorem operandLength?_str : operandLength? .str mask rest = (rest.findIdx? (· == mask)).map (· + 1) := by
  change ((rest.findIdx? (· == mask)).map (· + 1)).filter _ = _
  cases hindex : rest.findIdx? (· == mask) with
  | none => rfl
  | some i =>
    rw [List.findIdx?_eq_some_iff_getElem] at hindex
    obtain ⟨hlt, -⟩ := hindex
    simp [Option.filter_some, Nat.succ_le_of_lt hlt]

theorem operandLength?_data :
    operandLength? .data mask rest
      =
    if 4 + valueOf ((rest.drop 2).take 2) ≤ rest.length then some (4 + valueOf ((rest.drop 2).take 2)) else none := by
  unfold operandLength?
  dsimp only
  split
  next => rw [Option.filter_some]; simp
  next h =>
    rw [if_neg (by omega)]
    rfl

theorem length_maskedString? (image : Array UInt8) (mask : UInt8) (pos : Nat) :
    (maskedString? image mask pos).map List.length = (image.toList.drop pos).findIdx? (· == mask) := by
  fun_induction maskedString? image mask pos with
  | case1 pos hlt b hzero =>
    rw [List.drop_eq_getElem_cons hlt, List.findIdx?_cons, if_pos]
    · rfl
    · simpa [b, UInt8.xor_eq_zero_iff] using hzero
  | case2 pos hlt b hzero ih =>
    rw [List.drop_eq_getElem_cons hlt, List.findIdx?_cons, if_neg]
    · rw [← ih, Option.map_map, Option.map_map]
      rfl
    · simpa [b, UInt8.xor_eq_zero_iff] using hzero
  | case3 pos hge =>
    rw [List.drop_eq_nil_of_le (Nat.not_lt.mp hge)]
    rfl

end Lengths

section Operands

variable {op : Opcode} {len : Nat} {p : Progress}

def operandBytes? (m : Machine) (op : Opcode) : Option Nat :=
  operandLength? op.layout m.header.mask (m.image.toList.drop m.pc)

theorem fetchString_eq_ok_iff {bytes : List UInt8} :
    fetchString m = .ok bytes m'
      ↔ maskedString? m.image m.header.mask m.pc = some bytes ∧ m' = { m with pc := m.pc + bytes.length + 1 } := by
  unfold fetchString
  cases maskedString? m.image m.header.mask m.pc with
  | none => simp
  | some bytes' =>
    simp only [EStateM.Result.ok.injEq, Option.some.injEq]
    grind

theorem operandBytes?_pushStr :
    m.operandBytes? .pushStr = (maskedString? m.image m.header.mask m.pc).map fun bytes => bytes.length + 1 := by
  rw [operandBytes?, show Opcode.pushStr.layout = .str from rfl, operandLength?_str, ← length_maskedString?,
    Option.map_map]
  rfl

theorem toNat_codeLE_two {pos : Nat} (h : pos + 2 ≤ m.image.size) :
    (codeLE m.image pos 2).toNat = valueOf ((m.image.toList.drop pos).take 2) := by
  have hsplit := (List.take_append_drop 2 (m.image.toList.drop pos)).symm
  have hlength : ((m.image.toList.drop pos).take 2).length = 2 := by
    rw [List.length_take, List.length_drop, Array.length_toList]
    omega
  have hvalue := toNat_codeLE hsplit (by omega)
  rwa [hlength] at hvalue

theorem operandBytes?_init (h : m.pc + 2 + 2 ≤ m.image.size) :
    m.operandBytes? .init
      =
    if m.pc + 2 + 2 + (codeLE m.image (m.pc + 2) 2).toNat ≤ m.image.size then
      some (4 + (codeLE m.image (m.pc + 2) 2).toNat)
    else none := by
  rw [operandBytes?, show Opcode.init.layout = .data from rfl, operandLength?_data, List.drop_drop,
    ← toNat_codeLE_two (by omega), List.length_drop, Array.length_toList]
  split
  next hle => rw [if_pos (by omega)]
  next hlt => rw [if_neg (by omega)]

theorem operandBytes?_of_fixedLength (h : op.layout.fixedLength = some len) :
    m.operandBytes? op = if len ≤ m.image.size - m.pc then some len else none := by
  rw [operandBytes?, operandLength?_of_fixedLength h, List.length_drop, Array.length_toList]

theorem keeps_pc_literal (bytes : List UInt8) : Keeps (fun m => m.pc) (modifyGet fun m => m.literal m.lastPc bytes) := by
  apply keeps_modifyGet
  intro m
  unfold literal
  split <;> rfl

theorem copyCode_eq_ok {addr : UInt16} {u : Unit} (h : copyCode addr len m = .ok u m') : m'.pc = m.pc + len := by
  unfold copyCode at h
  split at h
  next =>
    cases h
    rfl
  next => cases h

theorem pc_of_pushStr (hlen : m.operandBytes? .pushStr = some len) (h : execute .pushStr m = .ok p m') :
    m'.pc = m.pc + len := by
  obtain ⟨bytes, m1, hfetch, hrest⟩ := bind_eq_ok_iff.mp h
  obtain ⟨hbytes, rfl⟩ := fetchString_eq_ok_iff.mp hfetch
  rw [operandBytes?_pushStr, hbytes] at hlen
  cases hlen
  exact advances_of_keeps ((keeps_pc_literal bytes).bind fun addr => keeps_pc_pushing _) _ _ _ hrest

theorem pc_of_init (hlen : m.operandBytes? .init = some len) (h : execute .init m = .ok p m') : m'.pc = m.pc + len := by
  obtain ⟨addr, m1, hfetch, hrest⟩ := bind_eq_ok_iff.mp h
  obtain ⟨-, -, rfl⟩ := fetch_eq_ok_iff.mp hfetch
  obtain ⟨size, m2, hfetch, hrest⟩ := bind_eq_ok_iff.mp hrest
  obtain ⟨hroom, rfl, rfl⟩ := fetch_eq_ok_iff.mp hfetch
  obtain ⟨_, m3, hcopy, hdone⟩ := bind_eq_ok_iff.mp hrest
  cases hdone
  have hcopied : m'.pc = m.pc + 2 + 2 + (codeLE m.image (m.pc + 2) 2).toNat := copyCode_eq_ok hcopy
  rw [operandBytes?_init hroom] at hlen
  split at hlen
  next =>
    cases hlen
    omega
  next => cases hlen

theorem pc_of_execute (hlen : m.operandBytes? op = some len) (hop : op.diverts m = false)
    (h : execute op m = .ok p m') : m'.pc = m.pc + len := by
  cases hfixed : op.layout.fixedLength with
  | some n =>
    obtain rfl := eq_of_operandLength? hfixed hlen
    cases op with
    | jmp | call | ret => cases hop
    | jz | jnz =>
      cases hfixed
      exact pc_of_branch hop h
    | _ => exact advances_execute hfixed (by simp) _ _ _ h
  | none =>
    -- Only literals and data have a size that depends on their bytes.
    cases op with
    | pushStr => exact pc_of_pushStr hlen h
    | init => exact pc_of_init hlen h
    | push w => cases w <;> cases hfixed
    | _ => cases hfixed

end Operands

section Truncated

variable {α β : Type} {act : Exec α} {f : α → Exec β} {op : Opcode} {len : Nat}

def Overruns (act : Exec α) (m : Machine) : Prop :=
  ∃ pos m', act m = .error (.imageOverrun pos) m'

theorem Overruns.bind (h : Overruns act m) : Overruns (act >>= f) m := by
  obtain ⟨pos, m', hact⟩ := h
  exact ⟨pos, m', bind_eq_error hact⟩

theorem Overruns.of_bind {a : α} (hact : act m = .ok a m') (h : Overruns (f a) m') : Overruns (act >>= f) m := by
  obtain ⟨pos, m'', hrest⟩ := h
  exact ⟨pos, m'', (bind_eq_ok hact).trans hrest⟩

theorem overruns_fetch (h : m.image.size < m.pc + len) : Overruns (fetch len) m :=
  ⟨m.pc, m, fetch_of_lt h⟩

theorem overruns_fetch_fetch {len' : Nat} {f : UInt32 → UInt32 → Exec β} (h : m.image.size < m.pc + (len + len')) :
    Overruns (fetch len >>= fun a => fetch len' >>= f a) m := by
  rcases Nat.lt_or_ge m.image.size (m.pc + len) with hshort | hroom
  · exact (overruns_fetch hshort).bind
  · apply Overruns.of_bind (fetch_of_le hroom)
    apply Overruns.bind
    apply overruns_fetch
    change m.image.size < m.pc + len + len'
    omega

theorem overruns_pushStr (h : m.operandBytes? .pushStr = none) : Overruns (execute .pushStr) m := by
  rw [operandBytes?_pushStr, Option.map_eq_none_iff] at h
  have hfetch : Overruns fetchString m := by
    refine ⟨m.image.size, { m with pc := m.image.size }, ?_⟩
    unfold fetchString
    rw [h]
  exact hfetch.bind

theorem overruns_init (h : m.operandBytes? .init = none) : Overruns (execute .init) m := by
  rcases Nat.lt_or_ge m.image.size (m.pc + (2 + 2)) with hshort | hroom
  · exact overruns_fetch_fetch hshort
  · rw [operandBytes?_init (by omega)] at h
    split at h
    next => cases h
    next hlong =>
      apply Overruns.of_bind (fetch_of_le (by omega))
      apply Overruns.of_bind (fetch_of_le (by change m.pc + 2 + 2 ≤ m.image.size; omega))
      apply Overruns.bind
      exact ⟨m.pc + 2 + 2, _, if_neg hlong⟩

theorem overruns_execute (h : m.operandBytes? op = none) : Overruns (execute op) m := by
  cases hfixed : op.layout.fixedLength with
  | some n =>
    rw [operandBytes?_of_fixedLength hfixed, ite_eq_right_iff] at h
    have hshort : m.image.size < m.pc + n := by
      by_contra hroom
      cases h (by omega)
    cases op with
    | push w => cases w <;> cases hfixed <;> exact (overruns_fetch hshort).bind
    | access | jmp | jz | jnz | call | space =>
      cases hfixed
      exact (overruns_fetch hshort).bind
    | func =>
      cases hfixed
      exact overruns_fetch_fetch hshort
    | pushStr | init => cases hfixed
    | _ =>
      cases hfixed
      cases h (Nat.zero_le _)
  | none =>
    cases op with
    | pushStr => exact overruns_pushStr h
    | init => exact overruns_init h
    | push w => cases w <;> cases hfixed
    | _ => cases hfixed

end Truncated

section Decoding

variable {b : UInt8} {rest : List UInt8} {d : Decoded} {n : Nat}

inductive Listed (mask b : UInt8) (rest : List UInt8) : Decoded × Nat → Prop where
  | call (h : Call.firstCode ≤ b) : Listed mask b rest (.sys b, 0)
  | unknown (hlow : b < Call.firstCode) (h : Opcode.ofCode? b = none) : Listed mask b rest (.byte b, 0)
  | cut {op : Opcode} (hop : b = op.code) (h : operandLength? op.layout mask rest = none) :
    Listed mask b rest (.byte b, 0)
  | op {op : Opcode} {n : Nat} (hop : b = op.code) (h : operandLength? op.layout mask rest = some n) :
    Listed mask b rest (.op op (rest.take n), n)

theorem listed_decode (mask b : UInt8) (rest : List UInt8) : Listed mask b rest (decode mask b rest) := by
  unfold decode
  split
  next hfirst => exact .call hfirst
  next hlow =>
    cases hop : Opcode.ofCode? b with
    | none => exact .unknown (UInt8.not_le.mp hlow) hop
    | some op =>
      have hcode := (Opcode.code_of_ofCode? hop).symm
      dsimp only
      cases hlen : operandLength? op.layout mask rest with
      | none => exact .cut hcode hlen
      | some n => exact .op hcode hlen

theorem pc_of_libraryCall {code : UInt8} (h : libraryCall code m = .ok .running m') : m'.pc = m.pc := by
  have hcalls := calls_libraryCall m code
  generalize libraryCall code m = r at hcalls h
  cases hcalls with
  | unknown => exact advances_of_keeps (keeps_pc_pushing 0) _ _ _ h
  | blocked => cases h
  | short => cases h
  | @done c args m1 _ _ hargs =>
    have htake : Keeps (fun m : Machine => m.pc) (takeArgs c.signature) := keeps_takeArgs (fun _ _ => rfl) _
    have hspared : SparedByCall (fun m : Machine => m.pc) c := {}
    have hanswer (value : Int32) : Keeps (fun m : Machine => m.pc) (answer c.signature value) :=
      keeps_answer (fun _ _ => rfl) _ _
    calc m'.pc
      _ = ((m1.called args).dispatch c (args.drop c.signature.args)).2.pc := advances_of_keeps (hanswer _) _ _ _ h
      _ = (m1.called args).pc := hspared.dispatch _ _
      _ = m.pc := advances_of_keeps htake m args m1 hargs

theorem ofCode?_of_call (h : Call.firstCode ≤ b) : Opcode.ofCode? b = none := by
  cases hop : Opcode.ofCode? b with
  | none => rfl
  | some op =>
    have hlow := op.code_lt
    rw [Opcode.code_of_ofCode? hop] at hlow
    exact absurd hlow (Nat.not_lt.mpr (UInt8.le_iff_toNat_le.mp h))

theorem step_eq_invalid (h : m.Live) (hnone : Opcode.ofCode? m.opcodeByte = none)
    (hcall : Call.firstCode ≤ m.opcodeByte → Call.lastCode < m.opcodeByte)
    : step m = .error (.invalidOpcode m.opcodeByte) m.begun := by
  have hother : ¬(Call.firstCode ≤ m.opcodeByte && m.opcodeByte ≤ Call.lastCode) = true := by
    simp only [Bool.and_eq_true, decide_eq_true_eq, not_and, UInt8.not_le]
    exact hcall
  rw [step_eq_of_live h, carryOut, if_neg hother, hnone]
  rfl

section Standing

variable (hready : m.Ready) (hat : m.image.toList.drop m.pc = b :: rest)
  (hdecode : decode m.header.mask b rest = (d, n))

include hat

theorem opcodeByte_of_drop : m.opcodeByte = b := by
  rw [opcodeByte, Array.getD_eq_getD_getElem?, ← Array.getElem?_toList, ← List.head?_drop, hat]
  rfl

theorem pc_lt_of_drop : m.pc < m.image.size := by
  have hlength := congrArg List.length hat
  simp only [List.length_drop, Array.length_toList, List.length_cons] at hlength
  omega

theorem operandBytes?_begun (op : Opcode) : m.begun.operandBytes? op = operandLength? op.layout m.header.mask rest := by
  have hrest : m.image.toList.drop (m.pc + 1) = rest := by
    rw [← List.tail_drop, hat]
    rfl
  rw [← hrest]
  rfl

include hready

theorem live_of_drop : m.Live :=
  ⟨hready, pc_lt_of_drop hat⟩

include hdecode

theorem fault_of_byte {c : UInt8} (hd : d = .byte c) :
    ∃ e m', step m = .error e m' ∧ (e = .invalidOpcode b ∨ ∃ pos, e = .imageOverrun pos) := by
  have hlive := live_of_drop hready hat
  have hbyte := opcodeByte_of_drop hat
  have hlisted := listed_decode m.header.mask b rest
  rw [hdecode, hd] at hlisted
  cases hlisted with
  | unknown hlow hnone =>
    refine ⟨_, m.begun, step_eq_invalid hlive (hbyte ▸ hnone) ?_, .inl (by rw [hbyte])⟩
    intro hfirst
    rw [hbyte] at hfirst
    exact absurd hlow (UInt8.not_lt.mpr hfirst)
  | cut hop hcut =>
    rw [← operandBytes?_begun hat] at hcut
    obtain ⟨pos, m', hrun⟩ := overruns_execute hcut
    exact ⟨_, m', (step_eq_execute hlive (hbyte.trans hop)).trans hrun, .inr ⟨pos, rfl⟩⟩

theorem pc_of_step (hd : d.diverts m = false) (hstep : step m = .ok .running m') : m'.pc = m.pc + (1 + n) := by
  have hlive := live_of_drop hready hat
  have hbyte := opcodeByte_of_drop hat
  have hlisted := listed_decode m.header.mask b rest
  rw [hdecode] at hlisted
  cases hlisted with
  | unknown | cut =>
    obtain ⟨e, m'', hfault, -⟩ := fault_of_byte hready hat hdecode rfl
    cases hstep.symm.trans hfault
  | call hfirst =>
    rw [← hbyte] at hfirst
    by_cases hlast : m.opcodeByte ≤ Call.lastCode
    · rw [step_eq_libraryCall hlive hfirst hlast] at hstep
      exact pc_of_libraryCall hstep
    · cases hstep.symm.trans (step_eq_invalid hlive (ofCode?_of_call hfirst) fun _ => UInt8.not_le.mp hlast)
  | op hop hlen =>
    rw [step_eq_execute hlive (hbyte.trans hop)] at hstep
    rw [← operandBytes?_begun hat] at hlen
    have hpc := pc_of_execute hlen hd hstep
    rw [hpc, ← Nat.add_assoc]
    rfl

theorem return_of_step {operands : List UInt8} (hd : d = .op .call operands) (hstep : step m = .ok .running m') :
    m'.base = m.base2 ∧ (m'.memory.readLE m'.base 3).toNat = (m.pc + (1 + n)) % 2 ^ 24 := by
  have hlive := live_of_drop hready hat
  have hbyte := opcodeByte_of_drop hat
  have hlisted := listed_decode m.header.mask b rest
  rw [hdecode, hd] at hlisted
  cases hlisted with
  | op hop hlen =>
    obtain ⟨-, hbelow, hbase, -, hmemory⟩ := step_call ⟨hlive, hbyte.trans hop⟩ hstep
    obtain rfl : n = 3 := eq_of_operandLength? rfl hlen
    refine ⟨hbase, ?_⟩
    rw [hbase, hmemory]
    exact toNat_readLE_header _ _ _ hbelow

end Standing

end Decoding

/--
A listing cuts code where the machine does. At every position of a loaded image, an instruction or a call that goes on
behind itself goes on where the next one is listed, a call of a function notes that address for its return, and what is
listed as a byte alone faults.
-/
theorem listing_boundaries {image : Array UInt8} {header : Header} {offset n : Nat} {b : UInt8} {rest : List UInt8}
    {d : Decoded} (hheader : Header.parse image.toList = .ok header) (himage : m.Has image) (hhalted : m.halted = false)
    (hpc : m.pc = Header.length + offset) (hcode : (image.toList.drop Header.length).drop offset = b :: rest)
    (hdecode : decode header.mask b rest = (d, n))
    : (∀ m', step m = .ok .running m' → d.diverts m = false → m'.pc = Header.length + offset + (1 + n))
      ∧ (∀ m' operands, step m = .ok .running m' → d = .op .call operands →
        m'.base = m.base2 ∧ (m'.memory.readLE m'.base 3).toNat = (Header.length + offset + (1 + n)) % 2 ^ 24)
      ∧ ∀ c, d = .byte c →
        ∃ e m', step m = .error e m' ∧ (e = .invalidOpcode b ∨ ∃ pos, e = .imageOverrun pos) := by
  obtain ⟨hloaded, rfl, hparsed⟩ := himage
  obtain rfl : m.header = header := Except.ok.inj (hparsed.symm.trans hheader)
  have hready : m.Ready := ⟨hloaded, hhalted⟩
  rw [List.drop_drop, ← hpc] at hcode
  rw [← hpc]
  refine ⟨?_, ?_, ?_⟩
  · intro m' hstep hd
    exact pc_of_step hready hcode hdecode hd hstep
  · intro m' operands hstep hd
    exact return_of_step hready hcode hdecode hd hstep
  · intro c hd
    exact fault_of_byte hready hcode hdecode hd

def cutOff : Array UInt8 :=
  (({} : Header).toBytes ++ [0x3C, 0, 0x20, 9, 0, 1]).toArray

theorem listing_boundaries_calling :
    (ran calling 2).pc = Header.length + 5
      ∧ ((ran calling 3).memory.readLE (ran calling 3).base 3).toNat = Header.length + 9
      ∧ ∃ e m', step (ran cutOff 0) = .error e m' ∧ (e = .invalidOpcode 0x3C ∨ ∃ pos, e = .imageOverrun pos) := by
  have hhas (image : Array UInt8) (hload : ({} : Machine).load image = .ok (ran image 0)) (n : Nat) :
      (ran image n).Has (ran image n).image := by
    have hreached : Reached (fun _ => True) (ran image n) := reached_ran hload n fun _ _ => trivial
    exact has_of_reached hreached
  obtain ⟨hgoesOn, hhalted, hpc, hheader, hcode⟩ :
      (goesOn (step (ran calling 1)) = true ∧ goesOn (step (ran calling 2)) = true)
        ∧ ((ran calling 1).halted = false ∧ (ran calling 2).halted = false ∧ (ran cutOff 0).halted = false)
        ∧ ((ran calling 1).pc = Header.length + 3 ∧ (ran calling 2).pc = Header.length + 5
          ∧ (ran cutOff 0).pc = Header.length + 0)
        ∧ (Header.parse (ran calling 1).image.toList = .ok {} ∧ Header.parse (ran calling 2).image.toList = .ok {}
          ∧ Header.parse (ran cutOff 0).image.toList = .ok {})
        ∧ ((ran calling 1).image.toList.drop Header.length).drop 3
          = [0x01, 7, 0x37, 26, 0, 0, 0x3A, 0x38, 9, 0, 1, 0x39]
        ∧ ((ran calling 2).image.toList.drop Header.length).drop 5 = [0x37, 26, 0, 0, 0x3A, 0x38, 9, 0, 1, 0x39]
        ∧ ((ran cutOff 0).image.toList.drop Header.length).drop 0 = [0x3C, 0, 0x20, 9, 0, 1] := by
    decide +kernel
  obtain ⟨hdecodePush, hdecodeCall, hdecodeCut⟩ :
      decode 0 0x01 [7, 0x37, 26, 0, 0, 0x3A, 0x38, 9, 0, 1, 0x39] = (.op (.push .byte) [7], 1)
        ∧ decode 0 0x37 [26, 0, 0, 0x3A, 0x38, 9, 0, 1, 0x39] = (.op .call [26, 0, 0], 3)
        ∧ decode 0 0x3C [0, 0x20, 9, 0, 1] = (.byte 0x3C, 0) := by
    decide +kernel
  have hpush := listing_boundaries hheader.1 (hhas calling rfl 1) hhalted.1 hpc.1 hcode.1 hdecodePush
  have hcall := listing_boundaries hheader.2.1 (hhas calling rfl 2) hhalted.2.1 hpc.2.1 hcode.2.1 hdecodeCall
  have hcut := listing_boundaries hheader.2.2 (hhas cutOff rfl 0) hhalted.2.2 hpc.2.2 hcode.2.2 hdecodeCut
  refine ⟨?_, ?_, ?_⟩
  · exact hpush.1 _ (step_eq_of_goesOn hgoesOn.1) rfl
  · exact (hcall.2.1 _ _ (step_eq_of_goesOn hgoesOn.2) rfl).2
  · exact hcut.2.2 _ rfl

end Machine
end Handheld
