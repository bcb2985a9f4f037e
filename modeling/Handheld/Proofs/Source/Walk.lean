import Handheld.Proofs.Arith
import Handheld.Proofs.Asm.Standing
import Handheld.Source.Emit

/-!
Code at work on the stack, while the memory is watched; what is seen of the memory is left open.
-/
namespace Handheld

namespace Asm

variable {image : Array UInt8} {address : Label → Option Nat} {pos : Nat} {l : Label}

theorem Code.stands_cons_cons {line line' : Line} {rest : Code} :
    Code.Stands image address pos (line :: line' :: rest)
      ↔ Code.Stands image address pos [line] ∧ Code.Stands image address (pos + line.size) (line' :: rest) := by
  simp only [Code.Stands, and_true]

theorem Code.stands_label : Code.Stands image address pos [.label l] ↔ address l = some pos := by
  simp only [Code.Stands, Line.Stands, and_true]

end Asm

namespace Source

open Asm

theorem size_label {l : Label} : (Line.label l).size = 0 :=
  rfl

theorem extent_append_label (code : Code) (l : Label) : Code.extent (code ++ [.label l]) = code.extent := by
  rw [Code.extent_append, Code.extent_cons, Code.extent_nil, size_label, Nat.add_zero]

theorem size_jmp {l : Label} : (Line.op .jmp [.label l]).size = 4 :=
  rfl

theorem size_jz {l : Label} : (Line.op .jz [.label l]).size = 4 :=
  rfl

theorem pushInt_eq (n : Int32) :
    ∃ w, pushInt n = .op (.push w) [.int n.toInt]
      ∧ (w = .byte → 0 ≤ n.toInt ∧ n.toInt ≤ 255)
      ∧ (w = .word → -0x8000 ≤ n.toInt ∧ n.toInt ≤ 0x7FFF) := by
  unfold pushInt
  dsimp only
  split
  next hbyte =>
    simp only [Bool.and_eq_true, decide_eq_true_eq, Int32.le_iff_toInt_le] at hbyte
    exact ⟨.byte, rfl, fun _ => hbyte, nofun⟩
  next =>
    split
    next hword =>
      simp only [Bool.and_eq_true, decide_eq_true_eq, Int32.le_iff_toInt_le] at hword
      exact ⟨.word, rfl, nofun, fun _ => hword⟩
    next => exact ⟨.dword, rfl, nofun, nofun⟩

theorem toUInt32_operand (w : Width) (n : Int32) :
    (UInt32.ofNat (n.toInt % 256 ^ w.bytes).toNat).toNat = n.toUInt32.toNat % 256 ^ w.bytes := by
  have hint := toInt_eq_or n
  have hlt := n.toBitVec.isLt
  have hnat : n.toUInt32.toNat = n.toBitVec.toNat := rfl
  rw [UInt32.toNat_ofNat', hnat]
  cases w with
  | byte | word | dword => simp only [Width.bytes]; omega

theorem eq_of_toUInt32 {n k : Int32} (h : n.toUInt32.toNat = k.toUInt32.toNat) : n = k := by
  rw [← Int32.toBitVec_inj]
  exact BitVec.eq_of_toNat_eq h

structure Walk (α : Type) where
  m : Machine
  address : Label → Option Nat
  ready : m.Ready
  view : Memory → α
  Keeps : Memory → Memory → Prop
  refl : ∀ memory, Keeps memory memory
  trans : ∀ {memory1 memory2 memory3}, Keeps memory1 memory2 → Keeps memory2 memory3 → Keeps memory1 memory3

namespace Walk

variable {α : Type} {W : Walk α} {pos : Nat} {stack stack' : List Int32} {x x' : α}

def Leads (W : Walk α) (s s' : Nat × List Int32 × α) : Prop :=
  ∀ memory, W.view memory = s.2.2 →
    ∃ memory', W.m.Runs ⟨s.1, s.2.1, memory⟩ ⟨s'.1, s'.2.1, memory'⟩
      ∧ W.view memory' = s'.2.2 ∧ W.Keeps memory memory'

theorem Leads.refl (s : Nat × List Int32 × α) : W.Leads s s :=
  fun memory hmemory => ⟨memory, .refl _ _, hmemory, W.refl memory⟩

theorem Leads.trans {s s1 s' : Nat × List Int32 × α} (h : W.Leads s s1) (h' : W.Leads s1 s') : W.Leads s s' := by
  intro memory hmemory
  obtain ⟨memory1, hrun, hview, hkeeps⟩ := h memory hmemory
  obtain ⟨memory', hrun', hview', hkeeps'⟩ := h' memory1 hview
  exact ⟨memory', hrun.trans hrun', hview', W.trans hkeeps hkeeps'⟩

theorem Leads.of_runs {pc pc' : Nat} (h : ∀ memory, W.m.Runs ⟨pc, stack, memory⟩ ⟨pc', stack', memory⟩) :
    W.Leads ⟨pc, stack, x⟩ ⟨pc', stack', x⟩ :=
  fun memory hmemory => ⟨memory, h memory, hmemory, W.refl memory⟩

theorem Leads.of_eq {pc pc' : Nat} (h : pc = pc') : W.Leads ⟨pc, stack, x⟩ ⟨pc', stack, x⟩ := by
  rw [h]
  exact .refl _

def Does (W : Walk α) (code : Code) (s s' : List Int32 × α) : Prop :=
  ∀ pos, Code.Stands W.m.image W.address pos code → W.Leads ⟨pos, s⟩ ⟨pos + code.extent, s'⟩

theorem Does.append {code code' : Code} {s s1 s' : List Int32 × α} (h : W.Does code s s1) (h' : W.Does code' s1 s')
    : W.Does (code ++ code') s s' := by
  intro pos hstands
  obtain ⟨hcode, hcode'⟩ := Code.stands_append.mp hstands
  rw [Code.extent_append, ← Nat.add_assoc]
  exact (h pos hcode).trans (h' _ hcode')

theorem Does.nil (s : List Int32 × α) : W.Does [] s s :=
  fun _ _ => .refl _

theorem does_op {op : Opcode} (hlayout : op.layout = .none) (h : ∀ pos memory, Machine.Stands W.m.image pos op 0 →
      W.m.Runs ⟨pos, stack, memory⟩ ⟨pos + 1, stack', memory⟩)
    : W.Does [.op op []] (stack, x) (stack', x) := by
  intro pos hstands
  have hsize : (Line.op op []).size = 1 := Line.size_op (by rw [hlayout]; rfl) []
  rw [Code.extent_cons, Code.extent_nil, hsize]
  exact .of_runs fun memory => h pos memory (hstands.1 hlayout)

def ofMachine (m : Machine) (address : Label → Option Nat) (ready : m.Ready) : Walk Memory where
  m := m
  address := address
  ready := ready
  view := id
  Keeps _ _ := True
  refl _ := trivial
  trans _ _ := trivial

theorem Does.runs {m : Machine} {address : Label → Option Nat} {ready : m.Ready} {code : Code} {memory : Memory}
    (h : (ofMachine m address ready).Does code (stack, memory) (stack', memory))
    (hstands : Code.Stands m.image address pos code)
    : m.Runs ⟨pos, stack, memory⟩ ⟨pos + code.extent, stack', memory⟩ := by
  obtain ⟨memory', hruns, hmemory, -⟩ := h pos hstands memory rfl
  cases hmemory
  exact hruns

section Instructions

variable {n a b : Int32} {memory : Memory}

theorem runs_pushInt (hstands : Code.Stands W.m.image W.address pos [pushInt n]) (hroom : stack.length < W.m.stack.limit) :
    W.m.Runs ⟨pos, stack, memory⟩ ⟨pos + Code.extent [pushInt n], n :: stack, memory⟩ := by
  obtain ⟨w, heq, hbyte, hword⟩ := pushInt_eq n
  rw [heq] at hstands ⊢
  have hlen : (Opcode.push w).layout.fixedLength = some w.bytes := by cases w <;> rfl
  have hop := hstands.1 (by cases w <;> rfl)
  rw [hlen, Option.getD_some] at hop
  have hoperand := toUInt32_operand w n
  have hnat : n.toUInt32.toNat = n.toBitVec.toNat := rfl
  have hint := toInt_eq_or n
  cases w with
  | byte =>
    have hvalue : (UInt32.ofNat (n.toInt % 256 ^ Width.byte.bytes).toNat).toInt32 = n := by
      have hrange := hbyte rfl
      apply eq_of_toUInt32
      rw [UInt32.toUInt32_toInt32, hoperand, hnat, Width.bytes]
      omega
    have hrun : W.m.Runs ⟨pos, stack, memory⟩ _ := Machine.runs_of_push W.ready hroom rfl rfl hop
    rwa [hvalue] at hrun
  | word =>
    have hvalue : Width.word.normalize (UInt32.ofNat (n.toInt % 256 ^ Width.word.bytes).toNat).toInt32
        = n := by
      obtain ⟨hlo, hhi⟩ := hword rfl
      rw [Width.normalize_congr (y := n) (by rw [UInt32.toUInt32_toInt32, hoperand, Nat.mod_mod])]
      rw [Width.normalize_eq_fit, Width.fit, Int.bmod_eq_of_le (by omega) (by omega), Int32.ofInt_toInt]
    have hrun : W.m.Runs ⟨pos, stack, memory⟩ _ := Machine.runs_of_push W.ready hroom rfl rfl hop
    rwa [hvalue] at hrun
  | dword =>
    have hvalue : (UInt32.ofNat (n.toInt % 256 ^ Width.dword.bytes).toNat).toInt32 = n := by
      apply eq_of_toUInt32
      rw [UInt32.toUInt32_toInt32, hoperand, hnat, Width.bytes]
      omega
    have hrun : W.m.Runs ⟨pos, stack, memory⟩ _ := Machine.runs_of_push W.ready hroom rfl rfl hop
    rwa [hvalue] at hrun

theorem does_pop : W.Does [.op .pop] (a :: stack, x) (stack, x) :=
  does_op rfl fun _ _ hop => (Machine.goes_pop W.ready hop).runs

variable (hroom : stack.length < W.m.stack.limit)

include hroom

theorem does_pushInt (n : Int32) : W.Does [pushInt n] (stack, x) (n :: stack, x) :=
  fun _ hstands => .of_runs fun _ => runs_pushInt hstands hroom

theorem does_neg : W.Does [.op .neg] (a :: stack, x) (-a :: stack, x) :=
  does_op rfl fun _ _ hop => Machine.runs_of_unary W.ready hroom rfl hop

theorem does_not : W.Does [.op .not] (a :: stack, x) (~~~a :: stack, x) :=
  does_op rfl fun _ _ hop => Machine.runs_of_unary W.ready hroom rfl hop

theorem does_lnot : W.Does [.op .lnot] (a :: stack, x) (truth (a == 0) :: stack, x) :=
  does_op rfl fun _ _ hop => Machine.runs_of_unary W.ready hroom rfl hop

theorem does_binary (op : Binary) : W.Does [.op (.binary op)] (b :: a :: stack, x) (op.apply a b :: stack, x) :=
  does_op rfl fun _ _ hop => Machine.runs_binary W.ready hroom hop

end Instructions

section Jumps

variable {l otherwise stop : Label} {a b : Int32} {target : Nat} {code : Code} {memory : Memory}

theorem runs_jmp (h : Code.Stands W.m.image W.address pos [.op .jmp [.label l]]) (htarget : W.address l = some target) :
    W.m.Runs ⟨pos, stack, memory⟩ ⟨target, stack, memory⟩ := by
  obtain ⟨t, ht, haddress, hop⟩ := h.1 rfl
  cases haddress.symm.trans htarget
  exact (Machine.goes_jmp W.ready hop (by omega)).runs

theorem leads_jmp (h : Code.Stands W.m.image W.address pos [.op .jmp [.label l]]) (htarget : W.address l = some target) :
    W.Leads ⟨pos, stack, x⟩ ⟨target, stack, x⟩ :=
  .of_runs fun _ => runs_jmp h htarget

theorem runs_decides (both : Bool) (h : Code.Stands W.m.image W.address pos [.op (if both then .jz else .jnz) [.label l]])
    (htarget : W.address l = some target)
    : W.m.Runs ⟨pos, a :: stack, memory⟩ ⟨if (a != 0) == both then pos + 4 else target, stack, memory⟩ := by
  obtain ⟨t, ht, haddress, hop⟩ := h.1 (by cases both <;> rfl)
  cases haddress.symm.trans htarget
  exact Machine.runs_decides W.ready both hop (by omega)

theorem leads_decides (both : Bool) (h : Code.Stands W.m.image W.address pos [.op (if both then .jz else .jnz) [.label l]])
    (htarget : W.address l = some target)
    : W.Leads ⟨pos, a :: stack, x⟩ ⟨if (a != 0) == both then pos + 4 else target, stack, x⟩ :=
  .of_runs fun _ => runs_decides both h htarget

theorem does_branch {test yes no : Code} {s s' : List Int32 × α} (htest : W.Does test s (a :: stack, x))
    (hyes : a ≠ 0 → W.Does yes (stack, x) s') (hno : a = 0 → W.Does no (stack, x) s')
    : W.Does (test ++ [.op .jz [.label otherwise]] ++ yes ++ [.op .jmp [.label stop], .label otherwise]
        ++ no ++ [.label stop]) s s' := by
  intro pos hstands
  simp only [Code.stands_append, Code.stands_cons_cons, Code.stands_label, Code.extent_append, Code.extent_cons,
    Code.extent_nil, size_label, size_jmp, size_jz, Nat.add_zero, Nat.add_assoc] at hstands ⊢
  obtain ⟨⟨⟨⟨⟨hstest, hsjz⟩, hsyes⟩, hsjmp, hotherwise⟩, hsno⟩, hstop⟩ := hstands
  refine (htest pos hstest).trans ((leads_decides true hsjz hotherwise).trans ?_)
  by_cases ha : a = 0
  · have hlead := hno ha _ hsno
    simpa [ha, Nat.add_assoc] using hlead
  · rw [if_pos (by simpa using ha)]
    simp only [Nat.add_assoc]
    exact (hyes ha _ hsyes).trans (by simpa only [Nat.add_assoc] using leads_jmp hsjmp hstop)

def verdictCode (both : Bool) (short stop : Label) : Code :=
  [.op (if both then .jz else .jnz) [.label short], pushInt (if both then -1 else 0),
    .op .jmp [.label stop], .label short, pushInt (if both then 0 else -1), .label stop]

theorem leads_verdict {both : Bool} {short : Label} (h : Code.Stands W.m.image W.address pos (verdictCode both short stop))
    (hroom : stack.length < W.m.stack.limit)
    : (∀ b x, W.Leads ⟨pos, b :: stack, x⟩
          ⟨pos + (verdictCode both short stop).extent, truth (b != 0) :: stack, x⟩)
        ∧ ∃ target, W.address short = some target
          ∧ ∀ (a : Int32) x, ((a != 0) == both) = false → W.Leads ⟨target, stack, x⟩
            ⟨pos + (verdictCode both short stop).extent, truth (a != 0) :: stack, x⟩ := by
  have hjump : (Line.op (if both then .jz else .jnz) [.label short]).size = 4 := by cases both <;> rfl
  simp only [verdictCode, Code.stands_cons_cons, Code.stands_label, Code.extent_cons, Code.extent_nil,
    size_label, size_jmp, hjump, Nat.add_zero, Nat.zero_add, Nat.add_assoc] at h ⊢
  obtain ⟨hsjump, hsyes, hsjmp, hshort, hsno, hstop⟩ := h
  have hno : ∀ (a : Int32) (x : α), ((a != 0) == both) = false → W.Leads
      ⟨pos + (4 + ((pushInt (if both then -1 else 0)).size + 4)), stack, x⟩
      ⟨pos + (4 + ((pushInt (if both then -1 else 0)).size + (4 + (pushInt (if both then 0 else -1)).size))),
        truth (a != 0) :: stack, x⟩ := by
    intro a x ha
    have hvalue : (if both then 0 else -1 : Int32) = truth (a != 0) := by
      cases both <;> simp_all [truth]
    have hpush := does_pushInt (x := x) hroom _ _ hsno
    rw [← hvalue]
    simpa only [Code.extent_cons, Code.extent_nil, Nat.add_zero, Nat.add_assoc] using hpush
  refine ⟨?_, _, hshort, hno⟩
  intro b x
  refine (leads_decides both hsjump hshort).trans ?_
  cases hb : (b != 0) == both with
  | false => exact hno b x hb
  | true =>
    have hvalue : (if both then -1 else 0 : Int32) = truth (b != 0) := by
      cases both <;> simp_all [truth]
    have hpush := does_pushInt (x := x) hroom _ _ hsyes
    rw [hvalue] at hpush hsjmp hstop ⊢
    simp only [Code.extent_cons, Code.extent_nil, Nat.add_zero, Nat.add_assoc] at hpush
    exact hpush.trans (leads_jmp hsjmp hstop)

theorem does_logic {both : Bool} {left right : Code} {short : Label} {s : List Int32 × α}
    (hleft : W.Does left s (a :: stack, x))
    (hright : ((a != 0) == both) = true → W.Does right (stack, x) (b :: stack, x'))
    (hroom : stack.length < W.m.stack.limit)
    : W.Does (logicCode both left right short stop) s
        (if (a != 0) == both then (truth (b != 0) :: stack, x') else (truth (a != 0) :: stack, x)) := by
  intro pos hstands
  have hcode : logicCode both left right short stop
      = left ++ [.op (if both then .jz else .jnz) [.label short]] ++ right ++ verdictCode both short stop :=
    rfl
  have hjump : (Line.op (if both then .jz else .jnz) [.label short]).size = 4 := by cases both <;> rfl
  rw [hcode] at hstands ⊢
  simp only [Code.stands_append, Code.extent_append, Code.extent_cons, Code.extent_nil, hjump, Nat.add_zero,
    Nat.add_assoc] at hstands ⊢
  obtain ⟨⟨⟨hsleft, hsjump⟩, hsright⟩, hsverdict⟩ := hstands
  obtain ⟨hlong, target, hshort, hdecided⟩ := leads_verdict hsverdict hroom
  refine (hleft pos hsleft).trans ((leads_decides both hsjump hshort).trans ?_)
  cases ha : (a != 0) == both with
  | false => simpa only [Nat.add_assoc, Bool.false_eq_true, if_false] using hdecided a x ha
  | true =>
    have hlead := (hright ha _ hsright).trans (by simpa only [Nat.add_assoc] using hlong b x')
    simpa only [Nat.add_assoc, if_true] using hlead

end Jumps

end Walk

end Source
end Handheld
