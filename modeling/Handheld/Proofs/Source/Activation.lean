import Handheld.Proofs.Source.Cells
import Handheld.Proofs.Source.Walk

/-!
Code of a function body at work: the stack and the variables before and behind it.
-/
namespace Handheld.Source

open Asm

structure Activation where
  m : Machine
  address : Label → Option Nat
  g : Globals
  ls : Locals
  ready : m.Ready
  placed : Placed g ls m.base

namespace Activation

def store (A : Activation) (memory : Memory) : Store :=
  storeOf A.g A.ls A.m.base memory

abbrev walk (A : Activation) : Walk Store where
  m := A.m
  address := A.address
  ready := A.ready
  view := A.store
  Keeps := Untouched A.g A.ls A.m.base
  refl := .refl
  trans := .trans

abbrev Stands (A : Activation) (pos : Nat) (code : Code) : Prop :=
  Code.Stands A.m.image A.address pos code

abbrev Leads (A : Activation) (s s' : Nat × List Int32 × Store) : Prop :=
  A.walk.Leads s s'

abbrev Does (A : Activation) (code : Code) (s s' : List Int32 × Store) : Prop :=
  A.walk.Does code s s'

variable {A : Activation} {pos : Nat} {stack stack' : List Int32} {σ σ' : Store}

theorem stands_append {code code' : Code} :
    A.Stands pos (code ++ code') ↔ A.Stands pos code ∧ A.Stands (pos + code.extent) code' :=
  Code.stands_append

theorem stands_cons_cons {line line' : Line} {rest : Code} :
    A.Stands pos (line :: line' :: rest)
      ↔ A.Stands pos [line] ∧ A.Stands (pos + line.size) (line' :: rest) :=
  Code.stands_cons_cons

theorem stands_label {l : Label} : A.Stands pos [.label l] ↔ A.address l = some pos :=
  Code.stands_label

section Variables

variable {c : Cell} {v : Var} {n : Int32}

theorem fixedLength_access (access : Access) (w : Width) (relative : Bool) :
    (Opcode.access access w relative).layout.fixedLength = some 2 := by
  cases relative <;> rfl

theorem isNumber_access (access : Access) (w : Width) (relative : Bool) :
    (Opcode.access access w relative).layout.isNumber := by
  cases relative <;> rfl

theorem extent_access (v : Var) (access : Access) : Code.extent [v.access access] = 3 := by
  rw [Code.extent_cons, Code.extent_nil, Var.access, Line.size_op (fixedLength_access _ _ _)]

theorem stands_access_of_lt {image : Array UInt8} {address : Label → Option Nat} {access : Access}
    (hlt : v.offset < 256 ^ 2) (h : Code.Stands image address pos [v.access access])
    : Machine.Stands image pos (.access access v.ty.width v.onFrame) v.offset := by
  obtain ⟨hop, -⟩ := h
  unfold Var.access at hop
  split at hop
  next =>
    have hint : ((v.offset : Int) % 256 ^ 2).toNat = v.offset := by omega
    have hstands := hop (isNumber_access _ _ _)
    rwa [fixedLength_access, Option.getD_some, hint] at hstands
  next =>
    have hstands := hop (isNumber_access _ _ _)
    rwa [fixedLength_access, Option.getD_some, Nat.mod_eq_of_lt hlt] at hstands

section

variable (hv : c.var? A.g A.ls = some v)

include hv

theorem stands_access {access : Access} (h : A.Stands pos [v.access access])
    : Machine.Stands A.m.image pos (.access access v.ty.width v.onFrame) v.offset := by
  have hroom := (A.placed.within hv).room A.placed
  have hbytes : 0 < v.ty.width.bytes := by cases v.ty.width <;> decide
  apply stands_access_of_lt ?_ h
  unfold Var.address at hroom
  split at hroom <;> omega

theorem load_eq_store (memory : Memory) : memory.load v.handle A.m.base = v.ty.width.normalize (A.store memory c) := by
  rw [store, storeOf, hv]
  exact (Width.normalize_normalize _ _).symm

section

variable (hroom : stack.length < A.m.stack.limit)

include hroom

theorem does_varLoad :
    A.Does [v.access .load] (stack, σ) (v.ty.width.normalize (σ c) :: stack, σ) := by
  rintro pos hstands memory ⟨⟩
  have hrun : A.m.Runs ⟨pos, stack, memory⟩ ⟨pos + 3, memory.load v.handle A.m.base :: stack, memory⟩ :=
    Machine.runs_access_load A.ready hroom (stands_access hv hstands)
  rw [load_eq_store hv] at hrun
  rw [extent_access]
  exact ⟨memory, hrun, rfl, .refl memory⟩

theorem does_handle :
    A.Does [v.access .handle] (stack, σ) (v.handle.encode :: stack, σ) := by
  intro pos hstands
  rw [extent_access]
  exact Walk.Leads.of_runs (W := A.walk) fun memory =>
    (Machine.goes_access_handle A.ready hroom (stands_access hv hstands)).runs

theorem does_load :
    A.Does [.op .load] (v.handle.encode :: stack, σ) (v.ty.width.normalize (σ c) :: stack, σ) := by
  rintro pos hstands memory ⟨⟩
  have hrun : A.m.Runs ⟨pos, v.handle.encode :: stack, memory⟩ _ :=
    Machine.runs_load A.ready hroom (hstands.1 rfl)
  rw [load_eq_store hv] at hrun
  exact ⟨memory, hrun, rfl, .refl memory⟩

end

theorem store_write (memory : Memory) (n : Int32) :
    A.store (memory.write (v.handle.resolve A.m.base) v.ty.width n)
        = Function.update (A.store memory) c (v.ty.width.normalize n)
      ∧ Untouched A.g A.ls A.m.base memory (memory.write (v.handle.resolve A.m.base) v.ty.width n) :=
  ⟨A.placed.storeOf_write hv n, A.placed.untouched_write hv n⟩

theorem does_store (hroom : stack.length < A.m.stack.limit) :
    A.Does [.op .store] (n :: v.handle.encode :: stack, σ)
      (v.ty.width.normalize n :: stack, Function.update σ c (v.ty.width.normalize n)) := by
  rintro pos hstands memory ⟨⟩
  have hrun : A.m.Runs ⟨pos, n :: v.handle.encode :: stack, memory⟩ _ :=
    (Machine.goes_store A.ready hroom (hstands.1 rfl)).runs
  exact ⟨_, hrun, store_write hv memory n⟩

theorem does_step (up before : Bool) (hroom : stack.length < A.m.stack.limit)
    : A.Does [.op (.step up before)] (v.handle.encode :: stack, σ)
        ((if before then v.ty.width.normalize (v.ty.width.normalize (σ c) + if up then 1 else -1)
            else v.ty.width.normalize (σ c)) :: stack,
          Function.update σ c
            (v.ty.width.normalize (v.ty.width.normalize (σ c) + if up then 1 else -1))) := by
  rintro pos hstands memory ⟨⟩
  have hrun : A.m.Runs ⟨pos, v.handle.encode :: stack, memory⟩ _ :=
    (Machine.goes_step A.ready hroom (hstands.1 rfl)).runs
  rw [load_eq_store hv] at hrun
  exact ⟨_, hrun, store_write hv memory _⟩

end

end Variables

end Activation

end Handheld.Source
