import Handheld.Proofs.Source.Assembly
import Handheld.Proofs.Source.Evaluation

/-!
Expressions of any kind at work. One has been evaluated once the machine is behind its code, in the same frame, with one
more value.
-/
namespace Handheld

namespace Machine

inductive Proceeds (m : Machine) : Machine → Prop where
  | step {m' : Machine} {p : Progress} (h : step m = .ok p m') : Proceeds m m'
  | key (key : UInt8) : Proceeds m (m.pushKey key)
  | tick (clock : Clock) : Proceeds m { m with clock := clock }

def Comes (m m' : Machine) : Prop :=
  ∀ last, ∃ last', Relation.ReflTransGen Proceeds { m with lastPc := last } { m' with lastPc := last' }

structure Back (m m' : Machine) : Prop where
  image : m'.image = m.image
  base : m'.base = m.base
  base2 : m'.base2 = m.base2
  ready : m'.Ready

section Comes

variable {m m1 m' : Machine}

theorem Comes.refl (m : Machine) : m.Comes m :=
  fun last => ⟨last, .refl⟩

theorem Comes.trans (h : m.Comes m1) (h' : m1.Comes m') : m.Comes m' := by
  intro last
  obtain ⟨last1, hcomes⟩ := h last
  obtain ⟨last', hcomes'⟩ := h' last1
  exact ⟨last', hcomes.trans hcomes'⟩

theorem Runs.comes {c : Config} (h : m.Runs m.config c) : m.Comes (m.set m.lastPc c) := by
  intro last
  obtain ⟨last', hreaches⟩ := h last
  have hstart : m.set last m.config = { m with lastPc := last } := by simp [set, config]
  rw [hstart] at hreaches
  exact ⟨last', Relation.ReflTransGen.mono (fun _ _ hstep => Proceeds.step hstep) _ _ hreaches⟩

theorem Back.refl (h : m.Ready) : m.Back m :=
  ⟨rfl, rfl, rfl, h⟩

theorem Back.trans (h : m.Back m1) (h' : m1.Back m') : m.Back m' :=
  ⟨h'.image.trans h.image, h'.base.trans h.base, h'.base2.trans h.base2, h'.ready⟩

theorem Back.inFrame {g : Source.Globals} {ls : Source.Locals} (h : m.Back m') (hframe : m.InFrame g ls) :
    m'.InFrame g ls := by
  obtain ⟨m0, m1, hopen, hbase, hbase2⟩ := hframe.opened
  exact ⟨h.base ▸ hframe.above, m0, m1, hopen, hbase.trans h.base.symm, hbase2.trans h.base2.symm⟩

end Comes

end Machine

namespace Source

open Asm

deriving instance DecidableEq for Globals

structure Stage where
  body : Body
  machine : Machine

structure Stage.Inside (p : Stage) (source : String) (ctx : Context) (ls : Locals) : Prop where
  surveyed : survey (Cursor.ofSource source) = .ok ctx.globals
  built : p.body.locals.Built
  grows : p.body.locals.Grows ls
  ready : p.machine.Ready
  frame : p.machine.InFrame ctx.globals ls

structure Expr.Evaluates (ctx : Context) (span : Span) (e : Expr) (p : Stage) (n : Int32) (p' : Stage) : Prop where
  emitted : ∃ code ty, e.Loads ctx span p.body code ty p'.body ∧ p'.machine.pc = p.machine.pc + code.extent
  comes : p.machine.Comes p'.machine
  stack : p'.machine.stack = { p.machine.stack with items := p.machine.stack.items.push n }
  back : p.machine.Back p'.machine

section Inside

variable {source : String} {ctx : Context} {ls : Locals} {p p' : Stage} {code : Code}

section

variable (h : p.Inside source ctx ls)

include h

theorem Stage.Inside.placed (hglobals : ctx.globals.Unwrapped) (hlocals : ls.Unwrapped) :
    Placed ctx.globals ls p.machine.base :=
  h.frame.placed (survey_laid h.surveyed hglobals) (h.built.grows h.grows) hlocals

theorem Stage.Inside.inReach : ctx.InReach p.body :=
  ⟨survey_near h.surveyed, h.built.near⟩

theorem Stage.Inside.readable {exits : Nat → Prop} {lo hi : Nat} (hcode : Sealed ctx.globals exits lo hi code)
    : Code.Readable code := by
  intro line hline
  have hnamed := survey_named (named_ofSource source) h.surveyed
  exact (hcode.lines line hline).readable fun x hx => isName_of_isIdent (hnamed x hx)

theorem Stage.Inside.of_back (hback : p.machine.Back p'.machine) (hlocals : p'.body.locals = p.body.locals)
    : p'.Inside source ctx ls :=
  ⟨h.surveyed, hlocals ▸ h.built, hlocals ▸ h.grows, hback.ready, hback.inFrame h.frame⟩

theorem Expr.exists_evaluates {e : Expr} {span : Span} {ty : Ty} {b' : Body} {n : Int32} {σ : Store}
    {front back : Code} {options : Options} (hglobals : ctx.globals.Unwrapped) (hlocals : ls.Unwrapped)
    (hnumeric : e.isNumeric (scopeOf ctx.globals p.body.locals))
    (hcode : e.Loads ctx span p.body code ty b')
    (himage : assemble (Code.render (front ++ code ++ back)) options = .ok p.machine.image)
    (hpc : p.machine.pc = front.stop) (hroom : p.machine.stack.size + e.height ≤ p.machine.stack.limit)
    (hstore : storeOf ctx.globals ls p.machine.base p.machine.memory = σ)
    (hvalue : (e.eval (scopeOf ctx.globals p.body.locals) σ).1 = n)
    : ∃ memory,
        let m' : Machine :=
          { p.machine with
            pc := Code.stop (front ++ code)
            stack := { p.machine.stack with items := p.machine.stack.items.push n }
            memory := memory }
        e.Evaluates ctx span p n ⟨b', m'⟩
          ∧ storeOf ctx.globals ls p.machine.base memory = (e.eval (scopeOf ctx.globals p.body.locals) σ).2
          ∧ Untouched ctx.globals ls p.machine.base p.machine.memory memory := by
  have hreadable := h.readable (hcode.sealed h.inReach.near)
  have hplaced := h.placed hglobals hlocals
  obtain ⟨address, hstands, hstop⟩ := Activation.exists_stands h.ready hplaced hreadable himage
  let A : Activation := ⟨p.machine, address, ctx.globals, ls, h.ready, hplaced⟩
  have hsound : e.Sound A ctx p.body.locals := Expr.sound rfl h.grows e hnumeric
  have hdoes := (hsound.loads hcode rfl).2 p.machine.config.stack σ
    (by simpa [Machine.config, Stack.size] using hroom)
  obtain ⟨memory, hruns, hstore', htouch⟩ := hdoes _ hstands p.machine.memory hstore
  rw [← hstop, ← hpc, hvalue] at hruns
  refine ⟨memory, ⟨⟨code, ty, hcode, by rw [hpc, hstop]⟩, ?_, rfl, rfl, rfl, rfl, ?_⟩, hstore', htouch⟩
  · have hcomes := Machine.Runs.comes hruns
    rw [Machine.config, Machine.set_push] at hcomes
    exact hcomes
  · exact ⟨h.ready.loaded, h.ready.halted⟩

end

end Inside

end Source
end Handheld
