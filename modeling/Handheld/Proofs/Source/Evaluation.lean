import Handheld.Proofs.Machine.Nesting
import Handheld.Proofs.Source.Contents
import Handheld.Proofs.Source.Expressions
import Handheld.Proofs.Source.Readable
import Handheld.Proofs.Source.Spelling

/-!
Expressions over numbers, from their tokens to the machine: the assembled code of an expression leaves its value.
-/
namespace Handheld

open Source Asm

variable {m : Machine} {g : Globals} {ls : Locals}

namespace Machine

structure InFrame (m : Machine) (g : Globals) (ls : Locals) : Prop where
  above : Memory.dataStart.toNat + g.size ≤ m.base.toNat
  opened : ∃ m0 m1, openFrame ls.size ls.params m0 = .ok () m1 ∧ m0.base = m.base ∧ m1.base2 = m.base2

theorem InFrame.below (h : m.InFrame g ls) : m.base.toNat + ls.size ≤ Memory.heapStart.toNat := by
  obtain ⟨m0, m1, hopen, hbase, -⟩ := h.opened
  exact hbase ▸ (openFrame_eq_ok_iff.mp hopen).1

theorem InFrame.placed (h : m.InFrame g ls) (hg : g.Laid) (hls : ls.Built) (hwords : ls.Unwrapped) :
    Placed g ls m.base :=
  ⟨hg, hls.laid hwords, hwords, h.above, h.below⟩

end Machine

namespace Source

namespace Activation

theorem exists_stands (hready : m.Ready) (hplaced : Placed g ls m.base)
    {front code rest : Code} {options : Options} (hreadable : Code.Readable code)
    (himage : assemble (Code.render (front ++ code ++ rest)) options = .ok m.image)
    : ∃ address,
        let A : Activation := ⟨m, address, g, ls, hready, hplaced⟩
        A.Stands front.stop code ∧ Code.stop (front ++ code) = front.stop + code.extent := by
  obtain ⟨⟨address, hstands⟩, hstop⟩ := Code.stands_of_assemble hreadable himage
  exact ⟨address, hstands, hstop⟩

theorem Leads.reaches {A : Activation} {s' : Nat × List Int32 × Store}
    (h : A.Leads ⟨A.m.pc, A.m.stack.items.toList.reverse, A.store A.m.memory⟩ s')
    : ∃ last memory, A.m.Reaches (A.m.set last ⟨s'.1, s'.2.1, memory⟩) ∧ A.store memory = s'.2.2
        ∧ Untouched A.g A.ls A.m.base A.m.memory memory := by
  obtain ⟨memory, hruns, hstore, htouch⟩ := h A.m.memory rfl
  obtain ⟨last, hreaches⟩ := hruns A.m.lastPc
  have hstart : A.m.set A.m.lastPc ⟨A.m.pc, A.m.stack.items.toList.reverse, A.m.memory⟩ = A.m := A.m.set_config
  rw [hstart] at hreaches
  exact ⟨last, memory, hreaches, hstore, htouch⟩

end Activation

/--
Tokens that spell an expression over numbers, read, compiled for the body of a function, assembled with the rest of the
program and run in a frame of the function with enough room on the stack, leave the value of the expression on top of
the stack and its effects in the variables. The machine is then behind the code, and all else is as it was.
-/
theorem spelled_expression_evaluates
    -- the program and its parts that are known where the expression stands
    {c : Cursor} {g : Globals} {params : List Param} {ls0 ls : Locals} {ctx : Context} {b b' : Body}
    (hg : survey c = .ok g) (hctx : ctx.globals = g) (hparams : addParams params {} = .ok ls0)
    (hbefore : ls0.Grows b.locals) (hbehind : b.locals.Grows ls) (hglobals : g.Unwrapped) (hlocals : ls.Unwrapped)
    -- the expression and the tokens around it
    {ts rest : List Lexeme} {final : Except Error Lexeme} {e e' : Expr} {fuel : Nat} {c' : Cursor}
    (hspells : Spells g.macros .comma ts e) (hnumeric : e.isNumeric (scopeOf g b.locals))
    (hends : (Cursor.mk rest final).head.token.ends .comma) (hfuel : 8 * ts.length ≤ fuel)
    (hread : Grammar.expression g.macros fuel ⟨ts ++ rest, final⟩ = (e', c'))
    -- its code and the image
    {span : Span} {ty : Ty} {front code back : Code} {options : Options} {m : Machine}
    (hcode : e'.Loads ctx span b code ty b')
    (himage : assemble (Code.render (front ++ code ++ back)) options = .ok m.image)
    -- the machine
    (hready : m.Ready) (hframe : m.InFrame g ls) (hpc : m.pc = front.stop)
    (hroom : m.stack.size + e.height ≤ m.stack.limit)
    : e' = e ∧ c' = ⟨rest, final⟩ ∧
      ∃ last memory,
        m.Reaches
          { m with
            pc := Code.stop (front ++ code)
            lastPc := last
            stack := { m.stack with
              items := m.stack.items.push (e.eval (scopeOf g b.locals) (storeOf g ls m.base m.memory)).1 }
            memory := memory }
        ∧ storeOf g ls m.base memory = (e.eval (scopeOf g b.locals) (storeOf g ls m.base m.memory)).2
        ∧ Untouched g ls m.base m.memory memory := by
  have hparse := hspells.reads.expression_eq hspells.length_pos (Nat.le_add_right_of_le hfuel) hends
  rw [hread, Prod.mk.injEq] at hparse
  obtain ⟨rfl, rfl⟩ := hparse
  subst hctx
  have hbuilt : b.locals.Built := ⟨params, ls0, hparams, hbefore⟩
  have hplaced := hframe.placed (survey_laid hg hglobals) (hbuilt.grows hbehind) hlocals
  have hreadable := hcode.readable ⟨survey_near hg, hbuilt.near⟩ hnumeric
  obtain ⟨address, hstands, hstop⟩ := Activation.exists_stands hready hplaced hreadable himage
  let A : Activation := ⟨m, address, ctx.globals, ls, hready, hplaced⟩
  have hsound : e'.Sound A ctx b.locals := Expr.sound rfl hbehind e' hnumeric
  have hdoes := (hsound.loads hcode rfl).2 m.stack.items.toList.reverse (A.store m.memory)
    (by simpa [Stack.size] using hroom)
  have hleads := hdoes _ hstands
  rw [← hstop, ← hpc] at hleads
  obtain ⟨last, memory, hreaches, hstore, htouch⟩ := Activation.Leads.reaches hleads
  refine ⟨rfl, rfl, last, memory, ?_, hstore, htouch⟩
  rw [Machine.set_push] at hreaches
  exact hreaches

def tallyTokens : List Lexeme :=
  [.ident "p", .op .assign, .ident "n", .op (.update .add), .int 300, .punct .comma, .op (.binary .sub),
    .ident "p", .op (.binary .mul), .int 2].map (⟨·, {}⟩)

def tallyExpr : Expr :=
  .comma (.assign {} (.name "p" {}) (.update .add {} (.name "n" {}) (.num 300)))
    (.binary .mul {} (.unary .neg {} (.name "p" {})) (.num 2))

theorem spells_tallyExpr : Spells [] .comma tallyTokens tallyExpr := by
  have hp : Spells [] .postfixed [⟨.ident "p", {}⟩] (.name "p" {}) := .postfixed (.name rfl rfl)
  have hn : Spells [] .postfixed [⟨.ident "n", {}⟩] (.name "n" {}) := .postfixed (.name rfl rfl)
  have hnumber (k : Int32) : Spells [] .postfixed [⟨.int k, {}⟩] (.num k) := .postfixed (.number rfl)
  have hupdate := Spells.update (l := ⟨.op (.update .add), {}⟩) (.conditional (.operand (.unary hn))) rfl
    (.assignment (.conditional (.operand (.unary (hnumber 300)))))
  have hassign := Spells.assign (l := ⟨.op .assign, {}⟩) (.conditional (.operand (.unary hp))) rfl hupdate
  have hneg := Spells.minus (l := ⟨.op (.binary .sub), {}⟩) rfl (by simp) (.unary hp)
  have hmul := Spells.binary (l := ⟨.op (.binary .mul), {}⟩) (.operand hneg) rfl rfl
    (.operand (.unary (hnumber 2)))
  exact .comma (l := ⟨.punct .comma, {}⟩) (.expression hassign) rfl
    (.assignment (.conditional (.tighter hmul (by decide))))

def tallyProgram : Cursor where
  rest := [.word .int, .ident "n", .punct .semicolon, .word .void, .ident "main", .punct .lParen, .punct .rParen,
    .punct .lBrace, .punct .rBrace].map (⟨·, {}⟩)
  final := .ok ⟨.eof, {}⟩

def tallyGlobals : Globals where
  vars := [("n", { offset := 0x2000, ty := { base := .int }, onFrame := false })]
  functions := [("main", { ret := .void, params := 0, defined := true })]
  size := 2

def tallyLocals : Locals where
  vars := [("p", { offset := 5, ty := .char, onFrame := true })]
  size := 9
  params := 1

def tallyCode : Code :=
  [.op (.access .handle .byte true) [.int 5], .op (.access .handle .word false) [.addr 0x2000], .op .dup, .op .load,
    .op (.push .word) [.int 300], .op (.binary .add), .op .store, .op .store, .op .pop,
    .op (.access .load .byte true) [.int 5], .op .neg, .op (.push .byte) [.int 2], .op (.binary .mul)]

def tallyMachine (image : Array UInt8) : Machine where
  image := image
  pc := Header.length
  base := 0x2010
  base2 := 0x2019
  loaded := true

theorem spelled_expression_evaluates_tally :
    ∃ image, assemble tallyCode.render {} = .ok image
      ∧ ∃ last memory,
          (tallyMachine image).Reaches
            { tallyMachine image with
              pc := Code.stop tallyCode
              lastPc := last
              stack := { (tallyMachine image).stack with items := #[-88] }
              memory := memory }
          ∧ storeOf tallyGlobals tallyLocals 0x2010 memory (.global "n") = 300
          ∧ storeOf tallyGlobals tallyLocals 0x2010 memory (.frame "p") = 44 := by
  obtain ⟨image, himage⟩ := Except.exists_eq_ok_of_isOk (x := assemble tallyCode.render {}) (by decide +kernel)
  have hg : survey tallyProgram = .ok tallyGlobals := rfl
  have hparams : addParams [{ name := some "p", ty := .char, span := {} }] {} = .ok tallyLocals := rfl
  have hread : Grammar.expression [] 80 ⟨tallyTokens ++ [], .ok ⟨.eof, {}⟩⟩
      = (tallyExpr, ⟨[], .ok ⟨.eof, {}⟩⟩) :=
    spells_tallyExpr.reads.expression_eq (by decide) (by decide) (by decide)
  have hcode : tallyExpr.Loads { globals := tallyGlobals, ret := .void, main := false } {}
      { locals := tallyLocals } tallyCode .number { locals := tallyLocals } :=
    ⟨_, _, _, rfl, rfl, rfl⟩
  have himage' : assemble (Code.render ([] ++ tallyCode ++ [])) {} = .ok (tallyMachine image).image := himage
  have hframe : (tallyMachine image).InFrame tallyGlobals tallyLocals :=
    ⟨Nat.le_of_ble_eq_true rfl, { tallyMachine image with stack := ⟨4, #[0]⟩ }, _, rfl, rfl, rfl⟩
  have hlocals : tallyLocals.Unwrapped := ⟨by decide, by decide⟩
  obtain ⟨-, -, last, memory, hreaches, hstore, -⟩ :=
    spelled_expression_evaluates hg rfl hparams .refl .refl (by decide) hlocals spells_tallyExpr (by decide) (by decide)
      (by decide) hread hcode himage' ⟨rfl, rfl⟩ hframe rfl (Nat.le_of_ble_eq_true rfl)
  have hmeaning :
      let r := tallyExpr.eval (scopeOf tallyGlobals tallyLocals)
        (storeOf tallyGlobals tallyLocals 0x2010 Memory.blank)
      r.1 = -88 ∧ r.2 (.global "n") = 300 ∧ r.2 (.frame "p") = 44 := by
    decide +kernel
  obtain ⟨hvalue, hn, hp⟩ := hmeaning
  exact ⟨image, himage, last, memory, hvalue ▸ hreaches, (congrFun hstore _).trans hn, (congrFun hstore _).trans hp⟩

end Source
end Handheld
