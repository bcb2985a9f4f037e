import Handheld.Proofs.Source.ControlFlow
import Handheld.Proofs.Source.Evaluation
import Handheld.Proofs.Source.Phrasing
import Handheld.Proofs.Source.StackBalance

/-!
Function bodies over numbers, from their tokens to the machine: the code of a body that ends leaves the function with
its result and its effects.
-/
namespace Handheld.Source

open Asm

def Outcome.value : Outcome → Int32
  | returned (some v) => v
  | _ => 0

namespace Activation

variable {A : Activation} {scope : Scope} {s : Stmt} {ctx : Context} {b b' : Body} {code : Code} {pos : Nat}
  {stack : List Int32} {σ σ' : Store} {o : Outcome}

theorem Setting.ends_body (h : A.Setting scope s ctx b code b' pos stack) (hexit : ctx.exit = none)
    (hnext : ctx.next = none) (hepilogue : A.Stands (pos + code.extent) (epilogue ctx))
    (hroom : stack.length < A.m.stack.limit) (hexec : Exec scope s σ o σ')
    : ∃ v, v.getD 0 = o.value ∧ A.Ends ctx (code ++ epilogue ctx) pos stack σ (.returned v) σ' := by
  have hends := follows_of_exec hexec h
  cases o with
  | normal =>
    exact ⟨none, rfl, .within code [] (by simp) rfl hends.leads (ends_epilogue hroom hepilogue) nofun⟩
  | broke =>
    obtain ⟨_, ⟨l, hl, -⟩, -⟩ := hends
    cases hexit.symm.trans hl
  | continued =>
    obtain ⟨_, ⟨l, hl, -⟩, -⟩ := hends
    cases hnext.symm.trans hl
  | returned v =>
    refine ⟨v, by cases v <;> rfl, .within [] (epilogue ctx) (by simp) rfl (.refl _) hends nofun⟩

end Activation

theorem Context.set_pile (ctx : Context) (m : Machine) (last pc : Nat) (v : Option Int32) (memory : Memory) :
    m.set last ⟨pc, ctx.pile m.stack.items.toList.reverse (.returned v), memory⟩
      =
    { m with
      pc := pc
      lastPc := last
      stack := { m.stack with
        items := if ctx.main || ctx.ret.isVoid then m.stack.items else m.stack.items.push (v.getD 0) }
      memory := memory } := by
  rw [Context.pile]
  cases hnone : ctx.main || ctx.ret.isVoid with
  | true => simp [Machine.set]
  | false => exact m.set_push last pc (v.getD 0) memory

/--
The tokens of a function body over numbers, read, compiled, assembled with the rest of the program and run from behind
the `FUNC` of the function, with enough room on the stack. If the body comes to an end, the machine comes to an
instruction of the function that leaves it, `EXIT` in `main` and `RET` in all others. The stack then holds the result in
addition, if there is one, and the variables are as the body leaves them. All else is as it was.
-/
theorem spelled_body_executes
    -- the program and the head of the function
    {c : Cursor} {g : Globals} {name : String} {ret : Ty} {params : List Param} {ls0 : Locals}
    (hg : survey c = .ok g) (hglobals : g.Unwrapped) (hparams : addParams params {} = .ok ls0)
    -- the body and the tokens around it
    {ts rest : List Lexeme} {final : Except Error Lexeme} {ss : List Stmt} {body : Stmt} {fuel : Nat} {c' : Cursor}
    (hspells : SpellsStmt g.macros ts (.block ss)) (hplain : (Stmt.block ss).isPlain (scopeOf g ls0))
    (hfuel : 10 * ts.length ≤ fuel) (hread : Grammar.block g.macros fuel ⟨ts ++ rest, final⟩ = (body, c'))
    -- the code of the function and the image
    {labels labels' : Nat} {inner code front back : Code} {b : Body} {options : Options} {m : Machine}
    (hbody : body.emit { globals := g, ret := ret, main := name == "main" } { labels := labels, locals := ls0 }
      = .ok (inner, b))
    (hcode : (TopLevel.function name ret params body).emit g labels = .ok (code, labels'))
    (himage : assemble (Code.render (front ++ code ++ back)) options = .ok m.image)
    -- the machine behind `FUNC`
    (hready : m.Ready) (hframe : m.InFrame g b.locals) (hlocals : b.locals.Unwrapped)
    (hpc : m.pc = Code.stop (front
      ++ [.label (.named name), .op .func [.int b.locals.size, .int b.locals.params]]))
    (hroom : m.stack.size + max 1 (Stmt.block ss).height ≤ m.stack.limit)
    -- the meaning of the body
    {o : Outcome} {σ' : Store}
    (hexec : Exec (scopeOf g ls0) (.block ss) (storeOf g b.locals m.base m.memory) o σ')
    : body = .block ss ∧ c' = ⟨rest, final⟩
      ∧ ∃ (before after : Code) (last : Nat) (memory : Memory),
          code = [.label (.named name), .op .func [.int b.locals.size, .int b.locals.params]] ++ before
            ++ [.op (if name == "main" then .exit else .ret)] ++ after
          ∧ m.Reaches
              { m with
                pc := m.pc + before.extent
                lastPc := last
                stack := { m.stack with
                  items := if name == "main" || ret.isVoid then m.stack.items else m.stack.items.push o.value }
                memory := memory }
          ∧ Machine.Stands m.image (m.pc + before.extent) (if name == "main" then .exit else .ret) 0
          ∧ storeOf g b.locals m.base memory = σ'
          ∧ Untouched g b.locals m.base m.memory memory := by
  obtain ⟨rfl, rfl⟩ : body = .block ss ∧ c' = ⟨rest, final⟩ := by
    have hparse := hspells.block_eq hfuel rest final
    rwa [hread, Prod.mk.injEq] at hparse
  refine ⟨rfl, rfl, ?_⟩
  let ctx : Context := { globals := g, ret := ret, main := name == "main" }
  obtain ⟨ls, hls, inner', b', hbody', heq⟩ := TopLevel.emit_function_eq_ok_iff.mp hcode
  cases hparams.symm.trans hls
  cases hbody.symm.trans hbody'
  cases heq
  have hgrows : ls0.Grows b.locals := Stmt.grows hbody
  have hbuilt : ls0.Built := ⟨params, ls0, hparams, .refl⟩
  have hplaced := hframe.placed (survey_laid hg hglobals) (hbuilt.grows hgrows) hlocals
  have hreach : ctx.InReach { labels := labels, locals := ls0 } := ⟨survey_near hg, hbuilt.near⟩
  have hreadable : Code.Readable (inner ++ epilogue ctx) :=
    Code.readable_append.mpr ⟨Stmt.readable hbody hreach (by rintro l (h | h) <;> cases h) hplain,
      readable_of_bare (flat_epilogue ctx.bare).lined⟩
  let head : Code := [.label (.named name), .op .func [.int b.locals.size, .int b.locals.params]]
  have himage' : assemble (Code.render (front ++ head ++ (inner ++ epilogue ctx) ++ back)) options = .ok m.image := by
    rw [← himage]
    simp [head, ctx]
  obtain ⟨address, hstands, -⟩ := Activation.exists_stands hready hplaced hreadable himage'
  let A : Activation := ⟨m, address, g, b.locals, hready, hplaced⟩
  rw [← hpc] at hstands
  obtain ⟨hsinner, hsepilogue⟩ := Activation.stands_append.mp hstands
  have hsize : m.stack.items.toList.reverse.length = m.stack.size := by simp [Stack.size]
  have hsetting : A.Setting (scopeOf g ls0) (.block ss) ctx { labels := labels, locals := ls0 } inner b m.pc
      m.stack.items.toList.reverse :=
    ⟨⟨rfl, rfl, hbuilt⟩, .plain hplain, hbody, .refl, hsinner, by rw [hsize]; exact Nat.le_trans (by omega) hroom⟩
  obtain ⟨v, hv, pc, ⟨before, after, hsplit, rfl⟩, hleads⟩ :=
    hsetting.ends_body rfl rfl hsepilogue (by rw [hsize]; exact Nat.lt_of_lt_of_le (by omega) hroom) hexec
  obtain ⟨last, memory, hreaches, hstore, htouch⟩ := hleads.reaches
  refine ⟨before, after, last, memory, ?_, ?_, ?_, hstore, htouch⟩
  · rw [List.append_assoc _ inner, hsplit]
    simp [Context.leave, ctx]
  · rw [Context.set_pile, hv] at hreaches
    exact hreaches
  · have hsleave : A.Stands m.pc (before ++ [.op ctx.leave] ++ after) := hsplit ▸ hstands
    rw [Activation.stands_append, Activation.stands_append] at hsleave
    exact hsleave.1.2.1 (by cases hmain : ctx.main <;> simp [Context.leave, hmain] <;> rfl)

def turnstileTokens : List Lexeme :=
  [.punct .lBrace, .word .forWord, .punct .lParen, .punct .semicolon, .punct .semicolon, .punct .rParen,
    .punct .lBrace, .word .switch, .punct .lParen, .ident "n", .op .inc, .punct .rParen, .punct .lBrace,
    .word .case, .int 0, .punct .colon, .word .continueWord, .punct .semicolon,
    .word .case, .int 1, .punct .colon, .word .breakWord, .punct .semicolon,
    .word .default, .punct .colon, .word .returnWord, .ident "n", .punct .semicolon, .punct .rBrace,
    .ident "n", .op .assign, .int 7, .punct .semicolon, .punct .rBrace, .punct .rBrace].map (⟨·, {}⟩)

def turnstileCases : List Stmt :=
  [.case {} 0, .goOn {}, .case {} 1, .breakOut {}, .default {}, .ret {} (some (.name "n" {}))]

def turnstileRound : List Stmt :=
  [.switch {} {} (.step true false {} (.name "n" {})) (.block turnstileCases), .expr (.assign {} (.name "n" {}) (.num 7))]

def turnstileBody : List Stmt :=
  [.forLoop {} .empty none none (.block turnstileRound)]

theorem spells_turnstileBody : SpellsStmt [] turnstileTokens (.block turnstileBody) := by
  have hn : Spells [] .postfixed [⟨.ident "n", {}⟩] (.name "n" {}) := .postfixed (.name rfl rfl)
  have hleft : Spells [] .conditional [⟨.ident "n", {}⟩] (.name "n" {}) := .conditional (.operand (.unary hn))
  have hseven : Spells [] .assignment [⟨.int 7, {}⟩] (.num 7) :=
    .assignment (.conditional (.operand (.unary (.postfixed (.number rfl)))))
  have hinc : Spells [] .comma [⟨.ident "n", {}⟩, ⟨.op .inc, {}⟩] (.step true false {} (.name "n" {})) :=
    .expression (.assignment (.conditional (.operand (.unary (.incBehind (l := ⟨.op .inc, {}⟩) hn rfl)))))
  have hcases : SpellsBlock [] (turnstileTokens.drop 13 |>.take 16) turnstileCases :=
    .cons (.case (r := ⟨.punct .colon, {}⟩) (l := ⟨.word .case, {}⟩) rfl (spellsConstant_int rfl) rfl) <|
    .cons (.goOn (l := ⟨.word .continueWord, {}⟩) (r := ⟨.punct .semicolon, {}⟩) rfl rfl) <|
    .cons (.case (r := ⟨.punct .colon, {}⟩) (l := ⟨.word .case, {}⟩) rfl (spellsConstant_int rfl) rfl) <|
    .cons (.breakOut (l := ⟨.word .breakWord, {}⟩) (r := ⟨.punct .semicolon, {}⟩) rfl rfl) <|
    .cons (.default (l := ⟨.word .default, {}⟩) (r := ⟨.punct .colon, {}⟩) rfl rfl) <|
    .cons (.retValue (l := ⟨.word .returnWord, {}⟩) (r := ⟨.punct .semicolon, {}⟩) rfl
      (.expression (.assignment hleft)) rfl) <|
    .nil rfl
  have hcond : SpellsCondition [] (turnstileTokens.drop 8 |>.take 4) {} (.step true false {} (.name "n" {})) :=
    .parens (l := ⟨.punct .lParen, {}⟩) (r := ⟨.punct .rParen, {}⟩) rfl hinc rfl
  have hassign : SpellsStmt [] (turnstileTokens.drop 29 |>.take 4) (.expr (.assign {} (.name "n" {}) (.num 7))) :=
    .simple (.expr (r := ⟨.punct .semicolon, {}⟩) (.expression (.assign (l := ⟨.op .assign, {}⟩) hleft rfl hseven)) rfl)
  have hround : SpellsBlock [] (turnstileTokens.drop 7 |>.take 27) turnstileRound :=
    .cons (.switch (l := ⟨.word .switch, {}⟩) rfl hcond (.block (l := ⟨.punct .lBrace, {}⟩) rfl hcases)) <|
    .cons hassign <| .nil rfl
  exact .block (l := ⟨.punct .lBrace, {}⟩) rfl <|
    .cons (.forLoop (l := ⟨.word .forWord, {}⟩) (p := ⟨.punct .lParen, {}⟩) rfl rfl (.empty rfl) (.missing rfl)
      (.missing rfl) (.block (l := ⟨.punct .lBrace, {}⟩) rfl hround)) <|
    .nil rfl

def turnstileProgram : Cursor where
  rest := [.word .int, .ident "turn", .punct .lParen, .word .int, .ident "n", .punct .rParen].map (⟨·, {}⟩)
    ++ turnstileTokens ++ [.word .void, .ident "main", .punct .lParen, .punct .rParen, .punct .lBrace,
      .punct .rBrace].map (⟨·, {}⟩)
  final := .ok ⟨.eof, {}⟩

def turnstileGlobals : Globals where
  functions := [("main", { ret := .void, params := 0, defined := true }),
    ("turn", { ret := { base := .int }, params := 1, defined := true })]

def turnstileLocals : Locals where
  vars := [("n", { offset := 5, ty := { base := .int }, onFrame := true })]
  size := 9
  params := 1

def turnstileFrame : Locals :=
  { turnstileLocals with size := 13 }

def turnstile : TopLevel :=
  .function "turn" { base := .int } [{ name := some "n", ty := { base := .int }, span := {} }] (.block turnstileBody)

def turnstileMachine (image : Array UInt8) : Machine where
  image := image
  pc := Code.stop [.label (.named "turn"), .op .func [.int 13, .int 1]]
  base := 0x2000
  base2 := 0x200D
  loaded := true

def turnstileScope : Scope :=
  scopeOf turnstileGlobals turnstileLocals

def turnstileStore : Store :=
  storeOf turnstileGlobals turnstileLocals 0x2000 Memory.blank

theorem exec_turnstileBody :
    ∃ σ, Exec turnstileScope (.block turnstileBody) turnstileStore (.returned (some 8)) σ ∧ σ (.frame "n") = 8 := by
  let e : Expr := .step true false {} (.name "n" {})
  let σ1 := (e.eval turnstileScope turnstileStore).2
  let σ2 := (e.eval turnstileScope σ1).2
  let σ3 := (Expr.eval turnstileScope (.assign {} (.name "n" {}) (.num 7)) σ2).2
  let σ4 := (e.eval turnstileScope σ3).2
  have h1 : (e.eval turnstileScope turnstileStore).1 = 0 := by decide +kernel
  have h2 : (e.eval turnstileScope σ1).1 = 1 := by decide +kernel
  have h3 : (e.eval turnstileScope σ3).1 = 7 := by decide +kernel
  have h4 : (Expr.eval turnstileScope (.name "n" {}) σ4).1 = 8 := by decide +kernel
  have h5 : σ4 (.frame "n") = 8 := by decide +kernel
  have hreturn : Exec turnstileScope (.ret {} (some (.name "n" {}))) σ4 (.returned (some 8)) σ4 := by
    rw [← h4]
    exact .retValue
  have henter1 : Enters (e.eval turnstileScope turnstileStore).1 turnstileCases [] (turnstileCases.drop 1) := by
    rw [h1]
    exact .case rfl
  have henter2 : Enters (e.eval turnstileScope σ1).1 turnstileCases (turnstileCases.take 2) (turnstileCases.drop 3) := by
    rw [h2]
    exact .case rfl
  have henter3 : Enters (e.eval turnstileScope σ3).1 turnstileCases (turnstileCases.take 4) (turnstileCases.drop 5) := by
    rw [h3]
    exact .default (by simp [turnstileCases]) rfl
  refine ⟨σ4, ?_, h5⟩
  refine .abrupt (.forAgain rfl (.abrupt (.switch henter1 (.abrupt .goOn nofun)) nofun) rfl ?_) nofun
  refine .forAgain rfl (.cons (.switch henter2 (.abrupt .breakOut nofun)) (.cons .expr .nil)) rfl ?_
  exact .forLeave rfl (.abrupt (.switch henter3 (.abrupt hreturn nofun)) nofun) rfl

def turnstileContext : Context where
  globals := turnstileGlobals
  ret := { base := .int }
  main := "turn" == "main"

theorem turnstile_builds :
    ∃ code labels image inner b, turnstile.emit turnstileGlobals 0 = .ok (code, labels)
      ∧ assemble code.render {} = .ok image
      ∧ (Stmt.block turnstileBody).emit turnstileContext { locals := turnstileLocals } = .ok (inner, b)
      ∧ b.locals = turnstileFrame := by
  have hcode : (turnstile.emit turnstileGlobals 0).toOption.any fun r => r.1.all (·.Readable)
      && (assembleStatements ({} : Options).header (r.1.statements 1)).isOk := by
    decide +kernel
  have hbody : ((Stmt.block turnstileBody).emit turnstileContext { locals := turnstileLocals }).toOption.map
      (fun q => (q.2.locals.vars, q.2.locals.size, q.2.locals.params)) = some (turnstileLocals.vars, 13, 1) := by
    decide +kernel
  obtain ⟨r, hemit, hcode⟩ := (Option.any_eq_true _ _).mp hcode
  obtain ⟨q, hinner, hlocals⟩ := Option.map_eq_some_iff.mp hbody
  simp only [Bool.and_eq_true, List.all_eq_true, decide_eq_true_eq] at hcode
  rw [← assemble_render hcode.1 rfl] at hcode
  obtain ⟨image, himage⟩ := Except.exists_eq_ok_of_isOk hcode.2
  simp only [Prod.mk.injEq] at hlocals
  obtain ⟨hvars, hsize, hparams⟩ := hlocals
  refine ⟨r.1, r.2, image, q.1, q.2, Except.eq_ok_of_toOption hemit, himage, Except.eq_ok_of_toOption hinner, ?_⟩
  rw [turnstileFrame, ← hvars, ← hsize]
  exact congrArg (Locals.mk _ _) hparams

theorem spelled_body_executes_turnstile :
    ∃ code labels image, turnstile.emit turnstileGlobals 0 = .ok (code, labels)
      ∧ assemble code.render {} = .ok image
      ∧ ∃ (before after : Code) (last : Nat) (memory : Memory),
          code = [.label (.named "turn"), .op .func [.int 13, .int 1]] ++ before ++ [.op .ret] ++ after
          ∧ (turnstileMachine image).Reaches
              { turnstileMachine image with
                pc := (turnstileMachine image).pc + before.extent
                lastPc := last
                stack := { (turnstileMachine image).stack with items := #[8] }
                memory := memory }
          ∧ storeOf turnstileGlobals turnstileFrame 0x2000 memory (.frame "n") = 8 := by
  obtain ⟨code, labels, image, inner, b, hcode, himage, hbody, hlocals⟩ := turnstile_builds
  obtain ⟨σ, hexec, hn⟩ := exec_turnstileBody
  have hg : survey turnstileProgram = .ok turnstileGlobals := rfl
  have hparams : addParams [{ name := some "n", ty := { base := .int }, span := {} }] {} = .ok turnstileLocals := rfl
  have hread := spells_turnstileBody.block_eq (show 10 * turnstileTokens.length ≤ 350 by decide) [] (.ok ⟨.eof, {}⟩)
  have himage' : assemble (Code.render ([] ++ code ++ [])) {} = .ok (turnstileMachine image).image := by
    rw [List.nil_append, List.append_nil]
    exact himage
  have hframe : (turnstileMachine image).InFrame turnstileGlobals b.locals := by
    rw [hlocals]
    exact ⟨Nat.le_of_ble_eq_true rfl, { turnstileMachine image with stack := ⟨4, #[0]⟩ }, _, rfl, rfl, rfl⟩
  have hpc : (turnstileMachine image).pc
      = Code.stop ([] ++ [.label (.named "turn"), .op .func [.int b.locals.size, .int b.locals.params]]) := by
    rw [hlocals]
    rfl
  have hstore : storeOf turnstileGlobals b.locals 0x2000 Memory.blank = turnstileStore := by
    rw [hlocals]
    rfl
  obtain ⟨-, -, before, after, last, memory, hsplit, hreaches, -, hvars, -⟩ :=
    spelled_body_executes hg (by decide) hparams spells_turnstileBody (by decide) (by decide) hread hbody hcode himage'
      ⟨rfl, rfl⟩ hframe (hlocals ▸ ⟨by decide, by decide⟩) hpc (Nat.le_of_ble_eq_true rfl) (hstore ▸ hexec)
  rw [hlocals] at hsplit hvars
  exact ⟨code, labels, image, hcode, himage, before, after, last, memory, hsplit, hreaches, (congrFun hvars _).trans hn⟩

end Handheld.Source
