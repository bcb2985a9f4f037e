import Handheld.Proofs.Source.Lines

/-!
The code of statements. What a `switch` collects are labels that are made up for its body, so that its jumps lead into
that body or behind it.
-/
namespace Handheld.Source

open Asm

variable {ls ls' : Locals} {g : Globals} {base : Base} {n : Nat} {s : Stmt}

variable {v : Var} {cond e : Expr} {body : Stmt} {ctx : Context}

def Cases.labels (sw : Cases) : List Label :=
  sw.cases.map (·.2) ++ sw.default.toList

def Body.caseLabels (b : Body) : List Label :=
  (b.switch.getD {}).labels

def Context.around (ctx : Context) (n : Nat) : Prop :=
  ctx.exit = some (.fresh n) ∨ ctx.next = some (.fresh n)

def Context.Fresh (ctx : Context) : Prop :=
  ∀ l, ctx.exit = some l ∨ ctx.next = some l → ∃ n, l = .fresh n

structure Context.InReach (ctx : Context) (b : Body) : Prop where
  globals : ctx.globals.Near
  locals : b.locals.Near

structure Body.Gathers (b b' : Body) : Prop where
  le : b.labels ≤ b'.labels
  cases : ∀ l ∈ b'.caseLabels, l ∈ b.caseLabels ∨ ∃ n, l = .fresh n ∧ b.labels < n ∧ n ≤ b'.labels

structure Seals (ctx : Context) (b : Body) (code : Code) (b' : Body) : Prop where
  code : Sealed ctx.globals ctx.around b.labels b'.labels code
  gathers : b.Gathers b'

section Reach

variable {b b' : Body}

theorem Locals.offset_of_declare {name : String} {ty : Ty} {dims : List Nat}
    {span : Span} (h : ls.declare name ty dims span = .ok (v, ls'))
    : v.offset = ls.size := by
  obtain ⟨w, rfl, -, -, heq⟩ := declare_eq_ok_iff.mp h
  cases heq
  rfl

section

variable (h : ctx.InReach b)

include h

theorem Context.InReach.near : ctx.Near b := by
  intro x v hv
  rw [Context.var?, Option.or_eq_some_iff] at hv
  rcases hv with hv | ⟨-, hv⟩
  · exact h.locals.vars x v hv
  · exact h.globals.vars x v hv

theorem Context.InReach.grows (hgrows : b.locals.Grows b'.locals) : ctx.InReach b' :=
  ⟨h.globals, hgrows.near h.locals⟩

theorem Context.InReach.of_locals (hlocals : b'.locals = b.locals) : ctx.InReach b' :=
  h.grows (hlocals ▸ .refl)

theorem Context.InReach.of_loop (exit next : Option Label) :
    { ctx with exit, next }.InReach b :=
  ⟨h.globals, h.locals⟩

end

theorem Context.fresh_loop (ctx : Context) (exit next : Nat) :
    { ctx with exit := some (.fresh exit), next := some (.fresh next) }.Fresh := by
  rintro l (h | h)
  · exact ⟨exit, (Option.some.inj h).symm⟩
  · exact ⟨next, (Option.some.inj h).symm⟩

theorem Context.Fresh.of_exit (h : ctx.Fresh) (exit : Nat) : { ctx with exit := some (.fresh exit) }.Fresh := by
  rintro l (hl | hl)
  · exact ⟨exit, (Option.some.inj hl).symm⟩
  · exact h l (.inr hl)

end Reach

section Seals

variable {b b1 b' : Body} {code c c' : Code} {span : Span} {ty : Ty}

theorem Body.Gathers.of_switch (hle : b.labels ≤ b'.labels) (hswitch : b'.switch = b.switch) : b.Gathers b' where
  le := hle
  cases l hl := by
    rw [Body.caseLabels, hswitch] at hl
    exact .inl hl

theorem Body.Gathers.trans (h : b.Gathers b1) (h' : b1.Gathers b') : b.Gathers b' where
  le := Nat.le_trans h.le h'.le
  cases l hl := by
    have hle := h.le
    have hle' := h'.le
    rcases h'.cases l hl with hl | ⟨n, rfl, hlo, hhi⟩
    · exact (h.cases l hl).imp id fun ⟨n, heq, hlo, hhi⟩ => ⟨n, heq, hlo, by omega⟩
    · exact .inr ⟨n, rfl, by omega, hhi⟩

theorem Body.gathers_skip (b : Body) (n : Nat) : b.Gathers (b.skip n) :=
  .of_switch (Nat.le_add_right _ _) rfl

theorem Seals.of_sealed (h : Sealed ctx.globals (fun _ => False) b.labels b'.labels code)
    (hswitch : b'.switch = b.switch)
    : Seals ctx b code b' :=
  ⟨h.mono fun _ => False.elim, .of_switch h.le hswitch⟩

theorem Seals.of_flat (h : Flat ctx.globals code) (hlabels : b'.labels = b.labels)
    (hswitch : b'.switch = b.switch)
    : Seals ctx b code b' :=
  .of_sealed (hlabels ▸ .of_flat h) hswitch

theorem Seals.append (h : Seals ctx b c b1) (h' : Seals ctx b1 c' b') : Seals ctx b (c ++ c') b' :=
  ⟨h.code.append h'.code, h.gathers.trans h'.gathers⟩

theorem Expr.Loads.seals (h : e.Loads ctx span b code ty b') (hreach : ctx.InReach b) :
    Source.Seals ctx b code b' :=
  .of_sealed (h.sealed hreach.near) h.onlyLabels.switch

theorem seals_effect (h : e.emitEffect ctx b = .ok (code, b')) (hreach : ctx.InReach b) :
    Seals ctx b code b' := by
  obtain ⟨code, place, b1, hcode, heq⟩ := Expr.emitEffect_eq_ok_iff.mp h
  cases heq
  have hsealed := (e.seals ctx _ _ _ _ hcode hreach.near).1
  exact .of_sealed (hsealed.append_flat (flat_discard place)) (e.keeps ctx _ _ hcode).switch

theorem Sealed.storeCode {around : Nat → Prop} {lo hi : Nat}
    (h : Sealed g around lo hi code) (hv : v.offset ≤ 0xFFFF)
    : Sealed g around lo hi (storeCode v code) := by
  have hfront : Sealed g around lo lo [v.access .handle] := .of_flat (by simp [FlatLine.access hv])
  exact (hfront.append h).append_flat (by simp [Opcode.layout])

theorem sealed_elements {xs : List Element} {codes : List Code} {k : Nat}
    (h : emitElements ctx xs b = .ok (codes, b')) (hreach : ctx.InReach b)
    : Sealed ctx.globals (fun _ => False) b.labels b'.labels ((codes.zipIdx k).flatMap fun (code, i) =>
        Source.storeCode { v with offset := (v.offset + i * v.ty.size) % 0x10000, dims := [] } code) := by
  induction xs generalizing b codes k with
  | nil =>
    cases h
    exact .of_flat flat_nil
  | cons x xs ih =>
    obtain ⟨code, ty, b1, hcode, codes, b2, hcodes, heq⟩ := emitElements_cons_eq_ok_iff.mp h
    cases heq
    have hreach1 : ctx.InReach b1 := hreach.of_locals hcode.onlyLabels.locals
    rw [List.zipIdx_cons, List.flatMap_cons]
    exact ((hcode.sealed hreach.near).storeCode (by dsimp only; omega)).append (ih hcodes hreach1)

theorem Declared.seals {d : Declared} (h : d.emit ctx base b = .ok (code, b')) (hreach : ctx.InReach b)
    : Seals ctx b code b' := by
  cases d with
  | missing e => exact (emit_missing_eq_ok_iff.mp h).elim
  | function d => exact (emit_function_eq_ok_iff.mp h).elim
  | plain d =>
    obtain ⟨-, dims, -, v, ls, hdeclare, heq⟩ := emit_plain_eq_ok_iff.mp h
    cases heq
    exact .of_flat flat_nil rfl rfl
  | scalar d value =>
    obtain ⟨-, v, ls, hdeclare, code, ty, b1, hcode, heq⟩ := emit_scalar_eq_ok_iff.mp h
    cases heq
    have hsealed := hcode.sealed (hreach.grows (Body.onlyGrows_declare hdeclare).locals).near
    have hoffset := Locals.offset_of_declare hdeclare ▸ hreach.locals.size
    exact .of_sealed (hsealed.storeCode hoffset) hcode.onlyLabels.switch
  | text d bytes =>
    obtain ⟨-, -, dims, -, v, ls, hdeclare, -, heq⟩ := emit_text_eq_ok_iff.mp h
    cases heq
    have hoffset := Locals.offset_of_declare hdeclare ▸ hreach.locals.size
    exact .of_flat (by simp [FlatLine.access hoffset]) rfl rfl
  | list d elements =>
    obtain ⟨-, values, b1, hvalues, dims, -, v, ls, hdeclare, hcount, heq⟩ := emit_list_eq_ok_iff.mp h
    cases heq
    have hsealed := sealed_elements (v := v) (k := 0) hvalues hreach
    have hseals : Seals ctx b _ b1 := .of_sealed hsealed (onlyLabels_elements hvalues).switch
    exact ⟨hseals.code, hseals.gathers.le, hseals.gathers.cases⟩

theorem seals_declared {ds : List Declared} (h : emitDeclared ctx base ds b = .ok (code, b'))
    (hreach : ctx.InReach b)
    : Seals ctx b code b' := by
  induction ds generalizing b code with
  | nil =>
    cases h
    exact .of_flat flat_nil rfl rfl
  | cons d ds ih =>
    obtain ⟨code1, b1, h1, code2, b2, h2, heq⟩ := emitDeclared_cons_eq_ok_iff.mp h
    cases heq
    exact (Declared.seals h1 hreach).append (ih h2 (hreach.grows (Declared.onlyGrows h1).locals))

theorem flat_epilogue (ctx : Context) : Flat ctx.globals (epilogue ctx) := by
  unfold epilogue
  split
  next => simp [Opcode.layout]
  next => split <;> simp [Opcode.layout]

theorem seals_tests {opened : Span} {cond : Option Expr} {stop : Nat}
    (h : Stmt.Tests ctx opened cond (.fresh stop) b code b') (hreach : ctx.InReach b)
    : Sealed ctx.globals (· = stop) b.labels b'.labels code := by
  cases cond with
  | none =>
    obtain ⟨rfl, rfl⟩ := h
    exact .of_flat flat_nil
  | some cond =>
    obtain ⟨c, ty, hcode, rfl⟩ := h
    have hsealed : Sealed ctx.globals (· = stop) b.labels b'.labels c :=
      (hcode.sealed hreach.near).mono fun _ => False.elim
    exact hsealed.append ⟨Nat.le_refl _, by simp, by grind⟩

theorem seals_steps {step : Option Expr} (h : Stmt.Steps ctx step b code b') (hreach : ctx.InReach b) :
    Seals ctx b code b' := by
  cases step with
  | none =>
    obtain ⟨rfl, rfl⟩ := h
    exact .of_flat flat_nil rfl rfl
  | some step => exact seals_effect h hreach

end Seals

namespace Stmt

section Dispatch

variable {temp : Nat} {sw : Cases} {P : Nat → Prop}

@[simp]
theorem aims_onFrame {a : Access} {w : Width} {n : Int} (code : Code) :
    Code.aims (.op (.access a w true) [.int n] :: code) = code.aims :=
  rfl

theorem Cases.getD_default (stop : Nat) (h : ∀ l ∈ sw.labels, ∃ n, l = .fresh n ∧ P n) :
    ∃ n, sw.default.getD (.fresh stop) = .fresh n ∧ (n = stop ∨ P n) := by
  cases hdefault : sw.default with
  | none => exact ⟨stop, rfl, .inl rfl⟩
  | some l =>
    obtain ⟨n, rfl, hn⟩ := h l (List.mem_append_right _ (by simp [hdefault]))
    exact ⟨n, rfl, .inr hn⟩

theorem line_of_dispatchCode (stop : Nat) (htemp : temp ≤ 0xFFFF) (h : ∀ l ∈ sw.labels, ∃ n, l = .fresh n ∧ P n) :
    ∀ line ∈ dispatchCode temp sw (.fresh stop), BodyLine g line ∧ ∀ n, line.aim? = some n → n = stop ∨ P n := by
  obtain ⟨n, hn, hor⟩ := Cases.getD_default stop h
  rw [dispatchCode, hn]
  intro line hline
  rcases List.mem_append.mp hline with hline | hline
  · obtain ⟨⟨value, l⟩, hmem, hline⟩ := List.mem_flatMap.mp hline
    obtain ⟨m, rfl, hm⟩ := h l (List.mem_append_left _ (List.mem_map_of_mem hmem))
    simp only [List.mem_cons, List.not_mem_nil, or_false] at hline
    obtain rfl | rfl | rfl | rfl := hline
    · exact ⟨.flat (.onFrame htemp), nofun⟩
    · exact ⟨.flat .pushInt, nofun⟩
    · exact ⟨.flat (.plain rfl), nofun⟩
    · exact ⟨.jump rfl, fun n hn => .inr (Option.some.inj hn ▸ hm)⟩
  · simp only [List.mem_cons, List.not_mem_nil, or_false] at hline
    obtain rfl | rfl := hline
    · exact ⟨.jump rfl, fun n hn => Option.some.inj hn ▸ hor⟩
    · exact ⟨.label, nofun⟩

theorem placed_dispatchCode (sw : Cases) (stop : Nat) : (dispatchCode temp sw (.fresh stop)).placed = [stop] := by
  rw [dispatchCode, placed_append, placed_flatMap_eq_nil fun c _ => by simp]
  rfl

end Dispatch

theorem seals_jump {b : Body} (hn : ctx.around n) : Seals ctx b [.op .jmp [.label (.fresh n)]] b := by
  refine ⟨⟨Nat.le_refl _, by simp, ?_⟩, .of_switch (Nat.le_refl _) rfl⟩
  intro m
  simp only [placed_op, placed_nil, aims_jump, aims_nil, List.count_nil, List.mem_singleton]
  grind

theorem seals_label {b b' : Body} (hlabels : b'.labels = b.labels + 1)
    (hcases : ∀ l ∈ b'.caseLabels, l ∈ b.caseLabels ∨ l = .fresh (b.labels + 1))
    : Seals ctx b [.label (.fresh (b.labels + 1))] b' := by
  refine ⟨⟨by omega, by simp, ?_⟩, by omega, ?_⟩
  · intro n
    simp only [placed_label, aims_label, placed_nil, aims_nil, List.count_cons, List.count_nil, hlabels]
    grind
  · intro l hl
    exact (hcases l hl).imp id fun h => ⟨_, h, by omega, by omega⟩

theorem Emits.seals {b b' : Body} {code : Code} (h : Emits ctx b s code b') :
    ctx.Fresh → ctx.InReach b → Seals ctx b code b' := by
  induction h with
  | empty | nil => exact fun _ _ => .of_flat flat_nil rfl rfl
  | cons h1 _ _ _ ih ih' =>
    intro hfresh hreach
    exact (ih hfresh hreach).append (ih' hfresh (hreach.grows (Stmt.grows h1)))
  | expr h => exact fun _ hreach => seals_effect h hreach
  | declare h => exact fun _ hreach => seals_declared h hreach
  | breakOut h =>
    intro hfresh _
    obtain ⟨n, rfl⟩ := hfresh _ (.inl h)
    exact seals_jump (.inl h)
  | goOn h =>
    intro hfresh _
    obtain ⟨n, rfl⟩ := hfresh _ (.inr h)
    exact seals_jump (.inr h)
  | ret => exact fun _ _ => .of_flat (flat_epilogue _) rfl rfl
  | retEffect _ h => exact fun _ hreach => (seals_effect h hreach).append (.of_flat (flat_epilogue _) rfl rfl)
  | retValue _ h => exact fun _ hreach => (h.seals hreach).append (.of_flat (by simp [Opcode.layout]) rfl rfl)
  | case hsw =>
    refine fun _ _ => seals_label rfl ?_
    simp only [Body.caseLabels, hsw, Option.getD_some, Cases.labels, List.map_append, List.map_cons, List.map_nil,
      List.mem_append, List.mem_singleton]
    grind
  | default hsw =>
    refine fun _ _ => seals_label rfl ?_
    simp only [Body.caseLabels, hsw, Option.getD_some, Cases.labels, List.mem_append, Option.toList_some,
      List.mem_singleton]
    grind
  | @ifThen ctx _ _ _ _ _ _ b1 _ _ hcond _ _ ih =>
    intro hfresh hreach
    have hc := hcond.seals hreach
    have hs := ih hfresh (hreach.of_locals hcond.onlyLabels.locals)
    have hgathers := (hc.gathers.trans (b1.gathers_skip 1)).trans hs.gathers
    have hle1 := hc.gathers.le
    have hle2 := hs.gathers.le
    refine ⟨⟨hgathers.le, ?_, ?_⟩, hgathers⟩
    · simp [hc.code.lines, hs.code.lines]
    · intro n
      have hlabels1 := hc.code.labels n
      have hlabels2 := hs.code.labels n
      grind [Body.skip]
  | @ifElse ctx _ _ _ _ _ _ _ b1 _ b2 _ _ hcond h1 _ _ _ ih ih' =>
    intro hfresh hreach
    have hreach1 : ctx.InReach (b1.skip 1) := hreach.of_locals hcond.onlyLabels.locals
    have hreach2 : ctx.InReach b2 := hreach1.grows (Stmt.grows h1)
    have hc := hcond.seals hreach
    have hs := ih hfresh hreach1
    have hs' := ih' hfresh (hreach2.of_locals rfl)
    have hgathers := (((hc.gathers.trans (b1.gathers_skip 1)).trans hs.gathers).trans
      (b2.gathers_skip 1)).trans hs'.gathers
    have hle1 := hc.gathers.le
    have hle2 := hs.gathers.le
    have hle3 := hs'.gathers.le
    refine ⟨⟨hgathers.le, ?_, ?_⟩, hgathers⟩
    · simp [hc.code.lines, hs.code.lines, hs'.code.lines]
    · intro n
      have hlabels1 := hc.code.labels n
      have hlabels2 := hs.code.labels n
      have hlabels3 := hs'.code.labels n
      grind [Body.skip]
  | @whileLoop ctx b _ _ _ _ _ _ _ _ hcond _ _ ih =>
    intro hfresh hreach
    have hreach0 : ctx.InReach (b.skip 2) := hreach.of_locals rfl
    have ht := hcond.seals hreach0
    have hs := ih (ctx.fresh_loop _ _) ((hreach0.of_locals hcond.onlyLabels.locals).of_loop _ _)
    have hgathers := ((b.gathers_skip 2).trans (ht.gathers)).trans hs.gathers
    have hle1 := ht.gathers.le
    have hle2 := hs.gathers.le
    refine ⟨⟨hgathers.le, ?_, ?_⟩, hgathers⟩
    · simp [ht.code.lines, hs.code.lines]
    · intro n
      have hlabels1 := ht.code.labels n
      have hlabels2 := hs.code.labels n
      grind [Body.skip, Context.around]
  | @doLoop ctx b _ _ _ _ b1 _ _ _ h _ hcond ih =>
    intro hfresh hreach
    have hreach0 : ctx.InReach (b.skip 3) := hreach.of_locals rfl
    have hreach1 : ctx.InReach b1 := hreach0.grows (Stmt.grows h)
    have hs := ih (ctx.fresh_loop _ _) (hreach0.of_loop _ _)
    have ht := hcond.seals hreach1
    have hgathers := ((b.gathers_skip 3).trans hs.gathers).trans (ht.gathers)
    have hle1 := hs.gathers.le
    have hle2 := ht.gathers.le
    refine ⟨⟨hgathers.le, ?_, ?_⟩, hgathers⟩
    · simp [ht.code.lines, hs.code.lines]
    · intro n
      have hlabels1 := hs.code.labels n
      have hlabels2 := ht.code.labels n
      grind [Body.skip, Context.around]
  | @forLoop ctx _ _ _ _ _ _ _ b1 _ b2 _ b3 _ _ h1 ht hm _ _ _ ih ih' =>
    intro hfresh hreach
    have hreach1 : ctx.InReach b1 := hreach.grows (Stmt.grows h1)
    have hreach2 : ctx.InReach (b1.skip 3) := hreach1.of_locals rfl
    have hreach3 : ctx.InReach b2 := hreach2.of_locals ht.onlyLabels.locals
    have hreach4 : ctx.InReach b3 := hreach3.of_locals hm.onlyLabels.locals
    have hs1 := ih hfresh hreach
    have hs2 := seals_tests ht hreach2
    have hs3 := seals_steps hm hreach3
    have hs4 := ih' (ctx.fresh_loop _ _) (hreach4.of_loop _ _)
    have hgathers := (((hs1.gathers.trans (b1.gathers_skip 3)).trans (.of_switch hs2.le ht.onlyLabels.switch)).trans
      hs3.gathers).trans hs4.gathers
    have hle1 := hs1.gathers.le
    have hle2 := hs2.le
    have hle3 := hs3.gathers.le
    have hle4 := hs4.gathers.le
    refine ⟨⟨hgathers.le, ?_, ?_⟩, hgathers⟩
    · simp [hs1.code.lines, hs2.lines, hs3.code.lines, hs4.code.lines]
    · intro n
      obtain ⟨hplaced1, haims1⟩ := hs1.code.labels n
      obtain ⟨hplaced2, haims2⟩ := hs2.labels n
      obtain ⟨hplaced3, haims3⟩ := hs3.code.labels n
      obtain ⟨hplaced4, haims4⟩ := hs4.code.labels n
      simp only [Body.skip] at hle2 hplaced2 haims2
      simp only [Context.around, Option.some.injEq, Label.fresh.injEq] at haims4
      constructor
      · simp only [placed_append, placed_label, placed_op, placed_nil, List.count_append, List.count_cons,
          List.count_nil, hplaced1, hplaced2, hplaced3, hplaced4, beq_iff_eq]
        grind
      · simp only [aims_append, aims_label, aims_jump, aims_nil, List.mem_append, List.mem_cons, List.not_mem_nil]
        grind
  | @switch ctx b _ _ _ _ temp ls _ _ b1 _ b2 htemp hcond _ _ ih =>
    intro hfresh hreach
    have hreach0 : ctx.InReach { b with locals := ls } := hreach.grows (.claim htemp .refl)
    have hreach1 : ctx.InReach b1 := hreach0.of_locals hcond.onlyLabels.locals
    have ht := hcond.seals hreach0
    have hs := ih (hfresh.of_exit _) ⟨hreach1.globals, hreach1.locals⟩
    have hsmall : temp ≤ 0xFFFF := by
      obtain ⟨-, heq⟩ := Locals.claim_eq_ok_iff.mp htemp
      cases heq
      exact hreach.locals.size
    have hcases : ∀ l ∈ b2.caseLabels, ∃ n, l = .fresh n ∧ (b1.labels + 2 < n ∧ n ≤ b2.labels) := by
      intro l hl
      rcases hs.gathers.cases l hl with hl | hl
      · cases hl
      · exact hl
    have hdispatch := line_of_dispatchCode (g := ctx.globals) (b1.labels + 2) hsmall hcases
    have hlined : Lined ctx.globals _ := fun line hline => (hdispatch line hline).1
    have hle1 : b.labels ≤ b1.labels := ht.gathers.le
    have hle2 : b1.labels + 2 ≤ b2.labels := hs.gathers.le
    have hle : b.labels ≤ b2.labels := by omega
    refine ⟨⟨hle, ?_, ?_⟩, .of_switch hle hcond.onlyLabels.switch⟩
    · simp [ht.code.lines, hs.code.lines, hlined, BodyLine.flat, FlatLine.onFrame hsmall, Opcode.layout]
    · intro n
      obtain ⟨hplaced1, haims1⟩ := ht.code.labels n
      obtain ⟨hplaced2, haims2⟩ := hs.code.labels n
      have haims (hn : n ∈ (dispatchCode temp _ _).aims) :=
        (List.mem_filterMap.mp hn).elim fun line hline => (hdispatch line hline.1).2 n hline.2
      simp only [Body.skip] at hplaced1 haims1 hplaced2 haims2
      simp only [Context.around, Option.some.injEq, Label.fresh.injEq] at haims1 haims2 ⊢
      constructor
      · simp only [placed_append, placed_label, placed_op, placed_nil, placed_dispatchCode, List.count_append,
          List.count_cons, List.count_nil, hplaced1, hplaced2, beq_iff_eq]
        grind
      · simp only [aims_append, aims_label, aims_op, aims_onFrame, aims_jump, aims_nil, List.mem_append, List.mem_cons,
          List.not_mem_nil]
        grind

end Stmt

theorem Stmt.mem_of_emit {ret : Ty} {main : Bool} {b b' : Body} {code : Code} (hg : g.Near)
    (hb : b.locals.Near) (h : s.emit { globals := g, ret, main } b = .ok (code, b')) (hlo : b.labels < n)
    (hhi : n ≤ b'.labels)
    : .label (.fresh n) ∈ code := by
  have hseals := (s.emits h).seals (by rintro l (h | h) <;> cases h)
    ⟨hg, hb⟩
  have hcount := (hseals.code.labels n).1
  rw [if_pos ⟨hlo, hhi⟩] at hcount
  obtain ⟨line, hline, hplaced⟩ := List.mem_filterMap.mp (List.count_pos_iff.mp (hcount ▸ Nat.one_pos))
  unfold Line.placed? at hplaced
  split at hplaced
  next =>
    cases hplaced
    exact hline
  next => cases hplaced

end Handheld.Source
