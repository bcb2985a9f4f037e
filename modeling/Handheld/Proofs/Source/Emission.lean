import Handheld.Proofs.Except
import Handheld.Source.Emit

/-!
Emission taken apart: what is known of the parts of an expression for which there is code.
-/
namespace Handheld.Source

open Asm

variable {cond e left right : Expr} {args : List Expr} {d : Declarator}
  {ctx : Context}

def Body.skip (b : Body) (n : Nat) : Body :=
  { b with labels := b.labels + n }

namespace Emit

variable {α β : Type} {b b' : Body}

theorem bind_eq_ok_iff {x : Emit α} {f : α → Emit β} {r : β × Body} :
    (x >>= f) b = .ok r ↔ ∃ a b1, x b = .ok (a, b1) ∧ f a b1 = .ok r := by
  simp only [Bind.bind, StateT.bind, Except.bind]
  cases x b with
  | error e => simp
  | ok p =>
    obtain ⟨a, b1⟩ := p
    simp only [Except.ok.injEq, Prod.mk.injEq]
    grind

theorem pure_eq_ok_iff {a : α} {r : α × Body} : (pure a : Emit α) b = .ok r ↔ (a, b) = r := by
  have hpure : (pure a : Emit α) b = .ok (a, b) := rfl
  rw [hpure, Except.ok.injEq]

theorem fail_eq_ok_iff {e : Error} {r : α × Body} : (fail e : Emit α) b = .ok r ↔ False := by
  simp [fail, throw, throwThe, MonadExceptOf.throw, StateT.lift, Bind.bind, Except.bind]

theorem lift_eq_ok_iff {x : Except Error α} {r : α × Body} :
    (liftM x : Emit α) b = .ok r ↔ ∃ a, x = .ok a ∧ (a, b) = r := by
  cases x with
  | error e => simp [liftM, monadLift, MonadLift.monadLift, StateT.lift, Bind.bind, Except.bind]
  | ok a => simp [liftM, monadLift, MonadLift.monadLift, StateT.lift, Bind.bind, Except.bind, pure,
      Except.pure]

theorem lift_bind_eq_ok_iff {x : Except Error α} {f : α → Emit β} {r : β × Body} :
    (liftM x >>= f) b = .ok r ↔ ∃ a, x = .ok a ∧ f a b = .ok r := by
  simp only [bind_eq_ok_iff, lift_eq_ok_iff, Prod.mk.injEq]
  grind

theorem get_bind_eq_ok_iff {f : Body → Emit β} {r : β × Body} : (get >>= f) b = .ok r ↔ f b b = .ok r :=
  Iff.rfl

theorem set_bind_eq_ok_iff {f : PUnit → Emit β} {r : β × Body} : (set b' >>= f) b = .ok r ↔ f ⟨⟩ b' = .ok r :=
  Iff.rfl

theorem modify_bind_eq_ok_iff {g : Body → Body} {f : PUnit → Emit β} {r : β × Body} :
    (modify g >>= f) b = .ok r ↔ f ⟨⟩ (g b) = .ok r :=
  Iff.rfl

theorem fresh_bind_eq_ok_iff {f : Label → Emit β} {r : β × Body} :
    (fresh >>= f) b = .ok r ↔ f (.fresh (b.labels + 1)) (b.skip 1) = .ok r :=
  Iff.rfl

theorem onLocals_bind_eq_ok_iff {g : Locals → Except Error (α × Locals)} {f : α → Emit β} {r : β × Body}
    : (onLocals g >>= f) b = .ok r
        ↔ ∃ a ls, g b.locals = .ok (a, ls) ∧ f a { b with locals := ls } = .ok r := by
  simp only [onLocals, bind_assoc, get_bind_eq_ok_iff, lift_bind_eq_ok_iff, set_bind_eq_ok_iff,
    pure_bind, Prod.exists]

theorem ite_fail_eq_ok_iff {p : Prop} [Decidable p] {e : Error} {f : α → Emit β} {x : Emit β} {r : β × Body}
    : (if p then fail e >>= f else x) b = .ok r ↔ ¬p ∧ x b = .ok r := by
  split
  next hp =>
    simp only [hp, not_true_eq_false, false_and, bind_eq_ok_iff, fail_eq_ok_iff, exists_false]
  next hp => simp only [hp, not_false_eq_true, true_and]

end Emit

def Expr.Loads (ctx : Context) (span : Span) (e : Expr) (b : Body) (code : Code) (ty : Ty) (b' : Body) :
    Prop :=
  ∃ c p c', e.emit ctx b = .ok ((c, p), b') ∧ p.load span = .ok (c', ty) ∧ code = c ++ c'

def Expr.Handles (ctx : Context) (span : Span) (e : Expr) (b : Body) (code : Code) (ty : Ty)
    (b' : Body) : Prop :=
  ∃ c p c', e.emit ctx b = .ok ((c, p), b') ∧ p.handle span = .ok (c', ty) ∧ code = c ++ c'

def Context.var? (ctx : Context) (b : Body) (x : String) : Option Var :=
  (b.locals.vars.lookup x).or (ctx.globals.vars.lookup x)

def Unary.code : Unary → Code
  | .neg => [.op .neg]
  | .not => [.op .lnot]
  | .complement => [.op .not]
  | .plus | .deref | .address => []

def Unary.place (ty : Ty) : Unary → Place
  | .plus => .value ty
  | .deref => .deref ty.pointee
  | .neg | .not | .complement | .address => .value .number

theorem Place.subscript_eq_ok {p : Place} {span : Span} {pointer : Code} {part : Place.Part}
    (h : p.subscript span = .ok (pointer, part))
    : (pointer = [] ∧ ∃ v, (p = .var v ∧ part = ⟨v.stride 0, false, .element v 1⟩)
          ∨ ∃ n, p = .element v n ∧ part = ⟨v.stride n, true, .element v (n + 1)⟩)
        ∨ ∃ ty, p.load span = .ok (pointer, ty) ∧ part = ⟨ty.stride, true, .deref ty.pointee⟩ := by
  have hpointed (h : subscript.pointed span p = .ok (pointer, part)) :
      ∃ ty, p.load span = .ok (pointer, ty) ∧ part = ⟨ty.stride, true, .deref ty.pointee⟩ := by
    unfold subscript.pointed at h
    cases hload : p.load span with
    | error e =>
      rw [hload] at h
      cases h
    | ok r =>
      rw [hload] at h
      cases h
      exact ⟨_, rfl, rfl⟩
  unfold subscript at h
  split at h
  case h_3 => exact .inr (hpointed h)
  all_goals
    split at h
    next =>
      cases h
      grind
    next => exact .inr (hpointed h)

theorem callCode_eq_ok {name : String} {target : Callee} {span : Span} {argc : Nat} {jump : Code} {place : Place}
    (htarget : callee ctx name span = .ok target) (h : callCode target name span argc = .ok (jump, place))
    : (∃ f, ctx.globals.functions.lookup name = some f ∧ argc = f.params
          ∧ jump = [.op .call [.label (.named name)]] ∧ place = if f.ret.isVoid then .void else .value f.ret)
        ∨ ∃ c, place = Call.place c ∧ if c.signature.variadic then jump = [pushInt (Int32.ofNat argc), .call c]
          else argc = c.signature.args ∧ jump = [.call c] := by
  unfold callCode at h
  split at h
  next f =>
    split at h
    next => cases h
    next hargc =>
      cases h
      refine .inl ⟨f, ?_, by simpa using hargc, rfl, rfl⟩
      unfold callee at htarget
      split at htarget
      next hf =>
        cases htarget
        exact hf
      all_goals cases htarget
  next c =>
    refine .inr ⟨c, ?_⟩
    dsimp only at h
    split at h
    all_goals
      split at h
      next => cases h
      next =>
        cases h
        simp_all

namespace Expr

-- The equations are many and large. They are worked out here once, ahead of the proofs that rewrite with them.
attribute [local simp] Expr.emit

variable {b b' : Body} {span : Span} {r : (Code × Place) × Body}

theorem loaded_bind_eq_ok_iff {α : Type} {f : Code × Ty → Emit α} {r : α × Body} :
    (e.emit ctx >>= fun q => Emit.loaded q span >>= f) b = .ok r
      ↔ ∃ code ty b1, e.Loads ctx span b code ty b1 ∧ f (code, ty) b1 = .ok r := by
  simp only [Loads, Emit.loaded, Emit.bind_eq_ok_iff, Prod.exists, Emit.lift_eq_ok_iff,
    Emit.pure_eq_ok_iff, Prod.mk.injEq]
  grind

theorem handled_bind_eq_ok_iff {α : Type} {f : Code × Ty → Emit α} {r : α × Body} :
    (e.emit ctx >>= fun q => Emit.handled q span >>= f) b = .ok r
      ↔ ∃ code ty b1, e.Handles ctx span b code ty b1 ∧ f (code, ty) b1 = .ok r := by
  simp only [Handles, Emit.handled, Emit.bind_eq_ok_iff, Prod.exists, Emit.lift_eq_ok_iff,
    Emit.pure_eq_ok_iff, Prod.mk.injEq]
  grind

theorem emit_binary_eq_ok_iff {op : Binary} :
    (Expr.binary op span left right).emit ctx b = .ok r
      ↔ ∃ code1 ty1 b1, left.Loads ctx span b code1 ty1 b1
        ∧ ∃ code2 ty2 b2, right.Loads ctx span b1 code2 ty2 b2
          ∧ ((code1 ++ code2 ++ (arithmetic op ty1 ty2).1, .value (arithmetic op ty1 ty2).2), b2) = r := by
  simp only [Expr.emit, loaded_bind_eq_ok_iff, Emit.pure_eq_ok_iff]

theorem emit_logic_eq_ok_iff {both : Bool} :
    (Expr.logic both span left right).emit ctx b = .ok r
      ↔ ∃ code1 ty1 b1, left.Loads ctx span b code1 ty1 b1
        ∧ ∃ code2 ty2 b2, right.Loads ctx span (b1.skip 2) code2 ty2 b2
          ∧ ((logicCode both code1 code2 (.fresh (b1.labels + 1)) (.fresh (b1.labels + 2)),
              .value .number), b2) = r := by
  simp only [Expr.emit, loaded_bind_eq_ok_iff, Emit.fresh_bind_eq_ok_iff, Emit.pure_eq_ok_iff]
  rfl

theorem emit_missing_eq_ok_iff {e : Error} : (Expr.missing e).emit ctx b = .ok r ↔ False := by
  simp only [Expr.emit, Emit.fail_eq_ok_iff]

theorem emit_cut_eq_ok_iff {err : Error} : (Expr.cut e err).emit ctx b = .ok r ↔ False := by
  simp only [Expr.emit, Emit.bind_eq_ok_iff, Emit.fail_eq_ok_iff, and_false, exists_false]

theorem emit_num_eq_ok_iff {n : Int32} : (Expr.num n).emit ctx b = .ok r ↔ (([pushInt n], .value .number), b) = r := by
  simp only [Expr.emit, Emit.pure_eq_ok_iff]

theorem emit_str_eq_ok_iff {bytes : List UInt8} :
    (Expr.str bytes).emit ctx b = .ok r ↔ (([pushStr bytes], .value .string), b) = r := by
  simp only [Expr.emit, Emit.pure_eq_ok_iff]

theorem emit_name_eq_ok_iff {x : String} :
    (Expr.name x span).emit ctx b = .ok r ↔ ∃ v, ctx.var? b x = some v ∧ (([], .var v), b) = r := by
  simp only [Expr.emit, lookup, bind_assoc, Emit.get_bind_eq_ok_iff, Context.var?]
  split
  next v hv => simp [hv, Emit.pure_eq_ok_iff]
  next hnone => simp only [hnone, Emit.bind_eq_ok_iff, Emit.fail_eq_ok_iff, reduceCtorEq, false_and,
      exists_false]

theorem emit_call_eq_ok_iff {f : String} :
    (Expr.call f span args).emit ctx b = .ok r
      ↔ ∃ target, callee ctx f span = .ok target
        ∧ ∃ code b1, Expr.emitArgs ctx span args b = .ok (code, b1)
          ∧ ∃ jump place, callCode target f span args.length = .ok (jump, place)
            ∧ ((code ++ jump, place), b1) = r := by
  simp only [Expr.emit, Emit.lift_bind_eq_ok_iff]
  refine exists_congr fun target => and_congr_right fun _ => ?_
  rw [Emit.bind_eq_ok_iff]
  simp only [Emit.lift_bind_eq_ok_iff, Emit.pure_eq_ok_iff, Prod.exists]

theorem emit_call_function_eq_ok_iff {name : String} {f : Function} (hf : ctx.globals.functions.lookup name = some f)
    : (Expr.call name span args).emit ctx b = .ok r
        ↔ args.length = f.params
          ∧ ∃ code b1, Expr.emitArgs ctx span args b = .ok (code, b1)
            ∧ ((code ++ [.op .call [.label (.named name)]], if f.ret.isVoid then .void else .value f.ret), b1) = r := by
  have htarget : callee ctx name span = .ok (.function f) := by rw [callee, hf]
  rw [emit_call_eq_ok_iff]
  simp only [htarget, Except.ok.injEq, exists_eq_left', callCode]
  by_cases hargs : args.length = f.params <;> simp [hargs, and_assoc]

theorem emit_index_eq_ok_iff {base sub : Expr} :
    (Expr.index base span sub).emit ctx b = .ok r
      ↔ ∃ code place b1, base.emit ctx b = .ok ((code, place), b1)
        ∧ ∃ pointer part, place.subscript span = .ok (pointer, part)
          ∧ ∃ offset ty b2, sub.Loads ctx span b1 offset ty b2
            ∧ ((code ++ pointer ++ offset ++ part.code, part.place), b2) = r := by
  rw [Expr.emit, Emit.bind_eq_ok_iff]
  simp only [loaded_bind_eq_ok_iff, Emit.lift_bind_eq_ok_iff, Emit.pure_eq_ok_iff, Prod.exists]

theorem emit_step_eq_ok_iff {up before : Bool} :
    (Expr.step up before span e).emit ctx b = .ok r
      ↔ ∃ code ty b1, e.Handles ctx span b code ty b1
        ∧ ((code ++ stepCode ty up before, .value ty), b1) = r := by
  simp only [Expr.emit, handled_bind_eq_ok_iff, Emit.pure_eq_ok_iff]

theorem emit_unary_eq_ok_iff {op : Unary} (hop : op ≠ .address) :
    (Expr.unary op span e).emit ctx b = .ok r
      ↔ ∃ code ty b1, e.Loads ctx span b code ty b1 ∧ ((code ++ op.code, op.place ty), b1) = r := by
  cases op with
  | address => exact absurd rfl hop
  | _ =>
    simp only [Expr.emit, unaryCode, loaded_bind_eq_ok_iff, Emit.pure_eq_ok_iff, Unary.code, Unary.place,
      List.append_nil]

theorem emit_address_eq_ok_iff :
    (Expr.unary .address span e).emit ctx b = .ok r
      ↔ ∃ code place b1, e.emit ctx b = .ok ((code, place), b1)
        ∧ ∃ c ty, place.address span = .ok (c, ty) ∧ ((code ++ c, .value ty), b1) = r := by
  rw [Expr.emit, Emit.bind_eq_ok_iff]
  simp only [unaryCode, Emit.lift_bind_eq_ok_iff, Emit.pure_eq_ok_iff, Prod.exists]

theorem emit_ternary_eq_ok_iff {cond yes no : Expr} :
    (Expr.ternary span cond yes no).emit ctx b = .ok r
      ↔ ∃ code1 ty1 b1, cond.Loads ctx span b code1 ty1 b1
        ∧ ∃ code2 ty2 b2, yes.Loads ctx span (b1.skip 2) code2 ty2 b2
          ∧ ∃ code3 ty3 b3, no.Loads ctx span b2 code3 ty3 b3
            ∧ ((code1 ++ [.op .jz [.label (.fresh (b1.labels + 1))]] ++ code2 ++
                [.op .jmp [.label (.fresh (b1.labels + 2))], .label (.fresh (b1.labels + 1))] ++ code3 ++
                [.label (.fresh (b1.labels + 2))], .value ty2), b3) = r := by
  simp only [Expr.emit, loaded_bind_eq_ok_iff, Emit.fresh_bind_eq_ok_iff, Emit.pure_eq_ok_iff]
  rfl

theorem emit_assign_eq_ok_iff :
    (Expr.assign span left right).emit ctx b = .ok r
      ↔ ∃ code1 ty b1, left.Handles ctx span b code1 ty b1
        ∧ ∃ code2 ty2 b2, right.Loads ctx span b1 code2 ty2 b2
          ∧ ((code1 ++ code2 ++ [.op .store], .value ty), b2) = r := by
  simp only [Expr.emit, loaded_bind_eq_ok_iff, handled_bind_eq_ok_iff, Emit.pure_eq_ok_iff]

theorem emit_update_eq_ok_iff {op : Binary} :
    (Expr.update op span left right).emit ctx b = .ok r
      ↔ ∃ code1 ty b1, left.Handles ctx span b code1 ty b1
        ∧ ∃ code2 ty2 b2, right.Loads ctx span b1 code2 ty2 b2
          ∧ ((code1 ++ [.op .dup, .op .load] ++ code2 ++ (arithmetic op ty ty2).1 ++ [.op .store],
              .value ty), b2) = r := by
  simp only [Expr.emit, loaded_bind_eq_ok_iff, handled_bind_eq_ok_iff, Emit.pure_eq_ok_iff]

theorem emit_comma_eq_ok_iff :
    (Expr.comma left right).emit ctx b = .ok r
      ↔ ∃ code1 place1 b1, left.emit ctx b = .ok ((code1, place1), b1)
        ∧ ∃ code2 place2 b2, right.emit ctx b1 = .ok ((code2, place2), b2)
          ∧ ((code1 ++ place1.discard ++ code2, place2), b2) = r := by
  simp only [Expr.emit, Emit.bind_eq_ok_iff, Emit.pure_eq_ok_iff, Prod.exists]

theorem emitArgs_cons_eq_ok_iff {arg : Expr} {r : Code × Body} :
    Expr.emitArgs ctx span (arg :: args) b = .ok r
      ↔ ∃ code1 ty b1, arg.Loads ctx span b code1 ty b1
        ∧ ∃ code2 b2, Expr.emitArgs ctx span args b1 = .ok (code2, b2) ∧ (code1 ++ code2, b2) = r := by
  simp only [Expr.emitArgs, loaded_bind_eq_ok_iff]
  simp only [Emit.bind_eq_ok_iff, Emit.pure_eq_ok_iff]

theorem emitValue_bind_eq_ok_iff {α : Type} {f : Code → Emit α} {r : α × Body} :
    (e.emitValue ctx span >>= f) b = .ok r
      ↔ ∃ code ty b1, e.Loads ctx span b code ty b1 ∧ f code b1 = .ok r := by
  simp only [Expr.emitValue, bind_assoc, pure_bind, loaded_bind_eq_ok_iff]

theorem emitEffect_eq_ok_iff {r : Code × Body} :
    e.emitEffect ctx b = .ok r
      ↔ ∃ code place b1, e.emit ctx b = .ok ((code, place), b1) ∧ (code ++ place.discard, b1) = r := by
  simp only [Expr.emitEffect, Emit.bind_eq_ok_iff, Emit.pure_eq_ok_iff, Prod.exists]

end Expr

section Parts

variable {P : Expr → Body → Code → Place → Body → Prop} {b b' : Body} {span : Span} {code : Code} {ty : Ty}

def Expr.Values (P : Expr → Body → Code → Place → Body → Prop) (span : Span) (e : Expr) (b : Body) (code : Code) (ty : Ty)
    (b' : Body) : Prop :=
  ∃ c p c', P e b c p b' ∧ p.load span = .ok (c', ty) ∧ code = c ++ c'

def Expr.Objects (P : Expr → Body → Code → Place → Body → Prop) (span : Span) (e : Expr) (b : Body) (code : Code)
    (ty : Ty) (b' : Body) : Prop :=
  ∃ c p c', P e b c p b' ∧ p.handle span = .ok (c', ty) ∧ code = c ++ c'

def Expr.Arguments (P : Expr → Body → Code → Place → Body → Prop) (span : Span) :
    List Expr → Body → Code → Body → Prop
  | [], b, code, b' => code = [] ∧ b' = b
  | e :: es, b, code, b' =>
    ∃ c1 ty b1 c2, e.Values P span b c1 ty b1 ∧ Expr.Arguments P span es b1 c2 b' ∧ code = c1 ++ c2

/-- A property of emitted code that follows from that of the parts. -/
structure Expr.Compositional (ctx : Context) (P : Expr → Body → Code → Place → Body → Prop) : Prop where
  num : ∀ n b, P (.num n) b [pushInt n] (.value .number) b
  str : ∀ bytes b, P (.str bytes) b [pushStr bytes] (.value .string) b
  name : ∀ {x span b v}, ctx.var? b x = some v → P (.name x span) b [] (.var v) b
  call : ∀ {f span args target b code b' jump place}, callee ctx f span = .ok target →
    Expr.Arguments P span args b code b' → callCode target f span args.length = .ok (jump, place) →
    P (.call f span args) b (code ++ jump) place b'
  index : ∀ {base span sub b code place b1 pointer part offset ty b'}, P base b code place b1 →
    place.subscript span = .ok (pointer, part) → sub.Values P span b1 offset ty b' →
    P (.index base span sub) b (code ++ pointer ++ offset ++ part.code) part.place b'
  step : ∀ {up before span e b code ty b'}, e.Objects P span b code ty b' →
    P (.step up before span e) b (code ++ stepCode ty up before) (.value ty) b'
  unary : ∀ {op span e b code ty b'}, op ≠ .address → e.Values P span b code ty b' →
    P (.unary op span e) b (code ++ op.code) (op.place ty) b'
  address : ∀ {span e b code place b' c ty}, P e b code place b' → place.address span = .ok (c, ty) →
    P (.unary .address span e) b (code ++ c) (.value ty) b'
  binary : ∀ {op span left right b c1 ty1 b1 c2 ty2 b'}, left.Values P span b c1 ty1 b1 →
    right.Values P span b1 c2 ty2 b' →
    P (.binary op span left right) b (c1 ++ c2 ++ (arithmetic op ty1 ty2).1) (.value (arithmetic op ty1 ty2).2) b'
  logic : ∀ {both span left right b c1 ty1 b1 c2 ty2 b'}, left.Values P span b c1 ty1 b1 →
    right.Values P span (b1.skip 2) c2 ty2 b' →
    P (.logic both span left right) b (logicCode both c1 c2 (.fresh (b1.labels + 1)) (.fresh (b1.labels + 2)))
      (.value .number) b'
  ternary : ∀ {span cond yes no b c1 ty1 b1 c2 ty2 b2 c3 ty3 b'}, cond.Values P span b c1 ty1 b1 →
    yes.Values P span (b1.skip 2) c2 ty2 b2 → no.Values P span b2 c3 ty3 b' →
    P (.ternary span cond yes no) b (c1 ++ [.op .jz [.label (.fresh (b1.labels + 1))]] ++ c2 ++
      [.op .jmp [.label (.fresh (b1.labels + 2))], .label (.fresh (b1.labels + 1))] ++ c3 ++
      [.label (.fresh (b1.labels + 2))]) (.value ty2) b'
  assign : ∀ {span left right b c1 ty b1 c2 ty2 b'}, left.Objects P span b c1 ty b1 →
    right.Values P span b1 c2 ty2 b' → P (.assign span left right) b (c1 ++ c2 ++ [.op .store]) (.value ty) b'
  update : ∀ {op span left right b c1 ty b1 c2 ty2 b'}, left.Objects P span b c1 ty b1 →
    right.Values P span b1 c2 ty2 b' →
    P (.update op span left right) b
      (c1 ++ [.op .dup, .op .load] ++ c2 ++ (arithmetic op ty ty2).1 ++ [.op .store]) (.value ty) b'
  comma : ∀ {left right b c1 place1 b1 c2 place2 b'}, P left b c1 place1 b1 → P right b1 c2 place2 b' →
    P (.comma left right) b (c1 ++ place1.discard ++ c2) place2 b'

def Expr.Has (ctx : Context) (P : Expr → Body → Code → Place → Body → Prop) (e : Expr) : Prop :=
  ∀ b c p b', e.emit ctx b = .ok ((c, p), b') → P e b c p b'

theorem Expr.Has.values (h : e.Has ctx P) (hcode : e.Loads ctx span b code ty b') : e.Values P span b code ty b' := by
  obtain ⟨c, p, c', hemit, hload⟩ := hcode
  exact ⟨c, p, c', h b c p b' hemit, hload⟩

theorem Expr.Has.objects (h : e.Has ctx P) (hcode : e.Handles ctx span b code ty b') :
    e.Objects P span b code ty b' := by
  obtain ⟨c, p, c', hemit, hhandle⟩ := hcode
  exact ⟨c, p, c', h b c p b' hemit, hhandle⟩

mutual

theorem Expr.Compositional.has (h : Expr.Compositional ctx P) : (e : Expr) → e.Has ctx P
  | .missing _ => fun _ _ _ _ hemit => (Expr.emit_missing_eq_ok_iff.mp hemit).elim
  | .cut _ _ => fun _ _ _ _ hemit => (Expr.emit_cut_eq_ok_iff.mp hemit).elim
  | .num n => by
    intro b c p b' hemit
    cases Expr.emit_num_eq_ok_iff.mp hemit
    exact h.num n b
  | .str bytes => by
    intro b c p b' hemit
    cases Expr.emit_str_eq_ok_iff.mp hemit
    exact h.str bytes b
  | .name x span => by
    intro b c p b' hemit
    obtain ⟨v, hv, heq⟩ := Expr.emit_name_eq_ok_iff.mp hemit
    cases heq
    exact h.name hv
  | .call f span args => by
    intro b c p b' hemit
    obtain ⟨target, htarget, code, b1, hcode, jump, place, hjump, heq⟩ := Expr.emit_call_eq_ok_iff.mp hemit
    cases heq
    exact h.call htarget (h.arguments span args _ _ _ hcode) hjump
  | .index base span sub => by
    intro b c p b' hemit
    obtain ⟨code, place, b1, hcode, pointer, part, hpart, offset, ty, b2, hsub, heq⟩ :=
      Expr.emit_index_eq_ok_iff.mp hemit
    cases heq
    exact h.index (h.has base _ _ _ _ hcode) hpart ((h.has sub).values hsub)
  | .step up before span e => by
    intro b c p b' hemit
    obtain ⟨code, ty, b1, hcode, heq⟩ := Expr.emit_step_eq_ok_iff.mp hemit
    cases heq
    exact h.step ((h.has e).objects hcode)
  | .unary op span e => by
    intro b c p b' hemit
    by_cases hop : op = .address
    · subst hop
      obtain ⟨code, place, b1, hcode, c', ty, haddress, heq⟩ := Expr.emit_address_eq_ok_iff.mp hemit
      cases heq
      exact h.address (h.has e _ _ _ _ hcode) haddress
    · obtain ⟨code, ty, b1, hcode, heq⟩ := (Expr.emit_unary_eq_ok_iff hop).mp hemit
      cases heq
      exact h.unary hop ((h.has e).values hcode)
  | .binary op span left right => by
    intro b c p b' hemit
    obtain ⟨c1, ty1, b1, h1, c2, ty2, b2, h2, heq⟩ := Expr.emit_binary_eq_ok_iff.mp hemit
    cases heq
    exact h.binary ((h.has left).values h1) ((h.has right).values h2)
  | .logic both span left right => by
    intro b c p b' hemit
    obtain ⟨c1, ty1, b1, h1, c2, ty2, b2, h2, heq⟩ := Expr.emit_logic_eq_ok_iff.mp hemit
    cases heq
    exact h.logic ((h.has left).values h1) ((h.has right).values h2)
  | .ternary span cond yes no => by
    intro b c p b' hemit
    obtain ⟨c1, ty1, b1, h1, c2, ty2, b2, h2, c3, ty3, b3, h3, heq⟩ := Expr.emit_ternary_eq_ok_iff.mp hemit
    cases heq
    exact h.ternary ((h.has cond).values h1) ((h.has yes).values h2) ((h.has no).values h3)
  | .assign span left right => by
    intro b c p b' hemit
    obtain ⟨c1, ty1, b1, h1, c2, ty2, b2, h2, heq⟩ := Expr.emit_assign_eq_ok_iff.mp hemit
    cases heq
    exact h.assign ((h.has left).objects h1) ((h.has right).values h2)
  | .update op span left right => by
    intro b c p b' hemit
    obtain ⟨c1, ty1, b1, h1, c2, ty2, b2, h2, heq⟩ := Expr.emit_update_eq_ok_iff.mp hemit
    cases heq
    exact h.update ((h.has left).objects h1) ((h.has right).values h2)
  | .comma left right => by
    intro b c p b' hemit
    obtain ⟨c1, place1, b1, h1, c2, place2, b2, h2, heq⟩ := Expr.emit_comma_eq_ok_iff.mp hemit
    cases heq
    exact h.comma (h.has left _ _ _ _ h1) (h.has right _ _ _ _ h2)

theorem Expr.Compositional.arguments (h : Expr.Compositional ctx P) (span : Span) :
    (args : List Expr) → ∀ b code b', Expr.emitArgs ctx span args b = .ok (code, b') →
      Expr.Arguments P span args b code b'
  | [] => by
    intro b code b' hemit
    cases hemit
    exact ⟨rfl, rfl⟩
  | arg :: args => by
    intro b code b' hemit
    obtain ⟨c1, ty, b1, h1, c2, b2, h2, heq⟩ := Expr.emitArgs_cons_eq_ok_iff.mp hemit
    cases heq
    exact ⟨c1, ty, b1, c2, (h.has arg).values h1, h.arguments span args _ _ _ h2, rfl⟩

end

end Parts

section Declarations

variable {b b' : Body} {base : Base} {r : Code × Body}

def Declarator.ty (base : Base) (d : Declarator) : Ty :=
  { base := base, pointer := d.pointer }

/--
The first extent that an initializer asks for: a string has a NUL behind it, a part of a list may be a row of characters,
and other values fill rows of `inner` elements.
-/
def Shape.rows (ty : Ty) (nested : Bool) (inner : Nat) : Shape → Nat
  | text length => length + 1
  | list parts values => max (if ty == .char && nested then parts else (values + inner - 1) / inner) 1

/-- The extents that are written, or that the initializer asks for, before they are cut to words. -/
def Declarator.declared (d : Declarator) (ty : Ty) (shape : Option Shape) : List Nat :=
  match d.dims with
  | none :: inner =>
    let size := inner.foldl (fun n dim => n * dim.getD 0) 1
    shape.elim 0 (·.rows ty (!inner.isEmpty) size) :: inner.map (·.getD 0)
  | dims => dims.map (·.getD 0)

/-- The bytes of an array with these extents, and those of a scalar if there are none. -/
def Ty.arraySize (ty : Ty) (extents : List Nat) : Nat :=
  ty.size * extents.foldl (· * ·) 1

/-- No word that has to do with an array wraps, wherever in the first 64K it starts. -/
def Ty.Unwrapped (ty : Ty) (extents : List Nat) : Prop :=
  (∀ n ∈ extents, n ≤ 0xFFFF) ∧ ty.arraySize extents + 0xFFFF < 0x100000000

instance Ty.Unwrapped.decidable (ty : Ty) (extents : List Nat) : Decidable (ty.Unwrapped extents) :=
  inferInstanceAs (Decidable (_ ∧ _))

theorem Ty.size_le (ty : Ty) : ty.size ≤ 4 := by
  unfold Ty.size
  cases ty.width <;> decide

theorem Ty.size_pos (ty : Ty) : 0 < ty.size := by
  unfold Ty.size
  cases ty.width <;> decide

theorem Shape.rows_pos (s : Shape) (ty : Ty) (nested : Bool) (inner : Nat) : 0 < s.rows ty nested inner := by
  cases s with
  | text length => exact Nat.succ_pos length
  | list parts values => exact Nat.lt_of_lt_of_le Nat.one_pos (Nat.le_max_right _ _)

theorem Shape.rows_of_extent {s : Shape} {ty : Ty} {nested : Bool} {inner n : Nat}
    (h : s.extent ty nested inner = some n) (hinner : inner < 0x100000000) (hrows : s.rows ty nested inner ≤ 0xFFFF)
    : n = s.rows ty nested inner := by
  cases s with
  | text length =>
    rw [extent] at h
    split at h
    next =>
      cases h
      rfl
    next => cases h
  | list parts values =>
    rw [extent] at h
    split at h
    next => cases h
    next hne =>
      cases h
      have hpos : 0 < inner := Nat.pos_of_ne_zero (by simpa using hne)
      -- no more values than those rows hold, so that neither the product nor the sum wraps
      rw [rows] at hrows ⊢
      split
      next hchars =>
        rw [if_pos hchars] at hrows
        have hcount : parts * inner ≤ 0xFFFF * inner := Nat.mul_le_mul_right inner (by omega)
        rw [Nat.mod_eq_of_lt (by omega), Nat.mod_eq_of_lt (by omega), Nat.add_sub_assoc hpos,
          Nat.mul_comm, Nat.mul_add_div hpos, Nat.div_eq_of_lt (by omega), Nat.add_zero]
      next hvalues =>
        rw [if_neg hvalues] at hrows
        have hcount := (Nat.div_le_iff_le_mul_add_pred hpos).mp (Nat.le_trans (Nat.le_max_left _ _) hrows)
        rw [Nat.mod_eq_of_lt (by omega)]

theorem Ty.foldl_le_arraySize (ty : Ty) {rows : Nat} (hrows : 0 < rows) (inner : List Nat) :
    inner.foldl (· * ·) 1 ≤ ty.arraySize (rows :: inner) := by
  rw [arraySize, List.foldl_cons, Nat.mul_comm 1 rows, List.foldl_assoc]
  calc inner.foldl (· * ·) 1
      ≤ rows * inner.foldl (· * ·) 1 := Nat.le_mul_of_pos_left _ hrows
    _ ≤ ty.size * (rows * inner.foldl (· * ·) 1) := Nat.le_mul_of_pos_left _ ty.size_pos

theorem eq_map_of_mapM {dims : List (Option Nat)} {e : Error} {ns : List Nat}
    (h : dims.mapM (fun n => n.elim (Except.error e) Except.ok) = .ok ns)
    : ns = dims.map (·.getD 0) := by
  induction dims generalizing ns with
  | nil =>
    cases h
    rfl
  | cons n dims ih =>
    cases n with
    | none => cases h
    | some n =>
      simp only [List.mapM_cons, Except.bind_eq_ok_iff, Except.pure_eq_ok_iff] at h
      obtain ⟨_, ⟨⟩, ns', hrest, rfl⟩ := h
      rw [List.map_cons, ← ih hrest, Option.getD_some]

theorem Declarator.extents_eq {ty : Ty} {shape : Option Shape} {dims : List Nat} (h : d.extents ty shape = .ok dims)
    (hwords : ty.Unwrapped (d.declared ty shape)) : dims = d.declared ty shape := by
  unfold Declarator.extents at h
  split at h
  next inner hdims =>
    simp only [Declarator.declared, hdims] at hwords ⊢
    dsimp only at h
    split at h
    next n hn =>
      obtain ⟨s, rfl, hn⟩ := Option.bind_eq_some_iff.mp hn
      obtain ⟨hextents, hsize⟩ := hwords
      rw [Option.elim_some] at hextents hsize ⊢
      have hrows := (List.forall_mem_cons.mp hextents).1
      have hinner := ty.foldl_le_arraySize
        (s.rows_pos ty (!inner.isEmpty) (inner.foldl (fun n dim => n * dim.getD 0) 1)) (inner.map (·.getD 0))
      rw [List.foldl_map] at hinner
      rw [Nat.mod_eq_of_lt (by omega)] at hn
      obtain rfl := Shape.rows_of_extent hn (by omega) hrows
      obtain ⟨ns, hclosed, rfl⟩ := Except.map_eq_ok_iff.mp h
      rw [eq_map_of_mapM hclosed, Nat.mod_eq_of_lt (by omega)]
    next => cases h
  next hclosed =>
    unfold Declarator.declared
    split
    next inner hdims => exact (hclosed inner hdims).elim
    next => exact eq_map_of_mapM h

theorem checked_bind_eq_ok_iff {α : Type} {f : Ty → Emit α} {r : α × Body} :
    (Declared.emit.checked base d >>= f) b = .ok r
      ↔ (d.ty base).isVoid = false ∧ f (d.ty base) b = .ok r := by
  simp only [Declared.emit.checked, Declarator.ty]
  split
  next hvoid => simp only [hvoid, bind_assoc, Emit.bind_eq_ok_iff, Emit.fail_eq_ok_iff, false_and,
      exists_false, Bool.true_eq_false]
  next hvoid => simp only [Bool.not_eq_true] at hvoid; simp only [hvoid, pure_bind, true_and]

theorem Declared.emit_missing_eq_ok_iff {e : Error} : (Declared.missing e).emit ctx base b = .ok r ↔ False := by
  simp only [Declared.emit, Emit.fail_eq_ok_iff]

theorem Declared.emit_function_eq_ok_iff : (Declared.function d).emit ctx base b = .ok r ↔ False := by
  simp only [Declared.emit, checked_bind_eq_ok_iff, Emit.fail_eq_ok_iff, and_false]

theorem Declared.emit_plain_eq_ok_iff :
    (Declared.plain d).emit ctx base b = .ok r
      ↔ (d.ty base).isVoid = false
        ∧ ∃ dims, d.extents (d.ty base) none = .ok dims
          ∧ ∃ v ls, b.locals.declare d.name (d.ty base) dims d.span = .ok (v, ls)
            ∧ ([], { b with locals := ls }) = r := by
  simp only [Declared.emit, checked_bind_eq_ok_iff, Emit.lift_bind_eq_ok_iff,
    Emit.onLocals_bind_eq_ok_iff, Emit.pure_eq_ok_iff]

theorem Declared.emit_scalar_eq_ok_iff {value : Expr} :
    (Declared.scalar d value).emit ctx base b = .ok r
      ↔ (d.ty base).isVoid = false
        ∧ ∃ v ls, b.locals.declare d.name (d.ty base) [] d.span = .ok (v, ls)
          ∧ ∃ code ty b1, value.Loads ctx d.span { b with locals := ls } code ty b1
            ∧ (storeCode v code, b1) = r := by
  simp only [Declared.emit, checked_bind_eq_ok_iff, Emit.onLocals_bind_eq_ok_iff,
    Expr.emitValue_bind_eq_ok_iff, Emit.pure_eq_ok_iff]

theorem Declared.emit_text_eq_ok_iff {bytes : List UInt8} :
    (Declared.text d bytes).emit ctx base b = .ok r
      ↔ (d.ty base).isVoid = false ∧ d.ty base = .char
        ∧ ∃ dims, d.extents (d.ty base) (some (.text bytes.length)) = .ok dims
          ∧ ∃ v ls, b.locals.declare d.name (d.ty base) dims d.span = .ok (v, ls)
            ∧ bytes.length < v.size
            ∧ ([pushInt 0, v.access .effective, pushStr bytes, .call .strcpy], { b with locals := ls })
              = r := by
  simp only [Declared.emit, checked_bind_eq_ok_iff, Emit.ite_fail_eq_ok_iff,
    Emit.lift_bind_eq_ok_iff, Emit.onLocals_bind_eq_ok_iff, Emit.pure_eq_ok_iff, bne_iff_ne, ne_eq,
    Decidable.not_not, Nat.not_le]

theorem Declared.emit_list_eq_ok_iff {elements : List Element} :
    (Declared.list d elements).emit ctx base b = .ok r
      ↔ (d.ty base).isVoid = false
        ∧ ∃ values b1, emitElements ctx elements b = .ok (values, b1)
          ∧ ∃ dims, d.extents (d.ty base) (some (.list values.length values.length)) = .ok dims
            ∧ ∃ v ls, b1.locals.declare d.name (d.ty base) dims d.span = .ok (v, ls)
              ∧ values.length ≤ v.count
              ∧ (storeElements v values, { b1 with locals := ls }) = r := by
  simp only [Declared.emit, checked_bind_eq_ok_iff]
  refine and_congr_right fun _ => ?_
  rw [Emit.bind_eq_ok_iff]
  simp only [Emit.ite_fail_eq_ok_iff, Emit.lift_bind_eq_ok_iff, Emit.onLocals_bind_eq_ok_iff,
    Emit.pure_eq_ok_iff, Nat.not_lt]

theorem emitElements_cons_eq_ok_iff {x : Element} {xs : List Element} {r : List Code × Body} :
    emitElements ctx (x :: xs) b = .ok r
      ↔ ∃ code ty b1, x.value.Loads ctx x.opened b code ty b1
        ∧ ∃ codes b2, emitElements ctx xs b1 = .ok (codes, b2) ∧ (code :: codes, b2) = r := by
  simp only [emitElements, Expr.emitValue_bind_eq_ok_iff]
  simp only [Emit.bind_eq_ok_iff, Emit.pure_eq_ok_iff]

theorem emitDeclared_cons_eq_ok_iff {d : Declared} {ds : List Declared} :
    emitDeclared ctx base (d :: ds) b = .ok r
      ↔ ∃ code1 b1, d.emit ctx base b = .ok (code1, b1)
        ∧ ∃ code2 b2, emitDeclared ctx base ds b1 = .ok (code2, b2) ∧ (code1 ++ code2, b2) = r := by
  simp only [emitDeclared, Emit.bind_eq_ok_iff, Emit.pure_eq_ok_iff]

end Declarations

end Handheld.Source
