import Handheld.Proofs.Source.Records
import Handheld.Proofs.Source.StackBalance

/-!
Where the declaration and the definition of a function agree on whether there is a result, a call finds on the stack
what the body leaves.
-/
namespace Handheld.Source

open Asm

variable {name : String} {code : Code}

structure Tracks (functions : Functions) (body : Code) (depth : Nat → Nat) : Prop where
  start : depth 0 = 0
  step : ∀ i < body.length, ∃ taken left, Effect functions body i taken left ∧ taken ≤ depth i
    ∧ ∀ j, Edge body i j → j < body.length ∧ depth j = depth i - taken + left
  closed : ∀ i line l, body[i]? = some line → Line.target? line = some l → ∃ j, Edge body i j

theorem Fits.tracks {functions : Functions} {Δ : Depths} {result d' : Nat} {body : Code} {ds : List Nat}
    (h : Fits functions Δ result 0 body ds d') (hlast : ∃ line, body.getLast? = some line ∧ Line.goesOn line = false)
    (hlabels : ∀ l d, Δ l = some d → ∃ n, l = .fresh n ∧ .label (.fresh n) ∈ body)
    : Tracks functions body (fun i => ds.getD i 0)
        ∧ ∀ i args, body[i]? = some (.op .ret args) → ds.getD i 0 = result := by
  have hline : ∀ k line, body[k]? = some line →
      ∃ here, ds[k]? = some here ∧ Sound functions Δ result body k line here ds[k + 1]? := by
    intro k line hk
    obtain ⟨here, hhere, hsound⟩ := h.sound [] [] hk
    simp only [List.nil_append, List.append_nil, List.length_nil, Nat.zero_add] at hsound
    refine ⟨here, hhere, hsound.congr_next fun hon => ?_⟩
    rw [h.getElem?_next hlast hk hon [], List.append_nil]
  refine ⟨⟨?_, fun i hi => ?_, fun i line l hi hl => ?_⟩, fun i args hi => ?_⟩
  · cases ds with
    | nil => rfl
    | cons x ds => exact Option.some.inj h.head?_eq
  · refine step_of_sound (fun k line hk => ?_) h.length_eq (fun l d hl => (hlabels l d hl).imp fun _ => And.left) hi
    obtain ⟨here, hhere, hsound⟩ := hline k line hk
    exact ⟨here, result, hhere, hsound⟩
  · obtain ⟨here, -, hsound⟩ := hline i line hi
    exact hsound.exists_edge hlabels hi hl
  · obtain ⟨here, hhere, hsound⟩ := hline i _ hi
    rw [getD_of_getElem? hhere]
    exact hsound.ret args rfl

theorem exists_tracks_of_emit {g : Globals} {lo hi : Nat} {ret : Ty} {params : List Param} {body : Stmt} (hg : g.Near)
    (h : (TopLevel.function name ret params body).emit g lo = .ok (code, hi))
    : ∃ size args own depth, code = [.label (.named name), .op .func [.int size, .int args]] ++ own
        ∧ Tracks g.functions own depth
        ∧ ∀ i args, own[i]? = some (.op .ret args) → depth i = if ret.isVoid then 0 else 1 := by
  obtain ⟨locals, hparams, c, b, hbody, heq⟩ := TopLevel.emit_function_eq_ok_iff.mp h
  cases heq
  have hlocals := near_addParams .empty hparams
  obtain ⟨Δ, hlevels, hΔ⟩ := (body.emits hbody).leveled.exists_depths
  obtain ⟨hlevels, -⟩ := hlevels ⟨by rintro l ⟨⟩, by rintro l ⟨⟩⟩ ⟨by rintro v l ⟨⟩, by rintro l ⟨⟩⟩
  obtain ⟨ds1, hepilogue⟩ := @goes_epilogue g.functions Δ { globals := g, ret := ret, main := name == "main" }
  obtain ⟨ds, hfits, -, -⟩ := hlevels.extend hepilogue
  obtain ⟨last, hlast, hstop⟩ := epilogue_getLast? { globals := g, ret := ret, main := name == "main" }
  obtain ⟨htracks, hret⟩ := hfits.tracks
    ⟨last, by rw [List.getLast?_append, hlast, Option.some_or], hstop⟩ <| by
      intro l d hl
      obtain ⟨n, rfl, hlo, hhi⟩ := hΔ l d hl
      exact ⟨n, rfl, List.mem_append_left _ (body.mem_of_emit hg hlocals hbody hlo hhi)⟩
  exact ⟨_, _, _, _, List.append_assoc _ _ _, htracks, hret⟩

theorem held_of_emit_call {ctx : Context} {b b' : Body} {span : Span} {args : List Expr}
    {place : Place} {f : Function} (hf : ctx.globals.functions.lookup name = some f)
    (h : (Expr.call name span args).emit ctx b = .ok ((code, place), b'))
    : place.held = f.results := by
  obtain ⟨-, _, _, -, heq⟩ := (Expr.emit_call_function_eq_ok_iff hf).mp h
  cases heq
  unfold Function.results
  split <;> rfl

def CallsFit (g : Globals) (name : String) (body : Code) : Prop :=
  ∃ depth, Tracks g.functions body depth
    ∧ ∀ i ops, body[i]? = some (.op .ret ops) →
      ∀ ctx span args b code place b', ctx.globals = g →
        (Expr.call name span args).emit ctx b = .ok ((code, place), b') → place.held = depth i

def TopLevel.isResult (name : String) (void : Bool) : TopLevel → Bool
  | missing _ => false
  | function x ret _ _ => x == name && ret.isVoid == void

theorem TopLevel.eq_of_isResult {f : TopLevel} {void : Bool} (h : f.isResult name void) :
    ∃ ret params body, f = .function name ret params body ∧ ret.isVoid = void := by
  cases f with
  | missing e => cases h
  | function x ret params body =>
    simp only [TopLevel.isResult, Bool.and_eq_true, beq_iff_eq] at h
    obtain ⟨rfl, hvoid⟩ := h
    exact ⟨ret, params, body, rfl, hvoid⟩

/--
If the first declaration of a function and its definition agree on whether there is a result, a call of it finds on the
stack what the body leaves there, whatever other declarations there are.
-/
theorem compile_callsFit {source text name : String} {g : Globals} {d : Declaration} {ret : Ty} {params : List Param}
    {body : Stmt} (h : compile source = .ok text) (hg : survey (Cursor.ofSource source) = .ok g)
    (hf : .function name ret params body ∈ functions g.macros (Cursor.ofSource source))
    (hd : (declarations source).find? (·.name == name) = some d) (hvoid : d.function.ret.isVoid = ret.isVoid)
    : ∃ above size args own below lo hi,
        text = Code.render (above ++ [.label (.named name), .op .func [.int size, .int args]] ++ own ++ below)
        ∧ (TopLevel.function name ret params body).emit g lo
          = .ok ([.label (.named name), .op .func [.int size, .int args]] ++ own, hi)
        ∧ CallsFit g name own := by
  obtain ⟨g', hg', code, hcode, rfl⟩ := compile_eq_ok_iff.mp h
  cases hg.symm.trans hg'
  obtain ⟨above, own', below, lo, hi, hemit, rfl⟩ := exists_emit_of_mem hf hcode
  obtain ⟨size, args, own, depth, rfl, htracks, hret⟩ := exists_tracks_of_emit (survey_near hg) hemit
  refine ⟨startCode g ++ [.op .jmp [.label (.named "main")]] ++ above, size, args, own, below, lo, hi,
    by simp only [List.append_assoc], hemit, depth, htracks, ?_⟩
  rintro i ops hi ctx span args b code place b' rfl hcall
  have hrecorded := (survey_records hg).ret name
  rw [hd] at hrecorded
  obtain ⟨f, hlookup, hfret⟩ : ∃ f, ctx.globals.functions.lookup name = some f ∧ f.ret = d.function.ret := by
    simpa [Globals.ret?] using hrecorded
  rw [held_of_emit_call hlookup hcall, hret i ops hi, Function.results, hfret, hvoid]

def countSource : String :=
  "int f(int n); int f(int m); int f(int n) \x7b if (n) return f(n - 1) + 1; \x7d int f(int k); " ++
    "void main() \x7b f(3); \x7d"

theorem compile_callsFit_countSource :
    ∃ text g d ret params body, compile countSource = .ok text ∧ survey (Cursor.ofSource countSource) = .ok g
      ∧ .function "f" ret params body ∈ functions g.macros (Cursor.ofSource countSource)
      ∧ (declarations countSource).find? (·.name == "f") = some d ∧ d.function.ret.isVoid = ret.isVoid
      ∧ ∃ above size args own below lo hi,
        text = Code.render (above ++ [.label (.named "f"), .op .func [.int size, .int args]] ++ own ++ below)
        ∧ (TopLevel.function "f" ret params body).emit g lo
          = .ok ([.label (.named "f"), .op .func [.int size, .int args]] ++ own, hi)
        ∧ CallsFit g "f" own := by
  obtain ⟨text, htext⟩ := Except.exists_eq_ok_of_isOk (x := compile countSource) (by decide +kernel)
  have hmem : ∀ g ∈ (survey (Cursor.ofSource countSource)).toOption,
      ∃ f ∈ functions g.macros (Cursor.ofSource countSource), f.isResult "f" false := by decide +kernel
  have hfind : ∃ d ∈ (declarations countSource).find? (·.name == "f"), d.function.ret.isVoid = false := by
    decide +kernel
  obtain ⟨g, hg, -⟩ := compile_eq_ok_iff.mp htext
  obtain ⟨f, hf, hresult⟩ := hmem g (by simp [hg, Except.toOption])
  obtain ⟨ret, params, body, rfl, hret⟩ := TopLevel.eq_of_isResult hresult
  obtain ⟨d, hd, hvoid⟩ := hfind
  have hagree := hvoid.trans hret.symm
  exact ⟨text, g, d, ret, params, body, htext, hg, hf, hd, hagree, compile_callsFit htext hg hf hd hagree⟩

def clashSource : String :=
  "int f(); void f() \x7b \x7d void main() \x7b f(); \x7d"

/-- The type of a definition is not compared with that of the declarations before it. -/
theorem compile_clashSource :
    ∃ text g ret params body own, compile clashSource = .ok text ∧ survey (Cursor.ofSource clashSource) = .ok g
      ∧ .function "f" ret params body ∈ functions g.macros (Cursor.ofSource clashSource)
      ∧ (TopLevel.function "f" ret params body).emit g 0
        = .ok ([.label (.named "f"), .op .func [.int 5, .int 0]] ++ own, 0)
      ∧ ¬ CallsFit g "f" own := by
  obtain ⟨text, htext⟩ := Except.exists_eq_ok_of_isOk (x := compile clashSource) (by decide +kernel)
  have hmem : ∀ g ∈ (survey (Cursor.ofSource clashSource)).toOption,
      (∃ f ∈ functions g.macros (Cursor.ofSource clashSource), f.isResult "f" true
        ∧ (f.emit g 0).toOption = some ([.label (.named "f"), .op .func [.int 5, .int 0], .op .ret], 0))
      ∧ ∃ r ∈ ((Expr.call "f" {} []).emit { globals := g, ret := .void, main := true } {}).toOption,
        r.1.2.held = 1 := by decide +kernel
  obtain ⟨g, hg, -⟩ := compile_eq_ok_iff.mp htext
  obtain ⟨⟨f, hf, hresult, hemit⟩, r, hcall, hheld⟩ := hmem g (by simp [hg, Except.toOption])
  obtain ⟨ret, params, body, rfl, hret⟩ := TopLevel.eq_of_isResult hresult
  refine ⟨text, g, ret, params, body, [.op .ret], htext, hg, hf, Except.eq_ok_of_toOption hemit, ?_⟩
  rintro ⟨depth, htracks, hfit⟩
  have hzero := hfit 0 [] rfl { globals := g, ret := .void, main := true } _ _ _ r.1.1 r.1.2 r.2 rfl
    (Except.eq_ok_of_toOption hcall)
  rw [hheld, htracks.start] at hzero
  cases hzero

end Handheld.Source
