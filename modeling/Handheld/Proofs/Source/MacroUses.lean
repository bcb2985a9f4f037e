import Handheld.Proofs.Source.Passes

/-!
The survey reads with the macros in front of a place, the walk over the bodies with those at the end of the text.
-/
namespace Handheld.Source

open Read

/-- Where the survey stands at the top level, with the definitions in front of it, the latest one first. -/
structure Site where
  defines : Macros := []
  globals : Globals := {}
  cursor : Cursor

namespace Site

def next? (p : Site) : Option Site :=
  match p.cursor.head.token with
  | .punct .hash =>
    match directive p.globals p.cursor with
    | .ok g c => some { defines := (defined? p.defines p.cursor).toList ++ p.defines, globals := g, cursor := c }
    | .error _ _ => none
  | .punct .semicolon => some { p with cursor := p.cursor.tail }
  | .word _ =>
    match declaration p.globals p.cursor with
    | .ok g c => some { p with globals := g, cursor := c }
    | .error _ _ => none
  | _ => none

def onward : Nat → Site → List Site
  | 0, p => [p]
  | fuel + 1, p => p :: (p.next?.map (onward fuel)).getD []

end Site

def sites (source : String) : List Site :=
  Site.onward ((Cursor.ofSource source).rest.length + 1) { cursor := Cursor.ofSource source }

def definesBefore (source : String) (c : Cursor) : Macros :=
  (((sites source).filter (c.rest.length ≤ ·.cursor.rest.length)).getLast?.map (·.defines)).getD []

/-- How a body behind the header at `c` is read: with `macros`, and so with those in force unless they differ on it. -/
def ReadsInForce (source : String) (macros : Macros) (c c1 : Cursor) (r : Stmt × Cursor) : Prop :=
  ∃ fuel ts, c1.Past ts r.2 ∧ r = Grammar.block macros fuel c1
    ∧ (Agree macros (definesBefore source c) ts → r = Grammar.block (definesBefore source c) fuel c1)

section Survey

variable {m m' : Macros} {c c' : Cursor} {g g' : Globals} {p q : Site}

theorem valueAt_congr {line : Nat} {v : Macro} (h : ∀ x, m.lookup x = m'.lookup x) (hv : valueAt m line c = some v) :
    valueAt m' line c = some v := by
  have hagree : ∀ ts, Agree m m' ts := fun _ _ _ x _ => h x
  have hsame {found : Option (List UInt8)} {c1 : Cursor} (hstring : string? m c = .ok found c1) :
      string? m' c = .ok found c1 :=
    have ⟨_, hpast, _⟩ := (takes_string? m c).ok found c1 hstring
    string?_of_agree hstring hpast (hagree _)
  unfold valueAt at hv ⊢
  split at hv
  next hend => rwa [if_pos hend]
  next hend =>
    rw [if_neg hend]
    split at hv
    next bytes c1 hstring =>
      rw [hsame hstring]
      exact hv
    next c1 hstring =>
      rw [hsame hstring]
      split at hv
      next n c2 hconstant =>
        obtain ⟨us, -, -, hsame'⟩ := (takes_constant c1).ok _ _ hconstant
        have hconstant' := hsame' trivial (hagree _)
        simp only [hconstant']
        exact hv
      next => cases hv
    next => cases hv

theorem defined?_congr (h : ∀ x, m.lookup x = m'.lookup x) : defined? m c = defined? m' c := by
  have hvalue {line : Nat} {c : Cursor} : valueAt m line c = valueAt m' line c := by
    apply Option.ext
    exact fun v => ⟨valueAt_congr h, valueAt_congr fun x => (h x).symm⟩
  simp only [defined?, hvalue]

theorem kept_macros (m : Macros) : Globals.Kept (fun _ => True) (·.macros = m) where
  function _ hg hadd := by
    obtain ⟨_, rfl, -⟩ := Globals.addFunction_eq_ok hadd
    exact hg
  var hg hdeclare := by
    obtain ⟨-, -, -, -, rfl⟩ := Globals.declare_eq_ok_iff.mp hdeclare
    exact hg
  contents hg hdeclare hset := by
    obtain ⟨_, -, rfl⟩ := Globals.setContents_eq_ok_iff.mp hset
    obtain ⟨-, -, -, -, rfl⟩ := Globals.declare_eq_ok_iff.mp hdeclare
    exact hg

theorem Declares.macros {base : Base} {first : Bool} {found : Option Declaration}
    (h : Declares base first g c found g' c') : g'.macros = g.macros :=
  h.kept (kept_macros g.macros) (fun _ _ _ _ => trivial) rfl

def Site.Current (p : Site) : Prop :=
  ∀ x, p.globals.macros.lookup x = p.defines.lookup x

theorem Site.Current.next (h : p.Current) (hnext : p.next? = some q) : q.Current := by
  unfold next? at hnext
  split at hnext
  next =>
    split at hnext
    next g c hd =>
      cases hnext
      intro x
      rw [← defined?_congr h]
      rcases of_directive hd with ⟨rfl, -, hnone⟩ | ⟨name, v, -, rfl, hsome, -⟩
      · rw [hnone]
        exact h x
      · rw [hsome, Option.toList_some, List.singleton_append, List.lookup_cons, Table.lookup_insert, h x]
        by_cases hx : x = name
        · simp [hx]
        · rw [if_neg hx, beq_eq_false_iff_ne.mpr hx]
    next => cases hnext
  next =>
    cases hnext
    exact h
  next w hw =>
    split at hnext
    next g c hd =>
      cases hnext
      obtain ⟨base, -, hdeclarators⟩ := of_declaration hw hd
      intro x
      rw [(declares_of_declarators true hdeclarators).macros]
      exact h x
    next => cases hnext
  next => cases hnext

theorem Site.Current.onward (h : p.Current) (fuel : Nat) : ∀ q ∈ p.onward fuel, q.Current := by
  induction fuel generalizing p with
  | zero => simpa [Site.onward] using h
  | succ fuel ih =>
    rw [Site.onward, List.forall_mem_cons]
    refine ⟨h, ?_⟩
    cases hnext : p.next? with
    | none => simp
    | some q => exact ih (h.next hnext)

theorem onward_of_topLevel {fuel : Nat} (h : topLevel fuel p.globals p.cursor = .ok g c') :
    ∃ q, (p.onward fuel).getLast? = some q ∧ q.globals = g ∧ q.cursor.head.token = .eof := by
  induction fuel generalizing p with
  | zero => cases h
  | succ fuel ih =>
    have hmore (q : Site) (hnext : p.next? = some q) (hrest : topLevel fuel q.globals q.cursor = .ok g c') :
        ∃ q, (p.onward (fuel + 1)).getLast? = some q ∧ q.globals = g ∧ q.cursor.head.token = .eof := by
      obtain ⟨r, hlast, hr⟩ := ih hrest
      refine ⟨r, ?_, hr⟩
      rw [Site.onward, hnext, Option.map_some, Option.getD_some, List.getLast?_cons, hlast]
      rfl
    rcases of_topLevel h with ⟨heof, rfl, -⟩ | ⟨hsemicolon, hrest⟩ | ⟨g1, c1, hrest, ⟨hhash, hd⟩ | ⟨w, hword, hd⟩⟩
    · refine ⟨p, ?_, rfl, heof⟩
      simp [Site.onward, Site.next?, heof]
    · exact hmore { p with cursor := p.cursor.tail } (by simp [Site.next?, hsemicolon]) hrest
    · exact hmore { p with defines := _, globals := g1, cursor := c1 } (by simp only [Site.next?, hhash, hd]; rfl) hrest
    · exact hmore { p with globals := g1, cursor := c1 } (by simp [Site.next?, hword, hd]) hrest

end Survey

section Bodies

variable {source : String} {macros : Macros} {c : Cursor} {fs : List TopLevel}

theorem Walks.inForce (h : Walks macros (Blocks macros) c fs) (hclosed : c.Closed) (hsound : ∀ f ∈ fs, f.isSound) :
    Walks macros (ReadsInForce source macros) c fs := by
  induction h with
  | done h => exact .done h
  | @directive c _ h _ ih => exact .directive h (ih (hclosed.tail.past (c.tail.past_behindLine _)) hsound)
  | semicolon h _ ih => exact .semicolon h (ih hclosed.tail hsound)
  | global h hbase hd hvar hskip _ ih =>
    obtain ⟨ts, hpast, -⟩ := takes_declarator.past hd
    obtain ⟨us, hpast'⟩ := past_of_skipToSemicolon hskip
    exact .global h hbase hd hvar hskip (ih (hclosed.tail.past (hpast.trans hpast')) hsound)
  | prototype h hbase hd hdims hopen hps hend _ ih =>
    obtain ⟨ts, hpast, -⟩ := past_header hd hps
    exact .prototype h hbase hd hdims hopen hps hend (ih (hclosed.tail.past hpast).tail hsound)
  | @definition c _ c2 _ _ _ _ _ _ h hbase hd hdims hopen hps hbody hread hrest ih =>
    obtain ⟨fuel, rfl⟩ := hread
    obtain ⟨ts, hpast, -⟩ := past_header hd hps
    have hclosed2 := hclosed.tail.past hpast
    obtain ⟨vs, hpast', hvs⟩ :=
      (Grammar.takes_block fuel c2 : Grammar.TakesAt macros (definesBefore source c) _ _ _ _ _ c2) hclosed2
    refine .definition h hbase hd hdims hopen hps hbody ⟨fuel, vs, hpast', rfl, fun hagree => ?_⟩
      (ih (hclosed2.past hpast') fun f hf => hsound f (List.mem_cons_of_mem _ hf))
    obtain ⟨-, -, hsame⟩ := hvs (hsound _ List.mem_cons_self)
    refine (hsame (List.forall_mem_append.mpr ⟨hagree, ?_⟩)).symm
    -- no name stands behind a body
    rintro l hl x hx
    have hnext := hrest.not_operand
    rw [← List.mem_singleton.mp hl, hx] at hnext
    cases hnext

end Bodies

/-- The macros that a program is read with, where `g` is what the survey finds. -/
structure InForce (source : String) (g : Globals) : Prop where
  ends : ∃ p, (sites source).getLast? = some p ∧ p.globals = g ∧ p.cursor.head.token = .eof
  survey : ∀ p ∈ sites source, p.Current
    ∧ ∀ base first found g' c', Declares base first p.globals p.cursor.tail found g' c' → g'.macros = p.globals.macros
  bodies : Walks g.macros (ReadsInForce source g.macros) (Cursor.ofSource source)
    (functions g.macros (Cursor.ofSource source))
  constants : ∀ macros c n c', constant macros c = .ok n c' →
    ∃ ts, c.Past ts c' ∧ ∀ l ∈ ts, ∀ x, l.token = .ident x → ∃ v, macros.lookup x = some (.int v)
  names : ∀ ctx b x span r, (Expr.name x span).emit ctx b = .ok r → ∃ v, ctx.var? b x = some v

theorem macros_in_force {source text : String} {g : Globals} (h : compile source = .ok text)
    (hg : survey (Cursor.ofSource source) = .ok g)
    : InForce source g := by
  obtain ⟨g', hg', code, hemit, -⟩ := compile_eq_ok_iff.mp h
  cases hg.symm.trans hg'
  obtain ⟨c', htop⟩ := topLevel_of_survey hg
  constructor
  · exact onward_of_topLevel (p := { cursor := Cursor.ofSource source }) htop
  · intro p hp
    have hstart : Site.Current { cursor := Cursor.ofSource source } := fun _ => rfl
    exact ⟨hstart.onward _ p hp, fun _ _ _ _ _ hd => hd.macros⟩
  · exact (walks_of_topLevel (not_missing_of_emitFunctions hemit)).inForce (closed_ofSource source)
      (isSound_of_emitFunctions hemit)
  · intro macros c n c' hn
    obtain ⟨ts, hpast, hts⟩ := takes_constant.past hn
    refine ⟨ts, hpast, fun l hl x hx => ?_⟩
    have hconstant := hts l hl
    rw [hx, Token.isConstant, Option.any_eq_true] at hconstant
    obtain ⟨v, hv, hint⟩ := hconstant
    cases v with
    | int n => exact ⟨n, hv⟩
    | text bytes => cases hint
  · intro ctx b x span r hr
    obtain ⟨v, hv, -⟩ := Expr.emit_name_eq_ok_iff.mp hr
    exact ⟨v, hv⟩

def anewSource : String :=
  "#define N 2\nint a[N] = \x7b N, 1 \x7d;\n#define N 3\n" ++
    "void main() \x7b int b[N]; switch (a[0]) \x7b case N: b[0] = N; \x7d \x7d"

theorem macros_in_force_anewSource :
    ∃ text g, compile anewSource = .ok text ∧ survey (Cursor.ofSource anewSource) = .ok g ∧ InForce anewSource g := by
  obtain ⟨text, htext⟩ := Except.exists_eq_ok_of_isOk (x := compile anewSource) (by decide +kernel)
  obtain ⟨g, hg, -⟩ := compile_eq_ok_iff.mp htext
  exact ⟨text, g, htext, hg, macros_in_force htext hg⟩

def lateSource : String :=
  "#define A 1\nvoid main() \x7b putchar(A); \x7d\n#define A 2\n"

/-- The number in front of the only use is 1, and the code has 2 from behind it. -/
theorem macros_out_of_force :
    ((sites lateSource).map fun p => (p.cursor.head.token, p.defines))
        = [(.punct .hash, []), (.word .void, [("A", .int 1)]), (.punct .hash, [("A", .int 1)]),
          (.eof, [("A", .int 2), ("A", .int 1)])]
      ∧ compileCode lateSource = .ok [.op .space [.int 0], .op .jmp [.label (.named "main")], .label (.named "main"),
        .op .func [.int 5, .int 0], pushInt 2, .call .putchar, .op .exit []] := by
  constructor <;> decide +kernel

end Handheld.Source
