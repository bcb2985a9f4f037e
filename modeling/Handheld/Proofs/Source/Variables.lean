import Handheld.Proofs.Source.Declarations

/-!
The globals of a program in the order of the text, with their initializers.
-/
namespace Handheld.Source

variable {name : String} {f : Function} {span : Span} {d : Declarator} {ty : Ty}

structure Variable where
  name : String
  ty : Ty
  extents : List Nat
  init : Option Init

def Variable.size (x : Variable) : Nat :=
  x.ty.arraySize x.extents

def Variable.Unwrapped (x : Variable) : Prop :=
  x.ty.Unwrapped x.extents

instance Variable.Unwrapped.decidable (x : Variable) : Decidable x.Unwrapped :=
  inferInstanceAs (Decidable (x.ty.Unwrapped x.extents))

def Declarator.asVariable (d : Declarator) (ty : Ty) (init : Option Init) : Variable where
  name := d.name
  ty := ty
  extents := d.declared ty (init.bind (·.shape))
  init := init

def variablesWith (base : Base) : Nat → Globals → Cursor → List Variable
  | 0, _, _ => []
  | fuel + 1, g, c =>
    match declarator g.macros c with
    | .error _ _ => []
    | .ok d c1 =>
      if d.dims.isEmpty && c1.head.token == .punct .lParen then []
      else
        match globalRest g d (d.ty base) c1 with
        | .error _ _ => []
        | .ok g' c2 =>
          d.asVariable (d.ty base) (initializerAt g.macros c1) ::
            if c2.head.token == .punct .comma then variablesWith base fuel g' c2.tail else []

def variablesFrom : Nat → Globals → Cursor → List Variable
  | 0, _, _ => []
  | fuel + 1, g, c =>
    match c.head.token with
    | .punct .hash =>
      match directive g c with
      | .ok g' c' => variablesFrom fuel g' c'
      | .error _ _ => []
    | .punct .semicolon => variablesFrom fuel g c.tail
    | .word w =>
      match w.base?, declaration g c with
      | some base, .ok g' c' =>
        variablesWith base (c.tail.rest.length + 1) g c.tail ++ variablesFrom fuel g' c'
      | _, _ => []
    | _ => []

def globalVariables (source : String) : List Variable :=
  let c := Cursor.ofSource source
  variablesFrom (c.rest.length + 1) {} c

def Globals.data (g : Globals) : List (String × Var) × Nat × List (Nat × List UInt8) × List (Nat × List UInt8) :=
  (g.vars, g.size, g.inits, g.strings)

inductive Globals.Adds (g : Globals) (x : Variable) (v : Var) (g' : Globals) : Prop where
  | plain {dims : List Nat} {span : Span} (hinit : x.init = none) (hdims : x.Unwrapped → dims = x.extents)
    (h : g.declare x.name x.ty dims span = .ok (v, g'))
  | filled {dims : List Nat} {span : Span} {g1 : Globals} {init : Init} (hinit : x.init = some init)
    (hdims : x.Unwrapped → dims = x.extents) (h : g.declare x.name x.ty dims span = .ok (v, g1))
    (hset : g1.setContents v init span = .ok g')

inductive Globals.Gathers : Globals → List Variable → Globals → Prop where
  | done {g : Globals} : Gathers g [] g
  | aside {g g1 g' : Globals} {xs : List Variable} (h : g1.data = g.data) (hrest : Gathers g1 xs g') : Gathers g xs g'
  | var {g g1 g' : Globals} {x : Variable} {xs : List Variable} {v : Var} (h : g.Adds x v g1)
    (hrest : Gathers g1 xs g') : Gathers g (x :: xs) g'

open Read

section Survey

variable {g g1 g' : Globals} {c c' : Cursor} {base : Base} {fuel : Nat}

theorem Globals.Gathers.trans {xs ys : List Variable} (h : g.Gathers xs g1) (h' : g1.Gathers ys g') :
    g.Gathers (xs ++ ys) g' := by
  induction h with
  | done => exact h'
  | aside hdata _ ih => exact .aside hdata (ih h')
  | var hadds _ ih => exact .var hadds (ih h')

theorem Globals.data_addFunction (h : g.addFunction name f span = .ok g') : g'.data = g.data := by
  obtain ⟨_, rfl, -⟩ := addFunction_eq_ok h
  rfl

theorem data_directive (h : directive g c = .ok g' c') : g'.data = g.data := by
  rcases of_directive h with ⟨rfl, -⟩ | ⟨name, value, ts, rfl, -⟩
  · rfl
  · rfl

theorem adds_of_globalRest (h : globalRest g d ty c = .ok g' c') :
    ∃ v, g.Adds (d.asVariable ty (initializerAt g.macros c)) v g' := by
  obtain ⟨dims, v, g1, hdims, hdeclare, ⟨hnone, rfl⟩ | ⟨init, hsome, hset⟩⟩ := declare_of_globalRest h
  · exact ⟨v, .plain hnone (Declarator.extents_eq hdims) hdeclare⟩
  · exact ⟨v, .filled hsome (Declarator.extents_eq hdims) hdeclare hset⟩

theorem gathers_of_declarators (h : declarators base fuel g c = .ok g' c') :
    g.Gathers (variablesWith base fuel g c) g' := by
  induction fuel generalizing g c with
  | zero => cases h
  | succ fuel ih =>
    obtain ⟨d, c1, hd, ⟨hdims, hopen, hrest⟩ | ⟨hvar, g1, c2, hglobal, hrest⟩⟩ := of_declarators h
    · obtain ⟨-, -, f, -, hadd, -⟩ := declares_of_functionRest true hd hdims hopen hrest
      simp only [variablesWith, hd, hdims, hopen, List.isEmpty_nil, beq_self_eq_true, Bool.and_self, if_true]
      exact .aside (Globals.data_addFunction hadd) .done
    · have hnot : (d.dims.isEmpty && c1.head.token == .punct .lParen) = false := by simpa using hvar
      obtain ⟨v, hadds⟩ := adds_of_globalRest hglobal
      rcases hrest with ⟨hcomma, hrest⟩ | ⟨hend, rfl, -⟩
      · simp only [variablesWith, hd, hnot, hglobal, hcomma, beq_self_eq_true, if_true, Bool.false_eq_true, if_false]
        exact .var hadds (ih hrest)
      · simp only [variablesWith, hd, hnot, hglobal, hend, Bool.false_eq_true, if_false]
        exact .var hadds .done

theorem gathers_of_topLevel (h : topLevel fuel g c = .ok g' c') : g.Gathers (variablesFrom fuel g c) g' := by
  induction fuel generalizing g c with
  | zero => cases h
  | succ fuel ih =>
    unfold variablesFrom
    rcases of_topLevel h with ⟨heof, rfl, -⟩ | ⟨hsemicolon, hrest⟩ | ⟨g1, c1, hrest, ⟨hhash, hd⟩ | ⟨w, hword, hd⟩⟩
    · rw [heof]
      exact .done
    · rw [hsemicolon]
      exact ih hrest
    · rw [hhash, hd]
      exact .aside (data_directive hd) (ih hrest)
    · obtain ⟨base, hbase, hdeclarators⟩ := of_declaration hword hd
      simp only [hword, hbase, hd]
      exact (gathers_of_declarators hdeclarators).trans (ih hrest)

theorem gathers_of_survey (h : survey c = .ok g) : Globals.Gathers {} (variablesFrom (c.rest.length + 1) {} c) g := by
  obtain ⟨c', htop⟩ := topLevel_of_survey h
  exact gathers_of_topLevel htop

end Survey

end Handheld.Source
