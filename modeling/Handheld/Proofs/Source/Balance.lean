import Handheld.Proofs.Machine.Effect
import Handheld.Source.Place
import Mathlib.Data.List.GetD

/-!
Depths of the value stack along code. To find them, code is read from its first line to its last (`Fits`), with the
depths at labels given.
-/
namespace Handheld.Source

open Asm

variable {d1 i here : Nat} {a : Code} {next : Option Nat}

abbrev Functions := List (String × Function)

def Function.results (f : Function) : Nat :=
  if f.ret.isVoid then 0 else 1

def results (c : Call) : Nat :=
  if c.signature.returns then 1 else 0

inductive Effect (functions : Functions) (code : Code) (i : Nat) : Nat → Nat → Prop where
  | label {l : Label} (h : code[i]? = some (.label l)) : Effect functions code i 0 0
  | op {opcode : Opcode} {args : List Arg} (h : code[i]? = some (.op opcode args))
    (hcall : opcode ≠ .call) (hfunc : opcode ≠ .func)
    (hmoves : Machine.Moves (Machine.execute opcode) opcode.effect.1 opcode.effect.2) :
    Effect functions code i opcode.effect.1 opcode.effect.2
  | func {size : Int} {n : Nat} (h : code[i]? = some (.op .func [.int size, .int n])) :
    Effect functions code i n 0
  | call {name : String} {f : Function} (h : code[i]? = some (.op .call [.label (.named name)]))
    (hf : functions.lookup name = some f) : Effect functions code i f.params f.results
  | library {c : Call} (h : code[i]? = some (.call c)) (hc : c.signature.variadic = false) :
    Effect functions code i c.signature.args (results c)
  | variadic {c : Call} {j k : Nat} (hj : i = j + 1)
    (hcount : code[j]? = some (pushInt (Int32.ofNat k))) (h : code[i]? = some (.call c))
    (hc : c.signature.variadic = true) : Effect functions code i (k + 1) (results c)

def Line.goesOn : Line → Bool
  | .op .jmp _ | .op .ret _ | .op .exit _ => false
  | _ => true

def Line.target? : Line → Option Label
  | .op .jmp [.label l] | .op .jz [.label l] | .op .jnz [.label l] => some l
  | _ => none

inductive Edge (code : Code) : Nat → Nat → Prop where
  | next {i : Nat} {line : Line} (h : code[i]? = some line) (hon : Line.goesOn line) :
    Edge code i (i + 1)
  | jump {i j : Nat} {line : Line} {l : Label} (h : code[i]? = some line)
    (hl : Line.target? line = some l) (hj : code[j]? = some (.label l)) : Edge code i j

def owner (above : Option String) : Code → Nat → Option String
  | [], _ => above
  | .label (.named name) :: _, 0 => some name
  | .label (.named name) :: code, i + 1 => owner (some name) code i
  | _ :: _, 0 => above
  | _ :: code, i + 1 => owner above code i

/--
Depths of the value stack before each line of the functions of a program. Statements start where `starts` says.
-/
structure Balanced (functions : Functions) (code : Code) (starts : Nat → Prop) (depth : Nat → Nat) :
    Prop where
  step : ∀ i < code.length, ∃ taken left, Effect functions code i taken left ∧ taken ≤ depth i
    ∧ ∀ j, Edge code i j → j < code.length ∧ depth j = depth i - taken + left
  closed : ∀ i line l, code[i]? = some line → Line.target? line = some l → ∃ j, Edge code i j
  named : ∀ i name, code[i]? = some (.label (.named name)) →
    ∃ f, functions.lookup name = some f ∧ depth i = f.params
  func : ∀ i args, code[i]? = some (.op .func args) → depth (i + 1) = 0
  start : ∀ i, starts i → depth i = 0
  exit : ∀ i args, code[i]? = some (.op .exit args) → depth i = 0
  ret : ∀ i args, code[i]? = some (.op .ret args) →
    ∃ name f, owner none code i = some name ∧ functions.lookup name = some f ∧ depth i = f.results

abbrev Depths := Label → Option Nat

def isStraight : Opcode → Bool
  | .jmp | .jz | .jnz | .call | .func | .ret | .exit => false
  | _ => true

inductive Passes (functions : Functions) (Δ : Depths) (result : Nat) : Nat → Line → Nat → Prop where
  | label {d n : Nat} (h : Δ (.fresh n) = some d) : Passes functions Δ result d (.label (.fresh n)) d
  | op {d : Nat} {opcode : Opcode} {args : List Arg} (h : isStraight opcode) :
    Passes functions Δ result (d + opcode.effect.1) (.op opcode args) (d + opcode.effect.2)
  | call {d : Nat} {name : String} {f : Function} (hf : functions.lookup name = some f) :
    Passes functions Δ result (d + f.params) (.op .call [.label (.named name)]) (d + f.results)
  | library {d : Nat} {c : Call} (hc : c.signature.variadic = false) :
    Passes functions Δ result (d + c.signature.args) (.call c) (d + results c)
  | jmp {d d' : Nat} {l : Label} (h : Δ l = some d) :
    Passes functions Δ result d (.op .jmp [.label l]) d'
  | jz {d : Nat} {l : Label} (h : Δ l = some d) :
    Passes functions Δ result (d + 1) (.op .jz [.label l]) d
  | jnz {d : Nat} {l : Label} (h : Δ l = some d) :
    Passes functions Δ result (d + 1) (.op .jnz [.label l]) d
  | ret {d' : Nat} {args : List Arg} : Passes functions Δ result result (.op .ret args) d'
  | exit {d' : Nat} {args : List Arg} : Passes functions Δ result 0 (.op .exit args) d'

inductive Fits (functions : Functions) (Δ : Depths) (result : Nat) :
    Nat → Code → List Nat → Nat → Prop where
  | nil {d : Nat} : Fits functions Δ result d [] [] d
  | cons {d d1 d' : Nat} {line : Line} {code : Code} {ds : List Nat}
    (h : Passes functions Δ result d line d1) (hrest : Fits functions Δ result d1 code ds d') :
    Fits functions Δ result d (line :: code) (d :: ds) d'
  | variadic {d d' k : Nat} {c : Call} {code : Code} {ds : List Nat}
    (hc : c.signature.variadic = true)
    (hrest : Fits functions Δ result (d + results c) code ds d') :
    Fits functions Δ result (d + k) (pushInt (Int32.ofNat k) :: .call c :: code)
      ((d + k) :: (d + k + 1) :: ds) d'

inductive FitsAll (functions : Functions) (Δ : Depths) : Code → List Nat → Prop where
  | nil : FitsAll functions Δ [] []
  | function {d' : Nat} {size : Int} {name : String} {f : Function} {body rest : Code}
    {ds ds' : List Nat} (hf : functions.lookup name = some f)
    (hbody : Fits functions Δ f.results 0 body ds d')
    (hlast : ∃ line, body.getLast? = some line ∧ Line.goesOn line = false)
    (hrest : FitsAll functions Δ rest ds') :
    FitsAll functions Δ ([.label (.named name), .op .func [.int size, .int f.params]] ++ body ++ rest)
      ([f.params, f.params] ++ ds ++ ds')

section Fits

variable {d d' k : Nat} {code : Code} {ds : List Nat} {line : Line}

variable {functions : Functions} {Δ : Depths} {result : Nat}

theorem Fits.length_eq (h : Fits functions Δ result d code ds d') : ds.length = code.length := by
  induction h with
  | nil => rfl
  | cons _ _ ih => simp [ih]
  | variadic _ _ ih => simp [ih]

theorem Fits.append {d d' : Nat} {b : Code} {ds ds' : List Nat}
    (ha : Fits functions Δ result d a ds d1) (hb : Fits functions Δ result d1 b ds' d')
    : Fits functions Δ result d (a ++ b) (ds ++ ds') d' := by
  induction ha with
  | nil => exact hb
  | cons h _ ih => exact .cons h (ih hb)
  | variadic hc _ ih => exact .variadic hc (ih hb)

theorem Fits.not_named (h : Fits functions Δ result d code ds d') (name : String) : .label (.named name) ∉ code := by
  induction h with
  | nil => simp
  | cons h _ ih =>
    rw [List.mem_cons]
    rintro (rfl | hmem)
    · cases h
    · exact ih hmem
  | variadic _ _ ih =>
    simp only [List.mem_cons, pushInt, reduceCtorEq, false_or]
    exact ih

theorem Fits.not_func (h : Fits functions Δ result d code ds d') (args : List Arg) : .op .func args ∉ code := by
  induction h with
  | nil => simp
  | cons h _ ih =>
    rw [List.mem_cons]
    rintro (rfl | hmem)
    · cases h with
      | op h => cases h
    · exact ih hmem
  | variadic _ _ ih =>
    simp only [List.mem_cons, pushInt, reduceCtorEq, Line.op.injEq, false_and, false_or]
    exact ih

structure Sound (functions : Functions) (Δ : Depths) (result : Nat) (code : Code) (i : Nat)
    (line : Line) (here : Nat) (next : Option Nat) : Prop where
  effect : ∃ taken left, Effect functions code i taken left ∧ taken ≤ here
    ∧ (Line.goesOn line → next = some (here - taken + left))
    ∧ ∀ l, Line.target? line = some l → Δ l = some (here - taken + left)
  label : ∀ n, line = .label (.fresh n) → Δ (.fresh n) = some here
  exit : ∀ args, line = .op .exit args → here = 0
  ret : ∀ args, line = .op .ret args → here = result

theorem Sound.congr_next {next' : Option Nat}
    (h : Sound functions Δ result code i line here next) (hnext : Line.goesOn line → next = next')
    : Sound functions Δ result code i line here next' := by
  obtain ⟨taken, left, heffect, htaken, hon, hjump⟩ := h.effect
  exact ⟨⟨taken, left, heffect, htaken, fun h => (hnext h) ▸ hon h, hjump⟩, h.label, h.exit, h.ret⟩

theorem Passes.sound {d : Nat} (h : Passes functions Δ result d line d1) (hline : code[i]? = some line)
    : Sound functions Δ result code i line d (some d1) := by
  have hop : ∀ {opcode args}, code[i]? = some (.op opcode args) → opcode ≠ .call → opcode ≠ .func →
      Effect functions code i opcode.effect.1 opcode.effect.2 :=
    fun hline hcall hfunc => .op hline hcall hfunc (Machine.shifts_execute hfunc).moves
  cases h with
  | label h =>
    refine ⟨⟨0, 0, .label hline, by omega, by simp, by simp [Line.target?]⟩, ?_, by simp, by simp⟩
    rintro n ⟨⟩
    exact h
  | @op d opcode args h =>
    have hcall : opcode ≠ .call := by
      rintro rfl
      cases h
    have hfunc : opcode ≠ .func := by
      rintro rfl
      cases h
    refine ⟨⟨_, _, hop hline hcall hfunc, by omega, ?_, ?_⟩, by simp, ?_, ?_⟩
    · intro _
      congr 1
      omega
    · intro l hl
      cases opcode <;> simp_all [isStraight, Line.target?]
    · rintro args ⟨⟩
      cases h
    · rintro args ⟨⟩
      cases h
  | call hf =>
    refine ⟨⟨_, _, .call hline hf, by omega, ?_, by simp [Line.target?]⟩, by simp, by simp, by simp⟩
    intro _
    congr 1
    omega
  | library hc =>
    refine ⟨⟨_, _, .library hline hc, by omega, ?_, by simp [Line.target?]⟩, by simp, by simp, by simp⟩
    intro _
    congr 1
    omega
  | jmp h =>
    refine ⟨⟨_, _, hop hline (by simp) (by simp), Nat.zero_le _, by simp [Line.goesOn], ?_⟩, by simp,
      by simp, by simp⟩
    rintro l ⟨⟩
    exact h
  | jz h | jnz h =>
    refine ⟨⟨_, _, hop hline (by simp) (by simp), Nat.le_add_left _ _, ?_, ?_⟩, by simp, by simp,
      by simp⟩
    · intro _
      rfl
    · rintro l ⟨⟩
      exact h
  | ret =>
    exact ⟨⟨_, _, hop hline (by simp) (by simp), Nat.zero_le _, by simp [Line.goesOn],
      by simp [Line.target?]⟩, by simp, by simp, fun _ _ => rfl⟩
  | exit =>
    exact ⟨⟨_, _, hop hline (by simp) (by simp), Nat.zero_le _, by simp [Line.goesOn],
      by simp [Line.target?]⟩, by simp, fun _ _ => rfl, by simp⟩

theorem passes_pushInt (n : Int32) : Passes functions Δ result d (pushInt n) (d + 1) :=
  @Passes.op functions Δ result d (.push _) [.int n.toInt] rfl

section

variable (h : Fits functions Δ result d code ds d')

include h

theorem Fits.head?_eq : (ds ++ [d'])[0]? = some d := by
  cases h <;> rfl

theorem Fits.sound (above below : Code) (hline : code[k]? = some line)
    : ∃ here, ds[k]? = some here
        ∧ Sound functions Δ result (above ++ code ++ below) (above.length + k) line here
          (ds ++ [d'])[k + 1]? := by
  induction h generalizing above k with
  | nil => simp at hline
  | @cons d d1 d' head code ds h hrest ih =>
    cases k with
    | zero =>
      obtain rfl : head = line := by simpa using hline
      refine ⟨d, rfl, ?_⟩
      rw [Nat.zero_add, List.cons_append, List.getElem?_cons_succ, hrest.head?_eq]
      exact h.sound (by simp)
    | succ k =>
      obtain ⟨here, hhere, hsound⟩ := ih (above ++ [head]) (by simpa using hline)
      refine ⟨here, by simpa using hhere, ?_⟩
      simpa [Nat.add_assoc, Nat.add_comm 1] using hsound
  | @variadic d d' n c code ds hc hrest ih =>
    match k with
    | 0 =>
      obtain rfl : pushInt (Int32.ofNat n) = line := by simpa using hline
      refine ⟨d + n, rfl, ?_⟩
      exact (passes_pushInt _).sound (by simp)
    | 1 =>
      obtain rfl : .call c = line := by simpa using hline
      refine ⟨d + n + 1, rfl, ?_⟩
      rw [show (((d + n) :: (d + n + 1) :: ds) ++ [d'])[1 + 1]? = (ds ++ [d'])[0]? from rfl,
        hrest.head?_eq]
      refine ⟨⟨n + 1, results c, .variadic rfl (by simp) (by simp) hc, by omega, ?_,
        by simp [Line.target?]⟩, by simp, by simp, by simp⟩
      intro _
      congr 1
      omega
    | k + 2 =>
      obtain ⟨here, hhere, hsound⟩ := ih (above ++ [pushInt (Int32.ofNat n), .call c])
        (by simpa using hline)
      refine ⟨here, by simpa using hhere, ?_⟩
      simpa [Nat.add_assoc, Nat.add_comm 2] using hsound

theorem Fits.getElem?_next
    (hlast : ∃ line, code.getLast? = some line ∧ Line.goesOn line = false) (hline : code[k]? = some line)
    (hon : Line.goesOn line) (ds' : List Nat)
    : (ds ++ [d'])[k + 1]? = (ds ++ ds')[k + 1]? := by
  obtain ⟨last, hlast, hstop⟩ := hlast
  have hlt : k + 1 < ds.length := by
    rw [h.length_eq]
    refine Nat.lt_of_le_of_ne (List.getElem?_eq_some_iff.mp hline).1 fun hend => ?_
    rw [List.getLast?_eq_getElem?, ← hend, Nat.add_sub_cancel, hline, Option.some.injEq] at hlast
    rw [hlast, hstop] at hon
    cases hon
  rw [List.getElem?_append_left hlt, List.getElem?_append_left hlt]

end

theorem getD_of_getElem? {here : Nat} (h : ds[k]? = some here) : ds.getD k 0 = here := by
  rw [List.getD_eq_getElem?_getD, h, Option.getD_some]

theorem owner_append (above : Option String) (a b : Code) (k : Nat) :
    owner above (a ++ b) (a.length + k) = owner (owner above a a.length) b k := by
  induction a generalizing above with
  | nil => simp [owner]
  | cons line a ih =>
    rw [List.cons_append, List.length_cons, Nat.add_right_comm]
    by_cases hnamed : ∃ name, line = .label (.named name)
    · obtain ⟨name, rfl⟩ := hnamed
      rw [owner, owner, ih]
    · rw [owner, owner, ih]
      all_goals
        intro name h
        exact hnamed ⟨name, h⟩

theorem owner_of_not_named {above : Option String} (h : ∀ name, .label (.named name) ∉ a) (b : Code) (hk : k < a.length)
    : owner above (a ++ b) k = above := by
  induction a generalizing k with
  | nil => simp at hk
  | cons line a ih =>
    have hline : ∀ name, line ≠ .label (.named name) := by
      rintro name rfl
      exact h name (by simp)
    cases k with
    | zero =>
      rw [List.cons_append, owner]
      exact hline
    | succ k =>
      rw [List.cons_append, owner]
      · exact ih (fun name hmem => h name (by simp [hmem])) (by simpa using hk)
      · exact hline

theorem FitsAll.length_eq (h : FitsAll functions Δ code ds) : ds.length = code.length := by
  induction h with
  | nil => rfl
  | function _ hbody _ _ ih => simp [hbody.length_eq, ih]

structure SoundAll (functions : Functions) (Δ : Depths) (code : Code) (i : Nat) (line : Line)
    (here : Nat) (next : Option Nat) : Prop where
  sound : ∃ result, Sound functions Δ result code i line here next
    ∧ ∀ args, line = .op .ret args → ∃ name f, owner none code i = some name
      ∧ functions.lookup name = some f ∧ result = f.results
  named : ∀ name, line = .label (.named name) →
    ∃ f, functions.lookup name = some f ∧ here = f.params
  func : ∀ args, line = .op .func args → next = some 0

theorem FitsAll.sound (h : FitsAll functions Δ code ds) (above : Code) (hline : code[k]? = some line)
    : ∃ here, ds[k]? = some here
        ∧ SoundAll functions Δ (above ++ code) (above.length + k) line here ds[k + 1]? := by
  induction h generalizing above k with
  | nil => simp at hline
  | @function d' size name f body rest ds ds' hf hbody hlast hrest ih =>
    have hpos : 0 < body.length := by
      rw [List.length_pos_iff]
      rintro rfl
      simp at hlast
    match k with
    | 0 =>
      obtain rfl : .label (.named name) = line := by simpa using hline
      refine ⟨f.params, rfl, ⟨f.results, ⟨⟨0, 0, .label (l := .named name) (by simp), by omega,
        fun _ => rfl, by simp [Line.target?]⟩, by simp, by simp, by simp⟩, by simp⟩, ?_, by simp⟩
      rintro name ⟨⟩
      exact ⟨f, hf, rfl⟩
    | 1 =>
      obtain rfl : .op .func [.int size, .int f.params] = line := by simpa using hline
      have hnext : ([f.params, f.params] ++ ds ++ ds')[1 + 1]? = some 0 := by
        have hfirst := hbody.head?_eq
        rw [List.getElem?_append_left (by simpa [hbody.length_eq] using hpos)] at hfirst
        rw [List.append_assoc]
        change (ds ++ ds')[0]? = some 0
        rw [List.getElem?_append_left (by simpa [hbody.length_eq] using hpos), hfirst]
      rw [hnext]
      exact ⟨f.params, rfl, ⟨f.results, ⟨⟨f.params, 0, @Effect.func functions _ _ size f.params
        (by simp), by omega, fun _ => by simp, by simp [Line.target?]⟩, by simp, by simp, by simp⟩,
        by simp⟩, by simp, by simp⟩
    | k + 2 =>
      have hline' : (body ++ rest)[k]? = some line := by simpa using hline
      have hds : ∀ i, ([f.params, f.params] ++ ds ++ ds')[i + 2]? = (ds ++ ds')[i]? := by simp
      rw [hds, show k + 2 + 1 = k + 1 + 2 by omega, hds]
      by_cases hk : k < body.length
      · rw [List.getElem?_append_left hk] at hline'
        obtain ⟨here, hhere, hsound⟩ := hbody.sound
          (above ++ [.label (.named name), .op .func [.int size, .int f.params]]) rest hline'
        have hkds : k < ds.length := by
          rw [hbody.length_eq]
          exact hk
        refine ⟨here, by rw [List.getElem?_append_left hkds, hhere], ⟨f.results, ?_, ?_⟩, ?_, ?_⟩
        · -- only the last line has its next one outside the body, and there is no way to it
          have hsound' := hsound.congr_next fun hon => hbody.getElem?_next hlast hline' hon ds'
          simpa [Nat.add_assoc, Nat.add_comm 2] using hsound'
        · rintro args rfl
          refine ⟨name, f, ?_, hf, rfl⟩
          rw [owner_append]
          change owner (some name) (body ++ rest) k = some name
          exact owner_of_not_named hbody.not_named rest hk
        · rintro name' rfl
          exact absurd (List.mem_of_getElem? hline') (hbody.not_named name')
        · rintro args rfl
          exact absurd (List.mem_of_getElem? hline') (hbody.not_func args)
      · rw [List.getElem?_append_right (by omega)] at hline'
        obtain ⟨here, hhere, hsound⟩ := ih
          (above ++ [.label (.named name), .op .func [.int size, .int f.params]] ++ body) hline'
        have hlen := hbody.length_eq
        refine ⟨here, by rw [List.getElem?_append_right (by omega), hlen, hhere], ?_⟩
        rw [List.getElem?_append_right (by omega), hlen]
        rw [show k - body.length + 1 = k + 1 - body.length by omega] at hsound
        simp only [List.length_append, List.length_cons, List.length_nil] at hsound
        rw [show above.length + (0 + 1 + 1) + body.length + (k - body.length)
          = above.length + (k + 2) by omega] at hsound
        simpa using hsound

theorem step_of_sound (hline : ∀ k line, code[k]? = some line →
      ∃ here result, ds[k]? = some here ∧ Sound functions Δ result code k line here ds[k + 1]?)
    (hlength : ds.length = code.length) (hlabels : ∀ l d, Δ l = some d → ∃ n, l = .fresh n) (hi : i < code.length)
    : ∃ taken left, Effect functions code i taken left ∧ taken ≤ ds.getD i 0
        ∧ ∀ j, Edge code i j → j < code.length ∧ ds.getD j 0 = ds.getD i 0 - taken + left := by
  obtain ⟨here, result, hhere, hsound⟩ := hline i _ (List.getElem?_eq_getElem hi)
  obtain ⟨taken, left, heffect, htaken, hon, hjump⟩ := hsound.effect
  refine ⟨taken, left, heffect, getD_of_getElem? hhere ▸ htaken, ?_⟩
  rw [getD_of_getElem? hhere]
  intro j hedge
  cases hedge with
  | next hi' hgo =>
    obtain rfl := Option.some.inj ((List.getElem?_eq_getElem hi).symm.trans hi')
    have hnext := hon hgo
    refine ⟨?_, getD_of_getElem? hnext⟩
    rw [← hlength]
    exact (List.getElem?_eq_some_iff.mp hnext).1
  | jump hi' hl hj =>
    obtain rfl := Option.some.inj ((List.getElem?_eq_getElem hi).symm.trans hi')
    have htarget := hjump _ hl
    obtain ⟨n, rfl⟩ := hlabels _ _ htarget
    obtain ⟨there, _, hthere, hsound'⟩ := hline j _ hj
    have hlabel := hsound'.label n rfl
    rw [htarget, Option.some.injEq] at hlabel
    refine ⟨(List.getElem?_eq_some_iff.mp hj).1, ?_⟩
    rw [getD_of_getElem? hthere, hlabel]

theorem Sound.exists_edge {result : Nat} {l : Label} (h : Sound functions Δ result code i line here next)
    (hlabels : ∀ l d, Δ l = some d → ∃ n, l = .fresh n ∧ .label (.fresh n) ∈ code)
    (hi : code[i]? = some line) (hl : Line.target? line = some l)
    : ∃ j, Edge code i j := by
  obtain ⟨_, _, -, -, -, hjump⟩ := h.effect
  obtain ⟨n, rfl, hmem⟩ := hlabels _ _ (hjump l hl)
  obtain ⟨j, hj⟩ := List.getElem?_of_mem hmem
  exact ⟨j, .jump hi hl hj⟩

theorem FitsAll.balanced {starts : Nat → Prop} (h : FitsAll functions Δ code ds)
    (hlabels : ∀ l d, Δ l = some d → ∃ n, l = .fresh n ∧ .label (.fresh n) ∈ code)
    (hstarts : ∀ i, starts i → ds[i]? = some 0)
    : Balanced functions code starts fun i => ds.getD i 0 := by
  have hline : ∀ {k line}, code[k]? = some line →
      ∃ here, ds[k]? = some here ∧ SoundAll functions Δ code k line here ds[k + 1]? := by
    intro k line hline
    simpa using h.sound [] hline
  constructor
  case step =>
    refine fun i hi => step_of_sound (fun k line hk => ?_) h.length_eq
      (fun l d hl => (hlabels l d hl).imp fun _ => And.left) hi
    obtain ⟨here, hhere, hall⟩ := hline hk
    obtain ⟨result, hsound, -⟩ := hall.sound
    exact ⟨here, result, hhere, hsound⟩
  case closed =>
    intro i line l hi hl
    obtain ⟨here, -, hall⟩ := hline hi
    obtain ⟨_, hsound, -⟩ := hall.sound
    exact hsound.exists_edge hlabels hi hl
  case named =>
    intro i name hi
    obtain ⟨here, hhere, hall⟩ := hline hi
    rw [getD_of_getElem? hhere]
    exact hall.named name rfl
  case func =>
    intro i args hi
    obtain ⟨here, hhere, hall⟩ := hline hi
    exact getD_of_getElem? (hall.func args rfl)
  case start => exact fun i hi => getD_of_getElem? (hstarts i hi)
  case exit =>
    intro i args hi
    obtain ⟨here, hhere, hall⟩ := hline hi
    obtain ⟨_, hsound, -⟩ := hall.sound
    rw [getD_of_getElem? hhere]
    exact hsound.exit args rfl
  case ret =>
    intro i args hi
    obtain ⟨here, hhere, hall⟩ := hline hi
    obtain ⟨result, hsound, howner⟩ := hall.sound
    obtain ⟨name, f, hname, hf, hresult⟩ := howner args rfl
    refine ⟨name, f, hname, hf, ?_⟩
    rw [getD_of_getElem? hhere, ← hresult]
    exact hsound.ret args rfl

end Fits

end Handheld.Source
