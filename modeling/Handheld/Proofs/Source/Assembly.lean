import Handheld.Proofs.Asm.Encoding
import Handheld.Proofs.Asm.Failing
import Handheld.Proofs.Asm.Standing
import Handheld.Proofs.Source.Contents
import Handheld.Proofs.Source.Definitions
import Handheld.Proofs.Source.Readable
import Handheld.Proofs.Source.StackBalance

/-!
Compiled programs assemble, up to functions that are missing or there twice, the size of the image, and functions with
too many parameters.
-/
namespace Handheld.Source

open Asm

variable {c : Char} {name : String} {before : Option Line} {line : Line} {code : Code}
  {g : Globals} {fs : List TopLevel}

def Follows (R : Option Line → Line → Prop) : Option Line → Code → Prop
  | _, [] => True
  | before, line :: code => R before line ∧ Follows R (some line) code

inductive ProgramLine (g : Globals) (fs : List TopLevel) : Option Line → Line → Prop where
  | space {before : Option Line} : ProgramLine g fs before (.op .space [.int g.size])
  | init {before : Option Line} {addr : Nat} {bytes : List UInt8} (h : (addr, bytes) ∈ g.inits) :
    ProgramLine g fs before (.op .init (.addr addr :: bytes.map fun b => .int b.toNat))
  | start {before : Option Line} (h : (g.functions.lookup "main").isSome) :
    ProgramLine g fs before (.op .jmp [.label (.named "main")])
  | body {before : Option Line} {line : Line} (h : BodyLine g line) : ProgramLine g fs before line
  | name {before : Option Line} {name : String} {ret : Ty} {params : List Param} {body : Stmt}
    (h : .function name ret params body ∈ fs)
    : ProgramLine g fs before (.label (.named name))
  | frame {name : String} {ret : Ty} {params : List Param} {body : Stmt} {size : Nat}
    (h : .function name ret params body ∈ fs) (hsize : size ≤ 0xFFFF)
    : ProgramLine g fs (some (.label (.named name))) (.op .func [.int size, .int params.length])

def TopLevel.slots : TopLevel → Nat
  | missing _ => 0
  | function _ _ params _ => Memory.frameHeader + Memory.paramSlot * params.length

/-- Numbers of a program that operands can hold. -/
structure Fitting (g : Globals) (fs : List TopLevel) : Prop where
  space : g.size ≤ 0xFFFF
  inits : ∀ p ∈ g.inits, p.1 + p.2.length ≤ 0xFFFF
  slots : ∀ f ∈ fs, f.slots ≤ 0xFFFF

theorem Globals.Filled.fitting (h : g.Filled) (hslots : ∀ f ∈ fs, f.slots ≤ 0xFFFF) : Fitting g fs := by
  have hbelow := h.laid.below
  have hheap : Memory.heapStart.toNat ≤ 0xFFFF := by decide
  exact ⟨by omega, h.inits, hslots⟩

theorem isAlpha_iff : c.isAlpha = true ↔ 65 ≤ c.toNat ∧ c.toNat ≤ 90 ∨ 97 ≤ c.toNat ∧ c.toNat ≤ 122 := by
  change (decide ('A'.val ≤ c.val ∧ c.val ≤ 'Z'.val) || (decide ('a'.val ≤ c.val) && decide (c.val ≤ 'z'.val))) = true
    ↔ _
  simp only [Bool.or_eq_true, Bool.and_eq_true, decide_eq_true_eq, UInt32.le_iff_toNat_le]
  rfl

theorem toNat_of_isIdentChar (h : Lexer.isIdentChar c) :
    48 ≤ c.toNat ∧ c.toNat ≤ 57 ∨ 65 ≤ c.toNat ∧ c.toNat ≤ 90 ∨ c.toNat = 95 ∨ 97 ≤ c.toNat ∧ c.toNat ≤ 122 := by
  simp only [Lexer.isIdentChar, Char.isAlphanum, Char.isDigit, isAlpha_iff, Bool.or_eq_true, Bool.and_eq_true,
    decide_eq_true_eq, beq_iff_eq, ge_iff_le, UInt32.le_iff_toNat_le] at h
  rcases h with ((h | h) | h) | rfl
  · exact .inr (.inl h)
  · exact .inr (.inr (.inr h))
  · exact .inl h
  · decide

theorem isPlain_of_isIdentChar (h : Lexer.isIdentChar c) : isPlain c := by
  have hn := toNat_of_isIdentChar h
  have hblank : Text.isBlank c = false := by
    simp only [Text.isBlank, Bool.or_eq_false_iff, Bool.and_eq_false_iff, decide_eq_false_iff_not, beq_eq_false_iff_ne]
    omega
  have hne {d : Char} (hd : Lexer.isIdentChar d = false) : (c == d) = false := by
    rw [beq_eq_false_iff_ne]
    rintro rfl
    rw [h] at hd
    cases hd
  simp [isPlain, hblank, hne (d := ';') rfl, hne (d := '"') rfl, hne (d := ',') rfl]

theorem toNat_of_isIdentStart (h : Lexer.isIdentStart c) : Lexer.isIdentChar c ∧ 65 ≤ c.toNat := by
  have hc : Lexer.isIdentChar c := by
    simp only [Lexer.isIdentStart, Lexer.isIdentChar, Char.isAlphanum, Bool.or_eq_true] at h ⊢
    exact h.imp .inl id
  refine ⟨hc, ?_⟩
  simp only [Lexer.isIdentStart, isAlpha_iff, Bool.or_eq_true, beq_iff_eq] at h
  rcases h with (h | h) | rfl
  · exact h.1
  · exact Nat.le_trans (by decide) h.1
  · decide

theorem isName_of_isIdent {cs : List Char} (h : Lexer.isIdent cs) : isName cs := by
  cases cs with
  | nil => cases h
  | cons c cs =>
    simp only [Lexer.isIdent, Bool.and_eq_true, List.all_eq_true] at h
    obtain ⟨hc, hle⟩ := toNat_of_isIdentStart h.1
    have hdigit : c.isDigit = false := by
      rw [Bool.eq_false_iff]
      intro hdigit
      simp only [Char.isDigit, Bool.and_eq_true, decide_eq_true_eq, UInt32.le_iff_toNat_le] at hdigit
      have hlt : c.toNat ≤ 57 := hdigit.2
      omega
    have hminus : (c != '-') = true := by
      rw [bne_iff_ne]
      rintro rfl
      cases hc
    simp only [isName, hdigit, hminus, Bool.not_false, Bool.true_and, List.all_cons, Bool.and_eq_true, List.all_eq_true]
    exact ⟨isPlain_of_isIdentChar hc, fun c hc => isPlain_of_isIdentChar (h.2 c hc)⟩

theorem fresh_of_text_eq {m n : Nat} (h : (Label.fresh m).text = (Label.fresh n).text) : m = n := by
  have hdigits := congrArg String.toList h
  rw [Label.toList_text_fresh, Label.toList_text_fresh, List.cons.injEq, List.cons.injEq] at hdigits
  have hm := Text.numeral?_toDigits_ten m
  rw [hdigits.2.2, Text.numeral?_toDigits_ten n] at hm
  exact (Option.some.inj hm).symm

theorem ne_dot_of_isIdent (h : Lexer.isIdent name.toList) : name.toList.head? ≠ some '.' := by
  intro hdot
  cases hname : name.toList with
  | nil =>
    rw [hname] at h
    cases h
  | cons c cs =>
    rw [hname] at h hdot
    cases hdot
    cases h

section Lines

variable {mask : UInt8}

theorem encodes_pushInt (n : Int32) : (pushInt n).Encodes mask := by
  have hle := n.le_toInt
  have hlt := n.toInt_lt
  unfold pushInt
  dsimp only
  split
  next h =>
    simp only [Bool.and_eq_true, decide_eq_true_eq, Int32.le_iff_toInt_le] at h
    have h0 : (0 : Int32).toInt = 0 := rfl
    have h1 : (255 : Int32).toInt = 255 := rfl
    exact Line.encodes_int (fun _ _ => rfl) (fun _ => rfl) rfl (by omega) (by omega)
  next =>
    split
    next h =>
      simp only [Bool.and_eq_true, decide_eq_true_eq, Int32.le_iff_toInt_le] at h
      have h0 : (-0x8000 : Int32).toInt = -0x8000 := rfl
      have h1 : (0x7FFF : Int32).toInt = 0x7FFF := rfl
      exact Line.encodes_int (fun _ _ => rfl) (fun _ => rfl) rfl (by omega) (by omega)
    next => exact Line.encodes_int (fun _ _ => rfl) (fun _ => rfl) rfl (by omega) (by omega)

theorem FlatLine.encodes (h : FlatLine g line) : line.Encodes mask := by
  cases h with
  | plain h => exact Line.encodes_plain h
  | pushInt => exact encodes_pushInt _
  | pushStr => exact Line.encodes_text rfl
  | onFrame h | inData h => exact Line.encodes_int (fun _ _ => rfl) (fun _ => rfl) rfl (by omega) (by omega)
  | call h => exact Line.encodes_target rfl _
  | library => exact fun n => ⟨_, rfl, rfl⟩

theorem BodyLine.encodes (h : BodyLine g line) : line.Encodes mask := by
  cases h with
  | flat h => exact h.encodes
  | label => exact fun n => ⟨_, rfl, rfl⟩
  | jump h => exact Line.encodes_target h _

theorem ProgramLine.encodes (hfit : Fitting g fs) (h : ProgramLine g fs before line) (mask : UInt8) :
    line.Encodes mask
      ∨ ∃ (name : String) (ret : Ty) (params : List Param) (body : Stmt) (size : Nat),
        .function name ret params body ∈ fs ∧ 255 < params.length ∧ size ≤ 0xFFFF
          ∧ before = some (.label (.named name)) ∧ line = .op .func [.int size, .int params.length] := by
  cases h with
  | space =>
    have hspace := hfit.space
    exact .inl (Line.encodes_int (fun _ _ => rfl) (fun _ => rfl) rfl (by omega) (by omega))
  | init h => exact .inl (Line.encodes_init (hfit.inits _ h))
  | start => exact .inl (Line.encodes_target rfl _)
  | body h => exact .inl h.encodes
  | name => exact .inl fun n => ⟨_, rfl, rfl⟩
  | @frame name ret params body size h hsize =>
    by_cases hcount : params.length ≤ 255
    · exact .inl (Line.encodes_func hsize hcount)
    · exact .inr ⟨name, ret, params, body, size, h, by omega, hsize, rfl, rfl⟩

structure NamesRead (g : Globals) (fs : List TopLevel) : Prop where
  declared : g.Named fun x => Lexer.isIdent x.toList
  defined : ∀ name ret params body, .function name ret params body ∈ fs → Lexer.isIdent name.toList

theorem readable_func {size argc : Nat} (hsize : size ≤ 0xFFFF) (hargc : argc ≤ 0xFFFF) :
    (Line.op .func [.int size, .int argc]).Readable := by
  simp only [Line.Readable, List.mem_cons, List.not_mem_nil, or_false, forall_eq_or_imp, forall_eq, Arg.Readable]
  omega

theorem ProgramLine.readable (hnames : NamesRead g fs) (hfit : Fitting g fs) (h : ProgramLine g fs before line)
    : line.Readable := by
  cases h with
  | space =>
    have hspace := hfit.space
    simp only [Line.Readable, List.mem_singleton, forall_eq, Arg.Readable]
    omega
  | @init _ addr bytes h =>
    have hinside := hfit.inits _ h
    simp only [Line.Readable, List.mem_cons, forall_eq_or_imp, List.mem_map, Arg.Readable]
    refine ⟨by omega, ?_⟩
    rintro a ⟨b, -, rfl⟩
    have hlt := b.toNat_lt
    change (b.toNat : Int).natAbs < 2 ^ 63
    omega
  | start h =>
    simp only [Line.Readable, List.mem_singleton, forall_eq, Arg.Readable]
    exact isName_of_isIdent (hnames.declared _ h)
  | body h => exact h.readable fun x hx => isName_of_isIdent (hnames.declared x hx)
  | name h => exact isName_of_isIdent (hnames.defined _ _ _ _ h)
  | frame h hsize =>
    have hslots := hfit.slots _ h
    simp only [TopLevel.slots, Memory.paramSlot] at hslots
    exact readable_func hsize (by omega)

end Lines

section Follows

variable {R : Option Line → Line → Prop} {a b code : Code}

theorem follows_append : Follows R before (a ++ b) ↔ Follows R before a ∧ Follows R (a.getLast?.or before) b := by
  induction a generalizing before with
  | nil => simp [Follows]
  | cons line a ih =>
    rw [List.cons_append, Follows, Follows, ih, and_assoc, List.getLast?_cons]
    cases a.getLast? <;> rfl

theorem follows_of_forall (h : ∀ line ∈ code, ∀ before, R before line) : Follows R before code := by
  induction code generalizing before with
  | nil => trivial
  | cons line code ih =>
    exact ⟨h line List.mem_cons_self before, ih fun line hline => h line (List.mem_cons_of_mem _ hline)⟩

theorem Follows.get {i : Nat} (h : Follows R before code) (hline : code[i]? = some line) :
    ∃ before', (before :: code.map some)[i]? = some before' ∧ R before' line := by
  induction code generalizing before i with
  | nil => cases hline
  | cons line' code ih =>
    cases i with
    | zero =>
      cases hline
      exact ⟨before, rfl, h.1⟩
    | succ i => exact ih h.2 hline

end Follows

structure Composed (g : Globals) (fs : List TopLevel) (lo hi : Nat) (code : Code) : Prop where
  le : lo ≤ hi
  lines : ∀ before, Follows (ProgramLine g fs) before code
  labels : ∀ n, code.placed.count n = (if lo < n ∧ n ≤ hi then 1 else 0) ∧ (n ∈ code.aims → lo < n ∧ n ≤ hi)

section Composed

variable {all fs : List TopLevel} {lo mid hi : Nat} {a b code : Code}

theorem Composed.append (ha : Composed g all lo mid a) (hb : Composed g all mid hi b) :
    Composed g all lo hi (a ++ b) where
  le := Nat.le_trans ha.le hb.le
  lines before := follows_append.mpr ⟨ha.lines before, hb.lines _⟩
  labels n := by
    have hle := ha.le
    have hle' := hb.le
    have hlabels := ha.labels n
    have hlabels' := hb.labels n
    grind

theorem composed_startCode (hg : g.Near) (hmain : (g.functions.lookup "main").isSome) :
    Composed g all lo lo (startCode g ++ [.op .jmp [.label (.named "main")]]) := by
  have hlines : ∀ line ∈ startCode g ++ [.op .jmp [.label (.named "main")]],
      (∀ before, ProgramLine g all before line) ∧ line.placed? = none ∧ line.aim? = none := by
    intro line hline
    simp only [startCode, List.mem_append, List.mem_map, List.mem_flatMap, List.mem_cons, List.not_mem_nil,
      or_false] at hline
    rcases hline with ((rfl | ⟨p, hp, rfl⟩) | ⟨p, hp, rfl | rfl | rfl | rfl⟩) | rfl
    · exact ⟨fun before => .space, rfl, rfl⟩
    · refine ⟨fun before => .init hp, rfl, ?_⟩
      cases p.2 <;> rfl
    · exact ⟨fun before => .body (.flat (.inData (hg.strings p hp))), rfl, rfl⟩
    · exact ⟨fun before => .body (.flat .pushStr), rfl, rfl⟩
    · exact ⟨fun before => .body (.flat (.plain rfl)), rfl, rfl⟩
    · exact ⟨fun before => .body (.flat (.plain rfl)), rfl, rfl⟩
    · exact ⟨fun before => .start hmain, rfl, rfl⟩
  have hplaced : Code.placed (startCode g ++ [.op .jmp [.label (.named "main")]]) = [] :=
    List.filterMap_eq_nil_iff.mpr fun line hline => (hlines line hline).2.1
  have haims : Code.aims (startCode g ++ [.op .jmp [.label (.named "main")]]) = [] :=
    List.filterMap_eq_nil_iff.mpr fun line hline => (hlines line hline).2.2
  refine ⟨Nat.le_refl lo, fun before => follows_of_forall fun line hline => (hlines line hline).1, fun n => ?_⟩
  rw [hplaced, haims, if_neg (by omega)]
  exact ⟨rfl, fun hn => (List.not_mem_nil hn).elim⟩

theorem TopLevel.lines_of_emit {ret : Ty} {params : List Param} {body : Stmt} (hnear : g.Near)
    (h : (TopLevel.function name ret params body).emit g lo = .ok (code, hi))
    : ∃ (size : Nat) (c : Code), code = .label (.named name) :: .op .func [.int size, .int params.length] :: c
        ∧ size ≤ 0xFFFF ∧ Sealed g (fun _ => False) lo hi c := by
  obtain ⟨locals, hparams, c, b, hbody, heq⟩ := TopLevel.emit_function_eq_ok_iff.mp h
  cases heq
  have hlocals := near_addParams .empty hparams
  have hcount := params_addParams hparams
  have hgrows := Stmt.grows hbody
  have hseals := (body.emits hbody).seals (by rintro l (h | h) <;> cases h) ⟨hnear, hlocals⟩
  have hsealed := hseals.code.append_flat (flat_epilogue { globals := g, ret := ret, main := name == "main" })
  refine ⟨b.locals.size, _, ?_, (hgrows.near hlocals).size, hsealed.mono ?_⟩
  · rw [List.append_assoc, hgrows.params_eq, hcount, Nat.zero_add]
    rfl
  · rintro n (hn | hn)
    · cases hn
    · cases hn

theorem composed_function {f : TopLevel} (hnear : g.Near) (hf : f ∈ all) (h : f.emit g lo = .ok (code, hi))
    : Composed g all lo hi code := by
  cases f with
  | missing e => exact (TopLevel.emit_missing_eq_ok_iff.mp h).elim
  | function name ret params body =>
    obtain ⟨size, c, rfl, hsize, hsealed⟩ := TopLevel.lines_of_emit hnear h
    refine ⟨hsealed.le, fun before => ⟨.name hf, .frame hf hsize, ?_⟩, ?_⟩
    · exact follows_of_forall fun line hline before => .body (hsealed.lines line hline)
    · intro n
      obtain ⟨hplaced, haims⟩ := hsealed.labels n
      exact ⟨hplaced, fun hn => (haims hn).resolve_right id⟩

theorem composed_functions (hnear : g.Near) (hsub : ∀ f ∈ fs, f ∈ all) (h : emitFunctions g lo fs = .ok code)
    : ∃ hi, Composed g all lo hi code := by
  induction fs generalizing lo code with
  | nil =>
    cases h
    refine ⟨lo, Nat.le_refl lo, fun before => trivial, fun n => ⟨?_, ?_⟩⟩
    · rw [if_neg (by omega)]
      rfl
    · intro hn
      cases hn
  | cons f fs ih =>
    obtain ⟨code1, labels1, hf, code2, hfs, rfl⟩ := emitFunctions_cons_eq_ok_iff.mp h
    have hhead := composed_function hnear (hsub f List.mem_cons_self) hf
    obtain ⟨hi, hrest⟩ := ih (fun f hf => hsub f (List.mem_cons_of_mem _ hf)) hfs
    exact ⟨hi, hhead.append hrest⟩

end Composed

section Labels

variable {n : Nat}

theorem FlatLine.label (h : FlatLine g line) : (line.statement n).label = none := by
  cases h <;> rfl

theorem BodyLine.fresh_of_label {label : String} (h : BodyLine g line)
    (hlabel : (line.statement n).label = some label)
    : ∃ k, line.placed? = some k ∧ label = (Label.fresh k).text := by
  cases h with
  | flat h =>
    rw [h.label] at hlabel
    cases hlabel
  | label =>
    cases hlabel
    exact ⟨_, rfl, rfl⟩
  | jump => cases hlabel

theorem ProgramLine.label {label : String} (h : ProgramLine g fs before line)
    (hlabel : (line.statement n).label = some label)
    : (∃ k, line.placed? = some k ∧ label = (Label.fresh k).text)
        ∨ line.placed? = none ∧ ∃ ret params body, .function label ret params body ∈ fs := by
  cases h with
  | space | init | start | frame => cases hlabel
  | body h => exact .inl (h.fresh_of_label hlabel)
  | name h =>
    cases hlabel
    exact .inr ⟨rfl, _, _, _, h⟩

theorem placed?_of_label (h : (line.statement n).label = none) : line.placed? = none := by
  cases line with
  | label l => cases h
  | op | call | sys | data => rfl

theorem ProgramLine.target {l : Label} (h : ProgramLine g fs before line) (hl : line.target? = some l) :
    (∃ k, line.aim? = some k ∧ l = .fresh k) ∨ ∃ name, l = .named name ∧ (g.functions.lookup name).isSome := by
  cases h with
  | space | name | frame => cases hl
  | @init addr bytes h => cases bytes <;> cases hl
  | start h =>
    cases hl
    exact .inr ⟨_, rfl, h⟩
  | body h =>
    cases h with
    | flat h =>
      cases h with
      | plain | pushInt | pushStr | onFrame | inData | library => cases hl
      | call h =>
        cases hl
        exact .inr ⟨_, rfl, h⟩
    | label => cases hl
    | jump =>
      cases hl
      exact .inl ⟨_, rfl, rfl⟩

theorem text_ne_of_defined (hnames : NamesRead g fs) {ret : Ty} {params : List Param} {body : Stmt}
    (h : .function name ret params body ∈ fs) (k : Nat)
    : name ≠ (Label.fresh k).text := by
  rintro rfl
  have hdot := ne_dot_of_isIdent (hnames.defined _ _ _ _ h)
  rw [Label.toList_text_fresh] at hdot
  exact hdot rfl

theorem count_labels (hnames : NamesRead g fs) (h : Follows (ProgramLine g fs) before code) (k : Nat) :
    (labels (code.statements n)).count (Label.fresh k).text = code.placed.count k := by
  induction code generalizing before n with
  | nil => rfl
  | cons line code ih =>
    have hplaced : Code.placed (line :: code) = line.placed?.toList ++ Code.placed code := by
      rw [Code.placed, List.filterMap_cons]
      cases line.placed? <;> rfl
    rw [Code.statements, labels_cons, hplaced, List.count_append, List.count_append, ih h.2]
    congr 1
    cases hlabel : (line.statement n).label with
    | none =>
      rw [placed?_of_label hlabel]
      rfl
    | some label =>
      rcases h.1.label hlabel with ⟨m, hm, rfl⟩ | ⟨hnone, ret, params, body, hf⟩
      · have hsame : ((Label.fresh m).text == (Label.fresh k).text) = (m == k) := by
          rw [Bool.eq_iff_iff, beq_iff_eq, beq_iff_eq]
          exact ⟨fresh_of_text_eq, fun h => by rw [h]⟩
        rw [hm, Option.toList_some, Option.toList_some, List.count_singleton, List.count_singleton, hsame]
      · rw [hnone, Option.toList_some, List.count_singleton, if_neg]
        · rfl
        · rw [beq_iff_eq]
          exact text_ne_of_defined hnames hf k

theorem mem_statements {s : Statement} (h : s ∈ code.statements n) :
    ∃ i, ∃ line : Line, code[i]? = some line ∧ s = line.statement (n + i) := by
  induction code generalizing n with
  | nil => cases h
  | cons line code ih =>
    rcases List.mem_cons.mp h with rfl | h
    · exact ⟨0, line, rfl, rfl⟩
    · obtain ⟨i, line', hline', rfl⟩ := ih h
      exact ⟨i + 1, line', hline', by rw [Nat.add_right_comm, Nat.add_assoc]⟩

end Labels

section Programs

variable {source text : String} {options : Options}

def Overfull (fs : List TopLevel) (text : String) (n count : Nat) : Prop :=
  ∃ name ret params body size i, .function name ret params body ∈ fs ∧ 255 < params.length ∧ count = params.length
    ∧ n = i + 2 ∧ (Text.lines text)[i]? = some (name ++ ":")
    ∧ (Text.lines text)[i + 1]? = some (Line.render (.op .func [.int (size : Nat), .int params.length]))

inductive Flaw (g : Globals) (fs : List TopLevel) (text : String) : Asm.Error → Prop where
  | undefined {line : Nat} {name : String} (h : (g.functions.lookup name).isSome) :
    Flaw g fs text ⟨line, .undefinedLabel name⟩
  | duplicate {line : Nat} {name : String} (h : ∃ ret params body, .function name ret params body ∈ fs) :
    Flaw g fs text ⟨line, .duplicateLabel name⟩
  | tooLarge : Flaw g fs text ⟨0, .imageTooLarge⟩
  | overfull {n count : Nat} (h : Overfull fs text n count) : Flaw g fs text (badOperand n (.int count))

/-- A text whose lines are read with operands in range, and whose labels that were made up are in order. -/
structure Assemblable (g : Globals) (fs : List TopLevel) (text : String) (options : Options) : Prop where
  reads : ∃ ss, statements text = .ok ss
    ∧ (∀ s ∈ ss, (∃ e, s.encoding options.mask = .ok e) ∨ ∃ count, Overfull fs text s.line count)
    ∧ ∀ l : String, l.toList.head? = some '.' → (labels ss).count l ≤ 1
      ∧ ∀ s ∈ ss, ∀ e, s.encoding options.mask = .ok e → e.label = some l → l ∈ labels ss
  fails : ∀ e, assemble text options = .error e → Flaw g fs text e

theorem not_missing_of_emitFunctions {labels : Nat} (h : emitFunctions g labels fs = .ok code) (e : Error)
    : .missing e ∉ fs := by
  intro hmem
  obtain ⟨_, _, _, _, _, hemit, -⟩ := exists_emit_of_mem hmem h
  exact TopLevel.emit_missing_eq_ok_iff.mp hemit

theorem namesRead_of_emit (hg : survey (Cursor.ofSource source) = .ok g)
    (hcode : emitFunctions g 0 (functions g.macros (Cursor.ofSource source)) = .ok code)
    : NamesRead g (functions g.macros (Cursor.ofSource source)) := by
  have hnamed := named_ofSource source
  have hwalks := walks_of_topLevel (not_missing_of_emitFunctions hcode)
  exact ⟨survey_named hnamed hg, hwalks.named (closed_ofSource source) hnamed⟩

theorem exists_composed (hg : survey (Cursor.ofSource source) = .ok g)
    (hcode : emitFunctions g 0 (functions g.macros (Cursor.ofSource source)) = .ok code)
    : ∃ hi, Composed g (functions g.macros (Cursor.ofSource source)) 0 hi
        (startCode g ++ [.op .jmp [.label (.named "main")]] ++ code) := by
  have hnear := survey_near hg
  obtain ⟨hi, hcomposed⟩ := composed_functions hnear (fun f hf => hf) hcode
  exact ⟨hi, (composed_startCode hnear (main_of_survey hg)).append hcomposed⟩

section Composed

variable {hi : Nat} (hnames : NamesRead g fs) (hfit : Fitting g fs) (hcode : Composed g fs 0 hi code)

include hcode

theorem Composed.label {l : String} (hl : l ∈ Asm.labels (code.statements 1)) :
    (∃ k, l = (Label.fresh k).text) ∨ ∃ ret params body, .function l ret params body ∈ fs := by
  obtain ⟨s, hs, hlabel⟩ := List.mem_filterMap.mp hl
  obtain ⟨i, line, hline, rfl⟩ := mem_statements hs
  obtain ⟨before, -, hprogram⟩ := (hcode.lines none).get hline
  rcases hprogram.label hlabel with ⟨k, -, rfl⟩ | ⟨-, hf⟩
  · exact .inl ⟨k, rfl⟩
  · exact .inr hf

include hnames

theorem Composed.labels_fresh (k : Nat) :
    (Asm.labels (code.statements 1)).count (Label.fresh k).text ≤ 1
      ∧ (k ∈ code.aims → (Label.fresh k).text ∈ Asm.labels (code.statements 1)) := by
  obtain ⟨hplaced, haims⟩ := hcode.labels k
  have hcount := count_labels (n := 1) hnames (hcode.lines none) k
  rw [hplaced] at hcount
  constructor
  · rw [hcount]
    split <;> omega
  · intro hk
    rw [if_pos (haims hk)] at hcount
    exact List.count_pos_iff.mp (by omega)

theorem Composed.target {l : Label} (hline : line ∈ code)
    (hprogram : ProgramLine g fs before line) (hl : line.target? = some l)
    : l.text ∈ Asm.labels (code.statements 1) ∨ (g.functions.lookup l.text).isSome := by
  rcases hprogram.target hl with ⟨k, haim, rfl⟩ | ⟨name, rfl, hname⟩
  · exact .inl ((hcode.labels_fresh hnames k).2 (List.mem_filterMap.mpr ⟨line, hline, haim⟩))
  · exact .inr hname

include hfit

theorem Composed.readable : ∀ line ∈ code, line.Readable := by
  intro line hline
  obtain ⟨i, hi⟩ := List.mem_iff_getElem?.mp hline
  obtain ⟨before, -, hline⟩ := (hcode.lines none).get hi
  exact hline.readable hnames hfit

theorem Composed.encoding (mask : UInt8) {s : Statement} (hs : s ∈ code.statements 1) :
    (∃ line ∈ code, ∃ before e, ProgramLine g fs before line ∧ s.encoding mask = .ok e
        ∧ e.label = line.target?.map Label.text)
      ∨ ∃ count, Overfull fs code.render s.line count
        ∧ s.encoding mask = .error (badOperand s.line (.int (count : Nat))) := by
  obtain ⟨i, line, hline, rfl⟩ := mem_statements hs
  obtain ⟨before, hbefore, hprogram⟩ := (hcode.lines none).get hline
  rcases hprogram.encodes hfit mask with hencodes | ⟨name, ret, params, body, size, hf, hmany, hsize, rfl, rfl⟩
  · obtain ⟨e, he, hlabel⟩ := hencodes (1 + i)
    exact .inl ⟨line, List.mem_iff_getElem?.mpr ⟨i, hline⟩, before, e, hprogram, he, hlabel⟩
  · -- the frame stands behind the name, so it is not the first line
    cases i with
    | zero => cases hbefore
    | succ i =>
      rw [List.getElem?_cons_succ, List.getElem?_map, Option.map_eq_some_iff] at hbefore
      obtain ⟨_, hname, heq⟩ := hbefore
      cases heq
      have hlines := Code.lines_render fun line hline => (hcode.readable hnames hfit line hline).named
      refine .inr ⟨params.length, ⟨name, ret, params, body, size, i, hf, hmany, rfl, ?_, ?_, ?_⟩, ?_⟩
      · change 1 + (i + 1) = i + 2
        omega
      · rw [hlines, List.getElem?_map, hname]
        rfl
      · rw [hlines, List.getElem?_map, hline]
        rfl
      · exact Line.encoding_func_of_lt hsize hmany

theorem Composed.reads (mask : UInt8) {l : String} (hl : l.toList.head? = some '.') :
    (Asm.labels (code.statements 1)).count l ≤ 1
      ∧ ∀ s ∈ code.statements 1, ∀ e, s.encoding mask = .ok e → e.label = some l →
        l ∈ Asm.labels (code.statements 1) := by
  constructor
  · by_cases hmem : l ∈ Asm.labels (code.statements 1)
    · rcases hcode.label hmem with ⟨k, rfl⟩ | ⟨ret, params, body, hf⟩
      · exact (hcode.labels_fresh hnames k).1
      · exact (ne_dot_of_isIdent (hnames.defined _ _ _ _ hf) hl).elim
    · rw [List.count_eq_zero_of_not_mem hmem]
      exact Nat.zero_le 1
  · intro s hs e he hlabel
    rcases hcode.encoding hnames hfit mask hs with ⟨line, hline, before, e', hprogram, he', htarget⟩ | ⟨count, -, herror⟩
    · cases he.symm.trans he'
      rw [hlabel, eq_comm, Option.map_eq_some_iff] at htarget
      obtain ⟨l', hl', rfl⟩ := htarget
      rcases hcode.target hnames hline hprogram hl' with hmem | hname
      · exact hmem
      · exact (ne_dot_of_isIdent (hnames.declared _ hname) hl).elim
    · rw [he] at herror
      cases herror

theorem Composed.flaw {mask : UInt8} {e : Asm.Error} (h : Fails mask (code.statements 1) e) :
    Flaw g fs code.render e := by
  cases h with
  | @duplicate line label hcount =>
    have hmem : label ∈ Asm.labels (code.statements 1) := List.count_pos_iff.mp (by omega)
    rcases hcode.label hmem with ⟨k, rfl⟩ | hf
    · have hle := (hcode.labels_fresh hnames k).1
      omega
    · exact .duplicate hf
  | tooLarge => exact .tooLarge
  | @encoding s e hs he =>
    rcases hcode.encoding hnames hfit mask hs with ⟨_, _, _, e', _, he', _⟩ | ⟨count, hfull, herror⟩
    · rw [he] at he'
      cases he'
    · cases he.symm.trans herror
      exact .overfull hfull
  | @undefined s e label hs he hlabel hnot =>
    rcases hcode.encoding hnames hfit mask hs with ⟨line, hline, before, e', hprogram, he', htarget⟩ | ⟨count, -, herror⟩
    · cases he.symm.trans he'
      rw [hlabel, eq_comm, Option.map_eq_some_iff] at htarget
      obtain ⟨l, hl, rfl⟩ := htarget
      rcases hcode.target hnames hline hprogram hl with hmem | hname
      · exact (hnot hmem).elim
      · exact .undefined hname
    · rw [he] at herror
      cases herror

end Composed

/--
Whatever the compiler writes assembles, unless a function is missing or there twice, the image is too large or a
function has more than 255 parameters. All lines are read with operands in range, and each label that was made up stands
once where something jumps to it.
-/
theorem compile_assemblable (h : compile source = .ok text) (hg : survey (Cursor.ofSource source) = .ok g)
    (hwords : g.Unwrapped) (hslots : ∀ f ∈ functions g.macros (Cursor.ofSource source), f.slots ≤ 0xFFFF)
    (hgeometry : options.header.geometryEncodable)
    : Assemblable g (functions g.macros (Cursor.ofSource source)) text options := by
  obtain ⟨g', hg', code, hemit, rfl⟩ := compile_eq_ok_iff.mp h
  cases hg.symm.trans hg'
  have hnames := namesRead_of_emit hg hemit
  have hfit := (survey_filled hg hwords).fitting hslots
  obtain ⟨hi, hcode⟩ := exists_composed hg hemit
  have hreadable := hcode.readable hnames hfit
  refine ⟨⟨Code.statements 1 _, Code.statementsFrom_render_eq 1 hreadable, ?_, ?_⟩, ?_⟩
  · intro s hs
    rcases hcode.encoding hnames hfit options.mask hs with ⟨_, _, _, e, _, he, _⟩ | ⟨count, hfull, _⟩
    · exact .inl ⟨e, he⟩
    · exact .inr ⟨count, hfull⟩
  · intro l hl
    exact hcode.reads hnames hfit options.mask hl
  · intro e he
    rw [assemble_render hreadable hgeometry] at he
    exact hcode.flaw hnames hfit (fails_of_assembleStatements he)

theorem compile_assemblable_sumSource :
    ∃ text g, compile sumSource = .ok text ∧ survey (Cursor.ofSource sumSource) = .ok g
      ∧ g.Unwrapped ∧ (∀ f ∈ functions g.macros (Cursor.ofSource sumSource), f.slots ≤ 0xFFFF)
      ∧ ({} : Options).header.geometryEncodable
      ∧ Assemblable g (functions g.macros (Cursor.ofSource sumSource)) text {} := by
  obtain ⟨text, htext⟩ := Except.exists_eq_ok_of_isOk (x := compile sumSource) (by decide +kernel)
  have hfits : ∀ g ∈ (survey (Cursor.ofSource sumSource)).toOption, g.Unwrapped
      ∧ ∀ f ∈ functions g.macros (Cursor.ofSource sumSource), f.slots ≤ 0xFFFF := by decide +kernel
  obtain ⟨g, hg, -⟩ := compile_eq_ok_iff.mp htext
  obtain ⟨hwords, hslots⟩ := hfits g (by simp [hg, Except.toOption])
  have hgeometry : ({} : Options).header.geometryEncodable := by decide
  exact ⟨text, g, htext, hg, hwords, hslots, hgeometry, compile_assemblable htext hg hwords hslots hgeometry⟩

end Programs

end Handheld.Source
