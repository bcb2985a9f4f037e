import Handheld.Proofs.Asm.Words
import Handheld.Proofs.Opcode

/-!
Rendered code read back: the text of readable lines has exactly these lines as its statements.
-/
namespace Handheld.Asm

open Text

variable {n : Nat} {w : List Char} {args : List Arg} {code : Code}

variable {cs : List Char} {c : Char} {a : Arg} {line : Line}

def isName : List Char → Bool
  | [] => false
  | c :: cs => !c.isDigit && c != '-' && (c :: cs).all isPlain

def Label.Readable (l : Label) : Prop :=
  isName l.text.toList

def Arg.Readable : Arg → Prop
  | int n => n.natAbs < 2 ^ 63
  | addr n => n < 2 ^ 63
  | label l => l.Readable
  | text _ => True

def Line.Readable : Line → Prop
  | label l => l.Readable
  | op _ args => ∀ a ∈ args, a.Readable
  | call _ => True
  | sys code => Call.firstCode ≤ code
  | data _ => True

def Line.Named : Line → Prop
  | label l => l.Readable
  | op _ args => ∀ l, .label l ∈ args → l.Readable
  | call _ | sys _ | data _ => True

instance (l : Label) : Decidable l.Readable :=
  inferInstanceAs (Decidable (_ = true))

instance : (a : Arg) → Decidable a.Readable
  | .int n => inferInstanceAs (Decidable (n.natAbs < 2 ^ 63))
  | .addr n => inferInstanceAs (Decidable (n < 2 ^ 63))
  | .label l => inferInstanceAs (Decidable l.Readable)
  | .text _ => .isTrue trivial

instance : (line : Line) → Decidable line.Readable
  | .label l => inferInstanceAs (Decidable l.Readable)
  | .op _ args => inferInstanceAs (Decidable (∀ a ∈ args, a.Readable))
  | .sys code => inferInstanceAs (Decidable (Call.firstCode ≤ code))
  | .call _ | .data _ => .isTrue trivial

def Arg.operand : Arg → Operand
  | int n => .int n
  | addr n => .int n
  | label l => .name l.text
  | text bytes => .str bytes

def Line.instr : Line → Option Instr
  | label _ => none
  | op opcode args => some (.op opcode (args.map Arg.operand))
  | call c => some (.call c.code)
  | sys code => some (.call code)
  | data byte => some (.bytes [byte])

def Line.statement (n : Nat) (line : Line) : Statement where
  line := n
  label := match line with
    | label l => some l.text
    | _ => none
  instr := line.instr

def Code.statements (n : Nat) : Code → List Statement
  | [] => []
  | line :: code => line.statement n :: Code.statements (n + 1) code

theorem Code.statements_append (n : Nat) (a b : Code) :
    Code.statements n (a ++ b) = Code.statements n a ++ Code.statements (n + a.length) b := by
  induction a generalizing n with
  | nil => simp [Code.statements]
  | cons line a ih =>
    simp only [List.cons_append, Code.statements, ih, List.length_cons]
    rw [Nat.add_right_comm, Nat.add_assoc]

theorem isPlain_of_isName (h : isName cs) : ∀ c ∈ cs, isPlain c := by
  match cs with
  | [] => simp
  | c :: cs =>
    rw [isName, Bool.and_eq_true, List.all_eq_true] at h
    exact h.2

theorem isWord_of_isName (h : isName cs) : IsWord cs := by
  apply isWord_of_plain
  · intro hnil
    simp [hnil, isName] at h
  · exact isPlain_of_isName h

theorem integer?_of_isName (h : isName cs) : integer? cs = none := by
  match cs with
  | [] => simp [isName] at h
  | c :: cs =>
    simp only [isName, Bool.and_eq_true, Bool.not_eq_true', bne_iff_ne, ne_eq] at h
    obtain ⟨⟨hdigit, hminus⟩, -⟩ := h
    rw [integer?]
    · rw [magnitude?]
      · simp [hdigit]
      · rintro ds rfl -
        simp at hdigit
      · rintro ds rfl -
        simp at hdigit
    · intro cs' h'
      rw [List.cons.injEq] at h'
      exact hminus h'.1

theorem Label.toList_text_fresh (n : Nat) : (Label.fresh n).text.toList = '.' :: 'L' :: Nat.toDigits 10 n := by
  simp only [Label.text, String.toList_append, Nat.toString_eq_repr, Nat.toList_repr]
  rfl

theorem Label.readable_fresh (n : Nat) : (Label.fresh n).Readable := by
  rw [Label.Readable, Label.toList_text_fresh]
  simp only [isName, List.all_cons, Bool.and_eq_true, List.all_eq_true]
  exact ⟨by decide, by decide, by decide,
    fun c hc => isPlain_of_mem_toDigits (by omega) (by omega) hc⟩

theorem Label.readable_offset (n : Nat) : (Label.offset n).Readable := by
  have htext : (Label.offset n).text.toList = 'L' :: (hex 4 n).toList := by
    simp [Label.text]
  rw [Label.Readable, htext]
  simp only [isName, List.all_cons, Bool.and_eq_true, List.all_eq_true]
  exact ⟨by decide, by decide, fun c hc => isPlain_of_mem_hex hc⟩

theorem isPlain_of_mem_marked {width : Nat} (h : c ∈ ("0x" ++ hex width n).toList) : isPlain c := by
  rw [String.toList_append, List.mem_append] at h
  cases h with
  | inl h => exact List.all_eq_true.mp (show "0x".toList.all isPlain by decide) c h
  | inr h => exact isPlain_of_mem_hex h

theorem isWord_marked (width n : Nat) : IsWord ("0x" ++ hex width n).toList :=
  isWord_of_plain (by simp) (fun c => isPlain_of_mem_marked)

theorem Arg.isWord_render (h : a.Readable) : IsWord a.render.toList := by
  cases a with
  | int n => exact isWord_toString n
  | addr n => exact isWord_marked 4 n
  | label l => exact isWord_of_isName h
  | text bytes =>
    rw [Arg.render, quote, String.toList_ofList]
    exact isWord_quoteChars bytes

theorem operand_of_plain (line : Nat) (h : ∀ c ∈ w, isPlain c) :
    Asm.operand line w
      =
    match integer? w with
    | some n => .ok (.int n)
    | none => .ok (.name (String.ofList w)) := by
  have hhead : (w.head? == some '"') = false := by
    match w with
    | [] => rfl
    | c :: cs =>
      have := h c (by simp)
      simp only [List.head?_cons, Option.some_beq_some, beq_eq_false_iff_ne]
      rintro rfl
      exact absurd this (by decide)
  unfold Asm.operand
  rw [hhead]
  cases integer? w <;> rfl

theorem operand_marked (line width : Nat) (h : n < 2 ^ 63) :
    Asm.operand line ("0x" ++ hex width n).toList = .ok (.int n) := by
  rw [operand_of_plain line (fun c => isPlain_of_mem_marked), integer?_hex h]

theorem Arg.operand_render (line : Nat) (h : a.Readable) : Asm.operand line a.render.toList = .ok a.operand := by
  cases a with
  | int n =>
    rw [Arg.render, operand_of_plain line (fun c => isPlain_of_mem_toString), integer?_toString h]
    rfl
  | addr n => exact operand_marked line 4 h
  | label l =>
    rw [Arg.render, operand_of_plain line (isPlain_of_isName h), integer?_of_isName h]
    simp [Arg.operand]
  | text bytes =>
    have hhead : (quoteChars bytes).head? = some '"' := rfl
    simp [Arg.render, quote, Asm.operand, hhead, unquoteChars_quoteChars, Arg.operand]

theorem mapM_operand_render (line : Nat) (h : ∀ a ∈ args, a.Readable) :
    (args.map (·.render.toList)).mapM (Asm.operand line) = .ok (args.map Arg.operand) := by
  induction args with
  | nil => rfl
  | cons a args ih =>
    rw [List.map_cons, List.mapM_cons, Arg.operand_render line (h a (by simp))]
    rw [ih (fun a' ha' => h a' (by simp [ha']))]
    rfl

def isMnemonic (cs : List Char) : Bool :=
  !cs.isEmpty && cs.all fun c => isPlain c && c != ':'

theorem isMnemonic_mnemonic (op : Opcode) : isMnemonic op.mnemonic.toList := by
  have hall : ∀ op ∈ Opcode.all, isMnemonic op.mnemonic.toList := by decide +kernel
  exact hall op op.mem_all

theorem isMnemonic_name (c : Call) : isMnemonic c.name.toList := by
  cases c <;> decide

theorem isWord_of_isMnemonic (h : isMnemonic cs) : IsWord cs := by
  simp only [isMnemonic, Bool.and_eq_true, Bool.not_eq_true', List.isEmpty_eq_false_iff,
    List.all_eq_true] at h
  exact isWord_of_plain h.1 (fun c hc => (h.2 c hc).1)

theorem statement_of_isMnemonic (line : Nat) (h : isMnemonic w) (ws : List (List Char))
    : Asm.statement line w ws
        =
      (body line (w :: ws)).map fun instr => { line := line, instr := instr } := by
  have hlast : (w.getLast? == some ':') = false := by
    simp only [isMnemonic, Bool.and_eq_true, List.all_eq_true, bne_iff_ne] at h
    simp only [beq_eq_false_iff_ne, ne_eq]
    intro hcolon
    exact (h.2 ':' (List.mem_of_getLast? hcolon)).2 rfl
  simp only [Asm.statement, hlast, Bool.and_false, Bool.false_eq_true, ↓reduceIte]
  cases body line (w :: ws) <;> rfl

theorem ofMnemonic?_mnemonic (op : Opcode) : Opcode.ofMnemonic? op.mnemonic = some op := by
  have hall : ∀ op ∈ Opcode.all, Opcode.ofMnemonic? op.mnemonic = some op := by decide +kernel
  exact hall op op.mem_all

theorem ofMnemonic?_name (c : Call) : Opcode.ofMnemonic? c.name = none := by
  cases c <;> rfl

theorem ofName?_name (c : Call) : Call.ofName? c.name = some c := by
  cases c <;> rfl

theorem toList_foldl_render (args : List Arg) (s : String) :
    (args.foldl (fun s a => s ++ " " ++ a.render) s).toList
      =
    s.toList ++ (args.map (·.render.toList)).flatMap (' ' :: ·) := by
  induction args generalizing s with
  | nil => simp
  | cons a args ih => simp [ih]

theorem words_indented (w : List Char) (h : IsWord w) {ws : List (List Char)} (hws : ∀ v ∈ ws, IsWord v)
    : words ([' ', ' ', ' ', ' '] ++ w ++ ws.flatMap (' ' :: ·)) = .ok (w :: ws) := by
  simp only [List.cons_append, List.nil_append, words_space]
  exact words_append_flatMap h hws

structure Line.ReadsBack (line : Line) : Prop where
  reads : ∀ n, ∃ w ws, words line.render.toList = .ok (w :: ws)
    ∧ Asm.statement n w ws = .ok (line.statement n)

theorem Line.readsBack_label {l : Label} (h : l.Readable) : (Line.label l).ReadsBack := by
  constructor
  intro n
  have hplain : ∀ c ∈ l.text.toList ++ [':'], isPlain c := by
    intro c hc
    rw [List.mem_append, List.mem_singleton] at hc
    cases hc with
    | inl hc => exact isPlain_of_isName h c hc
    | inr hc => rw [hc]; decide
  have hword : IsWord (l.text.toList ++ [':']) := isWord_of_plain (by simp) hplain
  refine ⟨l.text.toList ++ [':'], [], ?_, ?_⟩
  · have := words_append_flatMap hword (fun v (hv : v ∈ []) => absurd hv (by simp))
    simpa [Line.render] using this
  · have hne := (isWord_of_isName h).1
    have hhead : ((l.text.toList ++ [':']).head? != some '"') = true := by
      rw [bne_iff_ne]
      intro hq
      exact absurd (hplain '"' (List.mem_of_mem_head? hq)) (by decide)
    simp only [Asm.statement, hhead, List.getLast?_append, List.getLast?_singleton, Option.some_or,
      beq_self_eq_true, Bool.and_self, ↓reduceIte, List.dropLast_concat, List.isEmpty_iff, hne]
    simp [body, Line.statement, Line.instr, Bind.bind, Except.bind, pure, Except.pure]

theorem Line.readsBack_op (opcode : Opcode) (h : ∀ a ∈ args, a.Readable) : (Line.op opcode args).ReadsBack := by
  constructor
  intro n
  refine ⟨opcode.mnemonic.toList, args.map (·.render.toList), ?_, ?_⟩
  · rw [Line.render, toList_foldl_render, String.toList_append]
    apply words_indented
    · exact isWord_of_isMnemonic (isMnemonic_mnemonic opcode)
    · intro v hv
      rw [List.mem_map] at hv
      obtain ⟨a, ha, rfl⟩ := hv
      exact Arg.isWord_render (h a ha)
  · rw [statement_of_isMnemonic n (isMnemonic_mnemonic opcode), body]
    rw [mapM_operand_render n h, String.ofList_toList]
    simp only [Bind.bind, Except.bind, instruction, ofMnemonic?_mnemonic]
    rfl

theorem Line.readsBack_call (c : Call) : (Line.call c).ReadsBack := by
  constructor
  intro n
  refine ⟨c.name.toList, [], ?_, ?_⟩
  · rw [Line.render, String.toList_append]
    have hw := isWord_of_isMnemonic (isMnemonic_name c)
    have := words_indented c.name.toList hw (fun v (hv : v ∈ []) => absurd hv (by simp))
    simpa using this
  · rw [statement_of_isMnemonic n (isMnemonic_name c), body, String.ofList_toList]
    simp only [List.mapM_nil, pure_bind, instruction, ofMnemonic?_name, ofName?_name]
    rfl

theorem words_byte (w : String) (h : isMnemonic w.toList) (byte : UInt8) :
    words ([' ', ' ', ' ', ' '] ++ w.toList ++ ' ' :: ("0x" ++ hex 2 byte.toNat).toList)
      =
    .ok [w.toList, ("0x" ++ hex 2 byte.toNat).toList] := by
  have hws : ∀ v ∈ [("0x" ++ hex 2 byte.toNat).toList], IsWord v := by
    intro v hv
    rw [List.mem_singleton] at hv
    rw [hv]
    exact isWord_marked 2 byte.toNat
  have := words_indented w.toList (isWord_of_isMnemonic h) hws
  simpa using this

theorem statement_byte (line : Nat) (w : String) (h : isMnemonic w.toList) (byte : UInt8) :
    Asm.statement line w.toList [("0x" ++ hex 2 byte.toNat).toList]
      =
    (instruction line w [.int byte.toNat]).map fun instr => { line := line, instr := some instr } := by
  have hlt := byte.toNat_lt
  rw [statement_of_isMnemonic line h, body, List.mapM_cons, List.mapM_nil, String.ofList_toList]
  rw [operand_marked line 2 (by omega)]
  simp only [Bind.bind, Except.bind, pure, Except.pure]
  cases instruction line w [.int byte.toNat] <;> rfl

theorem ranged_byte (line : Nat) {low : Int} (byte : UInt8) (h : low ≤ byte.toNat) :
    ranged line low 255 (.int byte.toNat) = .ok byte.toNat := by
  have hlt := byte.toNat_lt
  have hhigh : (byte.toNat : Int) ≤ 255 := by omega
  simp [ranged, h, hhigh]

theorem byteOf_toNat (byte : UInt8) : byteOf byte.toNat = byte := by
  have hlt := byte.toNat_lt
  have hmod : ((byte.toNat : Int) % 2 ^ 8).toNat = byte.toNat := by omega
  rw [byteOf, UInt8.ofInt, hmod, UInt8.ofNat_toNat]

theorem Line.readsBack_sys {code : UInt8} (h : Call.firstCode ≤ code) : (Line.sys code).ReadsBack := by
  constructor
  intro n
  refine ⟨"SYS".toList, [("0x" ++ hex 2 code.toNat).toList], ?_, ?_⟩
  · rw [← words_byte "SYS" (by decide) code]
    simp [Line.render]
  have hlow : (0x80 : Int) ≤ code.toNat := by
    rw [UInt8.le_iff_toNat_le] at h
    exact_mod_cast h
  have hop : Opcode.ofMnemonic? "SYS" = none := rfl
  have hcall : Call.ofName? "SYS" = none := rfl
  rw [statement_byte n "SYS" (by decide)]
  simp only [instruction, hop, hcall, beq_self_eq_true, ↓reduceIte, ranged_byte n code hlow,
    Except.map, byteOf_toNat]
  rfl

theorem Line.readsBack_data (byte : UInt8) : (Line.data byte).ReadsBack := by
  constructor
  intro n
  refine ⟨"DB".toList, [("0x" ++ hex 2 byte.toNat).toList], ?_, ?_⟩
  · rw [← words_byte "DB" (by decide) byte]
    simp [Line.render]
  have hop : Opcode.ofMnemonic? "DB" = none := rfl
  have hcall : Call.ofName? "DB" = none := rfl
  have hsys : ("DB" == "SYS") = false := rfl
  rw [statement_byte n "DB" (by decide)]
  simp only [instruction, hop, hcall, hsys, beq_self_eq_true, ↓reduceIte, Bool.false_eq_true,
    List.mapM_cons, List.mapM_nil]
  rw [ranged_byte n byte (by omega)]
  simp [Except.map, Bind.bind, Except.bind, pure, Except.pure, byteOf_toNat, Line.statement,
    Line.instr]

theorem Line.readsBack (h : line.Readable) : line.ReadsBack := by
  cases line with
  | label l => exact readsBack_label h
  | op opcode args => exact readsBack_op opcode h
  | call c => exact readsBack_call c
  | sys code => exact readsBack_sys h
  | data byte => exact readsBack_data byte

theorem linesFrom_append (cs rest acc : List Char) :
    linesFrom acc (cs ++ '\n' :: rest) = linesFrom acc (cs ++ ['\n']) ++ linesFrom [] rest := by
  induction cs generalizing acc with
  | nil => simp [linesFrom]
  | cons c cs ih =>
    simp only [List.cons_append, linesFrom]
    split <;> simp [ih]

theorem linesFrom_line {line : List Char} (h : ∀ c ∈ line, c ≠ '\n' ∧ c ≠ '\r') :
    linesFrom [] (line ++ ['\n']) = [line] := by
  have hgo : ∀ acc, linesFrom acc (line ++ ['\n']) = [dropReturn (acc.reverse ++ line)] := by
    induction line with
    | nil => simp [linesFrom]
    | cons c line ih =>
      intro acc
      have hc := (h c (by simp)).1
      rw [List.cons_append, linesFrom]
      simp only [beq_iff_eq, hc, ↓reduceIte]
      rw [ih (fun c' hc' => h c' (by simp [hc']))]
      simp
  rw [hgo, dropReturn]
  have hlast : line.getLast? ≠ some '\r' := fun hr => (h '\r' (List.mem_of_getLast? hr)).2 rfl
  simp [hlast]

theorem not_break_of_isPlain (h : isPlain c) : c ≠ '\n' ∧ c ≠ '\r' := by
  constructor
  · rintro rfl
    exact absurd h (by decide)
  · rintro rfl
    exact absurd h (by decide)

theorem not_break_of_isPrintable (h : isPrintable c) : c ≠ '\n' ∧ c ≠ '\r' := by
  constructor
  · rintro rfl
    exact absurd h (by decide)
  · rintro rfl
    exact absurd h (by decide)

theorem not_break_of_isMnemonic (h : isMnemonic cs) : ∀ c ∈ cs, c ≠ '\n' ∧ c ≠ '\r' := by
  simp only [isMnemonic, Bool.and_eq_true, List.all_eq_true] at h
  exact fun c hc => not_break_of_isPlain (h.2 c hc).1

theorem Line.Readable.named (h : line.Readable) : line.Named := by
  cases line with
  | label l => exact h
  | op opcode args => exact fun l hl => h (.label l) hl
  | call | sys | data => trivial

theorem Arg.render_no_break (h : ∀ l, a = .label l → l.Readable) : ∀ c ∈ a.render.toList, c ≠ '\n' ∧ c ≠ '\r' := by
  intro c hc
  cases a with
  | int n => exact not_break_of_isPlain (isPlain_of_mem_toString hc)
  | addr n => exact not_break_of_isPlain (isPlain_of_mem_marked hc)
  | label l => exact not_break_of_isPlain (isPlain_of_isName (h l rfl) c hc)
  | text bytes =>
    rw [Arg.render, quote, String.toList_ofList] at hc
    exact not_break_of_isPrintable (isPrintable_of_mem_quoteChars hc)

theorem not_break_of_all (h : cs.all fun c => c != '\n' && c != '\r') : ∀ c ∈ cs, c ≠ '\n' ∧ c ≠ '\r' := by
  simpa using h

theorem Line.render_no_break (h : line.Named) : ∀ c ∈ line.render.toList, c ≠ '\n' ∧ c ≠ '\r' := by
  have hspaces : ∀ c ∈ "    ".toList, c ≠ '\n' ∧ c ≠ '\r' := not_break_of_all (by decide)
  intro c hc
  cases line with
  | label l =>
    rw [Line.render, String.toList_append, List.mem_append] at hc
    cases hc with
    | inl hc => exact not_break_of_isPlain (isPlain_of_isName h c hc)
    | inr hc => exact not_break_of_all (by decide) c hc
  | op opcode args =>
    rw [Line.render, toList_foldl_render, String.toList_append] at hc
    simp only [List.mem_append, List.mem_flatMap, List.mem_map, List.mem_cons,
      exists_exists_and_eq_and] at hc
    rcases hc with (hc | hc) | ⟨a, ha, rfl | hc⟩
    · exact hspaces c hc
    · exact not_break_of_isMnemonic (isMnemonic_mnemonic opcode) c hc
    · decide
    · exact Arg.render_no_break (fun l hl => h l (hl ▸ ha)) c hc
  | call call =>
    rw [Line.render, String.toList_append, List.mem_append] at hc
    cases hc with
    | inl hc => exact hspaces c hc
    | inr hc => exact not_break_of_isMnemonic (isMnemonic_name call) c hc
  | sys code | data byte =>
    rw [Line.render, String.toList_append, List.mem_append] at hc
    cases hc with
    | inl hc => exact not_break_of_all (by decide) c hc
    | inr hc => exact not_break_of_isPlain (isPlain_of_mem_hex hc)

theorem Code.toList_render (code : Code) :
    code.render.toList = code.flatMap fun line => line.render.toList ++ ['\n'] := by
  have hgo : ∀ s : String, (code.foldl (fun s line => s ++ line.render ++ "\n") s).toList
      = s.toList ++ code.flatMap fun line => line.render.toList ++ ['\n'] := by
    induction code with
    | nil => simp
    | cons line code ih =>
      intro s
      rw [List.foldl_cons, ih]
      simp
  rw [Code.render, hgo]
  simp

theorem Code.render_append (a b : Code) : Code.render (a ++ b) = a.render ++ b.render := by
  rw [← String.toList_inj]
  simp [Code.toList_render]

theorem Code.lines_render_append (a : Code) (t : String) :
    Text.lines (a.render ++ t) = Text.lines a.render ++ Text.lines t := by
  have hgo : ∀ acc rest, a ≠ [] → linesFrom acc (a.render.toList ++ rest)
      = linesFrom acc a.render.toList ++ linesFrom [] rest := by
    intro acc rest hne
    rw [Code.toList_render]
    obtain ⟨init, last, rfl⟩ := List.eq_nil_or_concat a |>.resolve_left hne
    simp only [List.concat_eq_append, List.flatMap_append, List.flatMap_cons, List.flatMap_nil, List.append_nil]
    rw [← List.append_assoc, List.append_assoc _ ['\n'], List.singleton_append, linesFrom_append]
  by_cases hnil : a = []
  · subst hnil
    have hempty : Code.render [] = "" := rfl
    have hlines : Text.lines "" = [] := rfl
    simp [hempty, hlines]
  · simp only [Text.lines, String.toList_append, hgo [] t.toList hnil, List.map_append]

theorem Code.lines_render (h : ∀ line ∈ code, line.Named) : Text.lines code.render = code.map Line.render := by
  induction code with
  | nil => rfl
  | cons line code ih =>
    have hline : Text.lines (Code.render [line]) = [line.render] := by
      rw [Text.lines, Code.toList_render]
      simp only [List.flatMap_cons, List.flatMap_nil, List.append_nil]
      rw [linesFrom_line (Line.render_no_break (h line (by simp)))]
      simp
    rw [← List.singleton_append, Code.render_append, Code.lines_render_append, hline]
    rw [ih (fun line' hline' => h line' (by simp [hline']))]
    simp

theorem statementsFrom_append (n : Nat) (xs ys : List String) :
    statementsFrom n (xs ++ ys) = do
      let a ← statementsFrom n xs
      let b ← statementsFrom (n + xs.length) ys
      return a ++ b := by
  induction xs generalizing n with
  | nil =>
    simp only [List.nil_append, statementsFrom, List.length_nil, Nat.add_zero]
    cases statementsFrom n ys <;> rfl
  | cons x xs ih =>
    have hlen : n + (x :: xs).length = n + 1 + xs.length := by
      rw [List.length_cons]
      omega
    rw [List.cons_append, statementsFrom, statementsFrom, hlen]
    split
    · rfl
    · exact ih (n + 1)
    · rw [ih (n + 1)]
      rename_i w ws _
      cases Asm.statement n w ws with
      | error e => rfl
      | ok s =>
        simp only [Bind.bind, Except.bind]
        cases statementsFrom (n + 1) xs with
        | error e => rfl
        | ok a =>
          cases statementsFrom (n + 1 + xs.length) ys <;> rfl

theorem statementsFrom_render (n : Nat) (h : ∀ line ∈ code, line.Readable) :
    statementsFrom n (code.map Line.render) = .ok (code.statements n) := by
  induction code generalizing n with
  | nil => rfl
  | cons line code ih =>
    obtain ⟨w, ws, hw, hs⟩ := (Line.readsBack (h line (by simp))).reads n
    rw [List.map_cons, statementsFrom, hw]
    simp only [hs, ih (n + 1) (fun line' hline' => h line' (by simp [hline']))]
    rfl

end Handheld.Asm
