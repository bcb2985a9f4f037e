import Handheld.Proofs.Asm.Operands
import Handheld.Proofs.Machine.Preparing

/-!
Strings on their way from a line of assembly text into a slot of the machine.
-/
namespace Handheld

namespace Asm

open Text

def pushLine (bytes : List UInt8) : String :=
  "PUSH_STR " ++ quote bytes

theorem isMnemonic_pushStr : isMnemonic "PUSH_STR".toList :=
  isMnemonic_mnemonic .pushStr

theorem words_pushLine (bytes : List UInt8) :
    words (pushLine bytes).toList = .ok ["PUSH_STR".toList, (quote bytes).toList] := by
  have hline : (pushLine bytes).toList = "PUSH_STR".toList ++ [(quote bytes).toList].flatMap (' ' :: ·) := by
    simp [pushLine]
  rw [hline]
  apply words_append_flatMap
  · exact isWord_of_isMnemonic isMnemonic_pushStr
  · intro v hv
    rw [List.mem_singleton.mp hv, quote, String.toList_ofList]
    exact isWord_quoteChars bytes

theorem statementsFrom_pushLine (n : Nat) (bytes : List UInt8) :
    statementsFrom n [pushLine bytes] = .ok [{ line := n, instr := some (.op .pushStr [.str bytes]) }] := by
  have hoperand : Asm.operand n (quote bytes).toList = .ok (.str bytes) := Arg.operand_render (a := .text bytes) n trivial
  rw [statementsFrom, words_pushLine]
  dsimp only
  rw [statement_of_isMnemonic n isMnemonic_pushStr, body, List.mapM_cons, List.mapM_nil, hoperand]
  rfl

variable {text : String} {options : Options} {image : Array UInt8} {before behind : List String} {bytes : List UInt8}

theorem pushLine_in_image (h : assemble text options = .ok image)
    (hlines : Text.lines text = before ++ pushLine bytes :: behind) :
    ∃ ss rest, statementsFrom 1 before = .ok ss
      ∧ image.toList.drop (Header.length + codeSize ss)
        = Opcode.pushStr.code :: ((payload bytes).map (· ^^^ options.mask) ++ options.mask :: rest)
      ∧ Header.parse image.toList = .ok options.header := by
  obtain ⟨hencodable, ss, hss, himage⟩ := assemble_eq_ok_iff.mp h
  obtain ⟨-, -, bs, hbs, rfl⟩ := assembleStatements_eq_ok_iff.mp himage
  rw [statements, hlines] at hss
  obtain ⟨ss1, ss', hss1, hss', rfl⟩ := statementsFrom_append_eq_ok hss
  rw [← List.singleton_append] at hss'
  obtain ⟨ss2, ss3, hss2, -, rfl⟩ := statementsFrom_append_eq_ok hss'
  cases (statementsFrom_pushLine _ bytes).symm.trans hss2
  obtain ⟨bs1, bs', rfl, hbs1, hbs'⟩ := forall₂_append_left hbs
  cases hbs' with
  | @cons _ b _ bs3 hb _ =>
    obtain ⟨e, he, hresolve⟩ := bytes?_op_eq_some rfl hb
    cases he
    cases hresolve
    refine ⟨ss1, bs3.flatten, hss1, ?_, ?_⟩
    · rw [List.flatten_append, List.flatten_cons, ← List.append_assoc]
      apply (List.drop_left' _).trans
      · rw [List.cons_append, List.append_assoc]
        rfl
      · rw [List.length_append, Header.length_toBytes, length_flatten_bytes? hbs1]
    · exact Header.parse_toBytes hencodable rfl (by simp)

end Asm

namespace Machine

end Machine

namespace Asm

open Machine Text

/--
Any string survives quoting, splitting and reading. One without a zero byte gets through assembling as well: in every
state of a machine that is about to carry out the instruction of its line, whatever the mask, the address that is pushed
is that of the string, cut to what the buffer can hold.
-/
theorem string_operand_survives (bytes : List UInt8) :
    (∀ c ∈ (quote bytes).toList, isPrintable c)
      ∧ unquote (quote bytes) = some bytes
      ∧ words (pushLine bytes).toList = .ok ["PUSH_STR".toList, (quote bytes).toList]
      ∧ (∀ n, statementsFrom n [pushLine bytes] = .ok [{ line := n, instr := some (.op .pushStr [.str bytes]) }])
      ∧ (∀ mask n, ∃ e, (Instr.op .pushStr [.str bytes]).encode mask n = .ok e)
      ∧ (0 ∉ bytes → ∀ text options image before behind, assemble text options = .ok image →
          Text.lines text = before ++ pushLine bytes :: behind →
          ∃ ss, statementsFrom 1 before = .ok ss
            ∧ ∀ pushed m, Arises pushed m → m.image = image → m.pc = Header.length + codeSize ss → m.Ready →
              m.stack.size < m.stack.limit →
              ∃ a, step m = .ok .running (after (step m))
                ∧ (after (step m)).stack.toList = m.stack.toList ++ [({ addr := a, width := .byte } : Handle).encode]
                ∧ (after (step m)).memory.cstr a = bytes.take 3071) := by
  refine ⟨?_, ?_, words_pushLine bytes, fun n => statementsFrom_pushLine n bytes, fun mask n => ⟨_, rfl⟩, ?_⟩
  · intro c hc
    rw [quote, String.toList_ofList] at hc
    exact isPrintable_of_mem_quoteChars hc
  · rw [unquote, quote, String.toList_ofList]
    exact unquoteChars_quoteChars bytes
  · intro hzero text options image before behind h hlines
    obtain ⟨ss, rest, hss, hat, hparse⟩ := pushLine_in_image h hlines
    refine ⟨ss, hss, fun pushed m harises himage hpc hready hroom => ?_⟩
    have hheader := (has_of_reached harises.reached).header
    rw [himage, hparse, Except.ok.injEq] at hheader
    have hmask : m.header.mask = options.mask := by rw [← hheader]; rfl
    rw [← himage, ← hpc, ← hmask, payload_eq hzero] at hat
    have hpushes := harises.slots.pushes (pushes?_of_drop hready hat hzero)
    exact ⟨_, (hpushes.pushed hroom).1, (hpushes.pushed hroom).2, hpushes.string⟩

def awkward : List UInt8 :=
  [0x3B, 0x22, 0x5C, 0x0A, 0xFF]

def awkwardImage : Array UInt8 :=
  (Header.toBytes { mask := 0x5C } ++ Opcode.pushStr.code :: (awkward.map (· ^^^ 0x5C) ++ [0x5C])).toArray

theorem string_operand_survives_awkward :
    assemble (pushLine awkward) { mask := 0x5C } = .ok awkwardImage
      ∧ ∃ a, step (ran awkwardImage 0) = .ok .running (ran awkwardImage 1)
        ∧ (ran awkwardImage 1).memory.cstr a = awkward := by
  have himage : (assemble (pushLine awkward) { mask := 0x5C }).toOption = some awkwardImage := by decide +kernel
  have hassemble := Except.eq_ok_of_toOption himage
  have hlines : Text.lines (pushLine awkward) = [] ++ pushLine awkward :: [] := by decide +kernel
  have hload : ({} : Machine).load awkwardImage = .ok (ran awkwardImage 0) := rfl
  obtain ⟨-, -, -, -, -, hruns⟩ := string_operand_survives awkward
  obtain ⟨ss, hss, hruns⟩ := hruns (by decide) _ _ _ _ _ hassemble hlines
  cases hss
  obtain ⟨a, hstep, -, hstring⟩ := hruns _ _ (.load hload) rfl rfl (ready_of_load hload) (by decide +kernel)
  exact ⟨hassemble, a, hstep, hstring⟩

end Asm
end Handheld
