import Handheld.Proofs.Asm.Standing

/-!
The layout of an assembled image: its instructions in the order of the lines, each as long as it was taken to be when
labels were placed.
-/
namespace Handheld.Asm

variable {opcode : Opcode} {line n : Nat} {e : Instr.Encoding} {mask : UInt8} {s : Statement} {ss : List Statement}

def Instr.target? : Instr → Option String
  | op opcode [.name label] => if opcode.layout = .target then some label else none
  | _ => none

def Statement.target? (s : Statement) : Option String :=
  s.instr.bind Instr.target?

namespace Instr

theorem target?_of_ne (h : opcode.layout ≠ .target) (operands : List Operand) :
    (op opcode operands).target? = none := by
  unfold target?
  split
  next heq =>
    cases heq
    exact if_neg h
  next => rfl

theorem encodeTarget_label {operands : List Operand}
    (hlayout : opcode.layout = .target) (h : encodeTarget line operands = .ok e) (hextra : operands.drop 1 = [])
    : e.label = (op opcode operands).target? := by
  match operands with
  | [] => simp [encodeTarget, first, Bind.bind, Except.bind] at h
  | _ :: _ :: _ => simp at hextra
  | [.name label] =>
    simp only [encodeTarget, first, Bind.bind, Except.bind, pure, Except.pure, Except.ok.injEq] at h
    rw [← h, target?, if_pos hlayout]
  | [.int n] =>
    simp only [encodeTarget, first, Bind.bind, Except.bind, pure, Except.pure] at h
    split at h
    next => cases h
    next =>
      cases h
      rfl
  | [.str text] => simp [encodeTarget, first, ranged, Bind.bind, Except.bind] at h

theorem encode_label {instr : Instr} (h : instr.encode mask line = .ok e) : e.label = instr.target? := by
  cases instr with
  | call code | bytes data =>
    cases h
    rfl
  | op opcode operands =>
    simp only [encode, Bind.bind, Except.bind, pure, Except.pure] at h
    split at h
    next => cases h
    next e0 he0 =>
      split at h
      next => cases h
      next hextra =>
        cases h
        by_cases hlayout : opcode.layout = .target
        · rw [hlayout] at he0 hextra
          have hlabel : e0.label = (op opcode operands).target? := encodeTarget_label hlayout he0 hextra
          exact hlabel
        · rw [target?_of_ne hlayout]
          by_contra hlabel
          exact hlayout ((encodeOperands_size he0).2 hlabel)

end Instr

theorem Statement.encoding_label {e : Instr.Encoding} (h : s.encoding mask = .ok e) : e.label = s.target? := by
  unfold Statement.encoding at h
  unfold Statement.target?
  cases hs : s.instr with
  | none =>
    rw [hs] at h
    cases h
    rfl
  | some instr =>
    rw [hs] at h
    exact Instr.encode_label h

theorem exists_of_mem_labelsFrom {offset : Nat} {label : String} {target : Nat}
    (h : (label, target) ∈ labelsFrom offset ss)
    : ∃ before d after, ss = before ++ d :: after ∧ d.label = some label ∧ target = offset + codeSize before := by
  induction ss generalizing offset with
  | nil => cases h
  | cons s ss ih =>
    have hlater (hmem : (label, target) ∈ labelsFrom (offset + s.size) ss) :
        ∃ before d after, s :: ss = before ++ d :: after ∧ d.label = some label
          ∧ target = offset + codeSize before := by
      obtain ⟨before, d, after, rfl, hd, htarget⟩ := ih hmem
      refine ⟨s :: before, d, after, rfl, hd, ?_⟩
      rw [htarget, codeSize_eq_sum, codeSize_eq_sum, List.map_cons, List.sum_cons, Nat.add_assoc]
    rw [labelsFrom] at h
    cases hs : s.label with
    | none =>
      rw [hs] at h
      exact hlater h
    | some label' =>
      rw [hs] at h
      rcases List.mem_cons.mp h with heq | hmem
      · cases heq
        exact ⟨[], s, ss, rfl, hs, rfl⟩
      · exact hlater hmem

theorem line_of_statement {word : List Char} {ws : List (List Char)} (h : statement n word ws = .ok s)
    : s.line = n := by
  unfold statement at h
  split at h
  next =>
    split at h
    next => cases h
    next =>
      obtain ⟨instr, -, ⟨⟩⟩ := Except.bind_eq_ok_iff.mp h
      rfl
  next =>
    obtain ⟨instr, -, ⟨⟩⟩ := Except.bind_eq_ok_iff.mp h
    rfl

theorem lines_statementsFrom {texts : List String} (h : statementsFrom n texts = .ok ss)
    : (∀ s ∈ ss, n ≤ s.line) ∧ ss.Pairwise (·.line < ·.line) := by
  induction texts generalizing n ss with
  | nil =>
    cases h
    simp
  | cons text texts ih =>
    rw [statementsFrom] at h
    cases hwords : words text.toList with
    | error word => simp [hwords] at h
    | ok ws =>
      rw [hwords] at h
      cases ws with
      | nil =>
        obtain ⟨hle, horder⟩ := ih h
        exact ⟨fun s hs => Nat.le_of_succ_le (hle s hs), horder⟩
      | cons word ws =>
        simp only [bind, Except.bind, pure, Except.pure] at h
        cases hs : statement n word ws with
        | error e => simp [hs] at h
        | ok s =>
          cases hss : statementsFrom (n + 1) texts with
          | error e => simp [hs, hss] at h
          | ok ss' =>
            simp only [hs, hss, Except.ok.injEq] at h
            subst h
            obtain ⟨hle, horder⟩ := ih hss
            have hline := line_of_statement hs
            refine ⟨?_, List.pairwise_cons.mpr ⟨fun s' hs' => hline ▸ hle s' hs', horder⟩⟩
            intro s' hs'
            rcases List.mem_cons.mp hs' with rfl | hs'
            · exact Nat.le_of_eq hline.symm
            · exact Nat.le_of_succ_le (hle s' hs')

/--
The bytes of a statement in the image of `ss`: those that it is encoded to, as many as were counted. A jump has the address
of its label for an operand, that is the end of the instructions on the lines before that of the label.
-/
inductive Statement.Lies (mask : UInt8) (ss : List Statement) (s : Statement) : List UInt8 → Prop where
  | plain {e : Instr.Encoding} (he : s.encoding mask = .ok e) (hsize : e.bytes.length = s.size)
    (htarget : s.target? = none) : Lies mask ss s e.bytes
  | jump {e : Instr.Encoding} {label : String} {operand : List UInt8} {before after : List Statement} {d : Statement}
    (he : s.encoding mask = .ok e) (hsize : e.bytes.length = s.size) (htarget : s.target? = some label)
    (hss : ss = before ++ d :: after) (hd : d.label = some label) (hcount : s.size = 1 + 3)
    (hoperand : operand.length = 3) (hvalue : valueOf operand = Header.length + codeSize before) :
    Lies mask ss s (e.bytes.take 1 ++ operand)

theorem Statement.lies_of_bytes? {bytes : List UInt8}
    (hnodup : ((labelsFrom 0 ss).map (·.1)).Nodup) (hsize : Header.length + codeSize ss ≤ 0xFFFFFF)
    (h : s.bytes? mask (labelOffset? ss) = some bytes)
    : s.Lies mask ss bytes := by
  unfold Statement.bytes? at h
  cases he : s.encoding mask with
  | error => simp [he] at h
  | ok e =>
    simp only [he] at h
    obtain ⟨hlength, hwell⟩ := Statement.encoding_size he
    have hlabel := Statement.encoding_label he
    unfold Instr.Encoding.resolve at h
    cases htarget : s.target? with
    | none =>
      rw [hlabel, htarget] at h
      cases h
      exact .plain he hlength htarget
    | some label =>
      rw [hlabel, htarget] at h
      obtain ⟨offset, hoffset, rfl⟩ := Option.map_eq_some_iff.mp h
      have hfits := labelOffset?_lt hnodup hsize _ _ hoffset
      obtain ⟨before, d, after, hss, hd, rfl⟩ :=
        exists_of_mem_labelsFrom ((lookup_eq_some_iff_mem hnodup).mp hoffset)
      have hfour : s.size = 1 + 3 := by
        rw [← hlength]
        exact hwell (by simp [hlabel, htarget])
      refine .jump he hlength htarget hss hd hfour (length_littleEndian _ _) ?_
      rw [valueOf_littleEndian hfits]
      omega

/--
An image holds the header and behind it the instructions of the text in the order of its lines. Each has the size that
was counted in the first pass, and the bytes that it is encoded to. The three operand bytes of a jump to a label are the
address of what stands on the line of the label or, if that is empty, behind it. Every label that is used is there, and
none is there twice.
-/
theorem assemble_layout {text : String} {options : Options} {image : Array UInt8}
    (h : assemble text options = .ok image)
    : ∃ ss bs, statements text = .ok ss ∧ ss.Pairwise (·.line < ·.line)
        ∧ image.toList = options.header.toBytes ++ bs.flatten ∧ options.header.toBytes.length = 16
        ∧ List.Forall₂ (Statement.Lies options.mask ss) ss bs
        ∧ (ss.filterMap (·.label)).Nodup := by
  obtain ⟨-, ss, hss, himage⟩ := assemble_eq_ok_iff.mp h
  obtain ⟨hnodup, hsize, bs, hbs, rfl⟩ := assembleStatements_eq_ok_iff.mp himage
  refine ⟨ss, bs, hss, (lines_statementsFrom hss).2, rfl, rfl, ?_, ?_⟩
  · exact hbs.imp fun s b hb => Statement.lies_of_bytes? hnodup hsize hb
  · rwa [map_fst_labelsFrom] at hnodup

def hopText : String :=
  "      JMP over\nback: PUSH_STR \"a\\0b\"\n      INIT 0x2000 1 2\nover:\n      JZ back\n"

def hopImage : List UInt8 :=
  Header.toBytes { mask := 1 } ++ ([Opcode.jmp.code, 30, 0, 0] ++ [Opcode.pushStr.code, 0x60, 1]
    ++ [Opcode.init.code, 0, 0x20, 2, 0, 1, 2] ++ [Opcode.jz.code, 20, 0, 0])

theorem assemble_layout_hopText :
    assemble hopText { mask := 1 } = .ok hopImage.toArray
      ∧ ∃ ss bs, statements hopText = .ok ss ∧ ss.Pairwise (·.line < ·.line)
        ∧ hopImage = Header.toBytes { mask := 1 } ++ bs.flatten ∧ (Header.toBytes { mask := 1 }).length = 16
        ∧ List.Forall₂ (Statement.Lies 1 ss) ss bs
        ∧ (ss.filterMap (·.label)).Nodup := by
  have himage : (assemble hopText { mask := 1 }).toOption = some hopImage.toArray := by decide +kernel
  have h := Except.eq_ok_of_toOption himage
  exact ⟨h, assemble_layout h⟩

end Handheld.Asm
