import Handheld.Proofs.Asm.Linking

/-!
Why statements do not assemble: a label stands twice or is missing, an instruction has no encoding, or the image is too
large.
-/
namespace Handheld.Asm

variable {code : Array UInt8} {mask : UInt8}

variable {ss : List Statement} {l : Linker} {e : Error}

def labels (ss : List Statement) : List String :=
  ss.filterMap (·.label)

inductive Fails (mask : UInt8) (ss : List Statement) : Error → Prop where
  | duplicate {line : Nat} {label : String} (h : 1 < (labels ss).count label) :
    Fails mask ss ⟨line, .duplicateLabel label⟩
  | tooLarge : Fails mask ss ⟨0, .imageTooLarge⟩
  | encoding {s : Statement} {e : Error} (hs : s ∈ ss) (h : s.encoding mask = .error e) : Fails mask ss e
  | undefined {s : Statement} {e : Instr.Encoding} {label : String} (hs : s ∈ ss) (he : s.encoding mask = .ok e)
    (hlabel : e.label = some label) (h : label ∉ labels ss) : Fails mask ss ⟨s.line, .undefinedLabel label⟩

theorem labels_cons (s : Statement) (ss : List Statement) : labels (s :: ss) = s.label.toList ++ labels ss := by
  unfold labels
  cases hs : s.label with
  | none => simp [hs]
  | some label => simp [hs]

theorem duplicate_of_place {offset : Nat} {l l' : Linker} (h : place offset ss l = .error e l')
    : ∃ label, e.kind = .duplicateLabel label
        ∧ (l.get? label ≠ none ∧ label ∈ labels ss ∨ 1 < (labels ss).count label) := by
  induction ss generalizing offset l with
  | nil => cases h
  | cons s ss ih =>
    rw [labels_cons]
    unfold place at h
    cases hs : s.label with
    | none =>
      simp only [hs] at h
      exact ih h
    | some label =>
      simp only [hs, Bind.bind, EStateM.bind] at h
      cases hdefine : Linker.define label offset s.line l with
      | error e' l1 =>
        simp only [hdefine] at h
        cases h
        unfold Linker.define at hdefine
        cases hget : l.get? label with
        | none => simp [hget] at hdefine
        | some old =>
          simp only [hget] at hdefine
          cases hdefine
          exact ⟨label, rfl, .inl ⟨by simp [hget], by simp⟩⟩
      | ok _ l1 =>
        simp only [hdefine] at h
        obtain ⟨hnone, rfl⟩ := define_eq_ok_iff.mp hdefine
        obtain ⟨label', hkind, hlabel'⟩ := ih h
        refine ⟨label', hkind, ?_⟩
        rcases hlabel' with ⟨hold, hmem⟩ | hcount
        · by_cases heq : label' = label
          · have hpos : 0 < (labels ss).count label := List.count_pos_iff.mpr (heq ▸ hmem)
            refine .inr ?_
            simp only [heq, Option.toList_some, List.singleton_append, List.count_cons_self]
            omega
          · refine .inl ⟨?_, List.mem_append_right _ hmem⟩
            intro hget
            exact hold (get?_cons_eq_none_iff.mpr ⟨heq, hget⟩)
        · refine .inr (Nat.lt_of_lt_of_le hcount ?_)
          rw [List.count_append]
          exact Nat.le_add_left _ _

theorem undefined_of_resolve {fixups : List Fixup} {code' : Array UInt8} (h : l.resolve fixups code = .error e code')
    : ∃ f ∈ fixups, l.get? f.label = none ∧ e = ⟨f.line, .undefinedLabel f.label⟩ := by
  induction fixups generalizing code with
  | nil => cases h
  | cons f fixups ih =>
    cases hget : l.get? f.label with
    | none =>
      simp only [Linker.resolve, hget] at h
      cases h
      exact ⟨f, List.mem_cons_self, hget, rfl⟩
    | some offset =>
      simp only [Linker.resolve, hget] at h
      obtain ⟨f', hf', hnone, he⟩ := ih h
      exact ⟨f', List.mem_cons_of_mem f hf', hnone, he⟩

theorem encoding_of_emitAll (h : emitAll mask ss code l = .error e) : ∃ s ∈ ss, s.encoding mask = .error e := by
  induction ss generalizing code l with
  | nil => cases h
  | cons s ss ih =>
    unfold emitAll at h
    simp only [Bind.bind, Except.bind] at h
    cases hemit : emit mask s code l with
    | ok r =>
      simp only [hemit] at h
      obtain ⟨s', hs', he⟩ := ih h
      exact ⟨s', List.mem_cons_of_mem s hs', he⟩
    | error e' =>
      simp only [hemit] at h
      cases h
      refine ⟨s, List.mem_cons_self, ?_⟩
      unfold emit at hemit
      unfold Statement.encoding
      cases hinstr : s.instr with
      | none => simp [hinstr] at hemit
      | some instr =>
        simp only [hinstr, Bind.bind, Except.bind] at hemit
        cases hencode : instr.encode mask s.line with
        | ok enc => simp [hencode, pure, Except.pure] at hemit
        | error e'' =>
          simp only [hencode] at hemit
          cases hemit
          exact hencode

theorem encoding_of_mem_fixups {es : List (Nat × Instr.Encoding)}
    (hes : Encodes mask ss es) {position : Nat} {f : Fixup} (hf : f ∈ fixupsFrom position es)
    : ∃ s ∈ ss, ∃ e, s.encoding mask = .ok e ∧ e.label = some f.label ∧ f.line = s.line := by
  induction hes generalizing position with
  | nil => cases hf
  | @cons s e ss es he _ ih =>
    have hrest {position : Nat} (hf : f ∈ fixupsFrom position es) :
        ∃ s' ∈ s :: ss, ∃ e, s'.encoding mask = .ok e ∧ e.label = some f.label ∧ f.line = s'.line := by
      obtain ⟨s', hs', h⟩ := ih hf
      exact ⟨s', List.mem_cons_of_mem s hs', h⟩
    obtain ⟨line, e⟩ := e
    unfold fixupsFrom at hf
    cases hlabel : e.label with
    | none =>
      simp only [hlabel] at hf
      exact hrest hf
    | some label =>
      simp only [hlabel, List.mem_cons] at hf
      rcases hf with rfl | hf
      · exact ⟨s, List.mem_cons_self, e, he.1, hlabel, he.2⟩
      · exact hrest hf

theorem not_mem_of_get?_eq_none {label : String} (hl : l.labels = (labelsFrom 0 ss).reverse) (h : l.get? label = none)
    : label ∉ labels ss := by
  intro hmem
  rw [labels, ← map_fst_labelsFrom 0 ss, List.mem_map] at hmem
  obtain ⟨⟨_, offset⟩, hmem, rfl⟩ := hmem
  rw [Linker.get?, hl, List.lookup_eq_none_iff] at h
  have hne := h _ (List.mem_reverse.mpr hmem)
  simp at hne

theorem fails_of_assembleStatements {header : Header} (h : assembleStatements header ss = .error e) :
    Fails header.mask ss e := by
  unfold assembleStatements at h
  cases hplace : place 0 ss { bias := Header.length } with
  | error e' l =>
    simp only [hplace] at h
    cases h
    obtain ⟨label, hkind, ⟨hold, -⟩ | hcount⟩ := duplicate_of_place hplace
    · exact (hold rfl).elim
    · obtain ⟨line, kind⟩ := e
      cases hkind
      exact .duplicate hcount
  | ok _ l =>
    simp only [hplace, Bind.bind, Except.bind] at h
    obtain ⟨-, -, rfl⟩ := place_eq_ok_iff.mp hplace
    split at h
    next =>
      cases h
      exact .tooLarge
    next =>
      split at h
      next e' hemit =>
        cases h
        obtain ⟨s, hs, he⟩ := encoding_of_emitAll hemit
        exact .encoding hs he
      next r hemit =>
        obtain ⟨es, hes, rfl⟩ := emitAll_eq_ok_iff.mp hemit
        split at h
        next e' _ hlink =>
          cases h
          obtain ⟨f, hf, hnone, rfl⟩ := undefined_of_resolve hlink
          obtain ⟨s, hs, enc, henc, hlabel, hline⟩ := encoding_of_mem_fixups hes hf
          rw [hline]
          exact .undefined hs henc hlabel (not_mem_of_get?_eq_none (by simp [Linker.awaitAll]) hnone)
        next => cases h

end Handheld.Asm
