import Handheld.Proofs.Machine.Nesting

/-!
Frames stay in the data space. A return believes the header it finds; other instructions fault when the frame would
cross into the heap.
-/
namespace Handheld.Machine

variable {len size : Nat} {start : UInt16} {m' : Machine} {r : EStateM.Result Fault Machine Progress}

variable {m : Machine} {op : Opcode}

def claimEnd (m : Machine) : Opcode → Nat
  | .call => m.base2.toNat + Memory.frameHeader
  | .func => m.base.toNat + m.frameSize
  | .space => Memory.dataStart.toNat + m.frameSize
  | _ => 0

def operandEnd (m : Machine) (op : Opcode) : Nat :=
  m.pc + 1 + op.layout.fixedLength.getD 0

structure SameFrame (m m' : Machine) : Prop where
  memory : m'.memory = m.memory
  base : m'.base = m.base
  base2 : m'.base2 = m.base2

inductive Claims (m m' : Machine) : Opcode → Prop where
  | call (hbase : m'.base = m.base2) (hbase2 : m'.base2 = m.base2)
    (hmemory : m'.memory
      = (m.memory.writeLE m.base2 3 (UInt32.ofNat (m.pc + 4))).writeLE (m.base2 + 3) 2 m.base.toUInt32) :
    Claims m m' .call
  | func (hbase : m'.base = m.base) (hbase2 : m'.base2 = m.base + UInt16.ofNat m.frameSize)
    (hmemory : m'.memory = m.memory ∨ m.frameArgs ≤ m.stack.size
      ∧ m'.memory = writeParams m.memory (m.base + UInt16.ofNat Memory.frameHeader) (m.arguments m.frameArgs)) :
    Claims m m' .func
  | space (hbase : m'.base = Memory.dataStart + UInt16.ofNat m.frameSize) (hbase2 : m'.base2 = m'.base)
    (hmemory : m'.memory = m.memory) : Claims m m' .space

inductive MovesFrame (m : Machine) (op : Opcode) : EStateM.Result Fault Machine Progress → Prop where
  | short {e : Fault} {m' : Machine} (hshort : m.image.size < m.operandEnd op) (hsame : SameFrame m m') :
    MovesFrame m op (.error e m')
  | overflow {m' : Machine} (hover : Memory.heapStart.toNat < m.claimEnd op) (hsame : SameFrame m m') :
    MovesFrame m op (.error .frameOverflow m')
  | claim {r : EStateM.Result Fault Machine Progress} (hroom : m.claimEnd op ≤ Memory.heapStart.toNat)
    (hclaims : Claims m (after r) op) : MovesFrame m op r

theorem fetch_of_le (h : m.pc + len ≤ m.image.size) :
    fetch len m = .ok (codeLE m.image m.pc len) { m with pc := m.pc + len } :=
  if_pos h

theorem fetch_of_lt (h : m.image.size < m.pc + len) : fetch len m = .error (.imageOverrun m.pc) m :=
  if_neg (Nat.not_le.mpr h)

theorem frameEnd_of_lt (h : Memory.heapStart.toNat < start.toNat + size) :
    frameEnd start size m = .error .frameOverflow m := by
  unfold frameEnd
  rw [if_pos h]
  rfl

theorem frameEnd_of_le (h : start.toNat + size ≤ Memory.heapStart.toNat) :
    frameEnd start size m = .ok (start + UInt16.ofNat size) m :=
  frameEnd_eq_ok_iff.mpr ⟨h, rfl, rfl⟩

theorem enter_of_lt (target : Nat) (h : Memory.heapStart.toNat < m.base2.toNat + Memory.frameHeader) :
    enter target m = .error .frameOverflow m := by
  unfold enter
  rw [bind_eq_ok (get_eq m), bind_eq_error (frameEnd_of_lt h)]

theorem enter_of_le (target : Nat) (h : m.base2.toNat + Memory.frameHeader ≤ Memory.heapStart.toNat) :
    enter target m
      = .ok () { m with
          memory := (m.memory.writeLE m.base2 3 (UInt32.ofNat m.pc)).writeLE (m.base2 + 3) 2 m.base.toUInt32
          base := m.base2
          pc := target } := by
  unfold enter
  rw [bind_eq_ok (get_eq m), bind_eq_ok (frameEnd_of_le h)]
  rfl

theorem openFrame_of_lt (argc : Nat) (h : Memory.heapStart.toNat < m.base.toNat + size) :
    openFrame size argc m = .error .frameOverflow m := by
  unfold openFrame
  rw [bind_eq_ok (get_eq m), bind_eq_error (frameEnd_of_lt h)]

theorem after_openFrame (argc : Nat) (h : m.base.toNat + size ≤ Memory.heapStart.toNat) :
    (after (openFrame size argc m)).base = m.base
      ∧ (after (openFrame size argc m)).base2 = m.base + UInt16.ofNat size
      ∧ ((after (openFrame size argc m)).memory = m.memory
        ∨ argc ≤ m.stack.size ∧ (after (openFrame size argc m)).memory
            = writeParams m.memory (m.base + UInt16.ofNat Memory.frameHeader) (m.arguments argc)) := by
  have hmove : (modify fun m' => { m' with base2 := m.base + UInt16.ofNat size } : Exec Unit) m
      = .ok () { m with base2 := m.base + UInt16.ofNat size } := rfl
  unfold openFrame
  rw [bind_eq_ok (get_eq m), bind_eq_ok (frameEnd_of_le h), bind_eq_ok hmove]
  cases hwindow : onStack (Stack.window 0 argc) { m with base2 := m.base + UInt16.ofNat size } with
  | error e m' =>
    have hkeeps : Keeps (fun m => (m.base, m.base2, m.memory)) (onStack (Stack.window 0 argc)) :=
      keeps_onStack (fun _ _ => rfl) _
    have hframe := hkeeps { m with base2 := m.base + UInt16.ofNat size }
    rw [bind_eq_error hwindow]
    rw [hwindow] at hframe
    simp only [Prod.mk.injEq] at hframe
    exact ⟨hframe.1, hframe.2.1, .inl hframe.2.2⟩
  | ok args m' =>
    obtain ⟨stack, hargs, rfl⟩ := onStack_eq_ok_iff.mp hwindow
    obtain ⟨hargc, rfl, rfl⟩ := window_eq_ok_iff.mp hargs
    rw [bind_eq_ok hwindow]
    -- what is left is to write the arguments and to drop them from the stack
    have hkeeps : Keeps (fun m => (m.base, m.base2, m.memory)) (onStack (Stack.drop argc)) :=
      keeps_onStack (fun _ _ => rfl) _
    have hdrop := hkeeps
      { m with
        base2 := m.base + UInt16.ofNat size
        memory := writeParams m.memory (m.base + UInt16.ofNat Memory.frameHeader) (m.arguments argc) }
    simp only [Prod.mk.injEq] at hdrop
    exact ⟨hdrop.1, hdrop.2.1, .inr ⟨hargc, hdrop.2.2⟩⟩

theorem after_bind_pure {α β : Type} (act : Exec α) (b : β) (m : Machine) :
    after ((act >>= fun _ => pure b) m) = after (act m) := by
  simp only [Bind.bind, EStateM.bind]
  cases act m with
  | ok a m' => rfl
  | error e m' => rfl

section Moves

variable {α : Type} {m1 m2 : Machine} {act : Exec α} {a : α} {f : α → Exec Progress}

theorem movesFrame_fetch {f : UInt32 → Exec Progress} (m1 : Machine) (hsame : SameFrame m m1)
    (himage : m1.image = m.image) (hpc : m1.pc + len ≤ m.operandEnd op)
    (h : MovesFrame m op (f (codeLE m1.image m1.pc len) { m1 with pc := m1.pc + len }))
    : MovesFrame m op ((fetch len >>= f) m1) := by
  rcases Nat.lt_or_ge m1.image.size (m1.pc + len) with hshort | hroom
  · rw [bind_eq_error (fetch_of_lt hshort)]
    exact .short (himage ▸ Nat.lt_of_lt_of_le hshort hpc) hsame
  · rwa [bind_eq_ok (fetch_of_le hroom)]

theorem movesFrame_overflow (hover : Memory.heapStart.toNat < m.claimEnd op) (hsame : SameFrame m m1)
    (hact : act m1 = .error .frameOverflow m1)
    : MovesFrame m op ((act >>= f) m1) :=
  bind_eq_error hact ▸ .overflow hover hsame

theorem movesFrame_claim (hroom : m.claimEnd op ≤ Memory.heapStart.toNat) (hact : act m1 = .ok a m2)
    (hclaims : Claims m (after (f a m2)) op)
    : MovesFrame m op ((act >>= f) m1) :=
  bind_eq_ok hact ▸ .claim hroom hclaims

end Moves

theorem movesFrame_call (h : m.About .call) : MovesFrame m .call (step m) := by
  rw [step_eq_execute h.toLive h.code]
  refine movesFrame_fetch m.begun ⟨rfl, rfl, rfl⟩ rfl (Nat.le_refl _) ?_
  rcases Nat.lt_or_ge Memory.heapStart.toNat (m.base2.toNat + Memory.frameHeader) with hover | hroom
  · exact movesFrame_overflow hover ⟨rfl, rfl, rfl⟩ (enter_of_lt _ hover)
  · exact movesFrame_claim hroom (enter_of_le _ hroom) (.call rfl rfl rfl)

theorem movesFrame_func (h : m.About .func) : MovesFrame m .func (step m) := by
  rw [step_eq_execute h.toLive h.code]
  refine movesFrame_fetch m.begun ⟨rfl, rfl, rfl⟩ rfl (Nat.le_succ _) ?_
  refine movesFrame_fetch { m.begun with pc := m.pc + 3 } ⟨rfl, rfl, rfl⟩ rfl (Nat.le_refl _) ?_
  rcases Nat.lt_or_ge Memory.heapStart.toNat (m.base.toNat + m.frameSize) with hover | hroom
  · exact movesFrame_overflow hover ⟨rfl, rfl, rfl⟩ (openFrame_of_lt _ hover)
  · have hclaim : m.claimEnd .func ≤ Memory.heapStart.toNat := hroom
    have hframe := after_openFrame (m := { m.begun with pc := m.pc + 4 }) m.frameArgs hroom
    rw [← after_bind_pure _ Progress.running] at hframe
    exact .claim hclaim (.func hframe.1 hframe.2.1 hframe.2.2)

theorem movesFrame_space (h : m.About .space) : MovesFrame m .space (step m) := by
  rw [step_eq_execute h.toLive h.code]
  refine movesFrame_fetch m.begun ⟨rfl, rfl, rfl⟩ rfl (Nat.le_refl _) ?_
  rcases Nat.lt_or_ge Memory.heapStart.toNat (Memory.dataStart.toNat + m.frameSize) with hover | hroom
  · exact movesFrame_overflow hover ⟨rfl, rfl, rfl⟩ (frameEnd_of_lt hover)
  · exact movesFrame_claim hroom (frameEnd_of_le hroom) (.space rfl rfl rfl)

def InData (a : UInt16) : Prop :=
  Memory.dataStart.toNat ≤ a.toNat ∧ a.toNat ≤ Memory.heapStart.toNat

instance (a : UInt16) : Decidable (InData a) :=
  inferInstanceAs (Decidable (_ ∧ _))

structure FrameInData (m : Machine) : Prop where
  base : InData m.base
  base2 : InData m.base2

def savedBase (m : Machine) : UInt16 :=
  (m.memory.readLE (m.base + 3) 2).toUInt16

def ReturnsToData (m : Machine) : Prop :=
  m.About .ret → InData m.savedBase

def WritesInData (m : Machine) : Prop :=
  ∀ a : UInt16, a.toNat < Memory.dataStart.toNat ∨ Memory.heapStart.toNat ≤ a.toNat →
    (after (step m)).memory.byte a = m.memory.byte a

theorem FrameInData.congr (h : m.FrameInData) (hbase : m'.base = m.base) (hbase2 : m'.base2 = m.base2) :
    m'.FrameInData := by
  constructor
  · rw [hbase]
    exact h.base
  · rw [hbase2]
    exact h.base2

theorem inData_add (h : InData start) (hroom : start.toNat + size ≤ Memory.heapStart.toNat)
    : InData (start + UInt16.ofNat size) := by
  have hheap := Memory.toNat_heapStart
  have hsum : (start + UInt16.ofNat size).toNat = start.toNat + size := Memory.toNat_add_ofNat (by omega)
  have hlow := h.1
  rw [InData, hsum]
  omega

theorem FrameInData.of_claims (h : m.FrameInData) (hroom : m.claimEnd op ≤ Memory.heapStart.toNat)
    (hclaims : Claims m m' op) : m'.FrameInData := by
  cases hclaims with
  | call hbase hbase2 =>
    constructor
    · rw [hbase]
      exact h.base2
    · rw [hbase2]
      exact h.base2
  | func hbase hbase2 =>
    constructor
    · rw [hbase]
      exact h.base
    · rw [hbase2]
      exact inData_add h.base hroom
  | space hbase hbase2 =>
    have hstart : InData Memory.dataStart := by decide
    have hinside : InData m'.base := by
      rw [hbase]
      exact inData_add hstart hroom
    exact ⟨hinside, hbase2 ▸ hinside⟩

theorem FrameInData.of_movesFrame (h : m.FrameInData) (hmoves : MovesFrame m op r) : (after r).FrameInData := by
  cases hmoves with
  | short _ hsame | overflow _ hsame => exact h.congr hsame.base hsame.base2
  | claim hroom hclaims => exact h.of_claims hroom hclaims

theorem FrameInData.step (h : m.FrameInData) (hret : m.ReturnsToData) : (after (step m)).FrameInData := by
  have hsteps := steps_step m
  generalize hresult : Machine.step m = r at hsteps ⊢
  cases hsteps with
  | unloaded | halted | overrun | invalid => exact ⟨h.base, h.base2⟩
  | @op op hlive hcode =>
    have habout : m.About op := ⟨hlive, hcode⟩
    cases hmoves : op.moves with
    | false =>
      have hkeeps := keeps_frame_execute hmoves m.begun
      exact h.congr (congrArg Prod.fst hkeeps) (congrArg Prod.snd hkeeps)
    | true =>
      cases op with
      | call => exact hresult ▸ h.of_movesFrame (movesFrame_call habout)
      | func => exact hresult ▸ h.of_movesFrame (movesFrame_func habout)
      | space => exact hresult ▸ h.of_movesFrame (movesFrame_space habout)
      | ret => exact ⟨hret habout, h.base⟩
      | _ => cases hmoves
  | call =>
    have hkeeps := keeps_frame_libraryCall m.opcodeByte m.begun
    exact h.congr (congrArg Prod.fst hkeeps) (congrArg Prod.snd hkeeps)

theorem Reached.frameInData (h : Reached ReturnsToData m) : m.FrameInData := by
  induction h with
  | load hload =>
    obtain ⟨header, -, rfl⟩ := load_eq_ok_iff.mp hload
    have hstart : InData Memory.dataStart := by decide
    exact ⟨hstart, hstart⟩
  | step _ hguard ih => exact ih.step hguard
  | outside _ _ _ _ _ _ _ _ ih => exact ⟨ih.base, ih.base2⟩

theorem MovesFrame.memory (h : MovesFrame m op r) :
    (after r).memory = m.memory ∨ m.claimEnd op ≤ Memory.heapStart.toNat ∧ Claims m (after r) op := by
  cases h with
  | short _ hsame | overflow _ hsame => exact .inl hsame.memory
  | claim hroom hclaims => exact .inr ⟨hroom, hclaims⟩

theorem byte_writeHeader {memory : Memory} {b a : UInt16} {pc base : UInt32}
    (hroom : b.toNat + Memory.frameHeader ≤ Memory.heapStart.toNat)
    (ha : a.toNat < b.toNat ∨ b.toNat + Memory.frameHeader ≤ a.toNat)
    : ((memory.writeLE b 3 pc).writeLE (b + 3) 2 base).byte a = memory.byte a := by
  have hheap := Memory.toNat_heapStart
  have hheader : Memory.frameHeader = 5 := rfl
  have hthree := toNat_add_three hroom
  rw [Memory.byte_writeLE_of_not_mem (by omega) (by omega), Memory.byte_writeLE_of_not_mem (by omega) (by omega)]

theorem writesInData_of_call (h : m.FrameInData) (hcall : m.About .call) : m.WritesInData := by
  intro a ha
  rcases (movesFrame_call hcall).memory with hmemory | ⟨hroom, hclaims⟩
  · rw [hmemory]
  · cases hclaims with
    | call _ _ hmemory =>
      have hlow := h.base2.1
      have hroom : m.base2.toNat + Memory.frameHeader ≤ Memory.heapStart.toNat := hroom
      rw [hmemory]
      exact byte_writeHeader hroom (by omega)

def slotsEnd (m : Machine) : Nat :=
  m.base.toNat + Memory.frameHeader + Memory.paramSlot * m.frameArgs

theorem writesInData_of_func (h : m.FrameInData) (hfunc : m.About .func)
    (hslots : m.slotsEnd ≤ Memory.heapStart.toNat) : m.WritesInData := by
  intro a ha
  rcases (movesFrame_func hfunc).memory with hmemory | ⟨-, hclaims⟩
  · rw [hmemory]
  · cases hclaims with
    | func _ _ hmemory =>
      rcases hmemory with hmemory | ⟨hargc, hmemory⟩
      · rw [hmemory]
      · have hheap : Memory.heapStart.toNat = 0xE000 := rfl
        have hslot : Memory.paramSlot = 4 := rfl
        have hlow := h.base.1
        have hargs := length_arguments hargc
        rw [slotsEnd, hslot] at hslots
        have hfirst : (m.base + UInt16.ofNat Memory.frameHeader).toNat = m.base.toNat + Memory.frameHeader :=
          Memory.toNat_add_ofNat (by omega)
        rw [hmemory]
        exact byte_writeParams_of_not_mem (by omega) (by omega)

theorem MovesFrame.overflows (h : MovesFrame m op (step m)) (hoperand : m.operandEnd op ≤ m.image.size)
    (hover : Memory.heapStart.toNat < m.claimEnd op)
    : ∃ m', step m = .error .frameOverflow m' ∧ SameFrame m m' := by
  generalize Machine.step m = r at h ⊢
  cases h with
  | short hshort => omega
  | @overflow m' _ hsame => exact ⟨m', rfl, hsame⟩
  | claim hroom => omega

/--
The frame lies in the data space as long as returns find frames there, and then calls and frame instructions write
nowhere else, if the arguments end below the heap. In whatever state, an instruction that would claim memory of the heap
faults, and leaves memory and frame as they are.
-/
theorem frames_in_data (m : Machine) :
    (Reached ReturnsToData m →
        m.FrameInData ∧ (m.About .call → m.WritesInData)
          ∧ (m.About .func → m.slotsEnd ≤ Memory.heapStart.toNat → m.WritesInData))
      ∧ ∀ op ∈ [Opcode.call, .func, .space], m.About op → m.operandEnd op ≤ m.image.size →
          Memory.heapStart.toNat < m.claimEnd op → ∃ m', step m = .error .frameOverflow m' ∧ SameFrame m m' := by
  constructor
  · intro hreached
    have hframe := hreached.frameInData
    exact ⟨hframe, writesInData_of_call hframe, writesInData_of_func hframe⟩
  · intro op hop habout hoperand hover
    simp only [List.mem_cons, List.not_mem_nil, or_false] at hop
    rcases hop with rfl | rfl | rfl
    · exact (movesFrame_call habout).overflows hoperand hover
    · exact (movesFrame_func habout).overflows hoperand hover
    · exact (movesFrame_space habout).overflows hoperand hover

def calling : Array UInt8 :=
  (({} : Header).toBytes ++
    [0x3B, 4, 0, 0x01, 7, 0x37, 26, 0, 0, 0x3A, 0x38, 9, 0, 1, 0x39]).toArray

def crowded : Array UInt8 :=
  (({} : Header).toBytes ++ [0x3B, 0, 0xC0, 0x37, 16, 0, 0]).toArray

theorem returnsToData_calling : ∀ n < 5, (ran calling n).ReturnsToData := by
  obtain ⟨hgoesOn, himage, hcall, hfunc, hsize, hbase, hothers⟩ :
      (∀ n < 4, goesOn (step (ran calling n)) = true) ∧ (ran calling 2).image.size ≤ 0xFFFFFF
        ∧ (ran calling 2).About .call ∧ (ran calling 3).About .func
        ∧ Memory.frameHeader + Memory.paramSlot * (ran calling 3).frameArgs ≤ (ran calling 3).frameSize
        ∧ InData (ran calling 2).base ∧ ∀ n < 4, ¬(ran calling n).About .ret := by
    decide +kernel
  have hstep (n : Nat) (hn : n < 4) : step (ran calling n) = .ok .running (ran calling (n + 1)) :=
    step_eq_of_goesOn (hgoesOn n hn)
  have henter : Between (ran calling 2) [(ran calling 2).base2] (ran calling 3) :=
    .enter hcall (hstep 2 (by decide)) hfunc.code
  have hopen := (henter.func hfunc hsize (hstep 3 (by decide))).isOpen himage
  intro n hn hret
  rcases Nat.lt_or_ge n 4 with hlt | hge
  · exact absurd hret (hothers n hlt)
  · obtain rfl : n = 4 := by omega
    have hhead : (ran calling 2).base2 = (ran calling 4).base := Option.some.inj hopen.head
    cases hopen.linked with
    | last _ _ hcaller =>
      rw [hhead] at hcaller
      rw [savedBase, hcaller]
      exact hbase

theorem frames_in_data_calling :
    (ran calling 5).FrameInData ∧ (ran calling 2).WritesInData ∧ (ran calling 3).WritesInData
      ∧ ∃ m', step (ran crowded 1) = .error .frameOverflow m' ∧ SameFrame (ran crowded 1) m' := by
  have hreached (n : Nat) (hn : n ≤ 5) : Reached ReturnsToData (ran calling n) :=
    reached_ran rfl n fun i hi => returnsToData_calling i (Nat.lt_of_lt_of_le hi hn)
  obtain ⟨hcall, hfunc, hslots⟩ :
      (ran calling 2).About .call ∧ (ran calling 3).About .func
        ∧ (ran calling 3).slotsEnd ≤ Memory.heapStart.toNat := by
    decide +kernel
  obtain ⟨hcrowded, hoperand, hover⟩ :
      (ran crowded 1).About .call ∧ (ran crowded 1).operandEnd .call ≤ (ran crowded 1).image.size
        ∧ Memory.heapStart.toNat < (ran crowded 1).claimEnd .call := by
    decide +kernel
  refine ⟨((frames_in_data _).1 (hreached 5 (by decide))).1, ?_, ?_, ?_⟩
  · exact ((frames_in_data _).1 (hreached 2 (by decide))).2.1 hcall
  · exact ((frames_in_data _).1 (hreached 3 (by decide))).2.2 hfunc hslots
  · exact (frames_in_data _).2 .call (by simp) hcrowded hoperand hover

def returning : Array UInt8 :=
  (({} : Header).toBytes ++ [0x39]).toArray

theorem not_frameInData_returning : ¬(ran returning 1).FrameInData := by
  obtain ⟨hret, hgoesOn⟩ : (ran returning 0).About .ret ∧ goesOn (step (ran returning 0)) = true := by decide +kernel
  obtain ⟨-, hbase, -⟩ := step_ret hret (step_eq_of_goesOn hgoesOn)
  have hblank (a : UInt16) : (Memory.blank.readLE a 2).toUInt16 = 0 := by
    simp [Memory.readLE, Memory.byte_blank]
  have hzero : (ran returning 1).base = 0 := hbase.trans (hblank _)
  intro hframe
  have hinside := hframe.base
  rw [hzero] at hinside
  exact absurd hinside (by decide)

def overfull : Array UInt8 :=
  (({} : Header).toBytes ++ [0x3B, 0, 0xC0, 0x01, 7, 0x38, 0, 0, 1]).toArray

theorem not_writesInData_overfull : (ran overfull 2).About .func ∧ ¬(ran overfull 2).WritesInData := by
  obtain ⟨hgoesOn, hspace, hpush, hfunc, hslot, hargs⟩ :
      (∀ n < 3, goesOn (step (ran overfull n)) = true) ∧ (ran overfull 0).About .space
        ∧ (ran overfull 1).About (.push .byte) ∧ (ran overfull 2).About .func
        ∧ (ran overfull 2).base + UInt16.ofNat Memory.frameHeader = 0xE005
        ∧ (ran overfull 2).arguments (ran overfull 2).frameArgs = [7] := by
    decide +kernel
  have hstep (n : Nat) (hn : n < 3) : step (ran overfull n) = .ok .running (ran overfull (n + 1)) :=
    step_eq_of_goesOn (hgoesOn n hn)
  have hblank : (ran overfull 1).memory = .blank := step_memory hspace rfl (hstep 0 (by decide))
  have hsame : (ran overfull 2).memory = (ran overfull 1).memory := step_memory hpush rfl (hstep 1 (by decide))
  obtain ⟨-, -, -, -, hmemory⟩ := step_func hfunc (hstep 2 (by decide))
  have hfirst (memory : Memory) : (writeParams memory 0xE005 [7]).byte 0xE005 = 7 :=
    Memory.byte_writeLE_first (by decide)
  refine ⟨hfunc, fun hwrites => ?_⟩
  have hbyte : (ran overfull 3).memory.byte 0xE005 = (ran overfull 2).memory.byte 0xE005 := hwrites 0xE005 (by decide)
  rw [hmemory, hslot, hargs, hfirst, hsame, hblank, Memory.byte_blank] at hbyte
  exact absurd hbyte (by decide)

/-- A return believes any header, and the slots of arguments can lie in the heap. -/
theorem frames_out_of_data :
    Reached (fun _ => True) (ran returning 1) ∧ ¬(ran returning 1).FrameInData
      ∧ Reached (fun _ => True) (ran overfull 2) ∧ (ran overfull 2).About .func ∧ ¬(ran overfull 2).WritesInData := by
  refine ⟨reached_ran rfl 1 fun _ _ => trivial, not_frameInData_returning, ?_⟩
  exact ⟨reached_ran rfl 2 fun _ _ => trivial, not_writesInData_overfull⟩

end Handheld.Machine
