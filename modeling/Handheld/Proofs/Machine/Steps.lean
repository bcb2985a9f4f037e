import Handheld.Proofs.Machine.Frame
import Handheld.Proofs.Machine.Run

/-!
The ways in which a step can go. A call that does not wait takes its arguments, does what it does, and leaves its
result.
-/
namespace Handheld.Machine

variable {α β : Type} {code : UInt8} {c : Call}

variable {m : Machine}

def opcodeByte (m : Machine) : UInt8 :=
  m.image.getD m.pc 0

def begun (m : Machine) : Machine :=
  { m with lastPc := m.pc, pc := m.pc + 1 }

structure Live (m : Machine) : Prop extends m.Ready where
  inside : m.pc < m.image.size

instance (m : Machine) : Decidable m.Live :=
  decidable_of_iff (m.loaded = true ∧ m.halted = false ∧ m.pc < m.image.size)
    ⟨fun ⟨hloaded, hhalted, hinside⟩ => ⟨⟨hloaded, hhalted⟩, hinside⟩, fun h => ⟨h.loaded, h.halted, h.inside⟩⟩

inductive Steps (m : Machine) : EStateM.Result Fault Machine Progress → Prop where
  | unloaded (h : m.loaded = false) : Steps m (.error .notLoaded m)
  | halted (h : m.loaded = true) (hhalted : m.halted = true) : Steps m (.ok .halted m)
  | overrun (h : m.Ready) (houtside : m.image.size ≤ m.pc) :
    Steps m (.error (.imageOverrun m.pc) { m with lastPc := m.pc })
  | invalid (h : m.Live) (hnone : Opcode.ofCode? m.opcodeByte = none)
    (hcall : Call.firstCode ≤ m.opcodeByte → Call.lastCode < m.opcodeByte) :
    Steps m (.error (.invalidOpcode m.opcodeByte) m.begun)
  | op {op : Opcode} (h : m.Live) (hop : m.opcodeByte = op.code) : Steps m (execute op m.begun)
  | call (h : m.Live) (hfirst : Call.firstCode ≤ m.opcodeByte) (hlast : m.opcodeByte ≤ Call.lastCode) :
    Steps m (libraryCall m.opcodeByte m.begun)

theorem bind_eq_error {act : Exec α} {f : α → Exec β} {m m' : Machine} {e : Fault}
    (h : act m = .error e m') : (act >>= f) m = .error e m' := by
  simp [Bind.bind, EStateM.bind, h]

theorem bind_eq_ok_iff {act : Exec α} {f : α → Exec β} {m m'' : Machine} {b : β} :
    (act >>= f) m = .ok b m'' ↔ ∃ a m', act m = .ok a m' ∧ f a m' = .ok b m'' := by
  simp only [Bind.bind, EStateM.bind]
  cases hact : act m with
  | ok a m' => simp
  | error e m' => simp

def carryOut (code : UInt8) : Exec Progress :=
  if Call.firstCode ≤ code && code ≤ Call.lastCode then
    libraryCall code
  else
    match Opcode.ofCode? code with
    | some op => execute op
    | none => throw (.invalidOpcode code)

theorem step_eq_of_ready (h : m.Ready) :
    step m = (fetch 1 >>= fun code => carryOut code.toUInt8) { m with lastPc := m.pc } := by
  unfold step
  rw [bind_eq_ok (get_eq m), if_neg (by simp [h.loaded]), if_neg (by simp [h.halted])]
  rfl

theorem toUInt8_codeLE_one (m : Machine) : (codeLE m.image m.pc 1).toUInt8 = m.opcodeByte := by
  simp [codeLE, opcodeByte]

theorem step_eq_of_live (h : m.Live) : step m = carryOut m.opcodeByte m.begun := by
  have hfetch : fetch 1 { m with lastPc := m.pc } = .ok (codeLE m.image m.pc 1) m.begun := if_pos h.inside
  rw [step_eq_of_ready h.toReady, bind_eq_ok hfetch, toUInt8_codeLE_one]

theorem steps_step (m : Machine) : Steps m (step m) := by
  cases hloaded : m.loaded with
  | false =>
    have hstep : step m = .error .notLoaded m := by
      unfold step
      rw [bind_eq_ok (get_eq m)]
      simp only [hloaded, Bool.not_false, ↓reduceIte]
      rfl
    rw [hstep]
    exact .unloaded hloaded
  | true =>
    cases hhalted : m.halted with
    | true =>
      have hstep : step m = .ok .halted m := by
        unfold step
        rw [bind_eq_ok (get_eq m)]
        simp only [hloaded, hhalted, Bool.not_true, Bool.false_eq_true, ↓reduceIte]
        rfl
      rw [hstep]
      exact .halted hloaded hhalted
    | false =>
      have hready : m.Ready := ⟨hloaded, hhalted⟩
      rcases Nat.lt_or_ge m.pc m.image.size with hlt | hge
      · have hlive : m.Live := ⟨hready, hlt⟩
        rw [step_eq_of_live hlive, carryOut]
        split
        next hcall =>
          simp only [Bool.and_eq_true, decide_eq_true_eq] at hcall
          exact .call hlive hcall.1 hcall.2
        next hcall =>
          cases hop : Opcode.ofCode? m.opcodeByte with
          | some op => exact .op hlive (Opcode.code_of_ofCode? hop).symm
          | none =>
            refine .invalid hlive hop fun hfirst => UInt8.not_le.mp fun hlast => hcall ?_
            simp only [hfirst, hlast, decide_true, Bool.and_self]
      · have hfetch : fetch 1 { m with lastPc := m.pc } = .error (.imageOverrun m.pc) { m with lastPc := m.pc } :=
          if_neg (Nat.not_le.mpr (Nat.lt_succ_of_le hge))
        rw [step_eq_of_ready hready, bind_eq_error hfetch]
        exact .overrun hready hge

theorem step_eq_execute {op : Opcode} (h : m.Live) (hop : m.opcodeByte = op.code) : step m = execute op m.begun := by
  have hlow : ¬(Call.firstCode ≤ op.code) := by
    rw [UInt8.le_iff_toNat_le]
    exact Nat.not_le.mpr op.code_lt
  rw [step_eq_of_live h, hop, carryOut, if_neg (by simp [hlow]), op.ofCode?_code]

theorem step_eq_libraryCall (h : m.Live) (hfirst : Call.firstCode ≤ m.opcodeByte) (hlast : m.opcodeByte ≤ Call.lastCode)
    : step m = libraryCall m.opcodeByte m.begun := by
  rw [step_eq_of_live h, carryOut, if_pos (by simp [hfirst, hlast])]

def answer (s : Signature) (value : Int32) : Exec Progress := do
  if s.returns then push value
  return if (← get).halted then .halted else .running

def called (m : Machine) (args : List Int32) : Machine :=
  { m with regs := setRegs m.regs args }

def finish (c : Call) (args : List Int32) : Exec Progress := fun m =>
  answer c.signature ((m.called args).dispatch c (args.drop c.signature.args)).1
    ((m.called args).dispatch c (args.drop c.signature.args)).2

inductive Calls (m : Machine) (code : UInt8) : EStateM.Result Fault Machine Progress → Prop where
  | unknown (h : Call.ofCode? code = none) : Calls m code ((push 0 >>= fun _ => pure .running : Exec Progress) m)
  | blocked {c : Call} (h : Call.ofCode? code = some c) (hblocking : c.signature.blocking = true)
    (hready : m.inputReady c = false) : Calls m code (.ok .blocked { m with pc := m.lastPc })
  | short {c : Call} {e : Fault} {m' : Machine} (h : Call.ofCode? code = some c)
    (hready : c.signature.blocking = true → m.inputReady c = true)
    (hargs : takeArgs c.signature m = .error e m') : Calls m code (.error e m')
  | done {c : Call} {args : List Int32} {m' : Machine} (h : Call.ofCode? code = some c)
    (hready : c.signature.blocking = true → m.inputReady c = true)
    (hargs : takeArgs c.signature m = .ok args m') :
    Calls m code (answer c.signature ((m'.called args).dispatch c (args.drop c.signature.args)).1
      ((m'.called args).dispatch c (args.drop c.signature.args)).2)

theorem libraryCall_of_blocked (h : Call.ofCode? code = some c)
    (hblocking : c.signature.blocking = true) (hready : m.inputReady c = false)
    : libraryCall code m = .ok .blocked { m with pc := m.lastPc } := by
  unfold libraryCall
  simp only [h]
  rw [bind_eq_ok (get_eq m), if_pos (by simp [hblocking, hready])]
  rfl

theorem libraryCall_of_ready (h : Call.ofCode? code = some c)
    (hready : c.signature.blocking = true → m.inputReady c = true)
    : libraryCall code m = (takeArgs c.signature >>= finish c) m := by
  unfold libraryCall
  simp only [h]
  rw [bind_eq_ok (get_eq m), if_neg (by simpa using hready)]
  rfl

theorem calls_libraryCall (m : Machine) (code : UInt8) : Calls m code (libraryCall code m) := by
  cases hcall : Call.ofCode? code with
  | none =>
    unfold libraryCall
    rw [hcall]
    exact .unknown hcall
  | some c =>
    cases hblocked : c.signature.blocking && !m.inputReady c with
    | true =>
      simp only [Bool.and_eq_true, Bool.not_eq_true'] at hblocked
      rw [libraryCall_of_blocked hcall hblocked.1 hblocked.2]
      exact .blocked hcall hblocked.1 hblocked.2
    | false =>
      have hready : c.signature.blocking = true → m.inputReady c = true := by
        intro hblocking
        simpa [hblocking] using hblocked
      rw [libraryCall_of_ready hcall hready]
      cases hargs : takeArgs c.signature m with
      | error e m' =>
        rw [bind_eq_error hargs]
        exact .short hcall hready hargs
      | ok args m' =>
        rw [bind_eq_ok hargs]
        exact .done hcall hready hargs

section Keeps

variable {γ : Type} {part : Machine → γ}

theorem keeps_answer (hstack : ∀ m stack, part { m with stack := stack } = part m) (s : Signature) (value : Int32) :
    Keeps part (answer s value) := by
  unfold answer
  split
  next => exact (keeps_onStack hstack _).bind fun _ => keeps_get.bind fun _ => keeps_pure _
  next => exact keeps_get.bind fun _ => keeps_pure _

theorem keeps_takeArgs (hstack : ∀ m stack, part { m with stack := stack } = part m) (s : Signature) :
    Keeps part (takeArgs s) := by
  unfold takeArgs
  split
  next =>
    apply (keeps_onStack hstack _).bind
    intro count
    split
    next => exact (keeps_throw _).bind fun _ => (keeps_onStack hstack _).bind fun _ =>
      (keeps_onStack hstack _).bind fun _ => keeps_pure _
    next => exact (keeps_onStack hstack _).bind fun _ => (keeps_onStack hstack _).bind fun _ => keeps_pure _
  next => exact (keeps_onStack hstack _).bind fun _ => (keeps_onStack hstack _).bind fun _ => keeps_pure _

theorem keeps_libraryCall (hposition : ∀ m pc, part { m with pc := pc } = part m)
    (hstack : ∀ m stack, part { m with stack := stack } = part m)
    (hregs : ∀ m regs, part { m with regs := regs } = part m)
    (hspared : ∀ c, Call.ofCode? code = some c → SparedByCall part c) : Keeps part (libraryCall code) := by
  intro m
  have hcalls := calls_libraryCall m code
  generalize libraryCall code m = r at hcalls ⊢
  cases hcalls with
  | unknown => exact (keeps_onStack hstack _).bind (fun _ => keeps_pure _) m
  | blocked => exact hposition m m.lastPc
  | @short c _ _ _ _ hargs =>
    have htake := keeps_takeArgs hstack c.signature m
    rw [hargs] at htake
    exact htake
  | @done c args m' hcode _ hargs =>
    have htake := keeps_takeArgs hstack c.signature m
    rw [hargs] at htake
    have hdispatch := (hspared c hcode).dispatch (m'.called args) (args.drop c.signature.args)
    exact (keeps_answer hstack _ _ _).trans (hdispatch.trans ((hregs m' _).trans htake))

theorem part_step (hposition : ∀ m last pc, part { m with lastPc := last, pc := pc } = part m)
    (hop : ∀ op : Opcode, m.Live → m.opcodeByte = op.code → part (after (execute op m.begun)) = part m.begun)
    (hcall : Keeps part (libraryCall m.opcodeByte)) : part (after (step m)) = part m := by
  have hsteps := steps_step m
  generalize step m = r at hsteps ⊢
  cases hsteps with
  | unloaded | halted => rfl
  | overrun => exact hposition m m.pc m.pc
  | invalid => exact hposition m m.pc (m.pc + 1)
  | op hlive hcode => exact (hop _ hlive hcode).trans (hposition m m.pc (m.pc + 1))
  | call => exact (hcall m.begun).trans (hposition m m.pc (m.pc + 1))

end Keeps

theorem loaded_step (m : Machine) : (after (step m)).loaded = m.loaded := by
  apply part_step (fun _ _ _ => rfl)
  · intro op _ _
    have hspared : Spared (fun m => m.loaded) op := {}
    exact hspared.execute m.begun
  · apply keeps_libraryCall (fun _ _ => rfl) (fun _ _ => rfl) (fun _ _ => rfl)
    exact fun c _ => {}

end Handheld.Machine
