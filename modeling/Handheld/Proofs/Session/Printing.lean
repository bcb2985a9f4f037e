import Handheld.Proofs.Console
import Handheld.Proofs.Session.Events

/-!
The texts that a session tells until the halt are the text of all bytes that the program wrote.
-/
namespace Handheld

open Text.Utf8

variable {c : Call}

theorem Call.prints_of_blocking (h : c.signature.blocking = true) : c.prints = false := by
  cases c <;> first | rfl | cases h

theorem Call.range_of_ofCode? {code : UInt8} (h : ofCode? code = some c) : firstCode ≤ code ∧ code ≤ lastCode := by
  unfold ofCode? at h
  split at h
  next => cases h
  next hfirst =>
    refine ⟨UInt8.not_lt.mp hfirst, ?_⟩
    have hlt := (Array.getElem?_eq_some_iff.mp h).1
    have hsize : byCode.size = 66 := rfl
    have hsub := UInt8.toNat_sub_of_le _ _ (UInt8.not_lt.mp hfirst)
    rw [hsize] at hlt
    rw [UInt8.le_iff_toNat_le]
    have hfirstCode : firstCode.toNat = 128 := rfl
    have hlastCode : lastCode.toNat = 223 := rfl
    omega

theorem Call.ofCode?_opcode (op : Opcode) : ofCode? op.code = none :=
  if_pos (UInt8.lt_iff_toNat_lt.mpr op.code_lt)

namespace Machine

variable {m : Machine}

def callOutput (m : Machine) (c : Call) (extra : List Int32) : List UInt8 :=
  match c with
  | .putchar => [(m.regs.get 0).toUInt32.toUInt8]
  | .printf => m.formatted (m.regs.get 0) extra
  | _ => []

theorem callOutput_of_not_prints (h : c.prints = false) (m : Machine) (extra : List Int32) :
    m.callOutput c extra = [] := by
  cases c <;> first | rfl | cases h

theorem pending_dispatch (m : Machine) (c : Call) (extra : List Int32) :
    (m.dispatch c extra).2.console.pending.toList = m.console.pending.toList ++ m.callOutput c extra := by
  cases hc : c.prints with
  | false =>
    have hspared : SparedByCall (fun m => m.console.pending) c :=
      { console := fun _ m console h => h.resolve_left (by simp [hc]) }
    rw [callOutput_of_not_prints hc, List.append_nil]
    exact congrArg Array.toList (hspared.dispatch m extra)
  | true =>
    have hprints : c = .putchar ∨ c = .printf := by
      cases c <;> first | exact .inl rfl | exact .inr rfl | cases hc
    rcases hprints with rfl | rfl
    · have hput := Console.pending_put m.console m.memory m.regs[0].toUInt32.toUInt8
      exact (congrArg Array.toList hput).trans Array.toList_push
    · exact Console.pending_write m.console m.memory (m.formatted m.regs[0] extra)

def output (m : Machine) : List UInt8 :=
  if m.loaded && !m.halted && m.pc < m.image.size then
    match Call.ofCode? m.opcodeByte with
    | some c =>
      match takeArgs c.signature m.begun with
      | .ok args m' => (m'.called args).callOutput c (args.drop c.signature.args)
      | .error _ _ => []
    | none => []
  else []

theorem output_of_live (h : m.Live) (hc : Call.ofCode? m.opcodeByte = some c) :
    m.output = match takeArgs c.signature m.begun with
      | .ok args m' => (m'.called args).callOutput c (args.drop c.signature.args)
      | .error _ _ => [] := by
  unfold output
  rw [if_pos (by simp [h.loaded, h.halted, h.inside]), hc]

theorem output_of_not_call (h : Call.ofCode? m.opcodeByte = none) : m.output = [] := by
  unfold output
  rw [h]
  exact ite_self _

theorem output_of_not_prints (hc : Call.ofCode? m.opcodeByte = some c) (h : c.prints = false) : m.output = [] := by
  unfold output
  rw [hc]
  split
  next =>
    dsimp only
    split
    next => exact callOutput_of_not_prints h _ _
    next => rfl
  next => rfl

theorem pending_libraryCall (h : m.Live) :
    (after (libraryCall m.opcodeByte m.begun)).console.pending.toList = m.console.pending.toList ++ m.output := by
  have hcalls := calls_libraryCall m.begun m.opcodeByte
  generalize libraryCall m.opcodeByte m.begun = r at hcalls ⊢
  have hkeeps (act : Exec Progress) (hact : Keeps (fun m => m.console.pending) act) (m : Machine) :=
    congrArg Array.toList (hact m)
  have htakes (s : Signature) : Keeps (fun m => m.console.pending) (takeArgs s) := keeps_takeArgs (fun _ _ => rfl) s
  cases hcalls with
  | unknown hcode =>
    rw [output_of_not_call hcode, List.append_nil]
    exact hkeeps _ ((keeps_onStack (fun _ _ => rfl) _).bind fun _ => keeps_pure _) m.begun
  | blocked hcode hblocking =>
    rw [output_of_not_prints hcode (Call.prints_of_blocking hblocking), List.append_nil]
    rfl
  | @short c _ _ hcode _ hargs =>
    have htake := htakes c.signature m.begun
    rw [hargs] at htake
    rw [output_of_live h hcode, hargs, List.append_nil]
    exact congrArg Array.toList htake
  | @done c _ _ hcode _ hargs =>
    have htake := htakes c.signature m.begun
    rw [hargs] at htake
    rw [output_of_live h hcode, hargs, hkeeps _ (keeps_answer (fun _ _ => rfl) _ _), pending_dispatch]
    exact congrArg (· ++ _) (congrArg Array.toList htake)

theorem pending_step (m : Machine) :
    (after (step m)).console.pending.toList = m.console.pending.toList ++ m.output := by
  have hsteps := steps_step m
  generalize step m = r at hsteps ⊢
  cases hsteps with
  | unloaded h | halted _ h => simp [output, h, after]
  | overrun _ h => simp [output, Nat.not_lt.mpr h, after]
  | invalid _ _ hcall =>
    have hnone : Call.ofCode? m.opcodeByte = none := by
      cases hcode : Call.ofCode? m.opcodeByte with
      | none => rfl
      | some c =>
        obtain ⟨hfirst, hlast⟩ := Call.range_of_ofCode? hcode
        exact absurd (hcall hfirst) (UInt8.not_lt.mpr hlast)
    rw [output_of_not_call hnone, List.append_nil]
    rfl
  | @op op h hop =>
    have hspared : Spared (fun m => m.console.pending) op := {}
    rw [output_of_not_call (by rw [hop, Call.ofCode?_opcode]), List.append_nil]
    exact congrArg Array.toList (hspared.execute m.begun)
  | call h => exact pending_libraryCall h

end Machine

namespace Session

def printed : List Event → String
  | [] => ""
  | .print text :: events => text ++ printed events
  | _ :: events => printed events

theorem printed_append (a b : List Event) : printed (a ++ b) = printed a ++ printed b := by
  induction a with
  | nil => simp [printed]
  | cons e a ih => cases e <;> simp [printed, ih, String.append_assoc]

def batchOutput : Nat → Machine → List UInt8
  | 0, _ => []
  | n + 1, m =>
    match Machine.step m with
    | .ok .running m' => m.output ++ batchOutput n m'
    | _ => m.output

def output (s : Session) : Action → List UInt8
  | .execute => if s.machine.console.hasOutput || s.isHalted then [] else batchOutput s.quota s.machine
  | _ => []

def outputs (s : Session) : List Action → List UInt8
  | [] => []
  | a :: as => s.output a ++ (s.act a).2.outputs as

section Batch

variable {s s' : Session} {e : Event}

theorem pending_batch (n : Nat) (m : Machine) :
    (batch n m).2.console.pending.toList = m.console.pending.toList ++ batchOutput n m := by
  induction n generalizing m with
  | zero => simp [batch, batchOutput]
  | succ n ih =>
    have hstep := Machine.pending_step m
    cases hresult : Machine.step m with
    | error f m' =>
      rw [hresult] at hstep
      simp only [batch, batchOutput, hresult]
      exact hstep
    | ok progress m' =>
      rw [hresult] at hstep
      cases progress with
      | running =>
        simp only [batch, batchOutput, hresult]
        rw [ih, ← List.append_assoc]
        exact congrArg (· ++ _) hstep
      | blocked | halted =>
        simp only [batch, batchOutput, hresult]
        exact hstep

theorem machine_batched (s : Session) : s.batched.machine = (batch s.quota s.machine).2 := by
  unfold batched
  split
  next heq => rw [heq]
  next heq => rw [heq]

theorem Tells.output_eq_nil (h : Tells s (some e, s')) : s.output .execute = [] := by
  cases h with
  | text h => simp [output, h]
  | rest _ h | fault h | notice h | halted h => simp [output, h]

theorem Tells.output_eq_batchOutput (h : Tells s (none, s')) : s.output .execute = batchOutput s.quota s.machine := by
  cases h with
  | nothing h hruns => simp [output, h, hruns]

theorem isHalted_act (h : s.isHalted = true) (a : Action) : (s.act a).2.isHalted = true := by
  cases a with
  | pushKey | tick => exact h
  | stop =>
    simp only [act, stop]
    split
    next => simp [isHalted, Machine.halt]
    next => exact h
  | execute =>
    have hexecutes := executes_execute s
    simp only [act]
    generalize s.execute = r at hexecutes ⊢
    cases hexecutes with
    | told htells => cases htells <;> exact h
    | ran htells | goesOn htells =>
      cases htells with
      | nothing _ hruns => cases h.symm.trans hruns

theorem outputs_of_isHalted (h : s.isHalted = true) (as : List Action) : s.outputs as = [] := by
  induction as generalizing s with
  | nil => rfl
  | cons a as ih =>
    have houtput : s.output a = [] := by
      cases a with
      | execute => simp [output, h]
      | pushKey | stop | tick => rfl
    rw [outputs, houtput, ih (isHalted_act h a)]
    rfl

end Batch

section Told

variable {all : List UInt8} {text : String} {s s' : Session} {e : Event}

def Told (all : List UInt8) (text : String) (s : Session) : Prop :=
  s.machine.console.Told all text
    ∨ (s.isHalted = true ∧ s.machine.console.pending = #[] ∧ text = decodeLossy all)

theorem Told.tells (h : Told all text s) (htells : Tells s (some e, s')) : Told all (text ++ printed [e]) s' := by
  cases htells with
  | text houtput =>
    rcases h with h | ⟨-, hpending, -⟩
    · left
      simp only [printed, String.append_empty]
      exact h.takeOutput
    · cases (Console.hasOutput_of_pending hpending).symm.trans houtput
  | rest _ hhalted hflush =>
    right
    refine ⟨hhalted, Console.pending_flush _, ?_⟩
    rcases h with h | ⟨-, hpending, -⟩
    · have hall := h.flush
      rw [hflush] at hall
      simpa [printed] using hall
    · simp [Console.flush, hpending] at hflush
  | fault | notice | halted =>
    simp only [printed, String.append_empty]
    exact h

theorem Told.halted (h : Told all text s) (htells : Tells s (some .halted, s')) : text = decodeLossy all := by
  have hflush : s.machine.console.flush.1 = none := by
    cases htells with
    | notice _ hflush | halted _ hflush => exact hflush
  rcases h with h | ⟨-, -, h⟩
  · have hall := h.flush
    rw [hflush] at hall
    simpa using hall
  · exact h

theorem isHalted_of_tells_halted (htells : Tells s (some .halted, s')) : s'.isHalted = true := by
  cases htells with
  | notice hhalted | halted hhalted => exact hhalted

section

variable (h : Told all text s)

include h

theorem Told.batched (htells : Tells s (none, s)) : Told (all ++ s.output .execute) text s.batched := by
  rw [htells.output_eq_batchOutput]
  cases htells with
  | nothing _ hruns =>
    rcases h with h | ⟨hhalted, -, -⟩
    · left
      rw [machine_batched]
      exact h.append (pending_batch _ _)
    · cases hruns.symm.trans hhalted

theorem Told.execute : Told (all ++ s.output .execute) (text ++ printed [s.execute.1]) s.execute.2 := by
  have hexecutes := executes_execute s
  generalize s.execute = r at hexecutes ⊢
  cases hexecutes with
  | told htells =>
    rw [htells.output_eq_nil, List.append_nil]
    exact h.tells htells
  | ran htells hends => exact (h.batched htells).tells hends
  | goesOn htells _ he =>
    have hbatched := h.batched htells
    rcases he with rfl | rfl
    all_goals simpa [printed] using hbatched

theorem Told.execute_halted (hevent : s.execute.1 = .halted) :
    text = decodeLossy (all ++ s.output .execute) ∧ s.execute.2.isHalted = true := by
  have hexecutes := executes_execute s
  generalize s.execute = r at hexecutes hevent ⊢
  cases hexecutes with
  | told htells =>
    subst hevent
    rw [htells.output_eq_nil, List.append_nil]
    exact ⟨h.halted htells, isHalted_of_tells_halted htells⟩
  | ran htells hends =>
    subst hevent
    exact ⟨(h.batched htells).halted hends, isHalted_of_tells_halted hends⟩
  | goesOn _ _ he => rcases he with rfl | rfl <;> cases hevent

theorem Told.act (a : Action) : Told (all ++ s.output a) (text ++ printed (s.act a).1) (s.act a).2 := by
  cases a with
  | execute => exact h.execute
  | pushKey | tick =>
    simp only [output, Session.act, printed, List.append_nil, String.append_empty]
    exact h
  | stop =>
    simp only [output, Session.act, printed, List.append_nil, String.append_empty, Session.stop]
    split
    next => exact h.imp id fun ⟨_, hpending, htext⟩ => ⟨by simp [isHalted, Machine.halt], hpending, htext⟩
    next => exact h

theorem Told.acts (as : List Action) (hhalted : .halted ∈ (s.acts as).1) :
    text ++ printed ((s.acts as).1.takeWhile (· != .halted)) = decodeLossy (all ++ s.outputs as) := by
  induction as generalizing all text s with
  | nil => cases hhalted
  | cons a as ih =>
    by_cases hnow : .halted ∈ (s.act a).1
    · cases a with
      | pushKey | stop | tick => cases hnow
      | execute =>
        have hevent : s.execute.1 = .halted := (List.mem_singleton.mp hnow).symm
        obtain ⟨htext, hend⟩ := h.execute_halted hevent
        have houtputs : s.execute.2.outputs as = [] := outputs_of_isHalted hend as
        simp [Session.acts, Session.act, outputs, houtputs, hevent, printed, htext]
    · have hlater : .halted ∈ ((s.act a).2.acts as).1 := (List.mem_append.mp hhalted).resolve_left hnow
      have hbefore : ∀ e ∈ (s.act a).1, (e != .halted) = true :=
        fun e he => bne_iff_ne.mpr fun heq => hnow (heq ▸ he)
      rw [Session.acts, outputs, List.takeWhile_append_of_pos hbefore, printed_append, ← String.append_assoc,
        ih (h.act a) hlater, List.append_assoc]

end

theorem told_load {image : Array UInt8} (h : (s.load image).1 = .ok ()) : Told [] "" (s.load image).2 := by
  unfold load at h ⊢
  dsimp only at h ⊢
  split at h
  next m hload =>
    have hempty : m.console.pending = #[] := by
      obtain ⟨header, -, rfl⟩ := Machine.load_eq_ok_iff.mp hload
      rfl
    have htold := Console.told_pending m.console
    rw [hempty] at htold
    exact .inl htold
  next => cases h

end Told

/--
No text is lost, doubled or garbled by taking it in parts: what is taken from a console and flushed is the text of all
bytes put on it, and what a session prints until it tells the halt is the text of all bytes that the program wrote.
-/
theorem text_of_all_output :
    (∀ (c : Console) (m : Memory) (uses : List Console.Use),
        String.join (c.drain m uses).1 ++ (c.drain m uses).2.flush.1.getD ""
          = decodeLossy (c.pending.toList ++ Console.putBytes uses))
      ∧ ∀ (s : Session) (image : Array UInt8) (as : List Action), (s.load image).1 = .ok () →
          .halted ∈ ((s.load image).2.acts as).1 →
          printed (((s.load image).2.acts as).1.takeWhile (· != .halted))
            = decodeLossy ((s.load image).2.outputs as) := by
  refine ⟨Console.join_drain_append_flush, fun s image as hload hhalted => ?_⟩
  have htext := (told_load hload).acts as hhalted
  rwa [String.empty_append, List.nil_append] at htext

def accented : Array UInt8 :=
  (({} : Header).toBytes ++ [0x01, 0xC3, 0x80, 0x01, 0xA9, 0x80, 0x3A]).toArray

theorem text_of_all_output_accented :
    let s := (({ quota := 2 } : Session).load accented).2
    printed ((s.acts [.execute, .execute, .execute]).1.takeWhile (· != .halted)) = decodeLossy [0xC3, 0xA9] := by
  have houtputs : (({ quota := 2 } : Session).load accented).2.outputs [.execute, .execute, .execute]
      = [0xC3, 0xA9] := by
    decide +kernel
  have htext := text_of_all_output.2 { quota := 2 } accented [.execute, .execute, .execute] rfl (by decide +kernel)
  rwa [houtputs] at htext

end Session
end Handheld
