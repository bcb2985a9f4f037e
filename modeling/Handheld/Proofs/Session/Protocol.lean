import Handheld.Proofs.Session.Schedule

/-!
The order in which a session tells what happens. A program that has ended leaves the rest of its text, its fault if it
has one, and its halt; a halt that is told first is noted together with the fault.
-/
namespace Handheld

variable {c : Console} {m : Machine} {live texts : List Event} {f : Fault}

def Event.isOpen : Event → Bool
  | running | print _ | awaiting => true
  | fault _ | halted => false

def Event.isPrint : Event → Bool
  | print _ => true
  | _ => false

theorem Event.isOpen_of_isPrint (e : Event) (h : e.isPrint = true) : e.isOpen = true := by
  cases e with
  | print text => rfl
  | running | awaiting | fault | halted => cases h

namespace Console

def turns (c : Console) : Nat :=
  if c.hasOutput then 2 else if c.pending.isEmpty then 0 else 1

theorem turns_le (c : Console) : c.turns ≤ 2 := by
  unfold turns
  split
  next => exact Nat.le_refl 2
  next =>
    split
    next => exact Nat.zero_le 2
    next => exact Nat.le_succ 1

theorem turns_takeOutput (h : c.hasOutput = true) : c.takeOutput.2.turns < c.turns := by
  have hnone := hasOutput_takeOutput c
  simp only [turns, h, hnone, Bool.false_eq_true, ↓reduceIte]
  split
  next => exact Nat.zero_lt_two
  next => exact Nat.one_lt_two

theorem turns_flush {text : String} (h : c.flush.1 = some text) : c.flush.2.turns < c.turns := by
  have hempty := pending_flush c
  have hqueued : c.pending.isEmpty = false := by
    cases hempty : c.pending.isEmpty with
    | false => rfl
    | true => simp [flush, hempty] at h
  have hnone : c.flush.2.turns = 0 := by simp [turns, hasOutput_of_pending hempty, hempty]
  rw [hnone, turns, hqueued]
  split
  next => exact Nat.zero_lt_two
  next => exact Nat.one_pos

end Console

namespace Machine

def fault? (m : Machine) : Option Fault :=
  match step m with
  | .error f _ => some f
  | .ok _ _ => none

def core (m : Machine) : Memory × Stack Int32 × Nat × UInt16 × UInt16 :=
  (m.memory, m.stack, m.pc, m.base, m.base2)

end Machine

namespace Session

def faults (s : Session) : List Action → List Fault
  | [] => []
  | a :: as => (s.tried a).filterMap Machine.fault? ++ (s.act a).2.faults as

theorem acts_append (s : Session) (as more : List Action) :
    s.acts (as ++ more) = ((s.acts as).1 ++ ((s.acts as).2.acts more).1, ((s.acts as).2.acts more).2) := by
  induction as generalizing s with
  | nil => rfl
  | cons a as ih =>
    rw [List.cons_append, acts, acts, ih]
    simp only [List.append_assoc]

section Faults

variable {s s' : Session} {e : Event}

theorem faults_tries (n : Nat) (m : Machine) : (tries n m).filterMap Machine.fault? = (batch n m).1.fault?.toList := by
  induction n generalizing m with
  | zero => rfl
  | succ n ih =>
    cases hstep : Machine.step m with
    | error f m' => simp [tries, batch, Machine.fault?, hstep, Batch.fault?]
    | ok p m' =>
      cases p with
      | running => simp [tries, batch, Machine.fault?, hstep, ih]
      | blocked | halted => simp [tries, batch, Machine.fault?, hstep, Batch.fault?]

theorem batch_ends {n : Nat} (h : m.loaded = true) :
    (batch n m).2.loaded = true ∧ ((batch n m).2.halted = false → (batch n m).1.fault? = none) := by
  induction n generalizing m with
  | zero => exact ⟨h, fun _ => rfl⟩
  | succ n ih =>
    have hloaded := (Machine.loaded_step m).trans h
    cases hstep : Machine.step m with
    | error f m' =>
      rw [hstep] at hloaded
      simp only [batch, hstep]
      exact ⟨hloaded, fun hhalted => by cases hhalted⟩
    | ok p m' =>
      rw [hstep] at hloaded
      cases p with
      | running =>
        simp only [batch, hstep]
        exact ih hloaded
      | blocked | halted =>
        simp only [batch, hstep]
        exact ⟨hloaded, fun _ => rfl⟩

theorem toList_fault_act (h : s.isHalted = false → s.fault = none) (a : Action) :
    (s.act a).2.fault.toList = s.fault.toList ++ (s.tried a).filterMap Machine.fault? := by
  cases a with
  | pushKey | tick => simp [act, tried, pushKey, tick]
  | stop =>
    simp only [act, stop, tried, List.filterMap_nil, List.append_nil]
    split
    next => rfl
    next => rfl
  | execute =>
    have hbatched (htells : Tells s (none, s)) :
        s.batched.fault.toList = s.fault.toList ++ (s.tried .execute).filterMap Machine.fault? := by
      rw [htells.tried_eq_tries, faults_tries]
      cases htells with
      | nothing _ hruns => rw [fault_batched (h hruns), h hruns, Option.toList_none, List.nil_append]
    have hkept {s s' : Session} {told : Option Event} (htells : Tells s (told, s')) : s'.fault = s.fault := by
      cases htells <;> rfl
    have hexecutes := executes_execute s
    simp only [act]
    generalize s.execute = r at hexecutes ⊢
    cases hexecutes with
    | told htells => rw [htells.tried_eq_nil, List.filterMap_nil, List.append_nil, hkept htells]
    | ran htells hends => rw [hkept hends, hbatched htells]
    | goesOn htells => exact hbatched htells

end Faults

section Settled

variable {s : Session}

theorem tells_of_isHalted (h : s.isHalted = true) : ∃ e s', s.execute = (e, s') ∧ Tells s (some e, s') := by
  have hexecutes := executes_execute s
  generalize s.execute = r at hexecutes ⊢
  cases hexecutes with
  | told htells => exact ⟨_, _, rfl, htells⟩
  | ran htells | goesOn htells =>
    cases htells with
    | nothing _ hruns => cases h.symm.trans hruns

theorem core_act (h : s.isHalted = true) (a : Action) : (s.act a).2.machine.core = s.machine.core := by
  cases a with
  | pushKey | tick => rfl
  | stop =>
    simp only [act, stop]
    split
    next => rfl
    next => rfl
  | execute =>
    obtain ⟨e, s', hexecute, htells⟩ := tells_of_isHalted h
    simp only [act, hexecute]
    cases htells <;> rfl

theorem core_acts (h : s.isHalted = true) (as : List Action) : (s.acts as).2.machine.core = s.machine.core := by
  induction as generalizing s with
  | nil => rfl
  | cons a as ih => exact (ih (isHalted_act h a)).trans (core_act h a)

theorem not_open_of_acts (h : s.isHalted = true) (as : List Action) :
    ∀ e ∈ (s.acts as).1, e ≠ .running ∧ e ≠ .awaiting := by
  induction as generalizing s with
  | nil => simp [acts]
  | cons a as ih =>
    intro e he
    rcases List.mem_append.mp he with hnow | hlater
    · cases a with
      | pushKey | tick | stop => cases hnow
      | execute =>
        obtain ⟨e', s', hexecute, htells⟩ := tells_of_isHalted h
        simp only [act, hexecute, List.mem_singleton] at hnow
        subst hnow
        cases htells <;> simp
    · exact ih (isHalted_act h a) e hlater

end Settled

section Phases

structure Ended (s : Session) : Prop where
  loaded : s.machine.loaded = true
  halted : s.machine.halted = true

structure Untold (before : List (Option Fault)) (s : Session) : Prop where
  reported : s.faultReported = false
  notified : s.haltNotified = false
  halts : s.halts = before

structure Spoken (live texts : List Event) : Prop where
  live : ∀ e ∈ live, e.isOpen = true
  texts : ∀ e ∈ texts, e.isPrint = true

/--
How far a session is with telling what happened to its program, by the events told so far. `before` are the halts that
were noted of earlier programs.
-/
inductive Phase (before : List (Option Fault)) (s : Session) : List Event → Prop where
  | runs {events : List Event} (hready : s.machine.Ready) (huntold : s.Untold before) (hfault : s.fault = none)
    (hlive : ∀ e ∈ events, e.isOpen = true) : Phase before s events
  | ended {live texts : List Event} (hended : s.Ended) (huntold : s.Untold before) (hspoken : Spoken live texts) :
    Phase before s (live ++ texts)
  | faulted {live texts : List Event} {f : Fault} (hended : s.Ended) (hempty : s.machine.console.pending = #[])
    (hfault : s.fault = some f) (hreported : s.faultReported = true) (hnotified : s.haltNotified = false)
    (hhalts : s.halts = before) (hspoken : Spoken live texts) : Phase before s (live ++ texts ++ [.fault f])
  | closed {live texts : List Event} {n : Nat} (hended : s.Ended) (hempty : s.machine.console.pending = #[])
    (hfault : s.fault = none ∨ s.faultReported = true) (hnotified : s.haltNotified = true)
    (hhalts : s.halts = before ++ [s.fault]) (hspoken : Spoken live texts) :
    Phase before s (live ++ texts ++ (s.fault.map Event.fault).toList ++ List.replicate (n + 1) .halted)

variable {before : List (Option Fault)} {s s' : Session} {events : List Event} {e : Event}

theorem Ended.isHalted (h : s.Ended) : s.isHalted = true := by
  simp [Session.isHalted, h.halted]

theorem Phase.fault_eq_none (h : Phase before s events) (hruns : s.isHalted = false) : s.fault = none := by
  cases h with
  | runs _ _ hfault => exact hfault
  | ended hended | faulted hended | closed hended => cases hended.isHalted.symm.trans hruns

theorem Spoken.append (h : Spoken live texts) (text : String) :
    Spoken live (texts ++ [.print text]) where
  live := h.live
  texts e he := by
    rcases List.mem_append.mp he with he | he
    · exact h.texts e he
    · rw [List.mem_singleton.mp he]
      rfl

section

variable (h : Phase before s events)

include h

theorem Phase.tells (htells : Tells s (some e, s')) : Phase before s' (events ++ [e]) := by
  have hnothing (hempty : s.machine.console.pending = #[]) : s.machine.console.flush.1 = none := by
    simp [Console.flush, hempty]
  have hempty_of_flush (hflush : s.machine.console.flush.1 = none) : s.machine.console.pending = #[] := by
    unfold Console.flush at hflush
    split at hflush
    next hempty => exact Array.isEmpty_iff.mp hempty
    next => cases hflush
  cases h with
  | runs hready huntold hfault hlive =>
    cases htells with
    | text =>
      refine .runs ⟨hready.loaded, hready.halted⟩ ⟨huntold.reported, huntold.notified, huntold.halts⟩ hfault ?_
      intro e he
      rcases List.mem_append.mp he with he | he
      · exact hlive e he
      · rw [List.mem_singleton.mp he]
        rfl
    | rest _ hhalted | fault hhalted | notice hhalted | halted hhalted =>
      simp [isHalted, hready.loaded, hready.halted] at hhalted
  | ended hended huntold hspoken =>
    cases htells with
    | text | rest =>
      rw [List.append_assoc]
      exact .ended ⟨hended.loaded, hended.halted⟩ ⟨huntold.reported, huntold.notified, huntold.halts⟩
        (hspoken.append _)
    | fault _ hflush hfault =>
      exact .faulted ⟨hended.loaded, hended.halted⟩ (hempty_of_flush hflush) hfault rfl huntold.notified huntold.halts
        hspoken
    | notice _ hflush hfault =>
      have hnone : s.fault = none := hfault.resolve_right (by simp [huntold.reported])
      have hclosed : Phase before { s with haltNotified := true, halts := s.halts ++ [s.fault] } _ :=
        .closed (n := 0) ⟨hended.loaded, hended.halted⟩ (hempty_of_flush hflush) hfault rfl
          (congrArg (· ++ [s.fault]) huntold.halts) hspoken
      simpa [hnone] using hclosed
    | halted _ _ _ hnotified =>
      exact absurd hnotified (by simp [hended.loaded, huntold.notified])
  | faulted hended hempty hfault hreported hnotified hhalts hspoken =>
    cases htells with
    | text houtput => cases (Console.hasOutput_of_pending hempty).symm.trans houtput
    | rest _ _ hflush => cases (hnothing hempty).symm.trans hflush
    | fault _ _ _ hreported' => cases hreported.symm.trans hreported'
    | notice =>
      have hclosed : Phase before { s with haltNotified := true, halts := s.halts ++ [s.fault] } _ :=
        .closed (n := 0) ⟨hended.loaded, hended.halted⟩ hempty (.inr hreported) rfl (congrArg (· ++ [s.fault]) hhalts)
          hspoken
      simpa [hfault] using hclosed
    | halted _ _ _ hnotified' => exact absurd hnotified' (by simp [hended.loaded, hnotified])
  | @closed live texts n hended hempty hfault hnotified hhalts hspoken =>
    cases htells with
    | text houtput => cases (Console.hasOutput_of_pending hempty).symm.trans houtput
    | rest _ _ hflush => cases (hnothing hempty).symm.trans hflush
    | fault _ _ hfault' hreported => simp [hfault', hreported] at hfault
    | notice _ _ _ _ hnotified' => cases hnotified.symm.trans hnotified'
    | halted =>
      rw [List.append_assoc _ (List.replicate (n + 1) Event.halted), ← List.replicate_succ']
      exact .closed hended hempty hfault hnotified hhalts hspoken

theorem Phase.batched (htells : Tells s (none, s)) : Phase before s.batched events := by
  have hruns : s.isHalted = false := by
    cases htells with
    | nothing _ hruns => exact hruns
  have huntold : s.batched.faultReported = s.faultReported ∧ s.batched.haltNotified = s.haltNotified
      ∧ s.batched.halts = s.halts := by
    unfold Session.batched
    split
    next => exact ⟨rfl, rfl, rfl⟩
    next => exact ⟨rfl, rfl, rfl⟩
  cases h with
  | runs hready hbefore hfault hlive =>
    have huntold : s.batched.Untold before := by
      refine ⟨?_, ?_, ?_⟩
      · rw [huntold.1, hbefore.reported]
      · rw [huntold.2.1, hbefore.notified]
      · rw [huntold.2.2, hbefore.halts]
    obtain ⟨hloaded, hgoesOn⟩ := batch_ends (n := s.quota) hready.loaded
    rw [← machine_batched, ← fault_batched hfault] at hgoesOn
    rw [← machine_batched] at hloaded
    cases hhalted : s.batched.machine.halted with
    | false => exact .runs ⟨hloaded, hhalted⟩ huntold (hgoesOn hhalted) hlive
    | true =>
      rw [← List.append_nil events]
      exact .ended ⟨hloaded, hhalted⟩ huntold ⟨hlive, by simp⟩
  | ended hended | faulted hended | closed hended => cases hended.isHalted.symm.trans hruns

theorem Phase.execute : Phase before s.execute.2 (events ++ [s.execute.1]) := by
  have hexecutes := executes_execute s
  generalize s.execute = r at hexecutes ⊢
  cases hexecutes with
  | told htells => exact h.tells htells
  | ran htells hends => exact (h.batched htells).tells hends
  | goesOn htells hends he =>
    -- there is nothing to tell, so that the program goes on
    have hbatched := h.batched htells
    have hruns : s.batched.isHalted = false := by
      cases hends with
      | nothing _ hruns => exact hruns
    cases hbatched with
    | runs hready huntold hfault hlive =>
      refine .runs hready huntold hfault ?_
      intro e' he'
      rcases List.mem_append.mp he' with he' | he'
      · exact hlive e' he'
      · rw [List.mem_singleton.mp he']
        rcases he with rfl | rfl <;> rfl
    | ended hended | faulted hended | closed hended => cases hended.isHalted.symm.trans hruns

theorem Phase.stop : Phase before s.stop events := by
  unfold Session.stop
  split
  next hgoesOn =>
    cases h with
    | runs hready huntold hfault hlive =>
      rw [← List.append_nil events]
      exact .ended ⟨hready.loaded, rfl⟩ ⟨huntold.reported, huntold.notified, huntold.halts⟩ ⟨hlive, by simp⟩
    | ended hended | faulted hended | closed hended => simp [hended.halted] at hgoesOn
  next => exact h

theorem Phase.withMachine (hloaded : m.loaded = s.machine.loaded)
    (hhalted : m.halted = s.machine.halted) (hpending : m.console.pending = s.machine.console.pending)
    : Phase before { s with machine := m } events := by
  have hended (h : s.Ended) : Ended { s with machine := m } := ⟨hloaded.trans h.loaded, hhalted.trans h.halted⟩
  cases h with
  | runs hready huntold hfault hlive =>
    refine .runs ⟨hloaded.trans hready.loaded, hhalted.trans hready.halted⟩ ?_ hfault hlive
    exact ⟨huntold.reported, huntold.notified, huntold.halts⟩
  | ended h huntold hspoken =>
    exact .ended (hended h) ⟨huntold.reported, huntold.notified, huntold.halts⟩ hspoken
  | faulted h hempty hfault hreported hnotified hhalts hspoken =>
    exact .faulted (hended h) (hpending.trans hempty) hfault hreported hnotified hhalts hspoken
  | closed h hempty hfault hnotified hhalts hspoken =>
    exact .closed (s := { s with machine := m }) (hended h) (hpending.trans hempty) hfault hnotified hhalts hspoken

theorem Phase.act (a : Action) : Phase before (s.act a).2 (events ++ (s.act a).1) := by
  cases a with
  | execute => exact h.execute
  | stop =>
    rw [Session.act, List.append_nil]
    exact h.stop
  | pushKey | tick =>
    rw [Session.act, List.append_nil]
    exact h.withMachine rfl rfl rfl

theorem Phase.acts (as : List Action) :
    Phase before (s.acts as).2 (events ++ (s.acts as).1)
      ∧ (s.acts as).2.fault.toList = s.fault.toList ++ s.faults as := by
  induction as generalizing s events with
  | nil =>
    simp only [Session.acts, faults, List.append_nil, and_true]
    exact h
  | cons a as ih =>
    obtain ⟨hphase, hfault⟩ := ih (h.act a)
    rw [Session.acts, ← List.append_assoc, faults, ← List.append_assoc, ← toList_fault_act h.fault_eq_none]
    exact ⟨hphase, hfault⟩

end

theorem Ended.fault_mem_acts (h : s.Ended) (hfault : s.fault = some f) (hreported : s.faultReported = false)
    {as : List Action} (hturns : s.machine.console.turns < (s.acts as).1.length)
    : .fault f ∈ (s.acts as).1 := by
  induction as generalizing s with
  | nil => cases hturns
  | cons a as ih =>
    simp only [acts, List.length_append] at hturns ⊢
    apply List.mem_append.mpr
    cases a with
    | pushKey | tick =>
      simp only [act, List.length_nil, Nat.zero_add] at hturns
      exact .inr (ih ⟨h.loaded, h.halted⟩ hfault hreported hturns)
    | stop =>
      have hstop : s.stop = s := if_neg (by simp [h.halted])
      simp only [act, hstop] at hturns ⊢
      exact .inr (ih h hfault hreported (by simpa using hturns))
    | execute =>
      obtain ⟨e, s', hexecute, htells⟩ := tells_of_isHalted h.isHalted
      simp only [act, hexecute, List.length_singleton] at hturns ⊢
      cases htells with
      | text houtput =>
        have hless : (s.withConsole s.machine.console.takeOutput.2).machine.console.turns < s.machine.console.turns :=
          Console.turns_takeOutput houtput
        exact .inr (ih ⟨h.loaded, h.halted⟩ hfault hreported (by omega))
      | rest _ _ hflush =>
        have hless : (s.withConsole s.machine.console.flush.2).machine.console.turns < s.machine.console.turns :=
          Console.turns_flush hflush
        exact .inr (ih ⟨h.loaded, h.halted⟩ hfault hreported (by omega))
      | fault _ _ hfault' =>
        cases hfault.symm.trans hfault'
        exact .inl (List.mem_singleton.mpr rfl)
      | notice _ _ hsettled | halted _ _ hsettled => simp [hfault, hreported] at hsettled

theorem Spoken.isOpen (h : Spoken live texts) (he : e ∈ live ++ texts) : e.isOpen = true := by
  rcases List.mem_append.mp he with he | he
  · exact h.live e he
  · exact e.isOpen_of_isPrint (h.texts e he)

theorem Spoken.halted_not_mem (h : Spoken live texts) : .halted ∉ live ++ texts :=
  fun hmem => by cases h.isOpen hmem

theorem Phase.fault_eq_some (h : Phase before s events) (hmem : .fault f ∈ events) : s.fault = some f := by
  cases h with
  | runs _ _ _ hlive => cases hlive _ hmem
  | ended _ _ hspoken => cases hspoken.isOpen hmem
  | faulted _ _ hfault _ _ _ hspoken =>
    rcases List.mem_append.mp hmem with hmem | hmem
    · cases hspoken.isOpen hmem
    · cases List.mem_singleton.mp hmem
      exact hfault
  | closed _ _ _ _ _ hspoken =>
    simp only [List.append_assoc, List.mem_append, List.mem_replicate, reduceCtorEq, and_false, or_false] at hmem
    rcases hmem with hmem | hmem | hmem
    · cases hspoken.live _ hmem
    · cases hspoken.texts _ hmem
    · simpa using hmem

theorem Phase.halts_eq (h : Phase before s events) :
    s.halts = before ++ if .halted ∈ events then [s.fault] else [] := by
  cases h with
  | runs _ huntold _ hlive =>
    have hnot : Event.halted ∉ events := fun hmem => by cases hlive _ hmem
    rw [if_neg hnot, List.append_nil, huntold.halts]
  | ended _ huntold hspoken => rw [if_neg hspoken.halted_not_mem, List.append_nil, huntold.halts]
  | @faulted live texts f _ _ _ _ _ hhalts hspoken =>
    have hnot : Event.halted ∉ live ++ texts ++ [Event.fault f] := fun hmem =>
      hspoken.halted_not_mem ((List.mem_append.mp hmem).resolve_right (by simp))
    rw [if_neg hnot, List.append_nil, hhalts]
  | closed _ _ _ _ hhalts => rw [if_pos (by simp), hhalts]

end Phases

/-- What a session tells while `as` happen to it, and what becomes of its program. -/
structure Protocol (s : Session) (as : List Action) : Prop where
  order : ∃ (live texts : List Event) (fault : Option Fault) (n : Nat),
    (s.acts as).1 = live ++ texts ++ (fault.map Event.fault).toList ++ List.replicate n .halted ∧ Spoken live texts
  ended : (s.acts as).2.isHalted = true →
    ∀ more, ∀ e ∈ ((s.acts as).2.acts more).1, e ≠ .running ∧ e ≠ .awaiting
  fault : (∀ f, .fault f ∈ (s.acts as).1 → f ∈ s.faults as) ∧ (s.faults as).length ≤ 1
  told : ∀ f ∈ s.faults as, ∀ more, 3 ≤ ((s.acts as).2.acts more).1.length → .fault f ∈ (s.acts (as ++ more)).1
  noted : (s.acts as).2.halts = s.halts ++ if .halted ∈ (s.acts as).1 then [(s.faults as).head?] else []
  settled : (s.acts as).2.isHalted = true → ∀ more, ((s.acts as).2.acts more).2.machine.core = (s.acts as).2.machine.core

theorem phase_load {image : Array UInt8} {s : Session} (h : (s.load image).1 = .ok ()) :
    Phase s.halts (s.load image).2 [] ∧ (s.load image).2.fault = none ∧ (s.load image).2.halts = s.halts := by
  unfold load at h ⊢
  dsimp only at h ⊢
  split at h
  next m hload => exact ⟨.runs (Machine.ready_of_load hload) ⟨rfl, rfl, rfl⟩ rfl (by simp), rfl, rfl⟩
  next => cases h

/--
From the time a program is loaded, a session tells in order how it goes on and how it ends: its fault exactly if an
instruction faulted, and its halt, which is noted once and together with the fault.
-/
theorem protocol_load {image : Array UInt8} {s : Session} (h : (s.load image).1 = .ok ()) (as : List Action) :
    Protocol (s.load image).2 as := by
  obtain ⟨hstart, hnofault, hbefore⟩ := phase_load h
  generalize (s.load image).2 = t at *
  obtain ⟨hphase, hfaults⟩ := hstart.acts as
  rw [hnofault, Option.toList_none, List.nil_append] at hfaults
  rw [List.nil_append] at hphase
  have hhead : (t.acts as).2.fault = (t.faults as).head? := by
    rw [← hfaults]
    cases (t.acts as).2.fault <;> rfl
  constructor
  case order =>
    generalize (t.acts as).1 = events at hphase
    cases hphase with
    | runs _ _ _ hlive => exact ⟨events, [], none, 0, by simp, hlive, by simp⟩
    | ended _ _ hspoken => exact ⟨_, _, none, 0, by simp, hspoken⟩
    | @faulted live texts f _ _ _ _ _ _ hspoken => exact ⟨live, texts, some f, 0, by simp, hspoken⟩
    | closed _ _ _ _ _ hspoken => exact ⟨_, _, _, _, rfl, hspoken⟩
  case ended => exact fun hhalted more => not_open_of_acts hhalted more
  case fault =>
    refine ⟨fun f hmem => ?_, ?_⟩
    · rw [← hfaults, hphase.fault_eq_some hmem]
      exact List.mem_singleton.mpr rfl
    · rw [← hfaults]
      exact Option.length_toList_le
  case told =>
    intro f hmem more hmore
    have hfault : (t.acts as).2.fault = some f := by
      rw [← hfaults] at hmem
      simpa using hmem
    rw [acts_append, List.mem_append]
    generalize (t.acts as).1 = events at hphase
    cases hphase with
    | runs _ _ hnone => cases hnone.symm.trans hfault
    | ended hended huntold =>
      exact .inr (hended.fault_mem_acts hfault huntold.reported (Nat.lt_of_le_of_lt (Console.turns_le _) hmore))
    | faulted _ _ hfault' =>
      cases hfault.symm.trans hfault'
      exact .inl (by simp)
    | closed => exact .inl (by simp [hfault])
  case noted =>
    rw [← hhead, hbefore]
    exact hphase.halts_eq
  case settled => exact fun hhalted more => core_acts hhalted more

def stray : Array UInt8 :=
  (({} : Header).toBytes ++ [0x01, 0x41, 0x80, 0x01, 0xC3, 0x80, 0x2C]).toArray

theorem protocol_load_stray :
    let s : Session := { quota := 4 }
    let as : List Action := [.execute, .execute, .execute, .stop, .execute, .pushKey 0x42, .execute, .execute]
    (s.load stray).1 = .ok ()
      ∧ ((s.load stray).2.acts as).1
        = [.print "A", .print "\uFFFD", .fault (.invalidOpcode 0x2C), .halted, .halted, .halted]
      ∧ (s.load stray).2.faults as = [.invalidOpcode 0x2C]
      ∧ ((s.load stray).2.acts as).2.halts = [some (.invalidOpcode 0x2C)]
      ∧ Protocol (s.load stray).2 as := by
  intro s as
  have hload : (s.load stray).1 = .ok () := rfl
  have hevents : ((s.load stray).2.acts as).1
      = [.print "A", .print "\uFFFD", .fault (.invalidOpcode 0x2C), .halted, .halted, .halted] := by
    decide +kernel
  have hfaults : (s.load stray).2.faults as = [.invalidOpcode 0x2C] := by decide +kernel
  have hprotocol := protocol_load hload as
  refine ⟨hload, hevents, hfaults, ?_, hprotocol⟩
  rw [hprotocol.noted, hevents, hfaults]
  rfl

end Session
end Handheld
