import Handheld.Proofs.Machine.Outside
import Handheld.Proofs.Session.Printing

/-!
Runs of one program with other quotas, and with keys that come at other moments. As long as the program does not look at
the clock or at keys without waiting, one run does what the other does, only further or less far.
-/
namespace Handheld

variable {m' : Machine} {s s' : Session}

namespace Machine

def completed? (m : Machine) : Option Machine :=
  match step m with
  | .ok .running m' | .ok .halted m' => some m'
  | _ => none

theorem completed?_eq_some_iff {m m' : Machine} : m.completed? = some m' ↔ ∃ p, p ≠ .blocked ∧ step m = .ok p m' := by
  unfold completed?
  cases step m with
  | error e m1 => simp
  | ok p m1 => cases p <;> simp

/-- The machine without what comes from outside and goes there: keys that wait, queued text and the time. -/
def seen (m : Machine) : Machine :=
  { m with lastPc := 0, keys := [], clock := {}, console := { m.console with pending := #[] } }

inductive Completes (start : Machine) : Nat → Machine → Prop where
  | start : Completes start 0 start
  | step {n : Nat} {m m' : Machine} (h : Completes start n m) (hready : m.Ready) (hstep : m.completed? = some m') :
    Completes start (n + 1) m'

section Completes

variable {start m m' : Machine} {n n' : Nat}

theorem Completes.unique (h : Completes start n m) (h' : Completes start n m') : m = m' := by
  induction h generalizing m' with
  | start =>
    cases h'
    rfl
  | step h _ hstep ih =>
    cases h' with
    | step h' _ hstep' =>
      cases ih h'
      exact Option.some.inj (hstep.symm.trans hstep')

def Ends (m : Machine) : Prop :=
  m.Ready → m.completed? = none

theorem Completes.le_of_ends (h : Completes start n m) (hends : m.Ends) (h' : Completes start n' m') : n' ≤ n := by
  induction h' with
  | start => exact Nat.zero_le n
  | step h' hready hstep ih =>
    refine Nat.lt_of_le_of_ne ih ?_
    rintro rfl
    cases h.unique h'
    cases (hends hready).symm.trans hstep

theorem Completes.eq_of_ends (h : Completes start n m) (hends : m.Ends) (h' : Completes start n' m') (hends' : m'.Ends)
    : n = n' ∧ m = m' := by
  obtain rfl := Nat.le_antisymm (h'.le_of_ends hends' h) (h.le_of_ends hends h')
  exact ⟨rfl, h.unique h'⟩

theorem Completes.loaded (h : Completes start n m) (hstart : start.loaded = true) : m.loaded = true := by
  cases h with
  | start => exact hstart
  | @step _ m1 _ _ hready hstep =>
    obtain ⟨p, -, hstep⟩ := completed?_eq_some_iff.mp hstep
    have hloaded := loaded_step m1
    rw [hstep] at hloaded
    exact hloaded.trans hready.loaded

end Completes

end Machine

namespace Session

def Action.key? : Action → Option UInt8
  | .pushKey key => some key
  | _ => none

def pushed (as : List Action) : List UInt8 :=
  as.filterMap Action.key?

def tries : Nat → Machine → List Machine
  | 0, _ => []
  | n + 1, m =>
    match Machine.step m with
    | .ok .running m' => m :: tries n m'
    | _ => [m]

def tried (s : Session) : Action → List Machine
  | .execute => if s.machine.console.hasOutput || s.isHalted then [] else tries s.quota s.machine
  | _ => []

structure Moment where
  machine : Machine
  pushed : List UInt8

namespace Moment

def completed? (x : Moment) : Option Moment :=
  x.machine.completed?.map (⟨·, x.pushed⟩)

structure Same (x y : Moment) : Prop where
  seen : x.machine.seen = y.machine.seen
  taken : ∃ keys, x.pushed = keys ++ x.machine.keys ∧ y.pushed = keys ++ y.machine.keys

end Moment

def attempts (s : Session) (keys : List UInt8) : List Action → List Moment
  | [] => []
  | a :: as => (s.tried a).map (⟨·, keys⟩) ++ (s.act a).2.attempts (keys ++ a.key?.toList) as

def completions (s : Session) (as : List Action) : List Moment :=
  (s.attempts [] as).filterMap Moment.completed?

def reached (s : Session) (as : List Action) : Moment where
  machine := (s.acts as).2.machine
  pushed := pushed as

structure Beside (keys : List UInt8) (m : Machine) (x : Moment) : Prop where
  machine : ∃ o last, { m with lastPc := last } = x.machine.within o
  taken : ∃ front, x.pushed = front ++ x.machine.keys ∧ keys = front ++ m.keys

section Beside

variable {keys pushed : List UInt8} {full m : Machine} {x y : Moment}

theorem Beside.seen_eq (h : Beside keys full x) : x.machine.seen = full.seen := by
  obtain ⟨o, last, ho⟩ := h.machine
  exact (congrArg Machine.seen ho).symm

theorem Beside.same (h : Beside keys full x) (h' : Beside keys full y) : x.Same y := by
  obtain ⟨front, hx, hkeys⟩ := h.taken
  obtain ⟨front', hy, hkeys'⟩ := h'.taken
  obtain rfl : front = front' := List.append_cancel_right (hkeys.symm.trans hkeys')
  exact ⟨h.seen_eq.trans h'.seen_eq.symm, front, hx, hy⟩

section

variable (h : Beside keys full ⟨m, pushed⟩)

include h

theorem Beside.tick (clock : Clock) :
    Beside keys full ⟨{ m with clock := clock }, pushed⟩ :=
  ⟨h.machine, h.taken⟩

theorem Beside.tell {out rest : Array UInt8}
    (hpending : m.console.pending = out ++ rest)
    : Beside keys full ⟨{ m with console := { m.console with pending := rest } }, pushed⟩ := by
  obtain ⟨o, last, ho⟩ := h.machine
  refine ⟨⟨{ o with told := o.told ++ out }, last, ?_⟩, h.taken⟩
  simp only [Machine.within, Console.untold, hpending] at ho ⊢
  rw [ho, Array.append_assoc]

theorem Beside.pushKey {key : UInt8} (hkeys : pushed ++ [key] <+: keys) :
    Beside keys full ⟨m.pushKey key, pushed ++ [key]⟩ := by
  obtain ⟨o, last, ho⟩ := h.machine
  obtain ⟨front, hpushed, hall⟩ := h.taken
  replace hpushed : pushed = front ++ m.keys := hpushed
  have hfull : full.keys = m.keys ++ o.keys := congrArg Machine.keys ho
  -- the key is the first of those that are still to come
  obtain ⟨more, hmore⟩ := hkeys
  have hnext : o.keys = key :: more := by
    rw [hall, hfull, hpushed, List.append_assoc, List.append_assoc] at hmore
    exact (List.append_cancel_left (List.append_cancel_left hmore)).symm
  refine ⟨⟨{ o with keys := more }, last, ?_⟩, front, ?_, hall⟩
  · rw [ho]
    simp only [Machine.within, Machine.pushKey, hnext, List.append_assoc, List.singleton_append]
  · rw [hpushed, List.append_assoc]
    rfl

end

theorem Beside.ready (h : Beside keys full x) (hready : x.machine.Ready) : full.Ready := by
  obtain ⟨o, last, ho⟩ := h.machine
  exact ⟨(congrArg Machine.loaded ho).trans hready.loaded, (congrArg Machine.halted ho).trans hready.halted⟩

section

variable (h : Beside keys full ⟨m, pushed⟩)

include h

theorem Beside.step (hready : m.Ready) (htimeless : m.Timeless) {r : EStateM.Result Fault Machine Progress}
    (hr : Machine.step m = r) (hgoes : ∀ m', r ≠ .ok .blocked m')
    : ∃ o, Machine.step full = Machine.resultWithin o r
        ∧ Beside keys (Machine.after (Machine.resultWithin o r)) ⟨Machine.after r, pushed⟩ := by
  subst hr
  obtain ⟨o, last, ho⟩ := h.machine
  have hafter : Machine.after (Machine.resultWithin o (Machine.step m)) = (Machine.after (Machine.step m)).within o := by
    cases Machine.step m <;> rfl
  refine ⟨o, ?_, ?_⟩
  · rw [← Machine.step_lastPc (h.ready hready) last, ho]
    exact Machine.step_within hready htimeless hgoes
  obtain ⟨front, hpushed, hall⟩ := h.taken
  obtain ⟨taken, htaken⟩ := Machine.keys_step m
  have hfull : full.keys = m.keys ++ o.keys := congrArg Machine.keys ho
  refine ⟨⟨o, _, hafter⟩, front ++ taken, ?_, ?_⟩
  · rw [List.append_assoc, htaken]
    exact hpushed
  · rw [hall, hfull, ← htaken, hafter, List.append_assoc, List.append_assoc]
    rfl

theorem Beside.waits (hstep : Machine.step m = .ok .blocked m') : Beside keys full ⟨m', pushed⟩ := by
  obtain ⟨o, last, ho⟩ := h.machine
  obtain rfl := Machine.eq_of_step_blocked hstep
  exact ⟨⟨o, m.pc, congrArg (fun m' => { m' with lastPc := m.pc }) ho⟩, h.taken⟩

theorem Beside.halt : Beside keys full.halt ⟨m.halt, pushed⟩ := by
  obtain ⟨o, last, ho⟩ := h.machine
  exact ⟨⟨o, last, congrArg Machine.halt ho⟩, h.taken⟩

end

end Beside

def Batch.fault? : Batch → Option Fault
  | fault f => some f
  | _ => none

inductive Stands (start : Machine) (keys : List UInt8) (n : Nat) : Option Fault → Moment → Prop where
  | runs {full : Machine} {x : Moment} (h : Machine.Completes start n full) (hbeside : Beside keys full x)
    (hlast : x.machine.halted = true → x.machine.lastPc = full.lastPc) : Stands start keys n none x
  | faulted {full full' : Machine} {f : Fault} {x : Moment} (h : Machine.Completes start n full) (hready : full.Ready)
    (hstep : Machine.step full = .error f full') (hbeside : Beside keys full'.halt x)
    (hlast : x.machine.lastPc = full'.lastPc) : Stands start keys n (some f) x

def Counted (start : Machine) (keys : List UInt8) (n : Nat) (xs : List Moment) : Prop :=
  ∀ i x, xs[i]? = some x →
    ∃ full, Machine.Completes start (n + i + 1) full ∧ Beside keys full x ∧ x.machine.lastPc = full.lastPc

section Stands

variable {start m full : Machine} {keys pushed : List UInt8} {n : Nat} {x y : Moment} {xs ys : List Moment}
  {fault : Option Fault}

theorem Counted.nil : Counted start keys n [] := by
  intro i x hx
  cases hx

theorem Counted.cons (h : Machine.Completes start (n + 1) full) (hbeside : Beside keys full x)
    (hlast : x.machine.lastPc = full.lastPc) (hxs : Counted start keys (n + 1) xs)
    : Counted start keys n (x :: xs) := by
  intro i y hy
  cases i with
  | zero =>
    cases hy
    exact ⟨full, h, hbeside, hlast⟩
  | succ i =>
    rw [show n + (i + 1) + 1 = n + 1 + i + 1 by omega]
    exact hxs i y hy

theorem Counted.append (hxs : Counted start keys n xs) (hys : Counted start keys (n + xs.length) ys) :
    Counted start keys n (xs ++ ys) := by
  intro i x hx
  rcases Nat.lt_or_ge i xs.length with hlt | hge
  · rw [List.getElem?_append_left hlt] at hx
    exact hxs i x hx
  · rw [List.getElem?_append_right hge] at hx
    rw [show n + i + 1 = n + xs.length + (i - xs.length) + 1 by omega]
    exact hys _ x hx

def batchCompletions (k : Nat) (m : Machine) (pushed : List UInt8) : List Moment :=
  ((tries k m).map (⟨·, pushed⟩)).filterMap Moment.completed?

theorem stands_batch (k : Nat) (h : Machine.Completes start n full) (hbeside : Beside keys full ⟨m, pushed⟩)
    (hready : m.Ready) (htimeless : ∀ m' ∈ tries k m, m'.Timeless)
    : Stands start keys (n + (batchCompletions k m pushed).length) (batch k m).1.fault? ⟨(batch k m).2, pushed⟩
        ∧ Counted start keys n (batchCompletions k m pushed) := by
  induction k generalizing n m full with
  | zero =>
    refine ⟨.runs h hbeside fun hhalted => ?_, .nil⟩
    cases hhalted.symm.trans hready.halted
  | succ k ih =>
    have hnow : m.Timeless := by
      apply htimeless m
      unfold tries
      split <;> simp
    cases hstep : Machine.step m with
    | error f m' =>
      obtain ⟨o, hfull, hbeside'⟩ := hbeside.step hready hnow hstep (by simp)
      have hnone : batchCompletions (k + 1) m pushed = [] := by
        simp [batchCompletions, tries, Moment.completed?, Machine.completed?, hstep]
      have hbatch : batch (k + 1) m = (.fault f, m'.halt) := by simp [batch, hstep]
      rw [hnone, hbatch]
      exact ⟨.faulted h (hbeside.ready hready) hfull hbeside'.halt rfl, .nil⟩
    | ok p m' =>
      cases p with
      | blocked =>
        have hnone : batchCompletions (k + 1) m pushed = [] := by
          simp [batchCompletions, tries, Moment.completed?, Machine.completed?, hstep]
        have hbatch : batch (k + 1) m = (.blocked, m') := by simp [batch, hstep]
        rw [hnone, hbatch]
        refine ⟨.runs h (hbeside.waits hstep) fun hhalted => ?_, .nil⟩
        cases Machine.eq_of_step_blocked hstep
        cases hhalted.symm.trans hready.halted
      | halted =>
        obtain ⟨o, hfull, hbeside'⟩ := hbeside.step hready hnow hstep (by simp)
        have hone : batchCompletions (k + 1) m pushed = [⟨m', pushed⟩] := by
          simp [batchCompletions, tries, Moment.completed?, Machine.completed?, hstep]
        have hbatch : batch (k + 1) m = (.done, m') := by simp [batch, hstep]
        have hcompletes := h.step (hbeside.ready hready) (Machine.completed?_eq_some_iff.mpr ⟨_, by simp, hfull⟩)
        rw [hone, hbatch]
        exact ⟨.runs hcompletes hbeside' fun _ => rfl, .cons hcompletes hbeside' rfl .nil⟩
      | running =>
        obtain ⟨o, hfull, hbeside'⟩ := hbeside.step hready hnow hstep (by simp)
        have hmore : batchCompletions (k + 1) m pushed = ⟨m', pushed⟩ :: batchCompletions k m' pushed := by
          simp [batchCompletions, tries, Moment.completed?, Machine.completed?, hstep]
        have hbatch : batch (k + 1) m = batch k m' := by simp [batch, hstep]
        have hcompletes := h.step (hbeside.ready hready) (Machine.completed?_eq_some_iff.mpr ⟨_, by simp, hfull⟩)
        have hlater : ∀ m1 ∈ tries k m', m1.Timeless := by
          intro m1 hmem
          apply htimeless m1
          simp [tries, hstep, hmem]
        obtain ⟨hstands, hcounted⟩ := ih hcompletes hbeside' (Machine.ready_of_step_running hstep) hlater
        rw [hmore, hbatch, List.length_cons, Nat.add_comm _ 1, ← Nat.add_assoc]
        exact ⟨hstands, .cons hcompletes hbeside' rfl hcounted⟩

theorem Stands.congr (h : Stands start keys n fault x) (hbeside : ∀ full, Beside keys full x → Beside keys full y)
    (hhalted : y.machine.halted = x.machine.halted) (hlast : y.machine.lastPc = x.machine.lastPc)
    : Stands start keys n fault y := by
  cases h with
  | runs h hx hlast' => exact .runs h (hbeside _ hx) fun hy => hlast.trans (hlast' (hhalted ▸ hy))
  | faulted h hready hstep hx hlast' => exact .faulted h hready hstep (hbeside _ hx) (hlast.trans hlast')

theorem pending_takeOutput (c : Console) : c.pending = c.pending.extract 0 c.ready ++ c.takeOutput.2.pending := by
  have hle : c.ready ≤ c.pending.size := Nat.sub_le _ _
  simp only [Console.takeOutput]
  rw [Array.extract_append_extract, Nat.zero_min, Nat.max_eq_right hle, Array.extract_size]

theorem Stands.tells {told : Option Event} (h : Stands start keys n s.fault ⟨s.machine, pushed⟩)
    (htells : Tells s (told, s'))
    : Stands start keys n s'.fault ⟨s'.machine, pushed⟩ := by
  cases htells with
  | nothing | fault | notice | halted => exact h
  | text => exact h.congr (fun full hbeside => hbeside.tell (pending_takeOutput s.machine.console)) rfl rfl
  | rest =>
    have hflush : s.machine.console.flush.2 = { s.machine.console with pending := #[] } := by
      rw [← Console.pending_flush s.machine.console]
      unfold Console.flush
      split <;> rfl
    rw [hflush]
    exact h.congr (fun full hbeside => hbeside.tell Array.append_empty.symm) rfl rfl

theorem Stands.fault_eq_none (h : Stands start keys n fault x) (hruns : x.machine.halted = false) :
    fault = none ∧ ∃ full, Machine.Completes start n full ∧ Beside keys full x := by
  cases h with
  | runs h hbeside => exact ⟨rfl, _, h, hbeside⟩
  | faulted _ _ _ hbeside =>
    obtain ⟨o, last, ho⟩ := hbeside.machine
    cases (congrArg Machine.halted ho).trans hruns

theorem fault_batched (h : s.fault = none) : s.batched.fault = (batch s.quota s.machine).1.fault? := by
  unfold batched
  cases batch s.quota s.machine with
  | mk ended m =>
    cases ended with
    | done => exact h
    | blocked => exact h
    | fault f => rfl

theorem Tells.tried_eq_nil {e : Event} (h : Tells s (some e, s')) : s.tried .execute = [] := by
  cases h with
  | text h => simp [tried, h]
  | rest _ h | fault h | notice h | halted h => simp [tried, h]

theorem Tells.tried_eq_tries (h : Tells s (none, s')) : s.tried .execute = tries s.quota s.machine := by
  cases h with
  | nothing h hruns => simp [tried, h, hruns]

theorem Stands.batched (h : Stands start keys n s.fault ⟨s.machine, pushed⟩)
    (htells : Tells s (none, s)) (htimeless : ∀ m ∈ tries s.quota s.machine, m.Timeless)
    : Stands start keys (n + (batchCompletions s.quota s.machine pushed).length) s.batched.fault
          ⟨s.batched.machine, pushed⟩
        ∧ Counted start keys n (batchCompletions s.quota s.machine pushed) := by
  cases htells with
  | nothing _ hruns =>
    have hready : s.machine.Ready := by
      simp only [isHalted, Bool.or_eq_false_iff, Bool.not_eq_false'] at hruns
      exact ⟨hruns.1, hruns.2⟩
    obtain ⟨hfault, full, hcompletes, hbeside⟩ := h.fault_eq_none hready.halted
    rw [fault_batched hfault, machine_batched]
    exact stands_batch _ hcompletes hbeside hready htimeless

def passed (s : Session) (pushed : List UInt8) (a : Action) : List Moment :=
  ((s.tried a).map (⟨·, pushed⟩)).filterMap Moment.completed?

theorem Stands.execute (h : Stands start keys n s.fault ⟨s.machine, pushed⟩)
    (htimeless : ∀ m ∈ s.tried .execute, m.Timeless)
    : Stands start keys (n + (s.passed pushed .execute).length) s.execute.2.fault ⟨s.execute.2.machine, pushed⟩
        ∧ Counted start keys n (s.passed pushed .execute) := by
  have hexecutes := executes_execute s
  unfold passed
  generalize s.execute = r at hexecutes ⊢
  cases hexecutes with
  | told htells =>
    rw [htells.tried_eq_nil]
    exact ⟨h.tells htells, .nil⟩
  | ran htells hends =>
    rw [htells.tried_eq_tries] at htimeless ⊢
    obtain ⟨hstands, hcounted⟩ := h.batched htells htimeless
    exact ⟨hstands.tells hends, hcounted⟩
  | goesOn htells =>
    rw [htells.tried_eq_tries] at htimeless ⊢
    exact h.batched htells htimeless

theorem Stands.act {a : Action} (h : Stands start keys n s.fault ⟨s.machine, pushed⟩)
    (ha : a ≠ .stop) (hkeys : pushed ++ a.key?.toList <+: keys) (htimeless : ∀ m ∈ s.tried a, m.Timeless)
    : Stands start keys (n + (s.passed pushed a).length) (s.act a).2.fault
          ⟨(s.act a).2.machine, pushed ++ a.key?.toList⟩
        ∧ Counted start keys n (s.passed pushed a) := by
  cases a with
  | stop => exact absurd rfl ha
  | execute =>
    simp only [Action.key?, Option.toList_none, List.append_nil]
    exact h.execute htimeless
  | pushKey key => exact ⟨h.congr (fun full hbeside => hbeside.pushKey hkeys) rfl rfl, .nil⟩
  | tick clock =>
    simp only [Action.key?, Option.toList_none, List.append_nil]
    exact ⟨h.congr (fun full hbeside => hbeside.tick clock) rfl rfl, .nil⟩

theorem pushed_cons (a : Action) (as : List Action) :
    Session.pushed (a :: as) = a.key?.toList ++ Session.pushed as := by
  cases a <;> rfl

theorem Stands.acts {as : List Action} (h : Stands start keys n s.fault ⟨s.machine, pushed⟩)
    (hstop : .stop ∉ as) (hkeys : pushed ++ Session.pushed as <+: keys)
    (htimeless : ∀ x ∈ s.attempts pushed as, x.machine.Timeless)
    : Stands start keys (n + ((s.attempts pushed as).filterMap Moment.completed?).length) (s.acts as).2.fault
          ⟨(s.acts as).2.machine, pushed ++ Session.pushed as⟩
        ∧ Counted start keys n ((s.attempts pushed as).filterMap Moment.completed?) := by
  induction as generalizing n pushed s with
  | nil =>
    simp only [Session.pushed, List.filterMap_nil, List.append_nil]
    exact ⟨h, .nil⟩
  | cons a as ih =>
    rw [List.mem_cons, not_or] at hstop
    rw [pushed_cons, ← List.append_assoc] at hkeys ⊢
    have hnow : ∀ m ∈ s.tried a, m.Timeless := fun m hm =>
      htimeless ⟨m, pushed⟩ (List.mem_append_left _ (List.mem_map_of_mem hm))
    obtain ⟨hstands, hcounted⟩ := h.act (Ne.symm hstop.1) ((List.prefix_append _ _).trans hkeys) hnow
    obtain ⟨hstands', hcounted'⟩ := ih hstands hstop.2 hkeys fun x hx => htimeless x (List.mem_append_right _ hx)
    rw [attempts, List.filterMap_append, List.length_append, ← Nat.add_assoc]
    exact ⟨hstands', hcounted.append hcounted'⟩

end Stands

structure SameHost (s s' : Session) : Prop where
  display : s.machine.display = s'.machine.display
  font : s.machine.font = s'.machine.font
  files : s.machine.files = s'.machine.files

structure Concordant (s : Session) (as : List Action) (s' : Session) (as' : List Action) : Prop where
  order : (s.completions as).map (·.machine.lastPc) <+: (s'.completions as').map (·.machine.lastPc)
    ∨ (s'.completions as').map (·.machine.lastPc) <+: (s.completions as).map (·.machine.lastPc)
  same : ∀ (n : Nat) (x y : Moment), (s.completions as)[n]? = some x → (s'.completions as')[n]? = some y → x.Same y
  level : (s.completions as).length = (s'.completions as').length → (s.acts as).2.fault = none →
    (s'.acts as').2.fault = none → (s.reached as).Same (s'.reached as')
  ended : (s.acts as).2.isHalted = true → (s'.acts as').2.isHalted = true →
    (s.acts as).2.fault = (s'.acts as').2.fault ∧ (s.reached as).Same (s'.reached as')
      ∧ (s.reached as).machine.lastPc = (s'.reached as').machine.lastPc

theorem nested_of_agree {α : Type} {l l' : List α} (h : ∀ (i : Nat) (a b : α), l[i]? = some a → l'[i]? = some b → a = b)
    : l <+: l' ∨ l' <+: l := by
  induction l generalizing l' with
  | nil => exact .inl List.nil_prefix
  | cons a l ih =>
    cases l' with
    | nil => exact .inr List.nil_prefix
    | cons b l' =>
      obtain rfl := h 0 a b rfl rfl
      have hrest := ih fun i x y hx hy => h (i + 1) x y hx hy
      rwa [List.prefix_cons_inj, List.prefix_cons_inj]

section Concordant

variable {start : Machine} {keys : List UInt8} {n n' : Nat} {fault fault' : Option Fault} {x y : Moment}
  {xs ys : List Moment}

theorem Counted.same (hx : Counted start keys n xs) (hy : Counted start keys n ys) {i : Nat} (hxi : xs[i]? = some x)
    (hyi : ys[i]? = some y)
    : x.Same y ∧ x.machine.lastPc = y.machine.lastPc := by
  obtain ⟨full, hcompletes, hbeside, hlast⟩ := hx i x hxi
  obtain ⟨full', hcompletes', hbeside', hlast'⟩ := hy i y hyi
  obtain rfl := hcompletes.unique hcompletes'
  exact ⟨hbeside.same hbeside', hlast.trans hlast'.symm⟩

theorem Counted.nested (hx : Counted start keys n xs) (hy : Counted start keys n ys) :
    xs.map (·.machine.lastPc) <+: ys.map (·.machine.lastPc)
      ∨ ys.map (·.machine.lastPc) <+: xs.map (·.machine.lastPc) := by
  apply nested_of_agree
  intro i a b ha hb
  rw [List.getElem?_map, Option.map_eq_some_iff] at ha hb
  obtain ⟨x, hxi, rfl⟩ := ha
  obtain ⟨y, hyi, rfl⟩ := hb
  exact (hx.same hy hxi hyi).2

theorem Stands.same (h : Stands start keys n none x) (h' : Stands start keys n none y) : x.Same y := by
  cases h with
  | runs h hbeside =>
    cases h' with
    | runs h' hbeside' =>
      obtain rfl := h.unique h'
      exact hbeside.same hbeside'

theorem Stands.ended (h : Stands start keys n fault x) (h' : Stands start keys n' fault' y)
    (hx : x.machine.halted = true) (hy : y.machine.halted = true)
    : fault = fault' ∧ x.Same y ∧ x.machine.lastPc = y.machine.lastPc := by
  have hhalted {full : Machine} {x : Moment} (hbeside : Beside keys full x) (hx : x.machine.halted = true) :
      ¬full.Ready := by
    obtain ⟨o, last, ho⟩ := hbeside.machine
    exact fun hready => by cases hready.halted.symm.trans ((congrArg Machine.halted ho).trans hx)
  have hfaulted {full full' : Machine} {f : Fault} (hstep : Machine.step full = .error f full') : full.Ends := by
    intro _
    simp [Machine.completed?, hstep]
  cases h with
  | runs h hbeside hlast =>
    have hends := hhalted hbeside hx
    cases h' with
    | runs h' hbeside' hlast' =>
      have hends' := hhalted hbeside' hy
      obtain ⟨rfl, rfl⟩ := h.eq_of_ends (fun hready => absurd hready hends) h' fun hready => absurd hready hends'
      exact ⟨rfl, hbeside.same hbeside', (hlast hx).trans (hlast' hy).symm⟩
    | faulted h' hready' hstep' =>
      obtain ⟨rfl, rfl⟩ := h.eq_of_ends (fun hready => absurd hready hends) h' (hfaulted hstep')
      exact absurd hready' hends
  | faulted h hready hstep hbeside hlast =>
    cases h' with
    | runs h' hbeside' =>
      have hends' := hhalted hbeside' hy
      obtain ⟨rfl, rfl⟩ := h.eq_of_ends (hfaulted hstep) h' fun hready => absurd hready hends'
      exact absurd hready hends'
    | faulted h' _ hstep' hbeside' hlast' =>
      obtain ⟨rfl, rfl⟩ := h.eq_of_ends (hfaulted hstep) h' (hfaulted hstep')
      cases hstep.symm.trans hstep'
      exact ⟨rfl, hbeside.same hbeside', hlast.trans hlast'.symm⟩

theorem Stands.loaded (h : Stands start keys n fault x) (hstart : start.loaded = true) : x.machine.loaded = true := by
  cases h with
  | runs h hbeside =>
    obtain ⟨o, last, ho⟩ := hbeside.machine
    exact (congrArg Machine.loaded ho).symm.trans (h.loaded hstart)
  | @faulted full _ _ _ h hready hstep hbeside =>
    obtain ⟨o, last, ho⟩ := hbeside.machine
    have hloaded := Machine.loaded_step full
    rw [hstep] at hloaded
    exact (congrArg Machine.loaded ho).symm.trans (hloaded.trans hready.loaded)

theorem load_eq_ok {image : Array UInt8} (h : (s.load image).1 = .ok ()) :
    s.machine.load image = .ok (s.load image).2.machine ∧ (s.load image).2.fault = none := by
  unfold load at h ⊢
  dsimp only at h ⊢
  split at h
  next m hload => exact ⟨hload, rfl⟩
  next => cases h

theorem machine_load {image : Array UInt8} {m0 m0' m m' : Machine} (h : m0.load image = .ok m)
    (h' : m0'.load image = .ok m') (hdisplay : m0.display = m0'.display) (hfont : m0.font = m0'.font)
    (hfiles : m0.files = m0'.files)
    : m' = { m with clock := m'.clock } ∧ m.keys = [] ∧ m.loaded = true := by
  obtain ⟨header, hheader, rfl⟩ := Machine.load_eq_ok_iff.mp h
  obtain ⟨header', hheader', rfl⟩ := Machine.load_eq_ok_iff.mp h'
  cases hheader.symm.trans hheader'
  simp only [Machine.installed, Machine.reset, hdisplay, hfont, hfiles, and_self]

theorem beside_start {m : Machine} (hkeys : m.keys = []) (keys : List UInt8) (clock : Clock) :
    Beside keys { m with keys := keys } ⟨{ m with clock := clock }, []⟩ := by
  refine ⟨⟨⟨keys, #[], m.clock⟩, m.lastPc, ?_⟩, [], ?_, rfl⟩
  · simp only [Machine.within, Console.untold, hkeys, List.nil_append, Array.empty_append]
  · simp only [hkeys, List.append_nil]

theorem concordant_of_stands {as as' : List Action} (hloaded : start.loaded = true)
    (h : Stands start keys (s.completions as).length (s.acts as).2.fault (s.reached as))
    (h' : Stands start keys (s'.completions as').length (s'.acts as').2.fault (s'.reached as'))
    (hcounted : Counted start keys 0 (s.completions as)) (hcounted' : Counted start keys 0 (s'.completions as'))
    : Concordant s as s' as' where
  order := hcounted.nested hcounted'
  same _ _ _ hx hy := (hcounted.same hcounted' hx hy).1
  level hlength hfault hfault' := by
    rw [hfault, hlength] at h
    rw [hfault'] at h'
    exact h.same h'
  ended hhalted hhalted' := by
    have hmachine {s : Session} (hloaded : s.machine.loaded = true) (hhalted : s.isHalted = true) :
        s.machine.halted = true := by
      simpa [isHalted, hloaded] using hhalted
    exact h.ended h' (hmachine (h.loaded hloaded) hhalted) (hmachine (h'.loaded hloaded) hhalted')

end Concordant

/--
A run does not depend on its schedule: neither on the length of batches, nor on when text is taken, nor on when keys
come, as long as the program makes no call that depends on the moment.
-/
theorem concordant_load {image : Array UInt8} {s s' : Session} {as as' : List Action} {keys : List UInt8}
    (hload : (s.load image).1 = .ok ()) (hload' : (s'.load image).1 = .ok ()) (hhost : SameHost s s')
    (hstop : .stop ∉ as) (hstop' : .stop ∉ as') (hkeys : pushed as <+: keys) (hkeys' : pushed as' <+: keys)
    (htimeless : ∀ x ∈ (s.load image).2.attempts [] as, x.machine.Timeless)
    (htimeless' : ∀ x ∈ (s'.load image).2.attempts [] as', x.machine.Timeless)
    : Concordant (s.load image).2 as (s'.load image).2 as' := by
  obtain ⟨hmachine, hfault⟩ := load_eq_ok hload
  obtain ⟨hmachine', hfault'⟩ := load_eq_ok hload'
  generalize (s.load image).2 = t at *
  generalize (s'.load image).2 = t' at *
  obtain ⟨hsame, hnokeys, hloaded⟩ := machine_load hmachine hmachine' hhost.display hhost.font hhost.files
  let start : Machine := { t.machine with keys := keys }
  have hstands : Stands start keys 0 t.fault ⟨t.machine, []⟩ := by
    rw [hfault]
    exact .runs .start (beside_start hnokeys keys t.machine.clock) fun _ => rfl
  have hstands' : Stands start keys 0 t'.fault ⟨t'.machine, []⟩ := by
    rw [hfault', hsame]
    exact .runs .start (beside_start hnokeys keys t'.machine.clock) fun _ => rfl
  obtain ⟨hend, hcounted⟩ := hstands.acts hstop hkeys htimeless
  obtain ⟨hend', hcounted'⟩ := hstands'.acts hstop' hkeys' htimeless'
  rw [Nat.zero_add] at hend hend'
  have hstart : start.loaded = true := hloaded
  exact concordant_of_stands hstart hend hend' hcounted hcounted'

def echo : Array UInt8 :=
  (({} : Header).toBytes ++ [0x81, 0x80, 0x01, 0x00, 0xC1, 0x3A]).toArray

def slow : List Action :=
  [.execute, .pushKey 0x41, .execute, .pushKey 0xC3, .execute, .execute, .execute, .pushKey 0xA9, .execute, .execute]

def fast : List Action :=
  [.pushKey 0x41, .pushKey 0xC3, .tick { year := 2002 }, .pushKey 0xA9, .pushKey 0x42, .execute, .execute]

theorem concordant_load_echo :
    let s : Session := { quota := 2 }
    let s' : Session := { quota := 100 }
    (s.load echo).1 = .ok () ∧ (s'.load echo).1 = .ok () ∧ SameHost s s'
      ∧ .stop ∉ slow ∧ .stop ∉ fast
      ∧ pushed slow <+: [0x41, 0xC3, 0xA9, 0x42] ∧ pushed fast <+: [0x41, 0xC3, 0xA9, 0x42]
      ∧ (∀ x ∈ (s.load echo).2.attempts [] slow, x.machine.Timeless)
      ∧ (∀ x ∈ (s'.load echo).2.attempts [] fast, x.machine.Timeless)
      ∧ ((s.load echo).2.acts slow).2.isHalted = true ∧ ((s'.load echo).2.acts fast).2.isHalted = true
      ∧ Concordant (s.load echo).2 slow (s'.load echo).2 fast := by
  intro s s'
  have hhost : SameHost s s' := ⟨rfl, rfl, rfl⟩
  have hstop : .stop ∉ slow := by simp [slow]
  have hstop' : .stop ∉ fast := by simp [fast]
  have hkeys : pushed slow <+: [0x41, 0xC3, 0xA9, 0x42] := by decide
  have hkeys' : pushed fast <+: [0x41, 0xC3, 0xA9, 0x42] := by decide
  have htimeless : ∀ x ∈ (s.load echo).2.attempts [] slow, x.machine.Timeless := by decide +kernel
  have htimeless' : ∀ x ∈ (s'.load echo).2.attempts [] fast, x.machine.Timeless := by decide +kernel
  exact ⟨rfl, rfl, hhost, hstop, hstop', hkeys, hkeys', htimeless, htimeless', by decide +kernel, by decide +kernel,
    concordant_load rfl rfl hhost hstop hstop' hkeys hkeys' htimeless htimeless'⟩

end Session
end Handheld
