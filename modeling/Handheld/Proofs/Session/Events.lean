import Handheld.Proofs.Machine.Reached
import Handheld.Session

/-!
What a session tells: text first, then a fault, then the halt. It runs only while there is nothing to tell.
-/
namespace Handheld.Session

def tick (s : Session) (clock : Clock) : Session :=
  { s with machine := { s.machine with clock := clock } }

inductive Action where
  | execute
  | pushKey (key : UInt8)
  | stop
  | tick (clock : Clock)

def act (s : Session) : Action → List Event × Session
  | .execute => ([s.execute.1], s.execute.2)
  | .pushKey key => ([], s.pushKey key)
  | .stop => ([], s.stop)
  | .tick clock => ([], s.tick clock)

def acts (s : Session) : List Action → List Event × Session
  | [] => ([], s)
  | a :: as => ((s.act a).1 ++ ((s.act a).2.acts as).1, ((s.act a).2.acts as).2)

def withConsole (s : Session) (console : Console) : Session :=
  { s with machine := { s.machine with console := console } }

inductive Tells (s : Session) : Option Event × Session → Prop where
  | text (h : s.machine.console.hasOutput = true) :
    Tells s (some (.print s.machine.console.takeOutput.1), s.withConsole s.machine.console.takeOutput.2)
  | nothing (h : s.machine.console.hasOutput = false) (hruns : s.isHalted = false) : Tells s (none, s)
  | rest (h : s.machine.console.hasOutput = false) (hhalted : s.isHalted = true) {text : String}
    (hflush : s.machine.console.flush.1 = some text) :
    Tells s (some (.print text), s.withConsole s.machine.console.flush.2)
  | fault (hhalted : s.isHalted = true) (hflush : s.machine.console.flush.1 = none) {f : Fault}
    (hfault : s.fault = some f) (hreported : s.faultReported = false) :
    Tells s (some (.fault f), { s with faultReported := true })
  | notice (hhalted : s.isHalted = true) (hflush : s.machine.console.flush.1 = none)
    (hfault : s.fault = none ∨ s.faultReported = true) (hloaded : s.machine.loaded = true)
    (hnotified : s.haltNotified = false) :
    Tells s (some .halted, { s with haltNotified := true, halts := s.halts ++ [s.fault] })
  | halted (hhalted : s.isHalted = true) (hflush : s.machine.console.flush.1 = none)
    (hfault : s.fault = none ∨ s.faultReported = true)
    (hnotified : s.machine.loaded = false ∨ s.haltNotified = true) : Tells s (some .halted, s)

theorem tells_pending (s : Session) : Tells s s.pending := by
  unfold pending
  cases houtput : s.machine.console.hasOutput with
  | true => exact .text houtput
  | false =>
    cases hhalted : s.isHalted with
    | false => exact .nothing houtput hhalted
    | true =>
      simp only [Bool.not_true, Bool.false_eq_true, ↓reduceIte]
      split
      next text console heq =>
        have hrest := Tells.rest houtput hhalted (congrArg Prod.fst heq)
        rw [heq] at hrest
        exact hrest
      next console heq =>
        have hflush := congrArg Prod.fst heq
        split
        next f hfault hreported => exact .fault hhalted hflush hfault hreported
        next hfault =>
          have hfault : s.fault = none ∨ s.faultReported = true := by
            cases hf : s.fault with
            | none => exact .inl rfl
            | some f => exact .inr (Bool.of_not_eq_false (hfault f hf))
          split
          next hnotice =>
            simp only [Bool.and_eq_true, Bool.not_eq_true'] at hnotice
            exact .notice hhalted hflush hfault hnotice.2 hnotice.1
          next hnotice =>
            refine .halted hhalted hflush hfault ?_
            cases hloaded : s.machine.loaded with
            | false => exact .inl rfl
            | true => exact .inr (by simpa [hloaded] using hnotice)

def batched (s : Session) : Session :=
  match batch s.quota s.machine with
  | (.fault f, m) => { s with machine := m, fault := some f }
  | (_, m) => { s with machine := m }

inductive Executes (s : Session) : Event × Session → Prop where
  | told {e : Event} {s' : Session} (h : Tells s (some e, s')) : Executes s (e, s')
  | ran {e : Event} {s' : Session} (h : Tells s (none, s)) (hends : Tells s.batched (some e, s')) : Executes s (e, s')
  | goesOn {e : Event} (h : Tells s (none, s)) (hends : Tells s.batched (none, s.batched))
    (he : e = .awaiting ∨ e = .running) : Executes s (e, s.batched)

def orElse (e : Event) : Option Event × Session → Event × Session
  | (some told, s) => (told, s)
  | (none, s) => (e, s)

theorem executes_of_batched {s : Session} (h : Tells s (none, s)) {e : Event} (he : e = .awaiting ∨ e = .running) :
    Executes s (orElse e s.batched.pending) := by
  have hends := tells_pending s.batched
  cases hpending : s.batched.pending with
  | mk told s' =>
    rw [hpending] at hends
    cases told with
    | some told => exact .ran h hends
    | none =>
      obtain rfl : s' = s.batched := by
        cases hends
        rfl
      exact .goesOn h hends he

theorem executes_execute (s : Session) : Executes s s.execute := by
  have htells := tells_pending s
  unfold execute
  cases hpending : s.pending with
  | mk e s' =>
    rw [hpending] at htells
    cases e with
    | some e => exact .told htells
    | none =>
      obtain rfl : s' = s := by
        cases htells
        rfl
      have hexecutes (e : Event) (he : e = .awaiting ∨ e = .running) := executes_of_batched htells he
      unfold batched at hexecutes
      cases hbatch : batch s'.quota s'.machine with
      | mk ended m =>
        simp only [hbatch] at hexecutes ⊢
        cases ended with
        | done | fault f => exact hexecutes .running (.inr rfl)
        | blocked => exact hexecutes .awaiting (.inl rfl)

end Handheld.Session
