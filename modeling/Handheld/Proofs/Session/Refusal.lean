import Handheld.Proofs.Session.Protocol

/-!
Images that are refused leave the machine alone, but the session forgets how its program ended and what it told of that.
-/
namespace Handheld.Session

/-- What can be asked of a session. A caller can also get hold of the machine and change it. -/
inductive Request where
  | load (image : Array UInt8)
  | reset
  | act (a : Action)
  | edit (f : Machine → Machine)

inductive Answer where
  | loaded (result : Except LoadError Unit)
  | told (events : List Event)

def serve (s : Session) : Request → Answer × Session
  | .load image => (.loaded (s.load image).1, (s.load image).2)
  | .reset => (.told [], s.reset)
  | .act a => (.told (s.act a).1, (s.act a).2)
  | .edit f => (.told [], { s with machine := f s.machine })

def serves (s : Session) : List Request → List Answer × Session
  | [] => ([], s)
  | r :: rs => ((s.serve r).1 :: ((s.serve r).2.serves rs).1, ((s.serve r).2.serves rs).2)

def fresh (host : Machine) (quota : Nat) : Session where
  machine := host.reset
  quota := quota

def sight (s : Session) : Option Fault × List (Option Fault) × Machine :=
  (s.fault, s.halts, s.machine)

def Alike (s s' : Session) : Prop :=
  ∀ rs, (s.serves rs).1 = (s'.serves rs).1 ∧ (s.serves rs).2.sight = (s'.serves rs).2.sight

structure Quiet (s : Session) : Prop where
  fault : s.fault = none
  notified : s.haltNotified = false

def isOver (s : Session) : Bool :=
  s.machine.loaded && s.machine.halted

def owed (s : Session) : Nat :=
  (s.isOver && !s.haltNotified).toNat

def endings (s : Session) : List Request → Nat
  | [] => 0
  | r :: rs => (!s.isOver && (s.serve r).2.isOver).toNat + (s.serve r).2.endings rs

def Orderly (s : Session) : List Request → Prop
  | [] => True
  | r :: rs =>
    (∀ image e, r = .load image → Header.parse image.toList = .error e → s.Quiet) ∧ (s.serve r).2.Orderly rs

variable {s s' : Session} {image : Array UInt8} {told : Option Event}

theorem load_of_parse_error {e : LoadError} (h : Header.parse image.toList = .error e) :
    s.load image = (.error e, s.clearStatus) := by
  simp [load, Machine.load_of_parse_error h]

theorem load_of_parse_ok {header : Header} (h : Header.parse image.toList = .ok header) :
    s.load image = (.ok (), { s.clearStatus with machine := s.machine.installed image header }) := by
  have hload : s.machine.load image = .ok (s.machine.installed image header) :=
    Machine.load_eq_ok_iff.mpr ⟨header, h, rfl⟩
  have hclear : s.clearStatus.machine = s.machine := rfl
  simp [load, hclear, hload]

def Reports (s : Session) : Prop :=
  s.faultReported = true → s.fault ≠ none

section

variable (h : s.Reports)

include h

theorem Reports.tells (htells : Tells s (told, s')) : s'.Reports := by
  cases htells with
  | fault _ _ hfault => exact fun _ hnone => by cases hfault.symm.trans hnone
  | text | nothing | rest | notice | halted => exact h

theorem Reports.batched : s.batched.Reports := by
  unfold Session.batched
  split
  next => exact fun _ => Option.some_ne_none _
  next => exact h

theorem Reports.execute : s.execute.2.Reports := by
  have hexecutes := executes_execute s
  generalize s.execute = r at hexecutes ⊢
  cases hexecutes with
  | told htells => exact h.tells htells
  | ran _ hends => exact h.batched.tells hends
  | goesOn => exact h.batched

theorem Reports.serve (r : Request) : (s.serve r).2.Reports := by
  cases r with
  | load image =>
    simp only [Session.serve]
    cases hparse : Header.parse image.toList with
    | error e =>
      rw [load_of_parse_error hparse]
      exact fun hreported => by cases hreported
    | ok header =>
      rw [load_of_parse_ok hparse]
      exact fun hreported => by cases hreported
  | reset => exact fun hreported => by cases hreported
  | edit => exact h
  | act a =>
    cases a with
    | execute => exact h.execute
    | pushKey | tick => exact h
    | stop =>
      simp only [Session.serve, Session.act, stop]
      split
      next => exact h
      next => exact h

theorem Reports.serves (rs : List Request) : (s.serves rs).2.Reports := by
  induction rs generalizing s with
  | nil => exact h
  | cons r rs ih => exact ih (h.serve r)

theorem Reports.clearStatus (hquiet : s.Quiet) : s.clearStatus = s := by
  have hreported : s.faultReported = false := Bool.eq_false_iff.mpr fun hreported => h hreported hquiet.fault
  obtain ⟨machine, quota, fault, reported, notified, halts⟩ := s
  obtain rfl : fault = none := hquiet.fault
  obtain rfl : reported = false := hreported
  obtain rfl : notified = false := hquiet.notified
  rfl

end

theorem quiet_of_alike (h : Alike s.clearStatus s) : s.Quiet := by
  have hfault : s.fault = none := (congrArg Prod.fst (h []).2).symm
  refine ⟨hfault, Bool.eq_false_iff.mpr fun hnotified => ?_⟩
  -- a halt that is forgotten is noted again, even if the machine was exchanged meanwhile
  let halted : Machine := { loaded := true, halted := true }
  have hhalts := congrArg (fun x => x.2.1) (h [.edit fun _ => halted, .act .execute]).2
  have hagain : (Session.execute { s.clearStatus with machine := halted }).2.halts = s.halts ++ [none] := rfl
  have honce : (Session.execute { s with machine := halted }).2.halts = s.halts := by
    have hhalted : Session.isHalted { s with machine := halted } = true := rfl
    obtain ⟨e, s', hexecute, htells⟩ := tells_of_isHalted hhalted
    rw [hexecute]
    cases htells with
    | notice _ _ _ _ hnot => cases hnotified.symm.trans hnot
    | text | rest | fault | halted => rfl
  have hlength := congrArg List.length ((hagain.symm.trans hhalts).trans honce)
  simp at hlength

theorem owed_le_of_same (hhalts : s'.halts = s.halts) (hnotified : s'.haltNotified = s.haltNotified) :
    s'.halts.length + s'.owed ≤ s.halts.length + s.owed + (!s.isOver && s'.isOver).toNat := by
  unfold owed
  rw [hhalts, hnotified]
  cases s.isOver <;> cases s'.isOver <;> cases s.haltNotified <;> simp

theorem Tells.isOver (h : Tells s (told, s')) : s'.isOver = s.isOver := by
  cases h <;> rfl

theorem Tells.owed_le (h : Tells s (told, s')) : s'.halts.length + s'.owed ≤ s.halts.length + s.owed := by
  cases h with
  | notice hhalted _ _ hloaded hnotified =>
    have hover : s.isOver = true := by
      rw [isHalted, hloaded] at hhalted
      simpa [Session.isOver, hloaded] using hhalted
    simp [owed, hover, hnotified]
  | text | nothing | rest | fault | halted => exact Nat.le_refl _

theorem owed_le_of_execute (s : Session) :
    s.execute.2.halts.length + s.execute.2.owed
      ≤ s.halts.length + s.owed + (!s.isOver && s.execute.2.isOver).toNat := by
  have hbatched : s.batched.halts.length + s.batched.owed
      ≤ s.halts.length + s.owed + (!s.isOver && s.batched.isOver).toNat := by
    apply owed_le_of_same
    · unfold batched
      split <;> rfl
    · unfold batched
      split <;> rfl
  have hexecutes := executes_execute s
  generalize s.execute = r at hexecutes ⊢
  cases hexecutes with
  | told htells => exact Nat.le_add_right_of_le htells.owed_le
  | ran _ hends =>
    rw [hends.isOver]
    exact hends.owed_le.trans hbatched
  | goesOn => exact hbatched

theorem owed_le_of_not_isOver {n : Nat} (hhalts : s'.halts = s.halts) (hover : s'.isOver = false) :
    s'.halts.length + s'.owed ≤ s.halts.length + s.owed + n := by
  simp only [owed, hhalts, hover, Bool.false_and, Bool.toNat_false]
  omega

theorem owed_le_of_serve {r : Request} (h : ∀ image e, r = .load image → Header.parse image.toList = .error e → s.Quiet)
    : (s.serve r).2.halts.length + (s.serve r).2.owed
        ≤ s.halts.length + s.owed + (!s.isOver && (s.serve r).2.isOver).toNat := by
  cases r with
  | load image =>
    simp only [serve]
    cases hparse : Header.parse image.toList with
    | error e =>
      rw [load_of_parse_error hparse]
      exact owed_le_of_same rfl (h image e rfl hparse).notified.symm
    | ok header =>
      rw [load_of_parse_ok hparse]
      exact owed_le_of_not_isOver rfl rfl
  | reset => exact owed_le_of_not_isOver rfl rfl
  | edit => exact owed_le_of_same rfl rfl
  | act a =>
    cases a with
    | execute => exact owed_le_of_execute s
    | pushKey | tick => exact owed_le_of_same rfl rfl
    | stop =>
      apply owed_le_of_same
      · simp only [serve, act, stop]
        split <;> rfl
      · simp only [serve, act, stop]
        split <;> rfl

theorem owed_le_of_serves {rs : List Request} (h : s.Orderly rs) :
    (s.serves rs).2.halts.length + (s.serves rs).2.owed ≤ s.halts.length + s.owed + s.endings rs := by
  induction rs generalizing s with
  | nil => exact Nat.le_refl _
  | cons r rs ih =>
    have hnow := owed_le_of_serve h.1
    have hlater := ih h.2
    simp only [serves, endings]
    omega

/--
An image that is refused leaves the machine alone. Whatever was asked before and is asked later, nothing tells that it
was refused if and only if at that time neither a fault of the program is known nor its halt was told. If images are
refused at such times only, one halt is noted at most for each time that a program ends.
-/
theorem refused_load (host : Machine) (quota : Nat) (rs : List Request) {e : LoadError}
    (h : Header.parse image.toList = .error e)
    : let s := ((fresh host quota).serves rs).2
      (s.load image).1 = .error e ∧ (s.load image).2.machine = s.machine
        ∧ (Alike (s.load image).2 s ↔ s.Quiet)
        ∧ ∀ more, s.Orderly more → (s.serves more).2.halts.length ≤ s.halts.length + s.owed + s.endings more := by
  intro s
  have hreports : s.Reports := by
    apply Reports.serves
    exact fun hreported => by cases hreported
  rw [load_of_parse_error h]
  refine ⟨rfl, rfl, ⟨quiet_of_alike, fun hquiet => ?_⟩, fun more horderly => ?_⟩
  · rw [hreports.clearStatus hquiet]
    exact fun _ => ⟨rfl, rfl⟩
  · exact (Nat.le_add_right _ _).trans (owed_le_of_serves horderly)

def waiting : Array UInt8 :=
  (({} : Header).toBytes ++ [0x81, 0x3A]).toArray

theorem refused_load_waiting :
    let s := ((fresh {} 5000).serves [.load waiting, .act .execute]).2
    Header.parse #[0x4C].toList = .error (.tooShort 1) ∧ s.Quiet ∧ (s.load #[0x4C]).1 = .error (.tooShort 1)
      ∧ Alike (s.load #[0x4C]).2 s := by
  intro s
  have hparse : Header.parse #[0x4C].toList = .error (.tooShort 1) := rfl
  have hquiet : s.Quiet := ⟨by decide +kernel, by decide +kernel⟩
  obtain ⟨hload, -, halike, -⟩ := refused_load {} 5000 [.load waiting, .act .execute] hparse
  exact ⟨hparse, hquiet, hload, halike.mpr hquiet⟩

def unknown : Array UInt8 :=
  (({} : Header).toBytes ++ [0x2C]).toArray

/-- Once its fault and its halt were told, refusing an image makes the fault unknown, and the halt is noted again. -/
theorem refused_load_unknown :
    let s := ((fresh {} 5000).serves [.load unknown, .act .execute, .act .execute]).2
    Header.parse #[0x4C].toList = .error (.tooShort 1)
      ∧ s.fault = some (.invalidOpcode 0x2C) ∧ (s.load #[0x4C]).2.fault = none
      ∧ s.execute.2.halts = [some (.invalidOpcode 0x2C)]
      ∧ (s.load #[0x4C]).2.execute.2.halts = [some (.invalidOpcode 0x2C), none]
      ∧ ¬Alike (s.load #[0x4C]).2 s := by
  intro s
  have hfault : s.fault = some (.invalidOpcode 0x2C) := by decide +kernel
  have hforgotten : (s.load #[0x4C]).2.fault = none := rfl
  refine ⟨rfl, hfault, hforgotten, by decide +kernel, by decide +kernel, fun halike => ?_⟩
  have hsame : (s.load #[0x4C]).2.fault = s.fault := congrArg Prod.fst (halike []).2
  cases hforgotten.symm.trans (hsame.trans hfault)

end Handheld.Session
