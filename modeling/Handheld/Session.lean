import Handheld.Machine.Step

/-!
Sessions run a machine in batches of bounded length, and tell after each what there is to do: text was printed,
keys are needed, the program faulted or halted. A fault is told once, and after it that the program halted.
-/
namespace Handheld

inductive Event where
  | running
  | print (text : String)
  | awaiting
  | fault (fault : Fault)
  | halted
  deriving DecidableEq, Repr, Inhabited

structure Session where
  machine : Machine := {}
  quota : Nat := 5000
  fault : Option Fault := none
  faultReported : Bool := false
  haltNotified : Bool := false
  halts : List (Option Fault) := []

namespace Session

instance : Inhabited Session := ⟨{}⟩

def clearStatus (s : Session) : Session :=
  { s with fault := none, faultReported := false, haltNotified := false }

/-- Loads an image. One that is refused leaves the machine alone, and still ends what was to be told. -/
def load (s : Session) (image : Array UInt8) : Except LoadError Unit × Session :=
  let s := s.clearStatus
  match s.machine.load image with
  | .ok m => (.ok (), { s with machine := m })
  | .error e => (.error e, s)

def reset (s : Session) : Session :=
  let s := s.clearStatus
  { s with machine := s.machine.reset }

def stop (s : Session) : Session :=
  if s.machine.loaded && !s.machine.halted then { s with machine := s.machine.halt } else s

def pushKey (s : Session) (key : UInt8) : Session :=
  { s with machine := s.machine.pushKey key }

def isHalted (s : Session) : Bool :=
  !s.machine.loaded || s.machine.halted

def pending (s : Session) : Option Event × Session :=
  if s.machine.console.hasOutput then
    let (text, console) := s.machine.console.takeOutput
    (some (.print text), { s with machine := { s.machine with console := console } })
  else if !s.isHalted then
    (none, s)
  else
    match s.machine.console.flush with
    | (some text, console) =>
      (some (.print text), { s with machine := { s.machine with console := console } })
    | (none, _) =>
      match s.fault, s.faultReported with
      | some f, false => (some (.fault f), { s with faultReported := true })
      | _, _ =>
        if !s.haltNotified && s.machine.loaded then
          (some .halted, { s with haltNotified := true, halts := s.halts ++ [s.fault] })
        else
          (some .halted, s)

inductive Batch where
  | done
  | blocked
  | fault (fault : Fault)

def batch : Nat → Machine → Batch × Machine
  | 0, m => (.done, m)
  | n + 1, m =>
    match Machine.step m with
    | .ok .running m => batch n m
    | .ok .blocked m => (.blocked, m)
    | .ok .halted m => (.done, m)
    | .error f m => (.fault f, m.halt)

def execute (s : Session) : Event × Session :=
  match s.pending with
  | (some event, s) => (event, s)
  | (none, s) =>
    let machine := s.machine
    let s := { s with machine := default }
    let (ended, machine) := batch s.quota machine
    let s := { s with machine := machine }
    let s :=
      match ended with
      | .fault f => { s with fault := some f }
      | _ => s
    match s.pending with
    | (some event, s) => (event, s)
    | (none, s) =>
      match ended with
      | .blocked => (.awaiting, s)
      | _ => (.running, s)

def run : Nat → Session → Event × Session
  | 0, s => (.running, s)
  | fuel + 1, s =>
    match s.execute with
    | (.running, s) | (.print _, s) => run fuel s
    | (event, s) => (event, s)

end Session
end Handheld
