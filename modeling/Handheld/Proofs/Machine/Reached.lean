import Handheld.Proofs.Except
import Handheld.Proofs.Machine.Steps

/-!
The states of a machine that runs an image, from the one in which the image is loaded.
-/
namespace Handheld.Machine

variable {m m0 : Machine} {image : Array UInt8}

def installed (m : Machine) (image : Array UInt8) (header : Header) : Machine :=
  { m.reset with
    header := header
    image := image
    pc := header.entry.toNat
    lastPc := header.entry.toNat
    console := { width := header.width.toNat, height := header.height.toNat }
    loaded := true }

theorem load_of_parse_error {e : LoadError} (h : Header.parse image.toList = .error e) : m.load image = .error e := by
  simp [load, h, Bind.bind, Except.bind]

theorem load_eq_ok_iff :
    m0.load image = .ok m ↔ ∃ header, Header.parse image.toList = .ok header ∧ m = m0.installed image header := by
  simp only [load, Except.bind_eq_ok_iff, Except.pure_eq_ok_iff, eq_comm (a := m)]
  rfl

/--
The states to which an image leads, where every instruction starts in a state with `guard`. Between the instructions,
what is outside of the program can change as it likes: the keys that wait, the clock, the output that is not taken yet,
screen, font and files, and whether the program may go on.
-/
inductive Reached (guard : Machine → Prop) : Machine → Prop where
  | load {m0 m : Machine} {image : Array UInt8} (h : m0.load image = .ok m) : Reached guard m
  | step {m : Machine} (h : Reached guard m) (hguard : guard m) : Reached guard (after (step m))
  | outside {m : Machine} (h : Reached guard m) (keys : List UInt8) (clock : Clock) (pending : Array UInt8)
    (display : Display) (font : Font) (files : Files) (halted : Bool) :
    Reached guard
      { m with
        keys := keys
        clock := clock
        console := { m.console with pending := pending }
        display := display
        font := font
        files := files
        halted := halted }

theorem ready_of_load (h : m0.load image = .ok m) : m.Ready := by
  obtain ⟨header, -, rfl⟩ := load_eq_ok_iff.mp h
  exact ⟨rfl, rfl⟩

def ran (image : Array UInt8) : Nat → Machine
  | 0 =>
    match ({} : Machine).load image with
    | .ok m => m
    | .error _ => {}
  | n + 1 => after (step (ran image n))

theorem reached_ran {guard : Machine → Prop} (hload : ({} : Machine).load image = .ok (ran image 0)) (n : Nat)
    (hguard : ∀ i < n, guard (ran image i)) : Reached guard (ran image n) := by
  induction n with
  | zero => exact .load hload
  | succ n ih =>
    apply (ih fun i hi => hguard i (Nat.lt_succ_of_lt hi)).step
    exact hguard n (Nat.lt_succ_self n)

end Handheld.Machine
