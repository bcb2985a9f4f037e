import Handheld.Proofs.Machine.Steps

/-!
Changes of the machine that an action does not see: it does the same before and after them.
-/
namespace Handheld.Machine

structure Hidden (f : Machine → Machine) : Prop where
  base : ∀ m, (f m).base = m.base := by intros; rfl
  halted : ∀ m, (f m).halted = m.halted := by intros; rfl
  stack : ∀ m, (f m).stack = m.stack := by intros; rfl
  setStack : ∀ m stack, { f m with stack := stack } = f { m with stack := stack } := by intros; rfl
  memory : ∀ m, (f m).memory = m.memory := by intros; rfl
  setMemory : ∀ m memory, { f m with memory := memory } = f { m with memory := memory } := by intros; rfl
  heap : ∀ m, (f m).heap = m.heap := by intros; rfl
  setHeap : ∀ m heap, { f m with heap := heap } = f { m with heap := heap } := by intros; rfl
  files : ∀ m, (f m).files = m.files := by intros; rfl
  setFiles : ∀ m files, { f m with files := files } = f { m with files := files } := by intros; rfl

def thenChange {α : Type} (f : Machine → Machine) :
    EStateM.Result Fault Machine α → EStateM.Result Fault Machine α
  | .ok a m => .ok a (f m)
  | .error e m => .error e (f m)

def Passes {α : Type} (f : Machine → Machine) (act : Exec α) : Prop :=
  ∀ m, act (f m) = thenChange f (act m)

variable {f : Machine → Machine}

section Actions

variable {α β : Type} {act : Exec α} {g : α → Exec β}

theorem Passes.bind_at {m : Machine} (h : act (f m) = thenChange f (act m))
    (h' : ∀ a m', act m = .ok a m' → g a (f m') = thenChange f (g a m'))
    : (act >>= g) (f m) = thenChange f ((act >>= g) m) := by
  simp only [Bind.bind, EStateM.bind, h]
  cases hact : act m with
  | ok a m' => exact h' a m' hact
  | error e m' => rfl

theorem Passes.bind (h : Passes f act) (h' : ∀ a, Passes f (g a)) : Passes f (act >>= g) :=
  fun m => bind_at (h m) fun a m' _ => h' a m'

theorem passes_pure (a : α) : Passes f (pure a) :=
  fun _ => rfl

theorem passes_throw (e : Fault) : Passes f (throw e : Exec α) :=
  fun _ => rfl

theorem Hidden.onStack (h : Hidden f) (act : StackM Int32 α) : Passes f (onStack act) := by
  intro m
  simp only [Machine.onStack, h.stack]
  cases act m.stack with
  | ok a stack => exact congrArg (EStateM.Result.ok a) (h.setStack m stack)
  | error e stack => exact congrArg (EStateM.Result.error e) (h.setStack m stack)

theorem Hidden.takeArgs (h : Hidden f) (s : Signature) : Passes f (takeArgs s) := by
  unfold Machine.takeArgs
  split
  next =>
    apply (h.onStack _).bind
    intro count
    split
    next => exact (passes_throw _).bind fun _ => (h.onStack _).bind fun _ => (h.onStack _).bind fun _ => passes_pure _
    next => exact (h.onStack _).bind fun _ => (h.onStack _).bind fun _ => passes_pure _
  next => exact (h.onStack _).bind fun _ => (h.onStack _).bind fun _ => passes_pure _

theorem Hidden.answer (h : Hidden f) (s : Signature) (value : Int32) : Passes f (answer s value) := by
  have hend : Passes f (do return if (← get).halted then .halted else .running : Exec Progress) := by
    intro m
    have hhalted := h.halted m
    change EStateM.Result.ok (if (f m).halted then _ else _) _ = _
    rw [hhalted]
    rfl
  unfold Machine.answer
  split
  next => exact (h.onStack _).bind fun _ => hend
  next => exact hend

end Actions

namespace Hidden

variable (h : Hidden f) (m : Machine)

include h

theorem withMemory (g : Memory → Memory) : (f m).withMemory g = f (m.withMemory g) := by
  simp only [Machine.withMemory, h.memory]
  exact h.setMemory m _

theorem withFiles {α : Type} (g : Files → α × Files) :
    (f m).withFiles g = ((m.withFiles g).1, f (m.withFiles g).2) := by
  simp only [Machine.withFiles, h.files]
  exact congrArg (Prod.mk _) (h.setFiles m _)

theorem address (value : Int32) : (f m).address value = m.address value := by
  simp only [Machine.address, h.base]

theorem cstr (value : Int32) : (f m).cstr value = m.cstr value := by
  simp only [Machine.cstr, h.memory, h.address]

theorem slice (value : Int32) (len : Nat) : (f m).slice value len = m.slice value len := by
  simp only [Machine.slice, h.memory, h.address]

theorem alloc (size : Int32) : (f m).alloc size = ((m.alloc size).1, f (m.alloc size).2) := by
  simp only [Machine.alloc, h.heap]
  split
  next => rfl
  next => exact congrArg (Prod.mk _) (h.setHeap m _)

theorem secret (dst count key : Int32) : (f m).secret dst count key = f (m.secret dst count key) := by
  simp only [Machine.secret, h.cstr, h.slice, h.address]
  split
  next => rfl
  next => exact h.withMemory m _

theorem fread (dst size count file : Int32) :
    (f m).fread dst size count file
      = ((m.fread dst size count file).1, f (m.fread dst size count file).2) := by
  simp only [Machine.fread, h.address, h.withFiles]
  rcases m.withFiles _ with ⟨_ | bytes, m'⟩
  · rfl
  · dsimp only
    split
    next => rfl
    next => exact congrArg (Prod.mk _) (h.withMemory m' _)

theorem fwrite (src size count file : Int32) :
    (f m).fwrite src size count file
      = ((m.fwrite src size count file).1, f (m.fwrite src size count file).2) := by
  simp only [Machine.fwrite, h.slice, h.withFiles]
  rcases m.withFiles _ with ⟨_ | n, m'⟩
  · rfl
  · rfl

theorem getc (file : Int32) : (f m).getc file = ((m.getc file).1, f (m.getc file).2) := by
  simp only [Machine.getc, h.withFiles]
  rcases m.withFiles _ with ⟨_ | _ | ⟨b, _ | ⟨b', bytes⟩⟩, m'⟩
  all_goals rfl

theorem putc (v file : Int32) : (f m).putc v file = ((m.putc v file).1, f (m.putc v file).2) := by
  simp only [Machine.putc, h.withFiles]
  rcases m.withFiles _ with ⟨_ | n, m'⟩
  · rfl
  · rfl

end Hidden

end Handheld.Machine
