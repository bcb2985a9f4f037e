import Handheld.Machine.Step
import Handheld.Proofs.Opcode

/-!
What an instruction leaves alone: a part of the state that looks at none of the fields which the instruction changes.
-/
namespace Handheld

def Opcode.writes : Opcode → Bool
  | store | step _ _ | pushStr | init | call | func => true
  | _ => false

def Opcode.moves : Opcode → Bool
  | call | func | ret | space => true
  | _ => false

def Call.prints : Call → Bool
  | putchar | printf => true
  | _ => false

def Call.onConsole : Call → Bool
  | putchar | printf | setscreen | clearscreen | locate => true
  | _ => false

def Call.takesKeys : Call → Bool
  | getchar | inkey | getword => true
  | _ => false

namespace Machine

def after {α : Type} : EStateM.Result Fault Machine α → Machine
  | .ok _ m => m
  | .error _ m => m

def Keeps {α β : Type} (part : Machine → β) (act : Exec α) : Prop :=
  ∀ m, part (after (act m)) = part m

section Actions

variable {α β γ : Type} {part : Machine → γ}

theorem Keeps.bind {act : Exec α} {f : α → Exec β} (h : Keeps part act) (h' : ∀ a, Keeps part (f a)) :
    Keeps part (act >>= f) := by
  intro m
  have hact := h m
  simp only [Bind.bind, EStateM.bind]
  cases hrun : act m with
  | ok a m1 =>
    rw [hrun] at hact
    exact (h' a m1).trans hact
  | error e m1 =>
    rw [hrun] at hact
    exact hact

theorem keeps_pure (a : α) : Keeps part (pure a) :=
  fun _ => rfl

theorem keeps_throw (e : Fault) : Keeps part (throw e : Exec α) :=
  fun _ => rfl

theorem keeps_get : Keeps part get :=
  fun _ => rfl

theorem keeps_modify {f : Machine → Machine} (h : ∀ m, part (f m) = part m) : Keeps part (modify f) :=
  h

theorem keeps_modifyGet {f : Machine → α × Machine} (h : ∀ m, part (f m).2 = part m) : Keeps part (modifyGet f) :=
  h

theorem keeps_loadFrom (h : Handle) : Keeps part (loadFrom h) :=
  fun _ => rfl

theorem keeps_frameEnd (start : UInt16) (size : Nat) : Keeps part (frameEnd start size) := by
  unfold frameEnd
  split
  next => exact keeps_throw _
  next => exact keeps_pure _

theorem keeps_fetch (hpc : ∀ m pc, part { m with pc := pc } = part m) (len : Nat) : Keeps part (fetch len) := by
  intro m
  unfold fetch
  split
  next => exact hpc m _
  next => rfl

theorem keeps_fetchString (hpc : ∀ m pc, part { m with pc := pc } = part m) : Keeps part fetchString := by
  intro m
  unfold fetchString
  split
  next => exact hpc m _
  next => exact hpc m _

theorem keeps_onStack (hstack : ∀ m stack, part { m with stack := stack } = part m) (act : StackM Int32 α) :
    Keeps part (onStack act) := by
  intro m
  simp only [onStack]
  split
  next => exact hstack m _
  next => exact hstack m _

end Actions

section Instructions

variable {γ : Type} {part : Machine → γ} {op : Opcode}

structure Spared (part : Machine → γ) (op : Opcode) : Prop where
  position : ∀ m pc, part { m with pc := pc } = part m := by intros; rfl
  stack : ∀ m stack, part { m with stack := stack } = part m := by intros; rfl
  memory : op.writes = true → ∀ m memory, part { m with memory := memory } = part m := by intros; rfl
  frame : op.moves = true → ∀ m base base2, part { m with base := base, base2 := base2 } = part m := by intros; rfl
  literals : op = .pushStr → ∀ m strings literals,
    part { m with strings := strings, literals := literals } = part m := by intros; rfl
  halted : op = .exit → ∀ m, part m.halt = part m := by intros; rfl

namespace Spared

section

variable (h : Spared part op)

include h

theorem fetch (len : Nat) : Keeps part (Machine.fetch len) :=
  keeps_fetch h.position len

theorem push (v : Int32) : Keeps part (Machine.push v) :=
  keeps_onStack h.stack _

theorem pop : Keeps part Machine.pop :=
  keeps_onStack h.stack _

theorem jump (target : Nat) : Keeps part (Machine.jump target) :=
  keeps_modify fun m => h.position m target

theorem branch (b : Bool) (target : Nat) :
    Keeps part (if b then do Machine.jump target; pure Progress.running else pure Progress.running) := by
  split
  next => exact (h.jump target).bind fun _ => keeps_pure _
  next => exact keeps_pure _

theorem storeTo (hop : op.writes = true) (handle : Handle) (v : Int32) : Keeps part (Machine.storeTo handle v) :=
  fun m => h.memory hop m _

end

theorem literal (h : Spared part .pushStr) (position : Nat) (bytes : List UInt8) (m : Machine) :
    part (m.literal position bytes).2 = part m := by
  unfold Machine.literal
  split
  next => exact h.memory rfl m _
  next =>
    have hmemory := h.memory rfl m (m.intern bytes).2.memory
    exact (h.literals rfl { m with memory := (m.intern bytes).2.memory } (m.intern bytes).2.strings _).trans hmemory

theorem access (h : Spared part op) (a : Access) (handle : Handle) : Keeps part (Machine.access a handle) := by
  cases a with
  | load => exact (keeps_loadFrom handle).bind fun v => h.push v
  | handle => exact h.push _
  | indexed => exact keeps_get.bind fun m => h.pop.bind fun v => (keeps_loadFrom _).bind fun w => h.push w
  | effective => exact keeps_get.bind fun m => h.pop.bind fun v => h.push _

theorem enter (h : Spared part .call) (target : Nat) : Keeps part (Machine.enter target) := by
  apply keeps_get.bind
  intro m
  apply (keeps_frameEnd _ _).bind
  intro _
  apply keeps_modify
  intro m
  let memory := (m.memory.writeLE m.base2 3 (UInt32.ofNat m.pc)).writeLE (m.base2 + 3) 2 m.base.toUInt32
  calc
    part { m with memory := memory, pc := target, base := m.base2 }
    _ = part { m with memory := memory, pc := target } :=
      h.frame rfl { m with memory := memory, pc := target } m.base2 m.base2
    _ = part { m with memory := memory } := h.position { m with memory := memory } target
    _ = part m := h.memory rfl m memory

theorem openFrame (h : Spared part .func) (size argc : Nat) : Keeps part (Machine.openFrame size argc) := by
  apply keeps_get.bind
  intro m
  apply (keeps_frameEnd _ _).bind
  intro stop
  apply (keeps_modify fun m => h.frame rfl m m.base stop).bind
  intro _
  apply (keeps_onStack h.stack _).bind
  intro args
  apply (keeps_modify fun m => h.memory rfl m _).bind
  intro _
  exact keeps_onStack h.stack _

theorem leave (h : Spared part .ret) : Keeps part Machine.leave := by
  apply keeps_modify
  intro m
  have hpc := h.position m (m.memory.readLE m.base 3).toNat
  exact (h.frame rfl { m with pc := (m.memory.readLE m.base 3).toNat } _ m.base).trans hpc

theorem copyCode (h : Spared part .init) (addr : UInt16) (len : Nat) : Keeps part (Machine.copyCode addr len) := by
  intro m
  unfold Machine.copyCode
  split
  next =>
    have hmemory := h.memory rfl m (m.memory.copyIn addr (m.image.extract m.pc (m.pc + len)).toList)
    exact (h.position (m.withMemory (·.copyIn addr (m.image.extract m.pc (m.pc + len)).toList)) _).trans hmemory
  next => rfl

theorem execute (h : Spared part op) : Keeps part (Machine.execute op) := by
  cases op with
  | nop => exact keeps_pure _
  | push w =>
    cases w with
    | byte => exact (h.fetch 1).bind fun v => (h.push _).bind fun _ => keeps_pure _
    | word => exact (h.fetch 2).bind fun v => (h.push _).bind fun _ => keeps_pure _
    | dword => exact (h.fetch 4).bind fun v => (h.push _).bind fun _ => keeps_pure _
  | access a w relative => exact (h.fetch 2).bind fun addr => (h.access a _).bind fun _ => keeps_pure _
  | cast w => exact h.pop.bind fun addr => (h.push _).bind fun _ => keeps_pure _
  | pushStr =>
    apply (keeps_fetchString h.position).bind
    intro bytes
    apply (keeps_modifyGet fun m => h.literal m.lastPc bytes m).bind
    intro addr
    exact (h.push _).bind fun _ => keeps_pure _
  | load => exact h.pop.bind fun v => (keeps_loadFrom _).bind fun w => (h.push w).bind fun _ => keeps_pure _
  | store =>
    exact h.pop.bind fun v => h.pop.bind fun w => (h.storeTo rfl _ v).bind fun x => (h.push x).bind fun _ =>
      keeps_pure _
  | pop => exact h.pop.bind fun _ => keeps_pure _
  | dup => exact (keeps_onStack h.stack _).bind fun v => (h.push v).bind fun _ => keeps_pure _
  | neg | not | lnot => exact h.pop.bind fun v => (h.push _).bind fun _ => keeps_pure _
  | step up before =>
    exact h.pop.bind fun v => (keeps_loadFrom _).bind fun old => (h.storeTo rfl _ _).bind fun new =>
      (h.push _).bind fun _ => keeps_pure _
  | binary op => exact (keeps_onStack h.stack _).bind fun p => (h.push _).bind fun _ => keeps_pure _
  | jmp => exact (h.fetch 3).bind fun t => (h.jump _).bind fun _ => keeps_pure _
  | jz | jnz => exact (h.fetch 3).bind fun t => h.pop.bind fun v => h.branch _ _
  | call => exact (h.fetch 3).bind fun t => (h.enter _).bind fun _ => keeps_pure _
  | func => exact (h.fetch 2).bind fun size => (h.fetch 1).bind fun argc => (h.openFrame _ _).bind fun _ => keeps_pure _
  | ret => exact h.leave.bind fun _ => keeps_pure _
  | exit => exact (keeps_modify (h.halted rfl)).bind fun _ => keeps_pure _
  | space =>
    exact (h.fetch 2).bind fun size => (keeps_frameEnd _ _).bind fun top =>
      (keeps_modify fun m => h.frame rfl m top top).bind fun _ => keeps_pure _
  | init =>
    exact (h.fetch 2).bind fun addr => (h.fetch 2).bind fun len => (h.copyCode _ _).bind fun _ => keeps_pure _

end Spared

end Instructions

section Calls

variable {γ : Type} {part : Machine → γ} {c : Call}

structure SparedByCall (part : Machine → γ) (c : Call) : Prop where
  memory : ∀ m memory, part { m with memory := memory } = part m := by intros; rfl
  heap : c = .alloc → ∀ m heap, part { m with heap := heap } = part m := by intros; rfl
  keys : c.takesKeys = true → ∀ m keys, part { m with keys := keys } = part m := by intros; rfl
  random : ∀ m random, part { m with random := random } = part m := by intros; rfl
  display : ∀ m display, part { m with display := display } = part m := by intros; rfl
  files : ∀ m files, part { m with files := files } = part m := by intros; rfl
  halted : ∀ m, part m.halt = part m := by intros; rfl
  console : c.onConsole = true → ∀ m console, (c.prints = true ∨ console.pending = m.console.pending) →
    part { m with console := console } = part m := by intros; rfl

namespace SparedByCall

section

variable (h : SparedByCall part c)

include h

theorem withMemory (m : Machine) (f : Memory → Memory) : part (m.withMemory f) = part m :=
  h.memory m _

theorem withConsole (hc : c.onConsole = true) (m : Machine) {f : Console → Memory → Console × Memory}
    (hf : c.prints = true ∨ ∀ console memory, (f console memory).1.pending = console.pending)
    : part (m.withConsole f) = part m := by
  have hmemory := h.memory m (f m.console m.memory).2
  have hpending := hf.imp id fun hf => hf m.console m.memory
  exact (h.console hc { m with memory := (f m.console m.memory).2 } (f m.console m.memory).1 hpending).trans hmemory

theorem withFiles {α : Type} (m : Machine) (f : Files → α × Files) : part (m.withFiles f).2 = part m :=
  h.files m _

theorem of_withFiles {α : Type} {m m' : Machine} {f : Files → α × Files} {r : α} (heq : m.withFiles f = (r, m')) :
    part m' = part m := by
  have hfiles := h.withFiles m f
  rwa [heq] at hfiles

theorem draw (m : Machine) (kind : Int32) (f : Raster → Raster) : part (m.draw kind f) = part m :=
  h.memory m _

theorem takeWord (hc : c.takesKeys = true) (m : Machine) : part m.takeWord.2 = part m := by
  unfold Machine.takeWord
  dsimp only
  split
  next => exact h.keys hc m _
  next => exact (h.keys hc { m with keys := m.keys.tail } _).trans (h.keys hc m _)

end

theorem alloc (h : SparedByCall part .alloc) (m : Machine) (size : Int32) : part (m.alloc size).2 = part m := by
  unfold Machine.alloc
  dsimp only
  split
  next => rfl
  next => exact h.heap rfl m _

section

variable (h : SparedByCall part c)

include h

theorem secret (m : Machine) (dst count key : Int32) : part (m.secret dst count key) = part m := by
  unfold Machine.secret
  dsimp only
  split
  next => rfl
  next => exact h.memory m _

theorem fread (m : Machine) (dst size count file : Int32) : part (m.fread dst size count file).2 = part m := by
  unfold Machine.fread
  dsimp only
  split
  next bytes m' heq =>
    split
    next => exact h.of_withFiles heq
    next => rw [h.withMemory, h.of_withFiles heq]
  next m' heq => exact h.of_withFiles heq

theorem fwrite (m : Machine) (src size count file : Int32) : part (m.fwrite src size count file).2 = part m := by
  unfold Machine.fwrite
  dsimp only
  split
  all_goals
    rename_i heq
    exact h.of_withFiles heq

theorem getc (m : Machine) (file : Int32) : part (m.getc file).2 = part m := by
  unfold Machine.getc
  split
  next heq => exact h.of_withFiles heq
  next heq => exact h.of_withFiles heq

theorem putc (m : Machine) (v file : Int32) : part (m.putc v file).2 = part m := by
  unfold Machine.putc
  split
  all_goals
    rename_i heq
    exact h.of_withFiles heq

end

theorem putchar (h : SparedByCall part .putchar) (m : Machine) (v : Int32) : part (m.putchar v) = part m := by
  unfold Machine.putchar
  exact h.withConsole rfl m (.inl rfl)

theorem printf (h : SparedByCall part .printf) (m : Machine) (fmt : Int32) (args : List Int32) :
    part (m.printf fmt args) = part m := by
  unfold Machine.printf
  exact h.withConsole rfl m (.inl rfl)

theorem clearScreen (h : SparedByCall part .clearscreen) (m : Machine) : part m.clearScreen = part m :=
  (h.draw _ 0 _).trans (h.withConsole rfl m (.inr fun _ _ => rfl))

theorem refresh (h : SparedByCall part c) (m : Machine) : part m.refresh = part m :=
  (h.display _ _).trans (h.withMemory m _)

theorem dispatch (h : SparedByCall part c) (m : Machine) (extra : List Int32) :
    part (m.dispatch c extra).2 = part m := by
  cases c with
  | putchar => exact h.putchar m _
  | printf => exact h.printf m _ _
  | setscreen => exact h.withConsole (f := fun console memory => console.setFont memory _) rfl m (.inr fun _ _ => rfl)
  | clearscreen => exact h.clearScreen m
  | locate => exact h.console rfl m _ (.inr rfl)
  | getchar | inkey => exact h.keys rfl m _
  | getword => exact h.takeWord rfl m
  | sprintf | strcpy | strcat | memset | memcpy | gettime | getblock => exact h.memory m _
  | secret => exact h.secret m _ _ _
  | rand | srand => exact h.random m _
  | exit => exact h.halted m
  | alloc => exact h.alloc m _
  | refresh => exact h.refresh m
  | point | line | rectangle | block | box | circle | ellipse | fill | writeblock | textout => exact h.memory m _
  | fopen | fclose | fseek | rewind | deletefile => exact h.files m _
  | fread => exact h.fread m _ _ _ _
  | fwrite => exact h.fwrite m _ _ _ _
  | getc => exact h.getc m _
  | putc => exact h.putc m _ _
  | checkkey | strlen | strcmp | strchr | strstr | tolower | toupper | crc16 | isalnum | isalpha | iscntrl | isdigit
  | isgraph | islower | isprint | ispunct | isspace | isupper | isxdigit | abs | delay | beep | getms | getpoint
  | ftell | feof => rfl

end SparedByCall

end Calls

end Machine
end Handheld
