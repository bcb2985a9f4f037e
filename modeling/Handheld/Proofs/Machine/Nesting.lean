import Handheld.Proofs.Machine.Reached

/-!
Calls nest and returns restore: as long as nothing else touches the headers of open frames, a return leads back behind
its call, into the caller's frame.
-/
namespace Handheld.Machine

variable {size argc : Nat} {s s' : Stack Int32} {args : List Int32}

variable {len : Nat} {u : Unit} {op : Opcode} {m0 : Machine}

variable {m m' : Machine} {p : Progress}

structure About (m : Machine) (op : Opcode) : Prop extends m.Live where
  code : m.opcodeByte = op.code

instance (m : Machine) (op : Opcode) : Decidable (m.About op) :=
  decidable_of_iff (m.Live ∧ m.opcodeByte = op.code)
    ⟨fun ⟨hlive, hcode⟩ => ⟨hlive, hcode⟩, fun h => ⟨h.toLive, h.code⟩⟩

structure AboutCall (m : Machine) : Prop extends m.Live where
  first : Call.firstCode ≤ m.opcodeByte
  last : m.opcodeByte ≤ Call.lastCode

theorem fetch_eq_ok_iff {v : UInt32} :
    fetch len m = .ok v m'
      ↔ m.pc + len ≤ m.image.size ∧ v = codeLE m.image m.pc len ∧ m' = { m with pc := m.pc + len } := by
  unfold fetch
  split
  next h => simp [h, eq_comm]
  next h => simp [h]

theorem frameEnd_eq_ok_iff {start stop : UInt16} :
    frameEnd start size m = .ok stop m'
      ↔ start.toNat + size ≤ Memory.heapStart.toNat ∧ stop = start + UInt16.ofNat size ∧ m' = m := by
  unfold frameEnd
  split
  next h =>
    simp only [Nat.not_le.mpr h, false_and, iff_false]
    exact nofun
  next h =>
    have hpure : (pure (start + UInt16.ofNat size) : Exec UInt16) m = .ok (start + UInt16.ofNat size) m := rfl
    rw [hpure]
    simp [Nat.not_lt.mp h, eq_comm]

theorem onStack_eq_ok_iff {α : Type} {act : StackM Int32 α} {a : α} :
    onStack act m = .ok a m' ↔ ∃ s, act m.stack = .ok a s ∧ m' = { m with stack := s } := by
  simp only [onStack]
  cases hact : act m.stack with
  | ok b s => simp [eq_comm]
  | error e s => simp

def entered (m : Machine) : Machine :=
  { m with
    pc := (codeLE m.image (m.pc + 1) 3).toNat
    lastPc := m.pc
    base := m.base2
    memory := (m.memory.writeLE m.base2 3 (UInt32.ofNat (m.pc + 4))).writeLE (m.base2 + 3) 2 m.base.toUInt32 }

theorem enter_eq_ok_iff {target : Nat} :
    enter target m = .ok u m'
      ↔ m.base2.toNat + Memory.frameHeader ≤ Memory.heapStart.toNat
        ∧ m' =
          { m with
            pc := target
            base := m.base2
            memory := (m.memory.writeLE m.base2 3 (UInt32.ofNat m.pc)).writeLE (m.base2 + 3) 2 m.base.toUInt32 } := by
  constructor
  · intro h
    obtain ⟨_, _, hget, hrest⟩ := bind_eq_ok_iff.mp h
    cases hget
    obtain ⟨_, _, hend, hdone⟩ := bind_eq_ok_iff.mp hrest
    obtain ⟨hbelow, -, rfl⟩ := frameEnd_eq_ok_iff.mp hend
    cases hdone
    exact ⟨hbelow, rfl⟩
  · rintro ⟨hbelow, rfl⟩
    apply bind_eq_ok_iff.mpr
    refine ⟨m, m, rfl, bind_eq_ok_iff.mpr ⟨_, m, frameEnd_eq_ok_iff.mpr ⟨hbelow, rfl, rfl⟩, rfl⟩⟩

theorem step_call_eq_ok_iff (h : m.About .call) :
    step m = .ok p m'
      ↔ m.pc + 4 ≤ m.image.size ∧ m.base2.toNat + Memory.frameHeader ≤ Memory.heapStart.toNat
        ∧ p = .running ∧ m' = m.entered := by
  rw [step_eq_execute h.toLive h.code]
  constructor
  · intro hstep
    obtain ⟨target, m1, hfetch, hrest⟩ := bind_eq_ok_iff.mp hstep
    obtain ⟨hroom, rfl, rfl⟩ := fetch_eq_ok_iff.mp hfetch
    obtain ⟨_, m2, henter, hdone⟩ := bind_eq_ok_iff.mp hrest
    obtain ⟨hbelow, rfl⟩ := enter_eq_ok_iff.mp henter
    cases hdone
    exact ⟨hroom, hbelow, rfl, rfl⟩
  · rintro ⟨hroom, hbelow, rfl, rfl⟩
    apply bind_eq_ok_iff.mpr
    refine ⟨_, _, fetch_eq_ok_iff.mpr ⟨hroom, rfl, rfl⟩, ?_⟩
    exact bind_eq_ok_iff.mpr ⟨(), _, enter_eq_ok_iff.mpr ⟨hbelow, rfl⟩, rfl⟩

theorem step_call (h : m.About .call) (hstep : step m = .ok p m') :
    m.pc + 4 ≤ m.image.size ∧ m.base2.toNat + Memory.frameHeader ≤ Memory.heapStart.toNat
      ∧ m'.base = m.base2 ∧ m'.base2 = m.base2
      ∧ m'.memory
        = (m.memory.writeLE m.base2 3 (UInt32.ofNat (m.pc + 4))).writeLE (m.base2 + 3) 2 m.base.toUInt32 := by
  obtain ⟨hroom, hbelow, -, rfl⟩ := (step_call_eq_ok_iff h).mp hstep
  exact ⟨hroom, hbelow, rfl, rfl, rfl⟩

def frameSize (m : Machine) : Nat :=
  (codeLE m.image (m.pc + 1) 2).toNat

def frameArgs (m : Machine) : Nat :=
  (codeLE m.image (m.pc + 3) 1).toNat

def arguments (m : Machine) (argc : Nat) : List Int32 :=
  (m.stack.items.extract (m.stack.size - argc) m.stack.size).toList

theorem length_arguments (h : argc ≤ m.stack.size) : (m.arguments argc).length = argc := by
  rw [Stack.size] at h
  simp only [arguments, Stack.size, Array.length_toList, Array.size_extract]
  omega

theorem window_eq_ok_iff :
    Stack.window 0 len s = .ok args s'
      ↔ len ≤ s.size ∧ args = (s.items.extract (s.size - len) s.size).toList ∧ s' = s := by
  unfold Stack.window
  simp only [Nat.zero_add, Nat.sub_zero]
  split
  next h => simp [h, eq_comm]
  next h => simp [h]

theorem drop_eq_ok_iff :
    Stack.drop len s = .ok u s' ↔ len ≤ s.size ∧ s' = { s with items := s.items.shrink (s.size - len) } := by
  unfold Stack.drop
  split
  next h => simp [h, eq_comm]
  next h => simp [h]

def opened (m : Machine) (size argc : Nat) : Machine :=
  { m with
    base2 := m.base + UInt16.ofNat size
    memory := writeParams m.memory (m.base + UInt16.ofNat Memory.frameHeader) (m.arguments argc)
    stack := { m.stack with items := m.stack.items.shrink (m.stack.size - argc) } }

theorem openFrame_eq_ok_iff :
    openFrame size argc m = .ok u m'
      ↔ m.base.toNat + size ≤ Memory.heapStart.toNat ∧ argc ≤ m.stack.size ∧ m' = m.opened size argc := by
  constructor
  · intro h
    obtain ⟨_, _, hget, hrest⟩ := bind_eq_ok_iff.mp h
    cases hget
    obtain ⟨stop, _, hend, hrest⟩ := bind_eq_ok_iff.mp hrest
    obtain ⟨hbelow, rfl, rfl⟩ := frameEnd_eq_ok_iff.mp hend
    obtain ⟨_, _, hmove, hrest⟩ := bind_eq_ok_iff.mp hrest
    cases hmove
    obtain ⟨args, _, hwindow, hrest⟩ := bind_eq_ok_iff.mp hrest
    obtain ⟨_, hargs, rfl⟩ := onStack_eq_ok_iff.mp hwindow
    obtain ⟨hargc, rfl, rfl⟩ := window_eq_ok_iff.mp hargs
    obtain ⟨_, _, hwrite, htake⟩ := bind_eq_ok_iff.mp hrest
    cases hwrite
    obtain ⟨_, hdrop, rfl⟩ := onStack_eq_ok_iff.mp htake
    obtain ⟨-, rfl⟩ := drop_eq_ok_iff.mp hdrop
    exact ⟨hbelow, hargc, rfl⟩
  · rintro ⟨hbelow, hargc, rfl⟩
    have hend := (frameEnd_eq_ok_iff (m := m)).mpr ⟨hbelow, rfl, rfl⟩
    have hwindow := window_eq_ok_iff.mpr ⟨hargc, rfl, rfl⟩
    have hdrop := (drop_eq_ok_iff (u := ())).mpr ⟨hargc, rfl⟩
    apply bind_eq_ok_iff.mpr
    refine ⟨m, m, rfl, bind_eq_ok_iff.mpr ⟨_, m, hend, bind_eq_ok_iff.mpr ⟨_, _, rfl, ?_⟩⟩⟩
    apply bind_eq_ok_iff.mpr
    refine ⟨_, _, onStack_eq_ok_iff.mpr ⟨_, hwindow, rfl⟩, bind_eq_ok_iff.mpr ⟨_, _, rfl, ?_⟩⟩
    exact onStack_eq_ok_iff.mpr ⟨_, hdrop, rfl⟩

theorem step_func_eq_ok_iff (h : m.About .func) :
    step m = .ok p m'
      ↔ m.pc + 4 ≤ m.image.size ∧ m.base.toNat + m.frameSize ≤ Memory.heapStart.toNat
        ∧ m.frameArgs ≤ m.stack.size ∧ p = .running
        ∧ m' = { m.opened m.frameSize m.frameArgs with pc := m.pc + 4, lastPc := m.pc } := by
  rw [step_eq_execute h.toLive h.code]
  constructor
  · intro hstep
    obtain ⟨size, m1, hfetch, hrest⟩ := bind_eq_ok_iff.mp hstep
    obtain ⟨-, rfl, rfl⟩ := fetch_eq_ok_iff.mp hfetch
    obtain ⟨argc, m2, hfetch, hrest⟩ := bind_eq_ok_iff.mp hrest
    obtain ⟨hroom, rfl, rfl⟩ := fetch_eq_ok_iff.mp hfetch
    obtain ⟨_, m3, hopen, hdone⟩ := bind_eq_ok_iff.mp hrest
    obtain ⟨hbelow, hargc, rfl⟩ := openFrame_eq_ok_iff.mp hopen
    cases hdone
    exact ⟨hroom, hbelow, hargc, rfl, rfl⟩
  · rintro ⟨hroom, hbelow, hargc, rfl, rfl⟩
    have hsize : (m.begun).pc + 2 ≤ m.image.size := Nat.le_of_succ_le hroom
    apply bind_eq_ok_iff.mpr
    refine ⟨_, _, fetch_eq_ok_iff.mpr ⟨hsize, rfl, rfl⟩, ?_⟩
    apply bind_eq_ok_iff.mpr
    refine ⟨_, _, fetch_eq_ok_iff.mpr ⟨hroom, rfl, rfl⟩, ?_⟩
    exact bind_eq_ok_iff.mpr ⟨(), _, openFrame_eq_ok_iff.mpr ⟨hbelow, hargc, rfl⟩, rfl⟩

theorem step_func (h : m.About .func) (hstep : step m = .ok p m') :
    m.base.toNat + m.frameSize ≤ Memory.heapStart.toNat
      ∧ m'.base = m.base ∧ m'.base2 = m.base + UInt16.ofNat m.frameSize
      ∧ m.frameArgs ≤ m.stack.size
      ∧ m'.memory = writeParams m.memory (m.base + UInt16.ofNat Memory.frameHeader) (m.arguments m.frameArgs) := by
  obtain ⟨-, hbelow, hargc, -, rfl⟩ := (step_func_eq_ok_iff h).mp hstep
  exact ⟨hbelow, rfl, rfl, hargc, rfl⟩

theorem step_ret (h : m.About .ret) (hstep : step m = .ok p m') :
    m'.pc = (m.memory.readLE m.base 3).toNat ∧ m'.base = (m.memory.readLE (m.base + 3) 2).toUInt16
      ∧ m'.base2 = m.base ∧ m'.memory = m.memory := by
  rw [step_eq_execute h.toLive h.code] at hstep
  cases hstep
  exact ⟨rfl, rfl, rfl, rfl⟩

theorem keeps_frame_execute (hop : op.moves = false) : Keeps (fun m => (m.base, m.base2)) (execute op) := by
  have hspared : Spared (fun m => (m.base, m.base2)) op := { frame := fun h => by simp [hop] at h }
  exact hspared.execute

theorem keeps_frame_libraryCall (code : UInt8) : Keeps (fun m => (m.base, m.base2)) (libraryCall code) := by
  apply keeps_libraryCall (fun _ _ => rfl) (fun _ _ => rfl) (fun _ _ => rfl)
  exact fun c _ => {}

theorem step_frame (h : m.About op) (hop : op.moves = false) (hstep : step m = .ok p m') :
    m'.base = m.base ∧ m'.base2 = m.base2 := by
  have hkeeps := keeps_frame_execute hop m.begun
  rw [← step_eq_execute h.toLive h.code, hstep] at hkeeps
  exact ⟨congrArg Prod.fst hkeeps, congrArg Prod.snd hkeeps⟩

theorem step_memory (h : m.About op) (hop : op.writes = false) (hstep : step m = .ok p m') : m'.memory = m.memory := by
  have hspared : Spared (fun m => m.memory) op := { memory := fun h => by simp [hop] at h }
  have hkeeps := hspared.execute m.begun
  rwa [← step_eq_execute h.toLive h.code, hstep] at hkeeps

theorem step_frame_of_aboutCall (h : m.AboutCall) (hstep : step m = .ok p m') :
    m'.base = m.base ∧ m'.base2 = m.base2 := by
  have hframe := keeps_frame_libraryCall m.opcodeByte m.begun
  rw [← step_eq_libraryCall h.toLive h.first h.last, hstep] at hframe
  exact ⟨congrArg Prod.fst hframe, congrArg Prod.snd hframe⟩

section Chain

variable {frames : List UInt16} {memory memory' : Memory} {b : UInt16}

def SameHeaders (frames : List UInt16) (memory memory' : Memory) : Prop :=
  ∀ b ∈ frames, ∀ a : UInt16, b.toNat ≤ a.toNat → a.toNat < b.toNat + Memory.frameHeader →
    memory'.byte a = memory.byte a

/--
Frames are linked by their headers, the innermost first. The last of them is the one that `m0` was about to open: its
header holds the position behind the call and the frame of the caller.
-/
inductive Linked (m0 : Machine) (memory : Memory) : List UInt16 → Prop where
  | last (hroom : m0.base2.toNat + Memory.frameHeader ≤ Memory.heapStart.toNat)
    (hpc : (memory.readLE m0.base2 3).toNat = m0.pc + 4)
    (hbase : (memory.readLE (m0.base2 + 3) 2).toUInt16 = m0.base) : Linked m0 memory [m0.base2]
  | inner {b b' : UInt16} {frames : List UInt16} (h : Linked m0 memory (b' :: frames))
    (hroom : b.toNat + Memory.frameHeader ≤ Memory.heapStart.toNat)
    (hbelow : b'.toNat + Memory.frameHeader ≤ b.toNat)
    (hbase : (memory.readLE (b + 3) 2).toUInt16 = b') : Linked m0 memory (b :: b' :: frames)

theorem toNat_add_three (h : b.toNat + Memory.frameHeader ≤ Memory.heapStart.toNat) : (b + 3).toNat = b.toNat + 3 := by
  have hheap := Memory.toNat_heapStart
  have hheader : Memory.frameHeader = 5 := rfl
  exact Memory.toNat_add_ofNat (n := 3) (by omega)

theorem readLE_of_sameHeaders (h : SameHeaders frames memory memory') (hb : b ∈ frames)
    (hroom : b.toNat + Memory.frameHeader ≤ Memory.heapStart.toNat)
    : memory'.readLE b 3 = memory.readLE b 3 ∧ memory'.readLE (b + 3) 2 = memory.readLE (b + 3) 2 := by
  have hheap := Memory.toNat_heapStart
  have hheader : Memory.frameHeader = 5 := rfl
  have hthree := toNat_add_three hroom
  constructor
  · apply Memory.readLE_congr (by omega)
    intro a hlow hhigh
    exact h b hb a (by omega) (by omega)
  · apply Memory.readLE_congr (by omega)
    intro a hlow hhigh
    exact h b hb a (by omega) (by omega)

theorem Linked.congr (h : Linked m0 memory frames) (hsame : SameHeaders frames memory memory') :
    Linked m0 memory' frames := by
  induction h with
  | last hroom hpc hbase =>
    obtain ⟨hlow, hhigh⟩ := readLE_of_sameHeaders hsame List.mem_cons_self hroom
    exact .last hroom (hlow ▸ hpc) (hhigh ▸ hbase)
  | inner _ hroom hbelow hbase ih =>
    obtain ⟨-, hhigh⟩ := readLE_of_sameHeaders hsame List.mem_cons_self hroom
    exact .inner (ih fun b hb => hsame b (List.mem_cons_of_mem _ hb)) hroom hbelow (hhigh ▸ hbase)

theorem Linked.toNat_le (h : Linked m0 memory (b :: frames)) : ∀ a ∈ b :: frames, a.toNat ≤ b.toNat := by
  generalize hall : b :: frames = all at h
  induction h generalizing b frames with
  | last =>
    cases hall
    simp
  | inner h hroom hbelow hbase ih =>
    cases hall
    intro a ha
    rcases List.mem_cons.mp ha with rfl | ha
    · exact Nat.le_refl _
    · have hle := ih rfl a ha
      omega

theorem Linked.sameHeaders (h : Linked m0 memory (b :: frames))
    (hbytes : ∀ a : UInt16, a.toNat < b.toNat + Memory.frameHeader → memory'.byte a = memory.byte a)
    : SameHeaders (b :: frames) memory memory' := by
  intro c hc a _ hhigh
  have hle := h.toNat_le c hc
  exact hbytes a (by omega)

theorem toNat_readLE_header (memory : Memory) (pc : Nat) (base : UInt16)
    (hroom : b.toNat + Memory.frameHeader ≤ Memory.heapStart.toNat)
    : (((memory.writeLE b 3 (UInt32.ofNat pc)).writeLE (b + 3) 2 base.toUInt32).readLE b 3).toNat = pc % 2 ^ 24 := by
  have hheap := Memory.toNat_heapStart
  have hheader : Memory.frameHeader = 5 := rfl
  have hthree := toNat_add_three hroom
  have hread : ((memory.writeLE b 3 (UInt32.ofNat pc)).writeLE (b + 3) 2 base.toUInt32).readLE b 3
      = (memory.writeLE b 3 (UInt32.ofNat pc)).readLE b 3 := by
    apply Memory.readLE_congr (by omega)
    intro a hlow hhigh
    exact Memory.byte_writeLE_of_not_mem (by omega) (by omega)
  rw [hread, Memory.toNat_readLE_writeLE (by omega), UInt32.toNat_ofNat']
  omega

theorem read_header (memory : Memory) (pc : Nat) (base : UInt16)
    (hroom : b.toNat + Memory.frameHeader ≤ Memory.heapStart.toNat)
    : let memory' := (memory.writeLE b 3 (UInt32.ofNat pc)).writeLE (b + 3) 2 base.toUInt32
      (pc < 2 ^ 24 → (memory'.readLE b 3).toNat = pc)
        ∧ (memory'.readLE (b + 3) 2).toUInt16 = base
        ∧ ∀ a : UInt16, a.toNat < b.toNat → memory'.byte a = memory.byte a := by
  intro memory'
  have hheap := Memory.toNat_heapStart
  have hheader : Memory.frameHeader = 5 := rfl
  have hthree := toNat_add_three hroom
  refine ⟨fun hpc => ?_, ?_, fun a ha => ?_⟩
  · rw [toNat_readLE_header memory pc base hroom, Nat.mod_eq_of_lt hpc]
  · have hread : (memory'.readLE (b + 3) 2).toNat = base.toUInt32.toNat % 256 ^ 2 :=
      Memory.toNat_readLE_writeLE (by omega)
    rw [← UInt16.toNat_inj, UInt32.toNat_toUInt16, hread, UInt16.toNat_toUInt32]
    have hbase := base.toNat_lt
    omega
  · rw [Memory.byte_writeLE_of_not_mem (by omega) (by omega), Memory.byte_writeLE_of_not_mem (by omega) (by omega)]

theorem byte_writeParams_of_not_mem {slot a : UInt16} (hroom : slot.toNat + 4 * args.length ≤ 0x10000)
    (ha : a.toNat < slot.toNat ∨ slot.toNat + 4 * args.length ≤ a.toNat)
    : (writeParams memory slot args).byte a = memory.byte a := by
  induction args generalizing memory slot with
  | nil => rfl
  | cons arg args ih =>
    rw [List.length_cons] at hroom ha
    have hfirst : (memory.writeLE slot 4 arg.toUInt32).byte a = memory.byte a :=
      Memory.byte_writeLE_of_not_mem (by omega) (by omega)
    rw [writeParams]
    cases args with
    | nil => exact hfirst
    | cons arg' args =>
      have hnext : (slot + UInt16.ofNat Memory.paramSlot).toNat = slot.toNat + 4 :=
        Memory.toNat_add_ofNat (n := 4) (by simp only [List.length_cons] at hroom; omega)
      rw [ih (by omega) (by omega)]
      exact hfirst

end Chain

section Segment

/--
The states between a call that `m0` is about to make and its return, with the frames that are open, the innermost first.
Every call leads to a frame instruction, frames have room for their header and their arguments, the global frame is not
moved, and what writes to memory leaves the headers of the open frames alone.
-/
inductive Between (m0 : Machine) : List UInt16 → Machine → Prop where
  | enter {m : Machine} {p : Progress} (h : m0.About .call) (hstep : step m0 = .ok p m)
    (hfunc : m.opcodeByte = Opcode.func.code) : Between m0 [m0.base2] m
  | call {frames : List UInt16} {m m' : Machine} {p : Progress} (h : Between m0 frames m) (hop : m.About .call)
    (hstep : step m = .ok p m') (hfunc : m'.opcodeByte = Opcode.func.code) : Between m0 (m.base2 :: frames) m'
  | ret {b b' : UInt16} {frames : List UInt16} {m m' : Machine} {p : Progress} (h : Between m0 (b :: b' :: frames) m)
    (hop : m.About .ret) (hstep : step m = .ok p m') : Between m0 (b' :: frames) m'
  | func {frames : List UInt16} {m m' : Machine} {p : Progress} (h : Between m0 frames m) (hop : m.About .func)
    (hsize : Memory.frameHeader + Memory.paramSlot * m.frameArgs ≤ m.frameSize) (hstep : step m = .ok p m') :
    Between m0 frames m'
  | plain {frames : List UInt16} {m m' : Machine} {p : Progress} {op : Opcode} (h : Between m0 frames m)
    (hop : m.About op) (hmoves : op.moves = false)
    (hsame : op.writes = true → SameHeaders frames m.memory m'.memory) (hstep : step m = .ok p m') :
    Between m0 frames m'
  | library {frames : List UInt16} {m m' : Machine} {p : Progress} (h : Between m0 frames m) (hcall : m.AboutCall)
    (hsame : SameHeaders frames m.memory m'.memory) (hstep : step m = .ok p m') : Between m0 frames m'
  | key {frames : List UInt16} {m : Machine} (h : Between m0 frames m) (key : UInt8) : Between m0 frames (m.pushKey key)
  | tick {frames : List UInt16} {m : Machine} (h : Between m0 frames m) (clock : Clock) :
    Between m0 frames { m with clock := clock }

/--
The open frames are linked, and the current one is the innermost. It has room for its header, unless its frame
instruction is still to come.
-/
structure Open (m0 : Machine) (frames : List UInt16) (m : Machine) : Prop where
  linked : Linked m0 m.memory frames
  head : frames.head? = some m.base
  room : m.opcodeByte = Opcode.func.code ∨ m.base.toNat + Memory.frameHeader ≤ m.base2.toNat

variable {frames : List UInt16}

section

variable (h : Open m0 frames m)

include h

theorem Open.exists_cons : ∃ outer, frames = m.base :: outer := by
  cases frames with
  | nil => cases h.head
  | cons b outer =>
    cases h.head
    exact ⟨outer, rfl⟩

theorem Open.room_of_ne (hne : m.opcodeByte ≠ Opcode.func.code) : m.base.toNat + Memory.frameHeader ≤ m.base2.toNat :=
  h.room.resolve_left hne

theorem Open.keep (hne : m.opcodeByte ≠ Opcode.func.code)
    (hframe : m'.base = m.base ∧ m'.base2 = m.base2) (hsame : SameHeaders frames m.memory m'.memory) :
    Open m0 frames m' := by
  refine ⟨h.linked.congr hsame, ?_, .inr ?_⟩
  · rw [hframe.1]
    exact h.head
  · rw [hframe.1, hframe.2]
    exact h.room_of_ne hne

theorem Open.call (hop : m.About .call) (hstep : step m = .ok p m')
    (hfunc : m'.opcodeByte = Opcode.func.code) : Open m0 (m.base2 :: frames) m' := by
  obtain ⟨-, hroom, hbase, -, hmemory⟩ := step_call hop hstep
  obtain ⟨-, hcaller, hbelow⟩ := read_header m.memory (m.pc + 4) m.base hroom
  rw [← hmemory] at hcaller hbelow
  have hinside := h.room_of_ne (by rw [hop.code]; decide)
  have hlinked := h.linked
  obtain ⟨outer, rfl⟩ := h.exists_cons
  have hsame : SameHeaders _ m.memory m'.memory := hlinked.sameHeaders fun a ha => hbelow a (by omega)
  exact ⟨.inner (hlinked.congr hsame) hroom hinside hcaller, by rw [hbase]; rfl, .inl hfunc⟩

theorem Open.func (hop : m.About .func)
    (hsize : Memory.frameHeader + Memory.paramSlot * m.frameArgs ≤ m.frameSize) (hstep : step m = .ok p m') :
    Open m0 frames m' := by
  have hheap := Memory.toNat_heapStart
  have hheader : Memory.frameHeader = 5 := rfl
  have hslot : Memory.paramSlot = 4 := rfl
  rw [hslot] at hsize
  obtain ⟨hstop, hbase, hbase2, hargc, hmemory⟩ := step_func hop hstep
  have hargs := length_arguments hargc
  have hfirst : (m.base + UInt16.ofNat Memory.frameHeader).toNat = m.base.toNat + Memory.frameHeader :=
    Memory.toNat_add_ofNat (by omega)
  have hend : (m.base + UInt16.ofNat m.frameSize).toNat = m.base.toNat + m.frameSize :=
    Memory.toNat_add_ofNat (by omega)
  have hlinked := h.linked
  obtain ⟨outer, rfl⟩ := h.exists_cons
  have hsame : SameHeaders _ m.memory m'.memory := hlinked.sameHeaders fun a ha => by
    rw [hmemory]
    exact byte_writeParams_of_not_mem (by omega) (by omega)
  refine ⟨hlinked.congr hsame, by rw [hbase]; rfl, .inr ?_⟩
  rw [hbase, hbase2, hend]
  omega

end

theorem Open.ret {b b' : UInt16} (h : Open m0 (b :: b' :: frames) m) (hop : m.About .ret)
    (hstep : step m = .ok p m') : Open m0 (b' :: frames) m' := by
  obtain ⟨-, hbase, hbase2, hmemory⟩ := step_ret hop hstep
  have hhead : b = m.base := Option.some.inj h.head
  rw [← hhead] at hbase hbase2
  cases h.linked with
  | inner hlinked _ hbelow hcaller =>
    rw [hcaller] at hbase
    refine ⟨hmemory ▸ hlinked, by rw [hbase]; rfl, .inr ?_⟩
    rw [hbase, hbase2]
    exact hbelow

theorem Between.isOpen (himage : m0.image.size ≤ 0xFFFFFF) (h : Between m0 frames m) : Open m0 frames m := by
  induction h with
  | enter h hstep hfunc =>
    obtain ⟨hpc, hroom, hbase, -, hmemory⟩ := step_call h hstep
    obtain ⟨hread, hcaller, -⟩ := read_header m0.memory (m0.pc + 4) m0.base hroom
    rw [← hmemory] at hread hcaller
    exact ⟨.last hroom (hread (by omega)) hcaller, by rw [hbase]; rfl, .inl hfunc⟩
  | call _ hop hstep hfunc ih => exact ih.call hop hstep hfunc
  | ret _ hop hstep ih => exact ih.ret hop hstep
  | func _ hop hsize hstep ih => exact ih.func hop hsize hstep
  | @plain frames m m' p op _ hop hmoves hsame hstep ih =>
    refine ih.keep ?_ (step_frame hop hmoves hstep) ?_
    · intro hfunc
      have hcode : op.code = Opcode.func.code := hop.code.symm.trans hfunc
      have hop : some op = some .func := by rw [← Opcode.ofCode?_code op, hcode, Opcode.ofCode?_code]
      cases hop
      cases hmoves
    · cases hwrites : op.writes with
      | true => exact hsame hwrites
      | false =>
        intro b _ a _ _
        rw [step_memory hop hwrites hstep]
  | library _ hcall hsame hstep ih =>
    refine ih.keep ?_ (step_frame_of_aboutCall hcall hstep) hsame
    intro hfunc
    have hfirst := hcall.first
    rw [hfunc] at hfirst
    exact absurd hfirst (by decide)
  | key _ _ ih | tick _ _ ih => exact ⟨ih.linked, ih.head, ih.room⟩

end Segment

/--
A return leads to the position behind its call, and restores the frame of the caller, however deep the calls between
them nest.
-/
theorem return_restores {m0 : Machine} {b : UInt16} (himage : m0.image.size ≤ 0xFFFFFF) (h : Between m0 [b] m)
    (hret : m.About .ret) (hstep : step m = .ok p m')
    : m'.pc = m0.pc + 4 ∧ m'.base = m0.base ∧ m'.base2 = m0.base2 := by
  obtain ⟨hpc, hbase, hbase2, -⟩ := step_ret hret hstep
  have hopen := h.isOpen himage
  have hhead : b = m.base := Option.some.inj hopen.head
  rw [← hhead] at hpc hbase hbase2
  cases hopen.linked with
  | last hroom hread hcaller => exact ⟨hpc.trans hread, hbase.trans hcaller, hbase2⟩

def nestedImage : Array UInt8 :=
  (({} : Header).toBytes ++
    [0x37, 21, 0, 0, 0x3A, 0x38, 5, 0, 0, 0x37, 30, 0, 0, 0x39, 0x38, 5, 0, 0, 0x39]).toArray

def goesOn : EStateM.Result Fault Machine Progress → Bool
  | .ok .running _ => true
  | _ => false

theorem step_eq_of_goesOn (h : goesOn (step m) = true) : step m = .ok .running (after (step m)) := by
  unfold goesOn at h
  split at h
  next heq =>
    rw [heq]
    rfl
  next => cases h

theorem return_restores_nested :
    (ran nestedImage 6).pc = 20 ∧ (ran nestedImage 6).base = (ran nestedImage 0).base
      ∧ (ran nestedImage 6).base2 = (ran nestedImage 0).base2 := by
  -- the states are evaluated together, so that each is evaluated once
  obtain ⟨hgoesOn, himage, ⟨hcall0, hfunc1, hcall2, hfunc3, hret4, hret5⟩, hsize1, hsize3⟩ :
      (∀ n < 6, goesOn (step (ran nestedImage n)) = true) ∧ (ran nestedImage 0).image.size ≤ 0xFFFFFF
        ∧ ((ran nestedImage 0).About .call ∧ (ran nestedImage 1).About .func ∧ (ran nestedImage 2).About .call
          ∧ (ran nestedImage 3).About .func ∧ (ran nestedImage 4).About .ret ∧ (ran nestedImage 5).About .ret)
        ∧ Memory.frameHeader + Memory.paramSlot * (ran nestedImage 1).frameArgs ≤ (ran nestedImage 1).frameSize
        ∧ Memory.frameHeader + Memory.paramSlot * (ran nestedImage 3).frameArgs ≤ (ran nestedImage 3).frameSize := by
    decide +kernel
  have hstep (n : Nat) (hn : n < 6) : step (ran nestedImage n) = .ok .running (ran nestedImage (n + 1)) :=
    step_eq_of_goesOn (hgoesOn n hn)
  have h1 : Between (ran nestedImage 0) [(ran nestedImage 0).base2] (ran nestedImage 1) :=
    .enter hcall0 (hstep 0 (by decide)) hfunc1.code
  have h2 := h1.func hfunc1 hsize1 (hstep 1 (by decide))
  have h3 := h2.call hcall2 (hstep 2 (by decide)) hfunc3.code
  have h4 := h3.func hfunc3 hsize3 (hstep 3 (by decide))
  have h5 := h4.ret hret4 (hstep 4 (by decide))
  exact return_restores himage h5 hret5 (hstep 5 (by decide))

end Handheld.Machine
