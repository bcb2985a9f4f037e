import Handheld.Proofs.Machine.Convention
import Handheld.Proofs.Machine.Effect

/-!
Blocks of the heap. They are told by the results that the program sees, not by the cursor of the allocator: the cursor
wraps to zero when the last byte of the memory is given away.
-/
namespace Handheld.Machine

structure Block where
  start : Nat
  size : Nat
  deriving DecidableEq

def Block.stop (b : Block) : Nat :=
  b.start + b.size

variable {m : Machine} {blocks : List Block} {arg : Int32}

def allocs? (m : Machine) : Option Int32 :=
  if m.Live ∧ m.opcodeByte = Call.alloc.code then m.stack.toList.getLast? else none

def blocksAfter (m : Machine) (blocks : List Block) : List Block :=
  match m.allocs?, (after (step m)).stack.toList.getLast? with
  | some arg, some v => if v = 0 then blocks else ⟨(Handle.decode v).addr.toNat, arg.toInt.toNat⟩ :: blocks
  | _, _ => blocks

/-- The states to which an image leads, with the blocks that were allocated on the way, the last one first. -/
inductive Allocates : List Block → Machine → Prop where
  | load {m0 m : Machine} {image : Array UInt8} (h : m0.load image = .ok m) : Allocates [] m
  | step {blocks : List Block} {m : Machine} (h : Allocates blocks m) :
    Allocates (m.blocksAfter blocks) (after (step m))
  | outside {blocks : List Block} {m : Machine} (h : Allocates blocks m) (keys : List UInt8) (clock : Clock)
    (pending : Array UInt8) (display : Display) (font : Font) (files : Files) (halted : Bool) :
    Allocates blocks
      { m with
        keys := keys
        clock := clock
        console := { m.console with pending := pending }
        display := display
        font := font
        files := files
        halted := halted }

def heapStop : List Block → Nat
  | [] => 0xE000
  | b :: _ => b.stop

def Fits (stop size : Nat) : Prop :=
  stop < 0x10000 ∧ stop + size ≤ 0x10000

instance (stop size : Nat) : Decidable (Fits stop size) :=
  inferInstanceAs (Decidable (_ ∧ _))

structure Stacked (blocks : List Block) (m : Machine) : Prop where
  cursor : m.heap = UInt16.ofNat (heapStop blocks)
  low : 0xE000 ≤ heapStop blocks
  high : heapStop blocks ≤ 0x10000
  below : ∀ b ∈ blocks, b.stop ≤ heapStop blocks
  room : m.stack.size ≤ m.stack.limit

theorem bounded_takeArgs (s : Signature) : Bounded (takeArgs s) := by
  have hlast : Bounded (onStack Stack.last) := shifts_last.bounded
  have hargs (skip len n : Nat) : Bounded (do
      let args ← onStack (Stack.window skip len)
      onStack (Stack.drop n)
      return args) :=
    .bind (.of_keeps (keeps_window _ _)) fun _ => .bind (shifts_drop _).bounded fun _ => .of_keeps (keeps_pure _)
  unfold takeArgs
  split
  next =>
    refine hlast.bind fun count => ?_
    split
    next => exact .bind (.of_keeps (keeps_throw _)) fun _ => hargs _ _ _
    next => exact hargs _ _ _
  next => exact hargs _ _ _

theorem bounded_answer (s : Signature) (v : Int32) : Bounded (answer s v) := by
  unfold answer
  split
  next => exact .bind (shifts_push v).bounded fun _ => .of_keeps fun _ => rfl
  next => exact .of_keeps fun _ => rfl

theorem bounded_libraryCall (code : UInt8) : Bounded (libraryCall code) := by
  intro m
  have hcalls := calls_libraryCall m code
  generalize libraryCall code m = r at hcalls ⊢
  cases hcalls with
  | unknown => exact (shifts_pushing 0).bounded m
  | blocked => exact ⟨rfl, Nat.le_max_left _ _⟩
  | @short c _ _ _ _ hargs =>
    have htake := bounded_takeArgs c.signature m
    rwa [hargs] at htake
  | @done c args m' _ _ hargs =>
    have htake := bounded_takeArgs c.signature m
    rw [hargs] at htake
    have hanswer := bounded_answer c.signature ((m'.called args).dispatch c (args.drop c.signature.args)).1
      ((m'.called args).dispatch c (args.drop c.signature.args)).2
    rw [stack_dispatch] at hanswer
    exact htake.trans hanswer

theorem bounds_step (m : Machine) : Bounds m.stack (after (step m)).stack := by
  have hsteps := steps_step m
  generalize step m = r at hsteps ⊢
  cases hsteps with
  | unloaded | halted | overrun | invalid => exact ⟨rfl, Nat.le_max_left _ _⟩
  | op => exact bounded_execute _ m.begun
  | call => exact bounded_libraryCall _ m.begun

theorem keeps_heap_libraryCall {code : UInt8} (h : code ≠ Call.alloc.code) :
    Keeps (fun m => m.heap) (libraryCall code) := by
  apply keeps_libraryCall (fun _ _ => rfl) (fun _ _ => rfl) (fun _ _ => rfl)
  intro c hc
  exact { heap := fun halloc => absurd (halloc ▸ Call.code_of_ofCode? hc).symm h }

theorem heap_step_of_empty (hlive : m.Live) (hcode : m.opcodeByte = Call.alloc.code) (hempty : m.stack.toList = []) :
    (after (step m)).heap = m.heap := by
  have htake : takeArgs Call.alloc.signature m.begun = .error .stackUnderflow m.begun := by
    have hsize : m.stack.size = 0 := Array.size_eq_zero_iff.mpr (Array.toList_eq_nil_iff.mp hempty)
    apply bind_eq_error
    simp [onStack, Stack.window, begun, hsize, Call.signature]
  have hcall : libraryCall Call.alloc.code m.begun = .error .stackUnderflow m.begun :=
    (libraryCall_code .alloc m.begun).trans (bind_eq_error htake)
  rw [step_eq_call .alloc hlive hcode, hcall]
  rfl

theorem heap_step_of_allocs? (h : m.allocs? = none) : (after (step m)).heap = m.heap := by
  by_cases halloc : m.Live ∧ m.opcodeByte = Call.alloc.code
  · rw [allocs?, if_pos halloc] at h
    exact heap_step_of_empty halloc.1 halloc.2 (List.getLast?_eq_none_iff.mp h)
  · have hsteps := steps_step m
    generalize step m = r at hsteps ⊢
    cases hsteps with
    | unloaded | halted | overrun | invalid => rfl
    | op =>
      have hspared (op : Opcode) : Spared (fun m => m.heap) op := {}
      exact (hspared _).execute m.begun
    | call hlive => exact keeps_heap_libraryCall (fun hcode => halloc ⟨hlive, hcode⟩) m.begun

theorem encode_ne_zero {h : Handle} (hlow : 0 < h.addr.toNat) : h.encode ≠ 0 := by
  intro hzero
  have hbits := h.toNat_encode
  rw [hzero] at hbits
  have : (0 : Int32).toUInt32.toNat = 0 := rfl
  omega

theorem alloc_eq (h : Stacked blocks m) (arg : Int32) :
    m.alloc arg =
      if Fits (heapStop blocks) arg.toInt.toNat then
        (({ addr := m.heap, width := .byte } : Handle).encode,
          { m with heap := UInt16.ofNat (heapStop blocks + arg.toInt.toNat) })
      else (0, m) := by
  have hlow := h.low
  have hhigh := h.high
  have hcursor : m.heap.toNat = heapStop blocks % 0x10000 := by
    rw [h.cursor]
    rfl
  have hstart : m.heap < Memory.heapStart ↔ heapStop blocks = 0x10000 := by
    rw [UInt16.lt_iff_toNat_lt, hcursor]
    change _ < 0xE000 ↔ _
    omega
  have hnext : m.heap + UInt16.ofNat arg.toInt.toNat = UInt16.ofNat (heapStop blocks + arg.toInt.toNat) := by
    rw [h.cursor, UInt16.ofNat_add]
  have hfits : (m.heap < Memory.heapStart || 0x10000 < m.heap.toNat + arg.toInt.toNat) = true
      ↔ ¬Fits (heapStop blocks) arg.toInt.toNat := by
    simp only [Bool.or_eq_true, decide_eq_true_eq, hstart, hcursor, Fits]
    omega
  unfold alloc
  by_cases hfit : Fits (heapStop blocks) arg.toInt.toNat
  · rw [if_pos hfit, ← hnext]
    exact if_neg (mt hfits.mp (not_not.mpr hfit))
  · rw [if_neg hfit]
    exact if_pos (hfits.mpr hfit)

def blockAt (stop size : Nat) : Int32 :=
  if Fits stop size then ({ addr := UInt16.ofNat stop, width := .byte } : Handle).encode else 0

theorem answer_of_room {s : Signature} (hreturns : s.returns = true) (hroom : m.stack.size < m.stack.limit)
    (hhalted : m.halted = false) (v : Int32)
    : answer s v m = .ok .running { m with stack := { m.stack with items := m.stack.items.push v } } := by
  have hpush : push v m = .ok () { m with stack := { m.stack with items := m.stack.items.push v } } := by
    simp only [push, onStack, Stack.push, hroom, ↓reduceIte]
  unfold answer
  rw [if_pos hreturns, bind_eq_ok hpush]
  refine (bind_eq_ok (get_eq _)).trans ?_
  simp only [hhalted, Bool.false_eq_true, ↓reduceIte]
  rfl

theorem step_of_allocs? (h : Stacked blocks m) (hallocs : m.allocs? = some arg) :
    ∃ rest m', m.stack.toList = rest ++ [arg] ∧ step m = .ok .running m'
      ∧ m'.stack.toList = rest ++ [blockAt (heapStop blocks) arg.toInt.toNat]
      ∧ m'.heap = if Fits (heapStop blocks) arg.toInt.toNat then UInt16.ofNat (heapStop blocks + arg.toInt.toNat)
          else m.heap := by
  unfold allocs? at hallocs
  split at hallocs
  next halloc =>
    obtain ⟨rest, hrest⟩ := List.getLast?_eq_some_iff.mp hallocs
    let called := ({ m.begun with stack := { m.stack with items := rest.toArray } } : Machine).called [arg]
    have hroom : called.stack.size < called.stack.limit := by
      have hroom := h.room
      have hsize : m.stack.size = rest.length + 1 := by
        rw [Stack.size, ← Array.length_toList, ← Stack.toList, hrest, List.length_append, List.length_singleton]
      change rest.toArray.size < m.stack.limit
      rw [List.size_toArray]
      omega
    have hcalled : Stacked blocks called := ⟨h.cursor, h.low, h.high, h.below, Nat.le_of_lt hroom⟩
    have hstep : step m = finish .alloc [arg] { m.begun with stack := { m.stack with items := rest.toArray } } :=
      step_of_fixed halloc.1 halloc.2 rfl rfl rfl hrest
    have hdispatch : called.dispatch .alloc [] = called.alloc arg := rfl
    have hfinish : step m = answer Call.alloc.signature (called.alloc arg).1 (called.alloc arg).2 := by
      rw [← hdispatch]
      exact hstep
    rw [hfinish, alloc_eq hcalled, blockAt, ← h.cursor]
    split
    all_goals
      refine ⟨rest, _, hrest, answer_of_room rfl ?_ ?_ _, ?_, ?_⟩
      · exact hroom
      · exact halloc.1.halted
      · exact Array.toList_push
      · rfl
  next => cases hallocs

theorem blockAt_eq_zero_iff {stop size : Nat} (hlow : 0xE000 ≤ stop) : blockAt stop size = 0 ↔ ¬Fits stop size := by
  unfold blockAt
  split
  next hfits =>
    have haddr : (UInt16.ofNat stop).toNat = stop := Nat.mod_eq_of_lt hfits.1
    have hzero : ({ addr := UInt16.ofNat stop, width := .byte } : Handle).encode ≠ 0 :=
      encode_ne_zero (by dsimp only; omega)
    simp only [hzero, hfits, not_true_eq_false]
  next hfits => simp only [hfits, not_false_eq_true]

theorem Stacked.step (h : Stacked blocks m) : Stacked (m.blocksAfter blocks) (after (step m)) := by
  have hbounds := bounds_step m
  have hroom : (after (Machine.step m)).stack.size ≤ (after (Machine.step m)).stack.limit := by
    have := h.room
    obtain ⟨hlimit, hsize⟩ := hbounds
    omega
  cases hallocs : m.allocs? with
  | none =>
    have hafter : m.blocksAfter blocks = blocks := by rw [blocksAfter, hallocs]
    rw [hafter]
    exact ⟨(heap_step_of_allocs? hallocs).trans h.cursor, h.low, h.high, h.below, hroom⟩
  | some arg =>
    obtain ⟨rest, m', -, hstep, hstack, hheap⟩ := step_of_allocs? h hallocs
    have hlast : (after (Machine.step m)).stack.toList.getLast? = some (blockAt (heapStop blocks) arg.toInt.toNat) := by
      rw [hstep]
      exact List.getLast?_eq_some_iff.mpr ⟨rest, hstack⟩
    have hafter : m.blocksAfter blocks = if Fits (heapStop blocks) arg.toInt.toNat
        then ⟨heapStop blocks, arg.toInt.toNat⟩ :: blocks else blocks := by
      rw [blocksAfter, hallocs, hlast]
      dsimp only
      simp only [blockAt_eq_zero_iff h.low, ite_not]
      split
      next hfits =>
        have haddr : (UInt16.ofNat (heapStop blocks)).toNat = heapStop blocks := Nat.mod_eq_of_lt hfits.1
        rw [blockAt, if_pos hfits, Handle.decode_encode, haddr]
      next => rfl
    rw [hstep] at hroom ⊢
    rw [hafter]
    split at hheap
    next hfits =>
      rw [if_pos hfits]
      refine ⟨hheap, ?_, ?_, ?_, hroom⟩
      · exact Nat.le_add_right_of_le h.low
      · exact hfits.2
      · intro b hb
        rcases List.mem_cons.mp hb with rfl | hb
        · exact Nat.le_refl _
        · exact Nat.le_add_right_of_le (h.below b hb)
    next hfits =>
      rw [if_neg hfits]
      exact ⟨hheap.trans h.cursor, h.low, h.high, h.below, hroom⟩

theorem Allocates.stacked (h : Allocates blocks m) : Stacked blocks m := by
  induction h with
  | load h =>
    obtain ⟨header, -, rfl⟩ := load_eq_ok_iff.mp h
    exact ⟨rfl, Nat.le_refl _, by decide, by simp, Nat.zero_le _⟩
  | step _ ih => exact ih.step
  | outside _ _ _ _ _ _ _ _ ih => exact ⟨ih.cursor, ih.low, ih.high, ih.below, ih.room⟩

/--
However a program came to a call that allocates, the call returns, and it returns zero if the block does not fit behind
the last one or no byte is left. Otherwise the result is the handle of a block of the heap that starts where the last
one ended, and no block before ends behind that.
-/
theorem allocates_behind_last_block (h : Allocates blocks m) (hallocs : m.allocs? = some arg) :
    ∃ rest v m', m.stack.toList = rest ++ [arg] ∧ step m = .ok .running m' ∧ m'.stack.toList = rest ++ [v]
      ∧ (v = 0 ↔ 0x10000 < heapStop blocks + arg.toInt.toNat ∨ heapStop blocks = 0x10000)
      ∧ (v ≠ 0 → v = ({ addr := UInt16.ofNat (heapStop blocks), width := .byte } : Handle).encode
          ∧ 0xE000 ≤ heapStop blocks ∧ heapStop blocks + arg.toInt.toNat ≤ 0x10000
          ∧ ∀ b ∈ blocks, b.stop ≤ heapStop blocks) := by
  obtain ⟨rest, m', hrest, hstep, hstack, -⟩ := step_of_allocs? h.stacked hallocs
  have hhigh := h.stacked.high
  refine ⟨rest, _, m', hrest, hstep, hstack, ?_, ?_⟩
  · rw [blockAt_eq_zero_iff h.stacked.low, Fits]
    omega
  · rw [ne_eq, blockAt_eq_zero_iff h.stacked.low, not_not]
    intro hfits
    rw [blockAt, if_pos hfits]
    exact ⟨rfl, h.stacked.low, hfits.2, h.stacked.below⟩

def hoarder : Array UInt8 :=
  (({} : Header).toBytes ++ [0x01, 3, Call.alloc.code, 0x02, 0xFD, 0x1F, Call.alloc.code, 0x01, 0, Call.alloc.code]).toArray

def hoarded : Nat → List Block
  | 0 => []
  | n + 1 => (ran hoarder n).blocksAfter (hoarded n)

theorem allocates_hoarded (n : Nat) : Allocates (hoarded n) (ran hoarder n) := by
  induction n with
  | zero =>
    have hload : ({} : Machine).load hoarder = .ok (ran hoarder 0) := rfl
    exact .load hload
  | succ n ih => exact ih.step

theorem allocates_behind_last_block_hoarder :
    (∃ rest m', step (ran hoarder 3) = .ok .running m'
        ∧ m'.stack.toList = rest ++ [({ addr := 0xE003, width := .byte } : Handle).encode])
      ∧ ∃ rest m', step (ran hoarder 5) = .ok .running m' ∧ m'.stack.toList = rest ++ [0] := by
  obtain ⟨hfirst, hsecond, hthird, hlast⟩ : hoarded 3 = [⟨0xE000, 3⟩] ∧ (ran hoarder 3).allocs? = some 0x1FFD
      ∧ hoarded 5 = [⟨0xE003, 0x1FFD⟩, ⟨0xE000, 3⟩] ∧ (ran hoarder 5).allocs? = some 0 := by
    decide +kernel
  constructor
  · obtain ⟨rest, v, m', -, hstep, hstack, hzero, hblock⟩ := allocates_behind_last_block (allocates_hoarded 3) hsecond
    have hv : v ≠ 0 := fun hv => absurd (hzero.mp hv) (by rw [hfirst]; decide)
    rw [(hblock hv).1, hfirst] at hstack
    exact ⟨rest, m', hstep, hstack⟩
  · obtain ⟨rest, v, m', -, hstep, hstack, hzero, -⟩ := allocates_behind_last_block (allocates_hoarded 5) hlast
    rw [hzero.mpr (by rw [hthird]; decide)] at hstack
    exact ⟨rest, m', hstep, hstack⟩

end Handheld.Machine
