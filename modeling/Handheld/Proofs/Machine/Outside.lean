import Handheld.Proofs.Machine.Hidden

/-!
What a machine does not look at: keys that come later, text that was told already, and the time make no difference to
most instructions.
-/
namespace Handheld

structure Outside where
  keys : List UInt8
  told : Array UInt8
  clock : Clock

def Console.untold (c : Console) (text : Array UInt8) : Console :=
  { c with pending := text ++ c.pending }

def Call.isTimed : Call → Bool
  | inkey | checkkey | getms | gettime => true
  | _ => false

namespace Console

variable (c : Console) (text : Array UInt8) (m : Memory)

theorem newline_untold : (c.untold text).newline m = ((c.newline m).1.untold text, (c.newline m).2) := by
  by_cases h : c.row + 1 < c.rows
  · rw [show c.newline m = ({ c with row := c.row + 1, col := 0 }, m) from if_pos h]
    exact if_pos h
  · rw [show c.newline m = ({ c with col := 0 }, c.scroll m) from if_neg h]
    exact if_neg h

theorem place_untold (b : UInt8) : (c.untold text).place m b = ((c.place m b).1.untold text, (c.place m b).2) := by
  let moved := { c with col := c.col + 1 }
  let written := m.setByte (UInt16.ofNat (c.row * c.columns + c.col)) b
  by_cases h : c.columns ≤ c.col + 1
  · rw [show c.place m b = moved.newline written from if_pos h]
    exact (if_pos h).trans (newline_untold moved text written)
  · rw [show c.place m b = (moved, written) from if_neg h]
    exact if_neg h

theorem put_untold (b : UInt8) : (c.untold text).put m b = ((c.put m b).1.untold text, (c.put m b).2) := by
  have hpending : (text ++ c.pending).push b = text ++ c.pending.push b := by simp
  unfold put
  dsimp only [untold]
  rw [hpending]
  split
  next =>
    exact newline_untold { c with transcript := record c.transcript b, pending := c.pending.push b } text m
  next =>
    split
    next => rfl
    next => exact place_untold { c with transcript := record c.transcript b, pending := c.pending.push b } text m b

theorem write_untold (bytes : List UInt8) :
    (c.untold text).write m bytes = ((c.write m bytes).1.untold text, (c.write m bytes).2) := by
  induction bytes generalizing c m with
  | nil => rfl
  | cons b bytes ih =>
    simp only [write]
    rw [put_untold, ih]

end Console

namespace Machine

def within (m : Machine) (o : Outside) : Machine :=
  { m with keys := m.keys ++ o.keys, clock := o.clock, console := m.console.untold o.told }

abbrev resultWithin {α : Type} (o : Outside) : EStateM.Result Fault Machine α → EStateM.Result Fault Machine α :=
  thenChange fun m => m.within o

abbrev Commutes {α : Type} (o : Outside) (act : Exec α) : Prop :=
  Passes (fun m => m.within o) act

section Actions

variable {α β : Type} {o : Outside}

theorem hidden_within (o : Outside) : Hidden fun m => m.within o := {}

theorem Commutes.bind_at {act : Exec α} {f : α → Exec β} {m : Machine} (h : act (m.within o) = resultWithin o (act m))
    (h' : ∀ a m', act m = .ok a m' → f a (m'.within o) = resultWithin o (f a m'))
    : (act >>= f) (m.within o) = resultWithin o ((act >>= f) m) :=
  Passes.bind_at (f := (·.within o)) h h'

theorem commutes_get_bind {f : Machine → Exec α} (h : ∀ m, f (m.within o) (m.within o) = resultWithin o (f m m)) :
    Commutes o (get >>= f) :=
  h

theorem commutes_modifyGet {f : Machine → α × Machine} (h : ∀ m, f (m.within o) = ((f m).1, (f m).2.within o)) :
    Commutes o (modifyGet f) := by
  intro m
  change EStateM.Result.ok (f (m.within o)).1 (f (m.within o)).2 = .ok (f m).1 ((f m).2.within o)
  rw [h m]

theorem commutes_modify {f : Machine → Machine} (h : ∀ m, f (m.within o) = (f m).within o) : Commutes o (modify f) :=
  commutes_modifyGet fun m => congrArg (Prod.mk PUnit.unit) (h m)

theorem commutes_onStack (act : StackM Int32 α) : Commutes o (onStack act) :=
  (hidden_within o).onStack act

theorem commutes_push (v : Int32) : Commutes o (push v) :=
  commutes_onStack _

theorem commutes_pop : Commutes o pop :=
  commutes_onStack _

theorem commutes_loadFrom (h : Handle) : Commutes o (loadFrom h) :=
  fun _ => rfl

theorem commutes_storeTo (h : Handle) (v : Int32) : Commutes o (storeTo h v) :=
  fun _ => rfl

theorem commutes_frameEnd (start : UInt16) (size : Nat) : Commutes o (frameEnd start size) := by
  unfold frameEnd
  split
  next => exact passes_throw _
  next => exact passes_pure _

theorem commutes_fetch (len : Nat) : Commutes o (fetch len) := by
  intro m
  unfold fetch
  split
  next h =>
    rw [if_pos (show m.pc + len ≤ m.image.size from h)]
    rfl
  next h =>
    rw [if_neg (show ¬m.pc + len ≤ m.image.size from h)]
    rfl

theorem commutes_fetchString : Commutes o fetchString := by
  intro m
  have hstring : maskedString? (m.within o).image (m.within o).header.mask (m.within o).pc
      = maskedString? m.image m.header.mask m.pc := rfl
  unfold fetchString
  rw [hstring]
  cases maskedString? m.image m.header.mask m.pc with
  | some bytes => rfl
  | none => rfl

theorem commutes_jump (target : Nat) : Commutes o (jump target) :=
  fun _ => rfl

theorem commutes_branch (b : Bool) (target : Nat) :
    Commutes o (if b then do jump target; pure Progress.running else pure Progress.running) := by
  split
  next => exact (commutes_jump target).bind fun _ => passes_pure _
  next => exact passes_pure _

theorem commutes_access (a : Access) (h : Handle) : Commutes o (access a h) := by
  cases a with
  | load => exact (commutes_loadFrom h).bind fun v => commutes_push v
  | handle => exact commutes_push _
  | indexed =>
    exact commutes_get_bind fun m => (commutes_pop.bind fun v => (commutes_loadFrom
      { addr := h.resolve m.base + v.toUInt32.toUInt16, width := h.width }).bind fun w => commutes_push w) m
  | effective =>
    exact commutes_get_bind fun m => (commutes_pop.bind fun v => commutes_push
      ({ addr := h.resolve m.base + v.toUInt32.toUInt16, width := h.width } : Handle).encode) m

theorem commutes_enter (target : Nat) : Commutes o (enter target) :=
  commutes_get_bind fun m =>
    ((commutes_frameEnd m.base2 Memory.frameHeader).bind fun _ => commutes_modify fun _ => rfl) m

theorem commutes_openFrame (size argc : Nat) : Commutes o (openFrame size argc) :=
  commutes_get_bind fun m =>
    ((commutes_frameEnd m.base size).bind fun _ =>
      (commutes_modify fun _ => rfl).bind fun _ => (commutes_onStack _).bind fun _ =>
        (commutes_modify fun _ => rfl).bind fun _ => commutes_onStack _) m

theorem commutes_copyCode (addr : UInt16) (len : Nat) : Commutes o (copyCode addr len) := by
  intro m
  unfold copyCode
  split
  next h =>
    rw [if_pos (show m.pc + len ≤ m.image.size from h)]
    rfl
  next h =>
    rw [if_neg (show ¬m.pc + len ≤ m.image.size from h)]
    rfl

theorem literal_within (m : Machine) (position : Nat) (bytes : List UInt8) :
    (m.within o).literal position bytes = ((m.literal position bytes).1, (m.literal position bytes).2.within o) := by
  have hliterals : (m.within o).literals = m.literals := rfl
  unfold literal
  rw [hliterals]
  cases m.literals.find? (·.position == position) with
  | some l => rfl
  | none => rfl

theorem commutes_execute (op : Opcode) : Commutes o (execute op) := by
  cases op with
  | nop => exact passes_pure _
  | push w =>
    cases w with
    | byte => exact (commutes_fetch 1).bind fun v => (commutes_push _).bind fun _ => passes_pure _
    | word => exact (commutes_fetch 2).bind fun v => (commutes_push _).bind fun _ => passes_pure _
    | dword => exact (commutes_fetch 4).bind fun v => (commutes_push _).bind fun _ => passes_pure _
  | access a w relative => exact (commutes_fetch 2).bind fun addr => (commutes_access a _).bind fun _ => passes_pure _
  | cast w => exact commutes_pop.bind fun addr => (commutes_push _).bind fun _ => passes_pure _
  | pushStr =>
    apply commutes_fetchString.bind
    intro bytes
    apply (commutes_modifyGet fun m => literal_within m m.lastPc bytes).bind
    intro addr
    exact (commutes_push _).bind fun _ => passes_pure _
  | load =>
    exact commutes_pop.bind fun v => (commutes_loadFrom _).bind fun w => (commutes_push w).bind fun _ => passes_pure _
  | store =>
    exact commutes_pop.bind fun v => commutes_pop.bind fun w => (commutes_storeTo _ v).bind fun x =>
      (commutes_push x).bind fun _ => passes_pure _
  | pop => exact commutes_pop.bind fun _ => passes_pure _
  | dup => exact (commutes_onStack _).bind fun v => (commutes_push v).bind fun _ => passes_pure _
  | neg | not | lnot => exact commutes_pop.bind fun v => (commutes_push _).bind fun _ => passes_pure _
  | step up before =>
    exact commutes_pop.bind fun v => (commutes_loadFrom _).bind fun old => (commutes_storeTo _ _).bind fun new =>
      (commutes_push _).bind fun _ => passes_pure _
  | binary op => exact (commutes_onStack _).bind fun p => (commutes_push _).bind fun _ => passes_pure _
  | jmp => exact (commutes_fetch 3).bind fun t => (commutes_jump _).bind fun _ => passes_pure _
  | jz | jnz => exact (commutes_fetch 3).bind fun t => commutes_pop.bind fun v => commutes_branch _ _
  | call => exact (commutes_fetch 3).bind fun t => (commutes_enter _).bind fun _ => passes_pure _
  | func =>
    exact (commutes_fetch 2).bind fun size => (commutes_fetch 1).bind fun argc => (commutes_openFrame _ _).bind fun _ =>
      passes_pure _
  | ret | exit => exact (commutes_modify fun _ => rfl).bind fun _ => passes_pure _
  | space =>
    exact (commutes_fetch 2).bind fun size => (commutes_frameEnd _ _).bind fun top =>
      (commutes_modify fun _ => rfl).bind fun _ => passes_pure _
  | init =>
    exact (commutes_fetch 2).bind fun addr => (commutes_fetch 2).bind fun len => (commutes_copyCode _ _).bind fun _ =>
      passes_pure _

end Actions

section Calls

variable (m : Machine) (o : Outside)

theorem withConsole_within {f : Console → Memory → Console × Memory}
    (hf : ∀ console memory, f (console.untold o.told) memory
      = ((f console memory).1.untold o.told, (f console memory).2))
    : (m.within o).withConsole f = (m.withConsole f).within o := by
  have hpair : f (m.within o).console (m.within o).memory
      = ((f m.console m.memory).1.untold o.told, (f m.console m.memory).2) := hf m.console m.memory
  simp only [withConsole, hpair]
  rfl

theorem takeKey_within (h : m.keys ≠ []) : (m.within o).takeKey = (m.takeKey.1, m.takeKey.2.within o) := by
  obtain ⟨key, keys, hkeys⟩ := List.exists_cons_of_ne_nil h
  simp only [takeKey, within, hkeys, List.cons_append, List.headD_cons, List.tail_cons]

theorem ne_nil_of_inputReady {m : Machine} {c : Call} (h : m.inputReady c = true) : m.keys ≠ [] := by
  intro hnil
  simp only [inputReady, hnil] at h
  cases h

theorem ofNat_toNat_lt {key : UInt8} (h : key < 0x80) : Int32.ofNat key.toNat < 0x80 := by
  have hlt : key.toNat < 128 := UInt8.lt_iff_toNat_lt.mp h
  rw [Int32.lt_iff_toInt_lt, Int32.toInt_ofNat_of_lt (by omega)]
  exact Int.ofNat_lt.mpr hlt

theorem takeWord_within (h : m.inputReady .getword = true) :
    (m.within o).takeWord = (m.takeWord.1, m.takeWord.2.within o) := by
  -- a first key of two is taken only where the second one waits too
  have hwaiting : m.keys ≠ [] ∧ (¬ m.takeKey.1 < 0x80 → m.takeKey.2.keys ≠ []) := by
    unfold inputReady at h
    split at h
    next => cases h
    next key hkeys =>
      refine ⟨by simp [hkeys], fun hlong => absurd ?_ hlong⟩
      simp only [takeKey, hkeys, List.headD_cons]
      exact ofNat_toNat_lt (by simpa using h)
    next hnil hone =>
      refine ⟨hnil, fun _ htail => ?_⟩
      obtain ⟨key, keys, hkeys⟩ := List.exists_cons_of_ne_nil hnil
      simp only [takeKey, hkeys, List.tail_cons] at htail
      exact hone key (htail ▸ hkeys)
  obtain ⟨hkeys, hrest⟩ := hwaiting
  simp only [takeWord, takeKey_within m o hkeys]
  split
  next => rfl
  next hlong => rw [takeKey_within _ o (hrest hlong)]

theorem rand_within : (m.within o).rand = (m.rand.1, m.rand.2.within o) := by
  have hrandom : (m.within o).random = m.random := rfl
  simp only [rand, hrandom]
  rfl

theorem clearScreen_within : (m.within o).clearScreen = m.clearScreen.within o := by
  unfold clearScreen
  rw [withConsole_within m o fun console memory => rfl]
  rfl

theorem refresh_within : (m.within o).refresh = m.refresh.within o := by
  have hmemory : (m.within o).memory = m.memory := rfl
  have hwritten (f : Memory → Memory) : (m.within o).withMemory f = (m.withMemory f).within o := rfl
  have hplane (m : Machine) : (m.within o).plane 0x40 = m.plane 0x40 := rfl
  simp only [refresh, hmemory, hwritten, hplane]
  rfl

theorem printf_within (fmt : Int32) (args : List Int32) :
    (m.within o).printf fmt args = (m.printf fmt args).within o := by
  unfold printf
  exact withConsole_within m o fun console memory => console.write_untold o.told memory _

theorem dispatch_within {c : Call} (htimed : c.isTimed = false)
    (hready : c.signature.blocking = true → m.inputReady c = true) (extra : List Int32)
    : (m.within o).dispatch c extra = ((m.dispatch c extra).1, (m.dispatch c extra).2.within o) := by
  cases c with
  | putchar =>
    exact congrArg (Prod.mk 0) (withConsole_within m o fun console memory => console.put_untold o.told memory _)
  | printf => exact congrArg (Prod.mk 0) (printf_within m o _ _)
  | setscreen => exact congrArg (Prod.mk 0) (withConsole_within m o fun console memory => rfl)
  | clearscreen => exact congrArg (Prod.mk 0) (clearScreen_within m o)
  | refresh => exact congrArg (Prod.mk 0) (refresh_within m o)
  | getchar => exact takeKey_within m o (ne_nil_of_inputReady (hready rfl))
  | getword => exact takeWord_within m o (hready rfl)
  | inkey | checkkey | getms | gettime => cases htimed
  | rand => exact rand_within m o
  | alloc => exact (hidden_within o).alloc m _
  | secret => exact congrArg (Prod.mk 0) ((hidden_within o).secret m _ _ _)
  | fread => exact (hidden_within o).fread m _ _ _ _
  | fwrite => exact (hidden_within o).fwrite m _ _ _ _
  | getc => exact (hidden_within o).getc m _
  | putc => exact (hidden_within o).putc m _ _
  | _ => rfl

theorem inputReady_within {m : Machine} {c : Call} (h : m.inputReady c = true) : (m.within o).inputReady c = true := by
  unfold inputReady at h ⊢
  split at h
  next => cases h
  next key hkeys =>
    simp only [within, hkeys, List.cons_append, List.nil_append]
    cases o.keys with
    | nil => exact h
    | cons => rfl
  next hnil hone =>
    obtain ⟨key, keys, hkeys⟩ := List.exists_cons_of_ne_nil hnil
    obtain ⟨second, keys, rfl⟩ := List.exists_cons_of_ne_nil fun hrest => hone key (hrest ▸ hkeys)
    simp only [within, hkeys, List.cons_append]

theorem inputReady_congr {m m' : Machine} (h : m'.keys = m.keys) (c : Call) : m'.inputReady c = m.inputReady c := by
  unfold inputReady
  rw [h]

theorem finish_within {m : Machine} {c : Call} (htimed : c.isTimed = false)
    (hready : c.signature.blocking = true → m.inputReady c = true) (args : List Int32)
    : finish c args (m.within o) = resultWithin o (finish c args m) := by
  have hcalled : (m.within o).called args = (m.called args).within o := rfl
  simp only [finish]
  rw [hcalled, dispatch_within (m.called args) o htimed hready]
  exact (hidden_within o).answer _ _ _

theorem libraryCall_within {m : Machine} {code : UInt8} (htimed : ∀ c, Call.ofCode? code = some c → c.isTimed = false)
    (hgoes : ∀ m', libraryCall code m ≠ .ok .blocked m')
    : libraryCall code (m.within o) = resultWithin o (libraryCall code m) := by
  cases hcall : Call.ofCode? code with
  | none =>
    unfold libraryCall
    simp only [hcall]
    exact (commutes_push 0).bind (fun _ => passes_pure _) m
  | some c =>
    have hready : c.signature.blocking = true → m.inputReady c = true := by
      intro hblocking
      cases hready : m.inputReady c with
      | true => rfl
      | false => exact (hgoes _ (libraryCall_of_blocked hcall hblocking hready)).elim
    rw [libraryCall_of_ready hcall hready,
      libraryCall_of_ready hcall fun hblocking => inputReady_within o (hready hblocking)]
    apply Commutes.bind_at ((hidden_within o).takeArgs _ m)
    intro args m' hargs
    have hkeeps : Keeps Machine.keys (takeArgs c.signature) := keeps_takeArgs (fun _ _ => rfl) _
    have hkeys := hkeeps m
    rw [hargs] at hkeys
    exact finish_within o (htimed c hcall) (fun hblocking => inputReady_congr hkeys c ▸ hready hblocking) args

end Calls

section Steps

variable {m m' : Machine} {o : Outside}

theorem carryOut_within {code : UInt8} (htimed : ∀ c, Call.ofCode? code = some c → c.isTimed = false)
    (hgoes : ∀ m', carryOut code m ≠ .ok .blocked m')
    : carryOut code (m.within o) = resultWithin o (carryOut code m) := by
  unfold carryOut at hgoes ⊢
  split
  next hcall =>
    rw [if_pos hcall] at hgoes
    exact libraryCall_within o htimed hgoes
  next =>
    cases Opcode.ofCode? code with
    | some op => exact commutes_execute op m
    | none => rfl

def Timeless (m : Machine) : Prop :=
  ∀ c, Call.ofCode? m.opcodeByte = some c → c.isTimed = false

instance (m : Machine) : Decidable m.Timeless :=
  inferInstanceAs (Decidable (∀ c ∈ Call.ofCode? m.opcodeByte, c.isTimed = false))

theorem step_within (h : m.Ready) (htimeless : m.Timeless) (hgoes : ∀ m', step m ≠ .ok .blocked m') :
    step (m.within o) = resultWithin o (step m) := by
  have hready : (m.within o).Ready := ⟨h.loaded, h.halted⟩
  rw [step_eq_of_ready h] at hgoes ⊢
  rw [step_eq_of_ready hready]
  apply Commutes.bind_at (commutes_fetch 1 { m with lastPc := m.pc })
  intro code m' hfetch
  rw [bind_eq_ok hfetch] at hgoes
  have hcode : code.toUInt8 = m.opcodeByte := by
    unfold fetch at hfetch
    split at hfetch
    next =>
      cases hfetch
      exact toUInt8_codeLE_one m
    next => cases hfetch
  rw [hcode] at hgoes ⊢
  exact carryOut_within htimeless hgoes

def Unblocked (act : Exec Progress) : Prop :=
  ∀ m m', act m ≠ .ok .blocked m'

theorem unblocked_running : Unblocked (pure .running) := by
  rintro m m' ⟨⟩

theorem Unblocked.bind {α : Type} {act : Exec α} {f : α → Exec Progress} (h : ∀ a, Unblocked (f a)) :
    Unblocked (act >>= f) := by
  intro m m' hblocked
  obtain ⟨a, m1, -, hf⟩ := bind_eq_ok_iff.mp hblocked
  exact h a m1 m' hf

theorem unblocked_branch (b : Bool) (target : Nat) :
    Unblocked (if b then do jump target; pure Progress.running else pure Progress.running) := by
  split
  next => exact .bind fun _ => unblocked_running
  next => exact unblocked_running

theorem unblocked_execute (op : Opcode) : Unblocked (execute op) := by
  cases op with
  | nop => exact unblocked_running
  | push w =>
    cases w with
    | byte | word | dword => exact .bind fun _ => .bind fun _ => unblocked_running
  | pop | ret => exact .bind fun _ => unblocked_running
  | access | cast | dup | neg | binary | not | lnot | jmp | call =>
    exact .bind fun _ => .bind fun _ => unblocked_running
  | pushStr | load | func | space | init => exact .bind fun _ => .bind fun _ => .bind fun _ => unblocked_running
  | store | step => exact .bind fun _ => .bind fun _ => .bind fun _ => .bind fun _ => unblocked_running
  | jz | jnz => exact .bind fun _ => .bind fun _ => unblocked_branch _ _
  | exit =>
    apply Unblocked.bind
    rintro _ m m' ⟨⟩

theorem halted_of_answer {s : Signature} {value : Int32} {p : Progress} (h : answer s value m = .ok p m') :
    p = if m'.halted then .halted else .running := by
  have hend {m : Machine} (h : (do return if (← get).halted then .halted else .running : Exec Progress) m = .ok p m') :
      p = if m'.halted then .halted else .running := by
    cases h
    rfl
  unfold answer at h
  split at h
  next =>
    obtain ⟨_, m1, -, h⟩ := bind_eq_ok_iff.mp h
    exact hend h
  next => exact hend h

theorem unblocked_answer (s : Signature) (value : Int32) : Unblocked (answer s value) := by
  intro m m' hblocked
  have hend := halted_of_answer hblocked
  split at hend
  next => cases hend
  next => cases hend

theorem eq_of_step_blocked (h : step m = .ok .blocked m') : m' = { m with lastPc := m.pc } := by
  have hsteps := steps_step m
  rw [h] at hsteps
  generalize hr : EStateM.Result.ok Progress.blocked m' = r at hsteps
  cases hsteps with
  | unloaded | halted | overrun | invalid => cases hr
  | op => exact (unblocked_execute _ _ _ hr.symm).elim
  | call =>
    have hcalls := calls_libraryCall m.begun m.opcodeByte
    rw [← hr] at hcalls
    generalize hr' : EStateM.Result.ok Progress.blocked m' = r at hcalls
    cases hcalls with
    | unknown => exact (Unblocked.bind (fun _ => unblocked_running) _ _ hr'.symm).elim
    | blocked =>
      cases hr'
      rfl
    | short => cases hr'
    | done => exact (unblocked_answer _ _ _ _ hr'.symm).elim

theorem step_lastPc (h : m.Ready) (last : Nat) : step { m with lastPc := last } = step m := by
  have hready : Ready { m with lastPc := last } := ⟨h.loaded, h.halted⟩
  rw [step_eq_of_ready h, step_eq_of_ready hready]

theorem ready_of_step_running (h : step m = .ok .running m') : m'.Ready := by
  have hloaded := loaded_step m
  rw [h] at hloaded
  have hsteps := steps_step m
  rw [h] at hsteps
  generalize hr : EStateM.Result.ok Progress.running m' = r at hsteps
  cases hsteps with
  | unloaded | halted | overrun | invalid => cases hr
  | @op op hlive =>
    have hhalted : m'.halted = m.halted := by
      by_cases hexit : op = .exit
      · subst hexit
        cases hr
      · have hspared : Spared Machine.halted op := { halted := fun h => absurd h hexit }
        have hkept := hspared.execute m.begun
        rw [← hr] at hkept
        exact hkept
    exact ⟨hloaded.trans hlive.loaded, hhalted.trans hlive.halted⟩
  | call hlive =>
    refine ⟨hloaded.trans hlive.loaded, ?_⟩
    have hcalls := calls_libraryCall m.begun m.opcodeByte
    rw [← hr] at hcalls
    generalize hr' : EStateM.Result.ok Progress.running m' = r at hcalls
    cases hcalls with
    | unknown =>
      have hkeeps : Keeps Machine.halted (push 0 >>= fun _ => pure .running : Exec Progress) :=
        (keeps_onStack (fun _ _ => rfl) _).bind fun _ => keeps_pure _
      have hkept := hkeeps m.begun
      rw [← hr'] at hkept
      exact hkept.trans hlive.halted
    | blocked | short => cases hr'
    | done =>
      have hend := halted_of_answer hr'.symm
      cases hhalted : m'.halted with
      | false => rfl
      | true =>
        rw [hhalted] at hend
        cases hend

theorem keys_dispatch (m : Machine) (c : Call) (extra : List Int32) : (m.dispatch c extra).2.keys <:+ m.keys := by
  cases hc : c.takesKeys with
  | false =>
    have hspared : SparedByCall Machine.keys c := { keys := fun htakes => by simp [hc] at htakes }
    have hkeys : (m.dispatch c extra).2.keys = m.keys := hspared.dispatch m extra
    exact hkeys ▸ List.suffix_refl _
  | true =>
    cases c with
    | getchar | inkey => exact List.tail_suffix _
    | getword =>
      change m.takeWord.2.keys <:+ m.keys
      simp only [takeWord]
      split
      next => exact List.tail_suffix _
      next => exact (List.tail_suffix _).trans (List.tail_suffix _)
    | _ => cases hc

theorem keys_step (m : Machine) : (after (step m)).keys <:+ m.keys := by
  have hsteps := steps_step m
  generalize step m = r at hsteps ⊢
  cases hsteps with
  | unloaded | halted | overrun | invalid => exact List.suffix_refl _
  | @op op =>
    have hspared : Spared Machine.keys op := {}
    rw [hspared.execute]
    exact List.suffix_refl _
  | call =>
    have hstack (m : Machine) (stack : Stack Int32) : Machine.keys { m with stack := stack } = m.keys := rfl
    have hcalls := calls_libraryCall m.begun m.opcodeByte
    generalize libraryCall m.opcodeByte m.begun = r at hcalls ⊢
    cases hcalls with
    | unknown =>
      have hkeeps : Keeps Machine.keys (push 0 >>= fun _ => pure .running : Exec Progress) :=
        (keeps_onStack hstack _).bind fun _ => keeps_pure _
      rw [hkeeps m.begun]
      exact List.suffix_refl _
    | blocked => exact List.suffix_refl _
    | @short c _ _ _ _ hargs =>
      have htake := keeps_takeArgs hstack c.signature m.begun
      rw [hargs] at htake
      exact htake ▸ List.suffix_refl _
    | @done c args m' _ _ hargs =>
      have htake := keeps_takeArgs hstack c.signature m.begun
      rw [hargs] at htake
      rw [keeps_answer hstack]
      exact (keys_dispatch (m'.called args) c _).trans (htake ▸ List.suffix_refl _)

end Steps

end Machine
end Handheld
