import Handheld.Proofs.Machine.DataSpace
import Handheld.Proofs.Machine.Display
import Handheld.Proofs.Machine.Hidden

/-!
How library calls use the stack and the registers: a call replaces its arguments by its result, and looks at no register
but theirs.
-/
namespace Handheld

variable {skip len : Nat} {rest : List Int32} {p : Progress}

variable {c : Call} {args : List Int32} {s s' : Stack Int32}

def Call.Takes (values : List Int32) : Call → Prop
  | printf | sprintf => ∃ args n, values = args ++ [n] ∧ n.toInt = args.length
  | c => values.length = c.signature.args

structure Call.Replaces (c : Call) (stack stack' : Stack Int32) : Prop where
  limit : stack'.limit = stack.limit
  values : ∃ rest taken left, stack.toList = rest ++ taken ∧ stack'.toList = rest ++ left ∧ c.Takes taken
    ∧ left.length = if c.signature.returns then 1 else 0

theorem Call.takes_of_variadic (h : c.signature.variadic = true) {n : Int32}
    (hn : n.toInt = args.length) : c.Takes (args ++ [n]) := by
  cases c with
  | printf | sprintf => exact ⟨args, n, rfl, hn⟩
  | _ => cases h

theorem Call.takes_of_fixed (h : c.signature.variadic = false)
    (hargs : args.length = c.signature.args) : c.Takes args := by
  cases c with
  | printf | sprintf => cases h
  | _ => exact hargs

namespace Machine

section Stack

variable {m m' : Machine}

theorem window_eq_ok (h : Stack.window skip len s = .ok args s') :
    s' = s ∧ ∃ rest top, s.toList = rest ++ (args ++ top) ∧ args.length = len ∧ top.length = skip := by
  unfold Stack.window at h
  split at h
  next hroom =>
    cases h
    have hargs : (s.items.extract (s.size - skip - len) (s.size - skip)).toList
        = (s.toList.drop (s.size - skip - len)).take len := by
      rw [Array.toList_extract, List.extract_eq_take_drop, Nat.sub_sub_self (by omega)]
      rfl
    have hsize : s.toList.length = s.size := Array.length_toList
    rw [hargs]
    refine ⟨rfl, s.toList.take (s.size - skip - len), (s.toList.drop (s.size - skip - len)).drop len, ?_, ?_, ?_⟩
    · rw [List.take_append_drop, List.take_append_drop]
    · rw [List.length_take, List.length_drop]
      omega
    · rw [List.length_drop, List.length_drop]
      omega
  next => cases h

theorem drop_eq_ok {u : Unit} (h : Stack.drop len s = .ok u s') {top : List Int32}
    (hs : s.toList = rest ++ top) (hlen : top.length = len)
    : s' = { s with items := rest.toArray } := by
  unfold Stack.drop at h
  split at h
  next =>
    cases h
    congr
    apply Array.ext'
    have hsize : s.size = rest.length + top.length := by
      rw [← List.length_append, ← hs]
      exact Array.length_toList.symm
    have hitems : s.items.toList = rest ++ top := hs
    rw [Array.toList_shrink, ← hlen, hsize, Nat.add_sub_cancel, hitems, List.take_left]
  next => cases h

theorem last_eq_ok {v : Int32} (h : Stack.last s = .ok v s') : s' = s ∧ ∃ below, s.toList = below ++ [v] := by
  unfold Stack.last at h
  split at h
  next hback =>
    cases h
    rw [← Array.getLast?_toList] at hback
    exact ⟨rfl, List.getLast?_eq_some_iff.mp hback⟩
  next => cases h

theorem takeTop_eq_ok
    (h : (onStack (Stack.window skip len) >>= fun args => onStack (Stack.drop (len + skip)) >>= fun _ => pure args) m
      = .ok args m')
    : ∃ rest top, m.stack.toList = rest ++ (args ++ top) ∧ args.length = len ∧ top.length = skip
        ∧ m' = { m with stack := { m.stack with items := rest.toArray } } := by
  obtain ⟨_, _, hwindow, hrest⟩ := bind_eq_ok_iff.mp h
  obtain ⟨_, hargs, rfl⟩ := onStack_eq_ok_iff.mp hwindow
  obtain ⟨rfl, rest, top, hstack, hlen, hskip⟩ := window_eq_ok hargs
  obtain ⟨_, _, hdrop, hdone⟩ := bind_eq_ok_iff.mp hrest
  obtain ⟨_, hdropped, rfl⟩ := onStack_eq_ok_iff.mp hdrop
  cases hdone
  have hlength : (args ++ top).length = len + skip := by rw [List.length_append, hlen, hskip]
  rw [drop_eq_ok hdropped hstack hlength]
  exact ⟨rest, top, hstack, hlen, hskip, rfl⟩

theorem takeArgs_eq_ok (h : takeArgs c.signature m = .ok args m') :
    ∃ rest taken, m.stack.toList = rest ++ taken ∧ c.Takes taken ∧ c.signature.args ≤ args.length
      ∧ m' = { m with stack := { m.stack with items := rest.toArray } } := by
  unfold takeArgs at h
  cases hvariadic : c.signature.variadic with
  | true =>
    rw [if_pos hvariadic] at h
    obtain ⟨count, _, hlast, hrest⟩ := bind_eq_ok_iff.mp h
    obtain ⟨_, hcount, rfl⟩ := onStack_eq_ok_iff.mp hlast
    obtain ⟨rfl, below, hbelow⟩ := last_eq_ok hcount
    split at hrest
    next =>
      obtain ⟨_, _, hthrow, -⟩ := bind_eq_ok_iff.mp hrest
      cases hthrow
    next henough =>
      obtain ⟨rest, top, hstack, hlen, hskip, rfl⟩ := takeTop_eq_ok hrest
      -- the value above the arguments is the one that counts them
      obtain ⟨n, rfl⟩ := List.length_eq_one_iff.mp hskip
      have hn : n = count := by
        rw [hbelow, ← List.append_assoc] at hstack
        exact (List.append_inj_right' hstack rfl |> List.singleton_inj.mp).symm
      subst hn
      exact ⟨rest, args ++ [n], hstack, Call.takes_of_variadic hvariadic (by omega), by omega, rfl⟩
  | false =>
    rw [if_neg (by simp [hvariadic])] at h
    obtain ⟨rest, top, hstack, hlen, hskip, rfl⟩ := takeTop_eq_ok h
    rw [List.eq_nil_of_length_eq_zero hskip, List.append_nil] at hstack
    exact ⟨rest, args, hstack, Call.takes_of_fixed hvariadic hlen, Nat.le_of_eq hlen.symm, rfl⟩

theorem answer_eq_ok {s : Signature} {value : Int32} (h : answer s value m = .ok p m') :
    m'.stack.limit = m.stack.limit
      ∧ ∃ left, m'.stack.toList = m.stack.toList ++ left ∧ left.length = if s.returns then 1 else 0 := by
  have hend {m : Machine} (h : (do return if (← get).halted then .halted else .running : Exec Progress) m = .ok p m') :
      m' = m := by
    cases h
    rfl
  unfold answer at h
  cases hreturns : s.returns with
  | true =>
    rw [if_pos hreturns] at h
    obtain ⟨_, _, hpush, hdone⟩ := bind_eq_ok_iff.mp h
    obtain ⟨stack, hpushed, rfl⟩ := onStack_eq_ok_iff.mp hpush
    obtain rfl := hend hdone
    unfold Stack.push at hpushed
    split at hpushed
    next =>
      cases hpushed
      exact ⟨rfl, [value], Array.toList_push, rfl⟩
    next => cases hpushed
  | false =>
    rw [if_neg (by simp [hreturns])] at h
    obtain rfl := hend h
    exact ⟨rfl, [], (List.append_nil _).symm, rfl⟩

theorem stack_dispatch (m : Machine) (c : Call) (extra : List Int32) : (m.dispatch c extra).2.stack = m.stack := by
  have hspared : SparedByCall (fun m => m.stack) c := {}
  exact hspared.dispatch m extra

theorem replaces_finish (h : (takeArgs c.signature >>= finish c) m = .ok p m') : c.Replaces m.stack m'.stack := by
  obtain ⟨args, m1, hargs, hfinish⟩ := bind_eq_ok_iff.mp h
  obtain ⟨rest, taken, hstack, htakes, -, rfl⟩ := takeArgs_eq_ok hargs
  obtain ⟨hlimit, left, hleft, hlength⟩ := answer_eq_ok hfinish
  rw [stack_dispatch] at hlimit hleft
  exact ⟨hlimit, rest, taken, left, hstack, hleft, htakes, hlength⟩

end Stack

section Registers

def withRegs (m : Machine) (regs : Vector Int32 8) : Machine :=
  { m with regs := regs }

theorem hidden_withRegs (regs : Vector Int32 8) : Hidden fun m => m.withRegs regs := {}

def Agree (n : Nat) (regs regs' : Vector Int32 8) : Prop :=
  ∀ i : Fin 8, i.val < n → regs'.get i = regs.get i

theorem agree_setRegs {n : Nat} (h : n ≤ args.length) (regs regs' : Vector Int32 8) :
    Agree n (setRegs regs args) (setRegs regs' args) := by
  intro i hi
  have hget (regs : Vector Int32 8) : (setRegs regs args).get i = args.getD i.val regs[i] := Vector.getElem_ofFn i.isLt
  have hlt : i.val < args.length := Nat.lt_of_lt_of_le hi h
  rw [hget, hget, List.getD_eq_getElem _ _ hlt, List.getD_eq_getElem _ _ hlt]

variable (m : Machine) (regs : Vector Int32 8)

theorem takeWord_withRegs : (m.withRegs regs).takeWord = (m.takeWord.1, m.takeWord.2.withRegs regs) := by
  have hkey : (m.withRegs regs).takeKey = (m.takeKey.1, m.takeKey.2.withRegs regs) := rfl
  simp only [takeWord, hkey]
  split
  next => rfl
  next => rfl

variable {m regs}

theorem dispatch_withRegs (h : Agree c.signature.args m.regs regs) (extra : List Int32) :
    (m.withRegs regs).dispatch c extra = ((m.dispatch c extra).1, (m.dispatch c extra).2.withRegs regs) := by
  have hreg (i : Fin 8) (hi : i.val < c.signature.args) : (m.withRegs regs).regs.get i = m.regs.get i := h i hi
  have h0 (hi : 0 < c.signature.args) : (m.withRegs regs).regs[0] = m.regs[0] := hreg 0 hi
  have h1 (hi : 1 < c.signature.args) : (m.withRegs regs).regs[1] = m.regs[1] := hreg 1 hi
  have h2 (hi : 2 < c.signature.args) : (m.withRegs regs).regs[2] = m.regs[2] := hreg 2 hi
  have h3 (hi : 3 < c.signature.args) : (m.withRegs regs).regs[3] = m.regs[3] := hreg 3 hi
  have h4 (hi : 4 < c.signature.args) : (m.withRegs regs).regs[4] = m.regs[4] := hreg 4 hi
  have h5 (hi : 5 < c.signature.args) : (m.withRegs regs).regs[5] = m.regs[5] := hreg 5 hi
  -- a call is unfolded only as far as its registers stand in it
  cases c with
  | getchar | inkey | rand | beep | getms | refresh | clearscreen | delay | exit => rfl
  | getword => exact takeWord_withRegs m regs
  | isalnum | isalpha | iscntrl | isdigit | isgraph | islower | isprint | ispunct | isspace | isupper | isxdigit
  | tolower | toupper | abs =>
    dsimp only [dispatch]
    rw [h0 (by decide)]
  | putchar | setscreen | printf | strlen | srand | fclose | ftell | feof | rewind | deletefile | gettime | checkkey =>
    dsimp only [dispatch]
    rw [h0 (by decide)]
    rfl
  | alloc =>
    dsimp only [dispatch]
    rw [h0 (by decide), (hidden_withRegs regs).alloc]
  | getc =>
    dsimp only [dispatch]
    rw [h0 (by decide), (hidden_withRegs regs).getc]
  | strcpy | strcat | strchr | strcmp | strstr | locate | getpoint | fopen | crc16 | sprintf =>
    dsimp only [dispatch]
    rw [h0 (by decide), h1 (by decide)]
    rfl
  | putc =>
    dsimp only [dispatch]
    rw [h0 (by decide), h1 (by decide), (hidden_withRegs regs).putc]
  | point | fill | memset | memcpy | fseek =>
    dsimp only [dispatch]
    rw [h0 (by decide), h1 (by decide), h2 (by decide)]
    rfl
  | secret =>
    dsimp only [dispatch]
    rw [h0 (by decide), h1 (by decide), h2 (by decide), (hidden_withRegs regs).secret]
  | textout =>
    dsimp only [dispatch]
    rw [h0 (by decide), h1 (by decide), h2 (by decide), h3 (by decide)]
    rfl
  | fread =>
    dsimp only [dispatch]
    rw [h0 (by decide), h1 (by decide), h2 (by decide), h3 (by decide), (hidden_withRegs regs).fread]
  | fwrite =>
    dsimp only [dispatch]
    rw [h0 (by decide), h1 (by decide), h2 (by decide), h3 (by decide), (hidden_withRegs regs).fwrite]
  | line | rectangle | block | circle =>
    dsimp only [dispatch]
    rw [h0 (by decide), h1 (by decide), h2 (by decide), h3 (by decide), h4 (by decide)]
    rfl
  | box | ellipse | writeblock | getblock =>
    dsimp only [dispatch]
    rw [h0 (by decide), h1 (by decide), h2 (by decide), h3 (by decide), h4 (by decide), h5 (by decide)]
    rfl

theorem finish_withRegs (h : c.signature.args ≤ args.length) :
    finish c args (m.withRegs regs) = thenChange (·.withRegs (setRegs regs args)) (finish c args m) := by
  have hcalled : (m.withRegs regs).called args = (m.called args).withRegs (setRegs regs args) := rfl
  have hagree : Agree c.signature.args (m.called args).regs (setRegs regs args) := agree_setRegs h m.regs regs
  simp only [finish]
  rw [hcalled, dispatch_withRegs hagree]
  exact (hidden_withRegs (setRegs regs args)).answer _ _ _

theorem libraryCall_code (c : Call) (m : Machine) :
    libraryCall c.code m
      = if c.signature.blocking && !m.inputReady c then .ok .blocked { m with pc := m.lastPc }
        else (takeArgs c.signature >>= finish c) m := by
  split
  next hblocked =>
    simp only [Bool.and_eq_true, Bool.not_eq_true'] at hblocked
    exact libraryCall_of_blocked c.ofCode?_code hblocked.1 hblocked.2
  next hready =>
    apply libraryCall_of_ready c.ofCode?_code
    intro hblocking
    simpa [hblocking] using hready

theorem libraryCall_withRegs (c : Call) (m : Machine) (regs : Vector Int32 8) :
    ∃ regs', libraryCall c.code (m.withRegs regs) = thenChange (·.withRegs regs') (libraryCall c.code m) := by
  have hinput : (m.withRegs regs).inputReady c = m.inputReady c := rfl
  rw [libraryCall_code, libraryCall_code, hinput]
  split
  next => exact ⟨regs, rfl⟩
  next =>
    have htake := (hidden_withRegs regs).takeArgs c.signature m
    cases hargs : takeArgs c.signature m with
    | error e m' =>
      rw [hargs] at htake
      rw [bind_eq_error hargs, bind_eq_error htake]
      exact ⟨regs, rfl⟩
    | ok args m' =>
      rw [hargs] at htake
      obtain ⟨_, _, _, _, hlength, _⟩ := takeArgs_eq_ok hargs
      rw [bind_eq_ok hargs, bind_eq_ok htake]
      exact ⟨setRegs regs args, finish_withRegs hlength⟩

end Registers

section Fixed

variable {m : Machine}

theorem step_eq_call (c : Call) (h : m.Live) (hcode : m.opcodeByte = c.code) : step m = libraryCall c.code m.begun := by
  have hrange := c.code_mem_range
  rw [step_eq_libraryCall h (hcode ▸ hrange.1) (hcode ▸ hrange.2), hcode]

theorem takeArgs_of_fixed (hfixed : c.signature.variadic = false)
    (hargs : args.length = c.signature.args) (hstack : m.stack.toList = rest ++ args)
    : takeArgs c.signature m = .ok args { m with stack := { m.stack with items := rest.toArray } } := by
  have hitems : m.stack.items = (rest ++ args).toArray := Array.toList_inj.mp hstack
  have hsize : m.stack.size = rest.length + c.signature.args := by
    rw [Stack.size, hitems, List.size_toArray, List.length_append, hargs]
  have hwindow : onStack (Stack.window 0 c.signature.args) m = .ok args m := by
    have hargs' : (m.stack.items.extract rest.length m.stack.size).toList = args := by
      rw [hitems, hsize, ← hargs]
      simp
    simp only [onStack, Stack.window, hsize, Nat.zero_add, Nat.le_add_left, ↓reduceIte, Nat.sub_zero,
      Nat.add_sub_cancel]
    rw [← hsize, hargs']
  have hdrop : onStack (Stack.drop c.signature.args) m
      = .ok () { m with stack := { m.stack with items := rest.toArray } } := by
    simp only [onStack, Stack.drop, hsize, Nat.le_add_left, ↓reduceIte, Nat.add_sub_cancel]
    rw [hitems]
    simp
  unfold takeArgs
  rw [if_neg (by simp [hfixed]), bind_eq_ok hwindow, bind_eq_ok hdrop]
  rfl

theorem step_of_fixed (h : m.Live) (hcode : m.opcodeByte = c.code)
    (hfixed : c.signature.variadic = false) (hblocking : c.signature.blocking = false)
    (hargs : args.length = c.signature.args) (hstack : m.stack.toList = rest ++ args)
    : step m = finish c args { m.begun with stack := { m.stack with items := rest.toArray } } := by
  rw [step_eq_call c h hcode, libraryCall_code, if_neg (by simp [hblocking])]
  exact bind_eq_ok (takeArgs_of_fixed (m := m.begun) hfixed hargs hstack)

end Fixed

/--
A library call that goes through takes its arguments from the stack and leaves its result there, as its signature says;
what is below stays. Whatever the registers held before, the outcome is the same but for the registers.
-/
theorem call_convention {m m' : Machine} {p : Progress} (c : Call) (h : m.Live) (hcode : m.opcodeByte = c.code)
    (hstep : step m = .ok p m') (hgoes : p ≠ .blocked)
    : c.Replaces m.stack m'.stack
        ∧ ∀ regs, ∃ regs', step { m with regs := regs } = .ok p { m' with regs := regs' } := by
  have hrange := c.code_mem_range
  have hcall {m : Machine} (h : m.Live) (hcode : m.opcodeByte = c.code) : step m = libraryCall c.code m.begun := by
    rw [step_eq_libraryCall h (hcode ▸ hrange.1) (hcode ▸ hrange.2), hcode]
  rw [hcall h hcode] at hstep
  constructor
  · rw [libraryCall_code] at hstep
    split at hstep
    next =>
      cases hstep
      exact absurd rfl hgoes
    next => exact replaces_finish (m := m.begun) hstep
  · intro regs
    have hlive : (m.withRegs regs).Live := ⟨⟨h.loaded, h.halted⟩, h.inside⟩
    obtain ⟨regs', hsame⟩ := libraryCall_withRegs c m.begun regs
    rw [hstep] at hsame
    exact ⟨regs', (hcall hlive hcode).trans hsame⟩

def chatter : Array UInt8 :=
  (({} : Header).toBytes ++ [0x01, 7, 0x01, 0, 0x01, 5, 0x01, 2, Call.printf.code]).toArray

theorem call_convention_chatter :
    (ran chatter 4).stack.toList = [7, 0, 5, 2] ∧ (ran chatter 5).stack.toList = [7]
      ∧ Call.printf.Replaces (ran chatter 4).stack (ran chatter 5).stack
      ∧ ∀ regs, ∃ regs', step { ran chatter 4 with regs := regs } = .ok .running { ran chatter 5 with regs := regs' } := by
  obtain ⟨hlive, hcode, hgoesOn, hbefore, hafter⟩ :
      (ran chatter 4).Live ∧ (ran chatter 4).opcodeByte = Call.printf.code ∧ goesOn (step (ran chatter 4)) = true
        ∧ (ran chatter 4).stack.toList = [7, 0, 5, 2] ∧ (ran chatter 5).stack.toList = [7] := by
    decide +kernel
  have hstep : step (ran chatter 4) = .ok .running (ran chatter 5) := step_eq_of_goesOn hgoesOn
  exact ⟨hbefore, hafter, call_convention .printf hlive hcode hstep (by decide)⟩

end Machine
end Handheld
