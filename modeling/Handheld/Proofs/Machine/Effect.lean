import Handheld.Proofs.Machine.Frame

/-!
What instructions do to the height of the value stack. None of them piles values above the limit.
-/
namespace Handheld

def Opcode.effect : Opcode → Nat × Nat
  | nop | jmp | call | func | ret | exit | space | init => (0, 0)
  | push _ | pushStr | access .load _ _ | access .handle _ _ => (0, 1)
  | access .indexed _ _ | access .effective _ _ => (1, 1)
  | cast _ | load | neg | step _ _ | not | lnot => (1, 1)
  | store | binary _ => (2, 1)
  | pop | jz | jnz => (1, 0)
  | dup => (1, 2)

namespace Machine

def Moves {α : Type} (act : Exec α) (taken left : Nat) : Prop :=
  ∀ m a m', act m = .ok a m' →
    taken ≤ m.stack.size ∧ m'.stack.size + taken = m.stack.size + left

def Bounds (s s' : Stack Int32) : Prop :=
  s'.limit = s.limit ∧ s'.size ≤ max s.size s.limit

def Bounded {α : Type} (act : Exec α) : Prop :=
  ∀ m, Bounds m.stack (after (act m)).stack

structure Shifts {α : Type} (act : Exec α) (taken left : Nat) : Prop where
  moves : Moves act taken left
  bounded : Bounded act

section Actions

variable {α β : Type} {act : Exec α} {f : α → Exec β} {t l t' l' : Nat}

theorem Bounds.trans {s s' s'' : Stack Int32} (h : Bounds s s') (h' : Bounds s' s'') : Bounds s s'' := by
  unfold Bounds at *
  omega

theorem Bounded.bind (h : Bounded act) (h' : ∀ a, Bounded (f a)) : Bounded (act >>= f) := by
  intro m
  have hact := h m
  simp only [Bind.bind, EStateM.bind]
  split
  next a m' hrun =>
    rw [hrun] at hact
    exact hact.trans (h' a m')
  next e m' hrun =>
    rw [hrun] at hact
    exact hact

theorem Bounded.of_keeps (h : Keeps (fun m => m.stack) act) : Bounded act := by
  intro m
  have hstack : (after (act m)).stack = m.stack := h m
  rw [hstack]
  exact ⟨rfl, Nat.le_max_left _ _⟩

theorem Shifts.bind (h : Shifts act t l) (h' : ∀ a, Shifts (f a) t' l') :
    Shifts (act >>= f) (t + (t' - l)) (l' + (l - t')) := by
  refine ⟨?_, h.bounded.bind fun a => (h' a).bounded⟩
  intro m b m'' hrun
  simp only [Bind.bind, EStateM.bind] at hrun
  split at hrun
  next a m' hact =>
    have := h.moves m a m' hact
    have := (h' a).moves m' b m'' hrun
    omega
  next => simp at hrun

theorem Shifts.of_keeps (h : Keeps (fun m => m.stack) act) : Shifts act 0 0 := by
  refine ⟨?_, .of_keeps h⟩
  intro m a m' hrun
  have hstack := h m
  rw [hrun] at hstack
  have hsize : m'.stack.size = m.stack.size := congrArg Stack.size hstack
  omega

theorem Shifts.keeping {act : Exec β} {f : β → Exec α} (h : Keeps (fun m => m.stack) act) (h' : ∀ a, Shifts (f a) t l) :
    Shifts (act >>= f) t l := by
  have hbind := (Shifts.of_keeps h).bind h'
  rwa [Nat.zero_add, Nat.zero_sub, Nat.add_zero, Nat.sub_zero] at hbind

end Actions

section Values

variable {α : Type} {t l : Nat}

theorem shifts_onStack {act : StackM Int32 α}
    (hok : ∀ s a s', act s = .ok a s' → (t ≤ s.size ∧ s'.size + t = s.size + l) ∧ Bounds s s')
    (herror : ∀ s e s', act s = .error e s' → s' = s)
    : Shifts (onStack act) t l := by
  constructor
  · intro m a m' hrun
    simp only [onStack] at hrun
    split at hrun
    next a s' hact =>
      cases hrun
      exact (hok _ _ _ hact).1
    next => cases hrun
  · intro m
    simp only [onStack]
    split
    next a s' hact => exact (hok _ _ _ hact).2
    next e s' hact =>
      rw [herror _ _ _ hact]
      exact ⟨rfl, Nat.le_max_left _ _⟩

theorem shifts_push (v : Int32) : Shifts (push v) 0 1 := by
  apply shifts_onStack
  all_goals
    intro s _ s' hact
    unfold Stack.push at hact
    split at hact
    all_goals cases hact
  · simp only [Bounds, Stack.size, Array.size_push, and_true, true_and] at *
    omega
  · rfl

theorem size_pos_of_back {s : Stack Int32} {v : Int32} (h : s.items.back? = some v) : 1 ≤ s.size := by
  apply Nat.one_le_iff_ne_zero.mpr
  intro hzero
  rw [Array.eq_empty_of_size_eq_zero hzero] at h
  simp at h

theorem shifts_pop : Shifts pop 1 0 := by
  apply shifts_onStack
  all_goals
    intro s _ s' hact
    unfold Stack.pop at hact
    split at hact
    all_goals cases hact
  next hback =>
    have := size_pos_of_back hback
    simp only [Bounds, Stack.size, Array.size_pop, true_and] at this ⊢
    omega
  next => rfl

theorem shifts_pop2 : Shifts (onStack Stack.pop2) 2 0 := by
  have heq : onStack Stack.pop2 = pop >>= fun second => pop >>= fun first => pure (first, second) := by
    funext m
    simp only [onStack, Stack.pop2, pop, Bind.bind, EStateM.bind]
    cases Stack.pop m.stack with
    | error e s => rfl
    | ok a s =>
      dsimp only
      cases Stack.pop s with
      | error e s' => rfl
      | ok b s' => rfl
  rw [heq]
  exact shifts_pop.bind fun _ => shifts_pop.bind fun _ => .of_keeps (keeps_pure _)

theorem shifts_last : Shifts (onStack Stack.last) 1 1 := by
  apply shifts_onStack
  all_goals
    intro s _ s' hact
    unfold Stack.last at hact
    split at hact
    all_goals cases hact
  next hback => exact ⟨⟨size_pos_of_back hback, rfl⟩, rfl, Nat.le_max_left _ _⟩
  next => rfl

theorem keeps_window (skip len : Nat) : Keeps (fun m => m.stack) (onStack (Stack.window skip len)) := by
  intro m
  simp only [onStack, Stack.window]
  split
  next h =>
    split at h
    all_goals cases h
    rfl
  next h =>
    split at h
    all_goals cases h
    rfl

theorem shifts_drop (len : Nat) : Shifts (onStack (Stack.drop len)) len 0 := by
  apply shifts_onStack
  all_goals
    intro s _ s' hact
    unfold Stack.drop at hact
    split at hact
    all_goals cases hact
  · simp only [Bounds, Stack.size, Array.size_shrink, true_and] at *
    omega
  · rfl

end Values

theorem literal_stack (m : Machine) (position : Nat) (bytes : List UInt8) :
    (m.literal position bytes).2.stack = m.stack := by
  unfold literal
  split <;> rfl

theorem keeps_stack_fetch (len : Nat) : Keeps (fun m => m.stack) (fetch len) :=
  keeps_fetch (fun _ _ => rfl) len

theorem keeps_stack_copyCode (addr : UInt16) (len : Nat) : Keeps (fun m => m.stack) (copyCode addr len) := by
  intro m
  unfold copyCode
  split <;> rfl

theorem keeps_stack_enter (target : Nat) : Keeps (fun m => m.stack) (enter target) :=
  keeps_get.bind fun _ => (keeps_frameEnd _ _).bind fun _ => keeps_modify fun _ => rfl

theorem keeps_stack_branch (b : Bool) (target : Nat) :
    Keeps (fun m => m.stack) (if b then do jump target; pure Progress.running else pure Progress.running) := by
  split
  next => exact fun _ => rfl
  next => exact keeps_pure _

theorem shifts_pushing (v : Int32) : Shifts (push v >>= fun _ => pure Progress.running) 0 1 :=
  (shifts_push v).bind fun _ => .of_keeps (keeps_pure _)

theorem shifts_access (a : Access) (h : Handle) :
    Shifts (access a h) (Opcode.access a h.width h.relative).effect.1
      (Opcode.access a h.width h.relative).effect.2 := by
  cases a with
  | load => exact .keeping (keeps_loadFrom h) fun v => shifts_push v
  | handle => exact shifts_push _
  | indexed =>
    exact .keeping keeps_get fun m => shifts_pop.bind fun v => .keeping (keeps_loadFrom _) fun w => shifts_push w
  | effective => exact .keeping keeps_get fun m => shifts_pop.bind fun v => shifts_push _

theorem shifts_execute {op : Opcode} (hop : op ≠ .func) : Shifts (execute op) op.effect.1 op.effect.2 := by
  cases op with
  | nop => exact .of_keeps (keeps_pure _)
  | push w =>
    cases w with
    | byte => exact .keeping (keeps_stack_fetch 1) fun v => shifts_pushing _
    | word => exact .keeping (keeps_stack_fetch 2) fun v => shifts_pushing _
    | dword => exact .keeping (keeps_stack_fetch 4) fun v => shifts_pushing _
  | access a w relative =>
    have h := fun addr : UInt32 =>
      shifts_access a { addr := addr.toUInt16, width := w, relative := relative }
    cases a <;> exact .keeping (keeps_stack_fetch 2) fun addr => (h addr).bind fun _ => .of_keeps (keeps_pure _)
  | cast w => exact shifts_pop.bind fun addr => shifts_pushing _
  | pushStr =>
    refine .keeping (keeps_fetchString fun _ _ => rfl) fun bytes => .keeping ?_ fun addr => shifts_pushing _
    exact fun m => literal_stack m _ _
  | load => exact shifts_pop.bind fun v => .keeping (keeps_loadFrom _) fun w => shifts_pushing w
  | store =>
    refine shifts_pop.bind fun v => shifts_pop.bind fun h => .keeping ?_ fun w => shifts_pushing w
    exact fun m => rfl
  | pop => exact shifts_pop.bind fun _ => .of_keeps (keeps_pure _)
  | dup => exact shifts_last.bind fun v => shifts_pushing v
  | neg | not | lnot => exact shifts_pop.bind fun v => shifts_pushing _
  | step up before =>
    refine shifts_pop.bind fun h => .keeping (keeps_loadFrom _) fun old => .keeping ?_ fun new => shifts_pushing _
    exact fun m => rfl
  | binary op => exact shifts_pop2.bind fun p => shifts_pushing _
  | jmp => exact .of_keeps ((keeps_stack_fetch 3).bind fun t _ => rfl)
  | jz | jnz =>
    exact .keeping (keeps_stack_fetch 3) fun t => shifts_pop.bind fun v => .of_keeps (keeps_stack_branch _ _)
  | call => exact .of_keeps ((keeps_stack_fetch 3).bind fun t => (keeps_stack_enter _).bind fun _ => keeps_pure _)
  | func => exact absurd rfl hop
  | ret | exit => exact .of_keeps fun _ => rfl
  | space =>
    exact .of_keeps ((keeps_stack_fetch 2).bind fun size => (keeps_frameEnd _ _).bind fun top _ => rfl)
  | init =>
    exact .of_keeps ((keeps_stack_fetch 2).bind fun addr => (keeps_stack_fetch 2).bind fun len =>
      (keeps_stack_copyCode _ _).bind fun _ => keeps_pure _)

theorem bounded_execute (op : Opcode) : Bounded (execute op) := by
  by_cases hop : op = .func
  · subst hop
    refine .bind (.of_keeps (keeps_stack_fetch 2)) fun size => .bind (.of_keeps (keeps_stack_fetch 1)) fun argc => ?_
    refine .bind ?_ fun _ => .of_keeps (keeps_pure _)
    refine .bind (.of_keeps keeps_get) fun m => .bind (.of_keeps (keeps_frameEnd _ _)) fun stop => ?_
    refine .bind (.of_keeps (keeps_modify fun _ => rfl)) fun _ => .bind (.of_keeps (keeps_window _ _)) fun args => ?_
    exact .bind (.of_keeps (keeps_modify fun _ => rfl)) fun _ => (shifts_drop _).bounded
  · exact (shifts_execute hop).bounded

end Machine
end Handheld
