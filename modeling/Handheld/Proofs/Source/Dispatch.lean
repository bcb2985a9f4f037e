import Handheld.Proofs.Source.Activation
import Handheld.Proofs.Source.Plain

/-!
How a `switch` is entered. Its operand goes to bytes of the frame that no variable has; then one case after the other is
compared with it.
-/
namespace Handheld.Source

open Asm

variable {cases : List (Int32 × Label)} {stop : Label} {before behind : List Stmt}

structure Spare (ls : Locals) (temp : Nat) : Prop where
  header : Memory.frameHeader ≤ temp
  room : temp + 4 ≤ ls.size
  apart : ∀ x v, ls.vars.lookup x = some v → v.offset + v.size ≤ temp ∨ temp + 4 ≤ v.offset

def slotHandle (temp : Nat) : Handle :=
  ⟨UInt16.ofNat temp, .dword, true⟩

section Spare

variable {g : Globals} {ls ls1 ls' : Locals} {base : UInt16} {temp : Nat}

theorem spare_of_claim {span : Span} (hlaid : ls.Laid) (h : ls.claim 4 span = .ok (temp, ls1)) (hgrows : ls1.Grows ls')
    (hwords : ls'.Unwrapped)
    : Spare ls' temp := by
  obtain ⟨rfl, rfl, hlaid1⟩ := hlaid.claim h
  obtain ⟨-, hsize, hlookup⟩ := hgrows.laid hlaid1 hwords
  refine ⟨hlaid.header, hsize, ?_⟩
  intro x v hv
  rcases hlookup x v hv with hv | hle
  · exact .inl (hlaid.packed.inside x v hv).2
  · exact .inr hle

theorem Spare.resolve (h : Spare ls temp) (hplaced : Placed g ls base) :
    ((slotHandle temp).resolve base).toNat = base.toNat + temp := by
  have hroom := h.room
  have hbelow := hplaced.below
  have hheap := Memory.toNat_heapStart
  have htemp : temp < UInt16.size := by
    have hsize : UInt16.size = 0x10000 := rfl
    omega
  simp only [Handle.resolve, slotHandle, if_true]
  rw [UInt16.toNat_add, UInt16.toNat_ofNat_of_lt' htemp]
  omega

theorem Spare.write (h : Spare ls temp) (hplaced : Placed g ls base) (memory : Memory) (n : Int32) :
    let memory' := memory.write ((slotHandle temp).resolve base) .dword n
    memory'.load (slotHandle temp) base = n ∧ storeOf g ls base memory' = storeOf g ls base memory
      ∧ Untouched g ls base memory memory' := by
  intro memory'
  have hresolve := h.resolve hplaced
  have hheader := h.header
  have hspace := h.room
  have habove := hplaced.above
  have hbelow := hplaced.below
  have hheap := Memory.toNat_heapStart
  have hbytes : Width.dword.bytes = 4 := rfl
  have hroom : ((slotHandle temp).resolve base).toNat + Width.dword.bytes ≤ 0x10000 := by omega
  refine ⟨?_, ?_, ?_⟩
  · have hread : memory'.load (slotHandle temp) base = Width.dword.normalize n := Memory.read_write ..
    rw [hread]
    rfl
  · funext c
    unfold storeOf
    cases hv : c.var? g ls with
    | none => rfl
    | some v =>
      have hwithin := hplaced.within hv
      have hvroom := hwithin.room hplaced
      have hapart : v.address base + v.ty.width.bytes ≤ base.toNat + temp
          ∨ base.toNat + temp + 4 ≤ v.address base := by
        cases c with
        | global x =>
          obtain ⟨-, -, haddress, -, -, hhi⟩ := hplaced.global hv
          omega
        | frame x =>
          obtain ⟨hx, hnumber, haddress, -, -, -⟩ := hplaced.frame hv
          have := h.apart x v hx
          rw [Var.ty_size_of_isNumber hnumber] at this
          omega
      rw [← hwithin.resolve] at hvroom hapart
      rw [← hresolve] at hapart
      exact Memory.read_write_of_disjoint hroom hvroom hapart
  · intro a hglobal hframe
    exact Memory.byte_writeLE_of_not_mem hroom (by omega)

end Spare

def Cases.target (sw : Cases) (a : Int32) (stop : Label) : Label :=
  ((sw.cases.lookup a).or sw.default).getD stop

namespace Activation

variable {A : Activation} {pos temp : Nat} {stack : List Int32} {memory : Memory} {a : Int32}

theorem stands_slot {access : Access} (hspare : Spare A.ls temp)
    (h : A.Stands pos [.op (.access access .dword true) [.int temp]])
    : Machine.Stands A.m.image pos (.access access .dword true) temp := by
  have hroom := hspare.room
  have hbelow := A.placed.below
  have hheap := Memory.toNat_heapStart
  have hint : ((temp : Int) % 256 ^ 2).toNat = temp := by omega
  have hstands := h.1 (isNumber_access _ _ _)
  rwa [fixedLength_access, Option.getD_some, hint] at hstands

def testCode (temp : Nat) (p : Int32 × Label) : Code :=
  [.op (.access .load .dword true) [.int temp], pushInt p.1, .op (.binary .eq), .op .jnz [.label p.2]]

section

variable (hspare : Spare A.ls temp)

include hspare

theorem runs_test {value : Int32} {l : Label}
    (hslot : memory.load (slotHandle temp) A.m.base = a) (hroom : stack.length + 2 ≤ A.m.stack.limit)
    (h : A.Stands pos (testCode temp (value, l)))
    : ∃ target, A.address l = some target ∧
        A.m.Runs ⟨pos, stack, memory⟩
          ⟨if a = value then target else pos + (testCode temp (value, l)).extent, stack, memory⟩ := by
  have hload : (Line.op (.access .load .dword true) [.int temp]).size = 3 :=
    Line.size_op (fixedLength_access _ _ _) _
  have heq : (Line.op (.binary .eq) []).size = 1 := rfl
  have hjnz : (Line.op .jnz [.label l]).size = 4 := rfl
  simp only [testCode, stands_cons_cons, Code.extent_cons, Code.extent_nil, hload, heq, hjnz, Nat.add_zero,
    Nat.add_assoc] at h ⊢
  obtain ⟨hsload, hspush, hseq, hsjnz⟩ := h
  obtain ⟨target, -, htarget, -⟩ := hsjnz.1 rfl
  refine ⟨target, htarget, ?_⟩
  have hrun1 : A.m.Runs ⟨pos, stack, memory⟩ ⟨pos + 3, a :: stack, memory⟩ := by
    rw [← hslot]
    exact Machine.runs_access_load A.ready (by omega) (stands_slot hspare hsload)
  have hrun2 : A.m.Runs ⟨pos + 3, a :: stack, memory⟩
      ⟨pos + (3 + (pushInt value).size), value :: a :: stack, memory⟩ := by
    rw [← Nat.add_assoc]
    exact Walk.runs_pushInt (W := A.walk) hspush (show stack.length + 1 < A.m.stack.limit by omega)
  have hrun3 : A.m.Runs ⟨pos + (3 + (pushInt value).size), value :: a :: stack, memory⟩
      ⟨pos + (3 + ((pushInt value).size + 1)), Binary.apply .eq a value :: stack, memory⟩ :=
    Machine.runs_binary A.ready (by omega) (hseq.1 rfl)
  refine (hrun1.trans (hrun2.trans hrun3)).trans ?_
  have hrun4 : A.m.Runs ⟨pos + (3 + ((pushInt value).size + 1)), Binary.apply .eq a value :: stack, memory⟩ _ :=
    Walk.runs_decides (W := A.walk) false hsjnz htarget
  by_cases ha : a = value
  · simpa [Binary.apply, truth, ha] using hrun4
  · simpa [Binary.apply, truth, ha, Nat.add_assoc] using hrun4

theorem runs_tests
    (hslot : memory.load (slotHandle temp) A.m.base = a) (hroom : stack.length + 2 ≤ A.m.stack.limit)
    (h : A.Stands pos (cases.flatMap (testCode temp)))
    : match cases.lookup a with
      | some l => ∃ target, A.address l = some target ∧ A.m.Runs ⟨pos, stack, memory⟩ ⟨target, stack, memory⟩
      | none => A.m.Runs ⟨pos, stack, memory⟩
          ⟨pos + Code.extent (cases.flatMap (testCode temp)), stack, memory⟩ := by
  induction cases generalizing pos with
  | nil => exact .refl _ _
  | cons p cases ih =>
    obtain ⟨value, l⟩ := p
    rw [List.flatMap_cons, stands_append] at h
    obtain ⟨target, htarget, hrun⟩ := runs_test hspare hslot hroom h.1
    rw [List.lookup_cons]
    by_cases ha : a = value
    · rw [if_pos ha] at hrun
      simp only [ha, beq_self_eq_true]
      exact ⟨target, htarget, hrun⟩
    · rw [if_neg ha] at hrun
      have hne : (a == value) = false := beq_eq_false_iff_ne.mpr ha
      have hrest := ih h.2
      rw [List.flatMap_cons, Code.extent_append, ← Nat.add_assoc]
      simp only [hne]
      cases hlookup : cases.lookup a with
      | none =>
        rw [hlookup] at hrest
        exact hrun.trans hrest
      | some l =>
        rw [hlookup] at hrest
        obtain ⟨target, htarget, hrest⟩ := hrest
        exact ⟨target, htarget, hrun.trans hrest⟩

theorem runs_dispatch {sw : Cases}
    (hslot : memory.load (slotHandle temp) A.m.base = a) (hroom : stack.length + 2 ≤ A.m.stack.limit)
    (h : A.Stands pos (dispatchCode temp sw stop))
    : ∃ target, A.address (sw.target a stop) = some target
        ∧ A.m.Runs ⟨pos, stack, memory⟩ ⟨target, stack, memory⟩ := by
  obtain ⟨htests, hjump⟩ := stands_append.mp (h : A.Stands pos (sw.cases.flatMap (testCode temp) ++ _))
  rw [stands_cons_cons] at hjump
  obtain ⟨hjump, -⟩ := hjump
  have hruns := runs_tests hspare hslot hroom htests
  unfold Cases.target
  cases hlookup : sw.cases.lookup a with
  | some l =>
    rw [hlookup] at hruns
    exact hruns
  | none =>
    rw [hlookup] at hruns
    obtain ⟨target, -, htarget, -⟩ := hjump.1 rfl
    exact ⟨target, htarget, hruns.trans (Walk.runs_jmp (W := A.walk) hjump htarget)⟩

theorem leads_enter {code : Code} {sw : Cases} {dispatch : Label} {pos' : Nat} {σ σ1 : Store}
    (hroom : stack.length + 2 ≤ A.m.stack.limit)
    (hcode : A.Does code ((slotHandle temp).encode :: stack, σ) (a :: (slotHandle temp).encode :: stack, σ1))
    (h : A.Stands pos ([.op (.access .handle .dword true) [.int temp]] ++ code
      ++ [.op .store, .op .pop, .op .jmp [.label dispatch]]))
    (hlabel : A.address dispatch = some pos') (hdispatch : A.Stands pos' (dispatchCode temp sw stop))
    : ∃ target, A.address (sw.target a stop) = some target ∧ A.Leads ⟨pos, stack, σ⟩ ⟨target, stack, σ1⟩ := by
  have hhandle : (Line.op (.access .handle .dword true) [.int temp]).size = 3 :=
    Line.size_op (fixedLength_access _ _ _) _
  have hstore : (Line.op .store []).size = 1 := rfl
  have hpop : (Line.op .pop []).size = 1 := rfl
  simp only [stands_append, stands_cons_cons, Code.extent_append, Code.extent_cons, Code.extent_nil, hhandle,
    hstore, hpop, Nat.add_zero, Nat.add_assoc] at h
  obtain ⟨⟨hshandle, hscode⟩, hsstore, hspop, hsjmp⟩ := h
  -- the label does not depend on the memory, so any memory with the operand in the slot shows its address
  obtain ⟨target, htarget, -⟩ := runs_dispatch hspare (hspare.write A.placed A.m.memory a).1 hroom hdispatch
  refine ⟨target, htarget, ?_⟩
  intro memory hmemory
  obtain ⟨memory1, hruncode, hstore1, htouch1⟩ := hcode _ hscode memory hmemory
  obtain ⟨hslot, hstore2, htouch2⟩ := hspare.write A.placed memory1 a
  obtain ⟨target', htarget', hrundispatch⟩ := runs_dispatch hspare hslot hroom hdispatch
  cases htarget.symm.trans htarget'
  refine ⟨_, ?_, hstore2.trans hstore1, htouch1.trans htouch2⟩
  have hrunhandle : A.m.Runs ⟨pos, stack, memory⟩ ⟨pos + 3, (slotHandle temp).encode :: stack, memory⟩ :=
    (Machine.goes_access_handle A.ready (by omega) (stands_slot hspare hshandle)).runs
  rw [Nat.add_assoc] at hruncode
  have hrunstore : A.m.Runs ⟨pos + (3 + code.extent), a :: (slotHandle temp).encode :: stack, memory1⟩
      ⟨pos + (3 + (code.extent + 1)), a :: stack, memory1.write ((slotHandle temp).resolve A.m.base) .dword a⟩ :=
    (Machine.goes_store A.ready (by omega) (hsstore.1 rfl)).runs
  refine hrunhandle.trans (hruncode.trans (hrunstore.trans ?_))
  refine (Machine.goes_pop A.ready (hspop.1 rfl)).runs.trans (.trans ?_ hrundispatch)
  exact Walk.runs_jmp (W := A.walk) hsjmp hlabel

end

end Activation

structure Cases.Gains (sw sw' : Cases) (ss : List Stmt) : Prop where
  cases : ∀ a, sw'.cases.lookup a = sw.cases.lookup a
    ∨ sw.cases.lookup a = none ∧ ∃ span, Stmt.case span a ∈ ss
  default : sw'.default = sw.default ∨ sw.default = none ∧ ∃ span, Stmt.default span ∈ ss

section Labels

variable {g : Globals} {ls : Locals} {base : UInt16} {ctx : Context} {b b' : Body} {code : Code} {sw : Cases}
  {s : Stmt} {ss ss' : List Stmt}

theorem Cases.Gains.cons {sw1 sw' : Cases} (h : sw.Gains sw1 [s]) (h' : sw1.Gains sw' ss) :
    sw.Gains sw' (s :: ss) where
  cases a := by
    rcases h.cases a with heq | ⟨hnone, span, hmem⟩
    · rw [← heq]
      exact (h'.cases a).imp id fun ⟨hnone, span, hmem⟩ => ⟨hnone, span, List.mem_cons_of_mem s hmem⟩
    · exact .inr ⟨hnone, span, by simp_all⟩
  default := by
    rcases h.default with heq | ⟨hnone, span, hmem⟩
    · rw [← heq]
      exact h'.default.imp id fun ⟨hnone, span, hmem⟩ => ⟨hnone, span, List.mem_cons_of_mem s hmem⟩
    · exact .inr ⟨hnone, span, by simp_all⟩

theorem lookup_eq_none_of_any {a : Int32} (h : cases.any (·.1 == a) = false) : cases.lookup a = none := by
  rw [List.lookup_eq_none_iff]
  intro p hp
  have hne := List.any_eq_false.mp h p hp
  rw [beq_iff_eq] at hne
  exact bne_iff_ne.mpr (Ne.symm hne)

theorem gains_label (hs : s.isLabel) (h : s.emit ctx b = .ok (code, b')) (hb : b.switch = some sw) :
    ∃ sw', b'.switch = some sw' ∧ sw.Gains sw' [s] := by
  cases s.emits h with
  | @case _ _ span value _ hsw hnew =>
    cases hb.symm.trans hsw
    refine ⟨_, rfl, ?_, .inl rfl⟩
    intro a
    rw [List.lookup_append]
    by_cases ha : a = value
    · subst ha
      exact .inr ⟨lookup_eq_none_of_any hnew, span, List.mem_singleton_self _⟩
    · have hne : (a == value) = false := beq_eq_false_iff_ne.mpr ha
      simp [List.lookup_cons, hne]
  | default hsw hnew =>
    cases hb.symm.trans hsw
    exact ⟨_, rfl, fun _ => .inl rfl, .inr ⟨hnew, _, List.mem_singleton_self _⟩⟩
  | _ => cases hs

theorem gains_all (h : Stmt.emitAll ctx ss b = .ok (code, b'))
    (hplain : Stmt.arePlain true (scopeOf g b.locals) ss) (hb : b.switch = some sw)
    : ∃ sw', b'.switch = some sw' ∧ sw.Gains sw' ss := by
  induction ss generalizing b code sw with
  | nil =>
    cases Stmt.emitAll_nil_eq_ok_iff.mp h
    exact ⟨sw, hb, fun _ => .inl rfl, .inl rfl⟩
  | cons s ss ih =>
    rw [Stmt.arePlain, Bool.and_eq_true, Bool.or_eq_true, Bool.and_eq_true] at hplain
    obtain ⟨c1, b1, h1, c2, _, h2, heq⟩ := Stmt.emitAll_cons_eq_ok_iff.mp h
    cases heq
    obtain ⟨hs, hss⟩ := hplain
    have hhead : scopeOf g b1.locals = s.behind (scopeOf g b.locals)
        ∧ ∃ sw1, b1.switch = some sw1 ∧ sw.Gains sw1 [s] := by
      rcases hs with hs | ⟨-, hs⟩
      · have hemitted := s.emitted h1 hs
        exact ⟨hemitted.scope, sw, (hemitted.switch rfl).trans hb, fun _ => .inl rfl, .inl rfl⟩
      · rw [Stmt.behind_of_isLabel hs]
        exact ⟨(Emitted.label hs h1).scope, gains_label hs h1 hb⟩
    obtain ⟨hscope, sw1, hsw1, hgains⟩ := hhead
    obtain ⟨sw', hsw', hgains'⟩ := ih h2 (by rw [hscope]; exact hss) hsw1
    exact ⟨sw', hsw', hgains.cons hgains'⟩

theorem Stmt.emitAll_append (h : emitAll ctx (ss ++ ss') b = .ok (code, b')) :
    ∃ code1 b1, emitAll ctx ss b = .ok (code1, b1)
      ∧ ∃ code2, emitAll ctx ss' b1 = .ok (code2, b') ∧ code = code1 ++ code2 := by
  induction ss generalizing b code with
  | nil => exact ⟨[], b, emitAll_nil_eq_ok_iff.mpr rfl, code, h, rfl⟩
  | cons s ss ih =>
    obtain ⟨c1, b1, h1, c2, _, h2, heq⟩ := emitAll_cons_eq_ok_iff.mp h
    cases heq
    obtain ⟨d1, b2, hd1, d2, hd2, rfl⟩ := ih h2
    exact ⟨c1 ++ d1, b2, emitAll_cons_eq_ok_iff.mpr ⟨c1, b1, h1, d1, b2, hd1, rfl⟩, d2, hd2, by simp⟩

theorem Stmt.arePlain_append {labels : Bool} {scope : Scope} :
    arePlain labels scope (ss ++ ss') ↔ arePlain labels scope ss ∧ arePlain labels (behindAll scope ss) ss' := by
  induction ss generalizing scope with
  | nil => simp [arePlain, behindAll]
  | cons s ss ih =>
    rw [List.cons_append, arePlain, arePlain, behindAll, Bool.and_eq_true, Bool.and_eq_true, ih, and_assoc]

theorem split_at_label {t : Stmt} (ht : t.isLabel) (h : Stmt.emitAll ctx (before ++ t :: behind) b = .ok (code, b'))
    (hplain : Stmt.arePlain true (scopeOf g b.locals) (before ++ t :: behind))
    : ∃ front b0 line b1 code1, code = front ++ [line] ++ code1 ∧ t.emit ctx b0 = .ok ([line], b1)
        ∧ Stmt.emitAll ctx behind b1 = .ok (code1, b') ∧ b.locals.Grows b1.locals
        ∧ scopeOf g b1.locals = Stmt.behindAll (scopeOf g b.locals) before
        ∧ Stmt.arePlain true (scopeOf g b1.locals) behind := by
  obtain ⟨front, b0, hbefore, code', h', rfl⟩ := Stmt.emitAll_append h
  obtain ⟨c, b1, ht', code1, _, hbehind, heq⟩ := Stmt.emitAll_cons_eq_ok_iff.mp h'
  cases heq
  obtain ⟨hplain0, hplain'⟩ := Stmt.arePlain_append.mp hplain
  rw [Stmt.arePlain, Bool.and_eq_true, Stmt.behind_of_isLabel ht] at hplain'
  have hemitted := Stmt.emitted_all before hbefore hplain0
  have hscope : scopeOf g b1.locals = Stmt.behindAll (scopeOf g b.locals) before :=
    (Emitted.label ht ht').scope.trans hemitted.scope
  obtain ⟨line, rfl⟩ : ∃ line, c = [line] := by
    cases t.emits ht' with
    | case | default => exact ⟨_, rfl⟩
    | _ => cases ht
  exact ⟨front, b0, line, b1, code1, by simp, ht', hbehind,
    (Stmt.grows_all hbefore).trans (Stmt.grows ht'), hscope, by rw [hscope]; exact hplain'.2⟩

theorem exists_entry {a : Int32} (henters : Enters a ss before behind)
    (h : Stmt.emitAll ctx ss b = .ok (code, b')) (hplain : Stmt.arePlain true (scopeOf g b.locals) ss)
    (hb : b.switch = some {})
    : ∃ sw, b'.switch = some sw ∧
        (before = ss ∧ behind = [] ∧ (∀ stop, sw.target a stop = stop) ∨
          ∃ front l code1 b1, code = front ++ [.label l] ++ code1 ∧ (∀ stop, sw.target a stop = l)
            ∧ Stmt.emitAll ctx behind b1 = .ok (code1, b') ∧ b.locals.Grows b1.locals
            ∧ scopeOf g b1.locals = Stmt.behindAll (scopeOf g b.locals) before
            ∧ Stmt.arePlain true (scopeOf g b1.locals) behind) := by
  obtain ⟨sw, hsw, hgains⟩ := gains_all h hplain hb
  refine ⟨sw, hsw, ?_⟩
  have hmiss (hcase : ∀ span, Stmt.case span a ∉ ss) : sw.cases.lookup a = none :=
    (hgains.cases a).resolve_right fun ⟨_, span, hmem⟩ => hcase span hmem
  cases henters with
  | skip hcase hdefault =>
    have hnone : sw.default = none := hgains.default.resolve_right fun ⟨_, span, hmem⟩ => hdefault span hmem
    exact .inl ⟨rfl, rfl, fun stop => by simp [Cases.target, hmiss hcase, hnone]⟩
  | case heq =>
    subst heq
    obtain ⟨front, b0, line, b1, code1, hcode, hlabel, hbehind, hlocals, hscope, hrest⟩ :=
      split_at_label rfl h hplain
    cases Stmt.emits _ hlabel with | @case _ _ _ _ sw1 hsw1 hnew =>
    obtain ⟨sw', hsw', hgains'⟩ := gains_all hbehind hrest rfl
    cases hsw.symm.trans hsw'
    have hhit : (sw1.cases ++ [(a, Label.fresh (b0.labels + 1))]).lookup a = some (.fresh (b0.labels + 1)) := by
      rw [List.lookup_append, lookup_eq_none_of_any hnew]
      simp
    have hkept : sw.cases.lookup a = some (.fresh (b0.labels + 1)) := by
      rcases hgains'.cases a with hkept | ⟨hnone, -⟩
      · exact hkept.trans hhit
      · exact absurd (hhit.symm.trans hnone) nofun
    exact .inr ⟨front, _, code1, _, hcode, fun stop => by simp [Cases.target, hkept], hbehind, hlocals, hscope, hrest⟩
  | default hcase heq =>
    subst heq
    obtain ⟨front, b0, line, b1, code1, hcode, hlabel, hbehind, hlocals, hscope, hrest⟩ :=
      split_at_label rfl h hplain
    cases Stmt.emits _ hlabel with | default hsw1 hnew =>
    obtain ⟨sw', hsw', hgains'⟩ := gains_all hbehind hrest rfl
    cases hsw.symm.trans hsw'
    have hkept : sw.default = some (.fresh (b0.labels + 1)) := by
      rcases hgains'.default with hkept | ⟨hnone, -⟩
      · exact hkept
      · exact absurd hnone nofun
    exact .inr ⟨front, _, code1, _, hcode, fun stop => by simp [Cases.target, hmiss hcase, hkept], hbehind, hlocals,
      hscope, hrest⟩

end Labels

end Handheld.Source
