import Handheld.Proofs.Source.Evaluating
import Handheld.Proofs.Source.RowMajor

/-!
Subscripts at work: each is scaled and added to the offset of those before it, and the last offset leads to an element.
-/
namespace Handheld.Source

open Asm

variable {α : Type} {rest : List Int32} {x : String}

section Offsets

def Var.part (v : Var) (n : Nat) : Place.Part where
  stride := v.stride n
  added := n != 0
  place := .element v (n + 1)

def Var.partAt (v : Var) (n : Nat) : Place :=
  if n = 0 then .var v else .element v n

def Var.skip (v : Var) : Nat → List Int32 → Int32
  | _, [] => 0
  | n, i :: is => i * Int32.ofNat (v.stride n) + v.skip (n + 1) is

variable {v : Var} {n : Nat} {i : Int32} {is : List Int32} {base : UInt16}

theorem Var.subscript_partAt (h : n < v.dims.length) (span : Span) :
    (v.partAt n).subscript span = .ok ([], v.part n) := by
  have harray : v.isArray := by
    rw [Var.isArray]
    cases hdims : v.dims with
    | nil => simp [hdims] at h
    | cons => rfl
  cases n with
  | zero => simp [Var.partAt, Place.subscript, harray, Var.part]
  | succ n => simp [Var.partAt, Place.subscript, h, Var.part]

theorem Var.skip_append_singleton (is : List Int32) (n : Nat) (i : Int32) :
    v.skip n (is ++ [i]) = v.skip n is + i * Int32.ofNat (v.stride (n + is.length)) := by
  induction is generalizing n with
  | nil => simp [Var.skip]
  | cons j is ih =>
    rw [List.cons_append, Var.skip, ih, Var.skip, List.length_cons, Nat.add_right_comm n 1, ← Nat.add_assoc,
      Int32.add_assoc]

theorem bmod_emod_word (x : Int) : x.bmod (2 ^ 32) % 0x10000 = x % 0x10000 := by
  have hdvd : (0x10000 : Int) ∣ ((2 ^ 32 : Nat) : Int) := ⟨0x10000, rfl⟩
  rw [← Int.emod_emod_of_dvd _ hdvd, Int.bmod_emod, Int.emod_emod_of_dvd _ hdvd]

theorem toInt_mul_add_emod (a b c : Int32) : (a * b + c).toInt % 0x10000 = (a.toInt * b.toInt + c.toInt) % 0x10000 := by
  rw [Int32.toInt_add, bmod_emod_word, Int32.toInt_mul, Int.add_emod, bmod_emod_word, ← Int.add_emod]

theorem toInt_ofNat_emod (s : Nat) : (Int32.ofNat s).toInt % 0x10000 = s % 0x10000 := by
  rw [Int32.toInt_ofNat']
  exact bmod_emod_word s

theorem Var.toInt_skip (h : is.length = (v.dims.drop n).length) :
    (v.skip n is).toInt % 0x10000
      = (rowMajor (v.dims.drop n) (is.map Int32.toInt) * v.ty.size) % 0x10000 := by
  induction is generalizing n with
  | nil =>
    rw [List.length_nil, eq_comm, List.length_eq_zero_iff] at h
    rw [h, Var.skip, rowMajor, List.zip_nil_left, List.foldl_nil, Int.zero_mul]
    rfl
  | cons i is ih =>
    have hn : n < v.dims.length := by
      rw [List.length_cons, List.length_drop] at h
      omega
    rw [List.drop_eq_getElem_cons hn, List.length_cons, List.length_cons, Nat.succ_inj] at h
    have hrest := ih h
    -- A product may wrap, but not in the bits that are kept of an address.
    have hstride : (Int32.ofNat (v.stride n)).toInt % 0x10000
        = ((volume (v.dims.drop (n + 1)) * v.ty.size : Nat) : Int) % 0x10000 := by
      rw [toInt_ofNat_emod, v.stride_eq]
      omega
    rw [List.drop_eq_getElem_cons hn, List.map_cons, rowMajor_cons (by rw [List.length_map, h]), Var.skip,
      toInt_mul_add_emod, Int.add_emod, hrest, Int.mul_emod, hstride, ← Int.mul_emod, ← Int.add_emod, Int.add_mul,
      Int.mul_assoc]
    push_cast
    rfl

theorem toNat_low_half (x : Int32) : (x.toUInt32.toUInt16.toNat : Int) = x.toInt % 0x10000 := by
  have hint := toInt_eq_or x
  have hnat : x.toUInt32.toNat = x.toBitVec.toNat := rfl
  rw [UInt32.toNat_toUInt16, hnat]
  omega

theorem Var.toNat_resolve (v : Var) (base : UInt16) :
    (v.handle.resolve base).toNat = v.address base % 0x10000 := by
  unfold Handle.resolve Var.handle Var.address
  split
  next =>
    rw [UInt16.toNat_add, UInt16.toNat_ofNat', Nat.mod_add_mod, Nat.add_comm]
  next => exact UInt16.toNat_ofNat'

theorem Var.offsetFrom_skip (h : is.length = v.dims.length)
    : Machine.offsetFrom v.handle (v.skip 0 is) base = v.element base (is.map Int32.toInt) := by
  have hskip := Var.toInt_skip (n := 0) (v := v) h
  have hlow := toNat_low_half (v.skip 0 is)
  have helement : ((v.element base (is.map Int32.toInt)).toNat : Int) = _ := toNat_ofInt _
  rw [List.drop_zero] at hskip
  rw [← UInt16.toNat_inj, Machine.offsetFrom, UInt16.toNat_add, Var.toNat_resolve]
  omega

end Offsets

def Expr.indexed (base : Expr) (subs : List (Span × Expr)) : Expr :=
  subs.foldl (fun e s => .index e s.1 s.2) base

def Var.below (v : Var) (done : List Int32) : List Int32 :=
  if done = [] then [] else [v.skip 0 done]

def Var.stacked (v : Var) (stack : Stack Int32) (done : List Int32) : Stack Int32 :=
  { stack with items := stack.items ++ (v.below done).toArray }

def Var.room (v : Var) (n : Nat) : Nat :=
  (if n = 0 then 1 else 2) + if v.stride n = 1 then 0 else 1

def Stage.past (p : Stage) (code : Code) (stack : Stack Int32) : Stage :=
  { p with machine := { p.machine with pc := p.machine.pc + code.extent, stack := stack } }

inductive Subscripted (ctx : Context) (v : Var) (stack : Stack Int32) :
    List Int32 → List (Span × Expr) → Stage → List Int32 → Stage → Prop where
  | nil (done : List Int32) (p : Stage) : Subscripted ctx v stack done [] p [] p
  | cons {done is : List Int32} {i : Int32} {span : Span} {sub : Expr} {subs : List (Span × Expr)} {p p1 p' : Stage}
    (hsub : sub.Evaluates ctx span p i p1)
    (hrest : Subscripted ctx v stack (done ++ [i]) subs
      (p1.past (v.part done.length).code (v.stacked stack (done ++ [i]))) is p') :
    Subscripted ctx v stack done ((span, sub) :: subs) p (i :: is) p'

section Runs

variable {ctx : Context} {v : Var} {i : Int32} {done is : List Int32} {stack : Stack Int32} {p p' : Stage}
  {subs : List (Span × Expr)}

theorem Var.below_append_singleton (v : Var) (done : List Int32) (i : Int32) :
    v.below (done ++ [i]) = [v.skip 0 (done ++ [i])] := by
  rw [Var.below, if_neg (List.concat_ne_nil i done)]

theorem Var.reverse_below (v : Var) (done : List Int32) : (v.below done).reverse = v.below done := by
  unfold Var.below
  split <;> rfl

theorem Walk.does_scale {W : Walk α} {x : α} {s : Nat}
    (hroom : rest.length + 1 + (if s = 1 then 0 else 1) ≤ W.m.stack.limit)
    : W.Does (scale s) (i :: rest, x) (i * Int32.ofNat s :: rest, x) := by
  by_cases hs : s = 1
  · subst hs
    have hone : i * Int32.ofNat 1 = i := Int32.mul_one i
    rw [hone]
    exact fun _ _ => .refl _
  · have hscale : scale s = [pushInt (Int32.ofNat s)] ++ [.op (.binary .mul)] := by simp [scale, hs]
    rw [if_neg hs] at hroom
    rw [hscale]
    apply Walk.Does.append (Walk.does_pushInt (by rw [List.length_cons]; omega) _)
    exact Walk.does_binary (by omega) .mul

theorem Walk.does_part {W : Walk α} {x : α} (hroom : rest.length + v.room done.length ≤ W.m.stack.limit)
    : W.Does (v.part done.length).code (i :: (v.below done ++ rest), x) (v.skip 0 (done ++ [i]) :: rest, x) := by
  rw [Var.skip_append_singleton, Nat.zero_add]
  rcases List.eq_nil_or_concat done with rfl | ⟨before, j, rfl⟩
  · have hcode : (v.part 0).code = scale (v.stride 0) := List.append_nil _
    have hvalue : v.skip 0 [] + i * Int32.ofNat (v.stride 0) = i * Int32.ofNat (v.stride 0) := Int32.zero_add _
    have hbelow : v.below [] = [] := rfl
    rw [List.length_nil, Var.room, if_pos rfl, ← Nat.add_assoc] at hroom
    rw [List.length_nil, hcode, hvalue, hbelow, List.nil_append]
    exact Walk.does_scale hroom
  · rw [List.concat_eq_append] at hroom ⊢
    have hlength : (before ++ [j]).length ≠ 0 := by simp
    have hcode : (v.part (before ++ [j]).length).code
        = scale (v.stride (before ++ [j]).length) ++ [.op (.binary .add)] := by
      simp [Var.part, Place.Part.code]
    rw [Var.room, if_neg hlength] at hroom
    rw [hcode, Var.below_append_singleton, List.singleton_append]
    apply Walk.Does.append (Walk.does_scale (by rw [List.length_cons]; omega))
    exact Walk.does_binary (by omega) .add

theorem Stage.back_past (h : p.machine.Ready) (code : Code) (stack : Stack Int32) :
    p.machine.Back (p.past code stack).machine :=
  ⟨rfl, rfl, rfl, h.loaded, h.halted⟩

theorem Stage.comes_past {address : Label → Option Nat} (hready : p.machine.Ready)
    (hstack : p.machine.stack = { v.stacked stack done with items := (v.stacked stack done).items.push i })
    (hstands : Code.Stands p.machine.image address p.machine.pc (v.part done.length).code)
    (hroom : stack.size + v.room done.length ≤ stack.limit)
    : p.machine.Comes (p.past (v.part done.length).code (v.stacked stack (done ++ [i]))).machine := by
  have hlimit : p.machine.stack.limit = stack.limit := by rw [hstack]; rfl
  have hconfig : p.machine.config
      = ⟨p.machine.pc, i :: (v.below done ++ stack.items.toList.reverse), p.machine.memory⟩ := by
    simp [Machine.config, hstack, Var.stacked, Var.reverse_below]
  have hdoes : (Walk.ofMachine p.machine address hready).Does (v.part done.length).code
      (i :: (v.below done ++ stack.items.toList.reverse), p.machine.memory)
      (v.skip 0 (done ++ [i]) :: stack.items.toList.reverse, p.machine.memory) := by
    apply Walk.does_part
    rw [List.length_reverse, Array.length_toList]
    exact hlimit ▸ hroom
  have hruns := hdoes.runs hstands
  rw [← hconfig] at hruns
  have hcomes := hruns.comes
  have hitems : stack.items ++ (v.below (done ++ [i])).toArray = stack.items.push (v.skip 0 (done ++ [i])) := by
    rw [Var.below_append_singleton, Array.push_eq_append]
  have hset : p.machine.set p.machine.lastPc
      ⟨p.machine.pc + (v.part done.length).code.extent, v.skip 0 (done ++ [i]) :: stack.items.toList.reverse,
        p.machine.memory⟩
      = (p.past (v.part done.length).code (v.stacked stack (done ++ [i]))).machine := by
    simp only [Machine.set, Stage.past, Var.stacked, Machine.toArray_push, hitems, hlimit]
  rwa [hset] at hcomes

theorem Subscripted.exists_code (h : Subscripted ctx v stack done subs p is p') (hready : p.machine.Ready)
    (hstack : p.machine.stack = v.stacked stack done) (hdims : done.length + subs.length ≤ v.dims.length)
    (hroom : ∀ n < v.dims.length, stack.size + v.room n ≤ stack.limit)
    : is.length = subs.length ∧ p'.machine.stack = v.stacked stack (done ++ is) ∧ p.machine.Back p'.machine
        ∧ ∃ code, p'.machine.pc = p.machine.pc + code.extent
          ∧ (∀ (base : Expr) (b : Body) (c : Code), base.emit ctx b = .ok ((c, v.partAt done.length), p.body) →
            (base.indexed subs).emit ctx b = .ok ((c ++ code, v.partAt (done ++ is).length), p'.body))
          ∧ ∀ address, Code.Stands p.machine.image address p.machine.pc code → p.machine.Comes p'.machine := by
  -- The induction is on the subscripts to come; those that are done are one offset on the stack.
  induction h with
  | nil done p =>
    refine ⟨rfl, by rw [hstack, List.append_nil], .refl hready, [], rfl, ?_, fun _ _ => .refl _⟩
    intro base b c hbase
    rw [List.append_nil, List.append_nil]
    exact hbase
  | @cons done is i span sub subs p p1 p' hsub hrest ih =>
    obtain ⟨code1, ty, hloads, hpc⟩ := hsub.emitted
    have hdone : done.length < v.dims.length := by
      rw [List.length_cons] at hdims
      omega
    have hpast := Stage.back_past hsub.back.ready (v.part done.length).code (v.stacked stack (done ++ [i]))
    have hbehind : (p1.past (v.part done.length).code (v.stacked stack (done ++ [i]))).machine.pc
        = p.machine.pc + Code.extent (code1 ++ (v.part done.length).code) := by
      rw [Code.extent_append, ← Nat.add_assoc, ← hpc]
      rfl
    obtain ⟨hlength, hstack', hback, code2, hpc', hemit, hcomes⟩ := ih hpast.ready rfl <| by
      rw [List.length_append, List.length_singleton]
      rw [List.length_cons] at hdims
      omega
    refine ⟨by rw [List.length_cons, hlength, List.length_cons], by rw [hstack', List.append_assoc]; rfl,
      hsub.back.trans (hpast.trans hback), code1 ++ (v.part done.length).code ++ code2, ?_, ?_, ?_⟩
    · rw [hpc', hbehind, Code.extent_append (code1 ++ (v.part done.length).code) code2, Nat.add_assoc]
    · intro base b c hbase
      have hindex : (Expr.index base span sub).emit ctx b
          = .ok ((c ++ (code1 ++ (v.part done.length).code), v.partAt (done ++ [i]).length), p1.body) := by
        refine Expr.emit_index_eq_ok_iff.mpr
          ⟨c, _, _, hbase, [], _, Var.subscript_partAt hdone span, code1, ty, p1.body, hloads, ?_⟩
        simp [Var.part, Var.partAt]
      have hall := hemit _ b _ hindex
      rw [List.append_assoc c, List.append_assoc done] at hall
      exact hall
    · intro address hstands
      obtain ⟨hfirst, hcode2⟩ := Code.stands_append.mp hstands
      obtain ⟨-, hpart⟩ := Code.stands_append.mp hfirst
      rw [← hpc, ← hsub.back.image] at hpart
      have hcomes' := Stage.comes_past hsub.back.ready (hstack ▸ hsub.stack) hpart (hroom _ hdone)
      refine hsub.comes.trans (hcomes'.trans (hcomes address ?_))
      rw [hbehind, hpast.image, hsub.back.image]
      exact hcode2

theorem Subscripted.exists_offset {named : Span} (h : Subscripted ctx v p.machine.stack [] subs p is p')
    (hready : p.machine.Ready) (hv : ctx.var? p.body x = some v) (harray : v.dims ≠ [])
    (hall : subs.length = v.dims.length)
    (hroom : ∀ n < v.dims.length, p.machine.stack.size + v.room n ≤ p.machine.stack.limit)
    : is.length = v.dims.length ∧ p.machine.Back p'.machine ∧ p'.machine.stack.limit = p.machine.stack.limit
        ∧ p'.machine.config
          = ⟨p'.machine.pc, v.skip 0 is :: p.machine.stack.items.toList.reverse, p'.machine.memory⟩
        ∧ ∃ offset, p'.machine.pc = p.machine.pc + Code.extent offset
          ∧ ((Expr.name x named).indexed subs).emit ctx p.body = .ok ((offset, .element v v.dims.length), p'.body)
          ∧ ∀ address, Code.Stands p.machine.image address p.machine.pc offset → p.machine.Comes p'.machine := by
  have hdims : 0 < v.dims.length := List.length_pos_iff.mpr harray
  have hstart : p.machine.stack = v.stacked p.machine.stack [] := by simp [Var.stacked, Var.below]
  obtain ⟨hlength, hstack, hback, offset, hbehind, hemit, hcomes⟩ :=
    h.exists_code hready hstart (by rw [List.length_nil, hall, Nat.zero_add]) hroom
  rw [List.nil_append] at hstack
  have hcount : is.length = v.dims.length := hlength.trans hall
  have hname : (Expr.name x named).emit ctx p.body = .ok (([], v.partAt 0), p.body) :=
    Expr.emit_name_eq_ok_iff.mpr ⟨v, hv, rfl⟩
  refine ⟨hcount, hback, by rw [hstack]; rfl, ?_, offset, hbehind, ?_, hcomes⟩
  · have hne : is ≠ [] := List.ne_nil_of_length_pos (hcount ▸ hdims)
    simp [Machine.config, hstack, Var.stacked, Var.below, hne]
  · have hcode := hemit _ _ _ hname
    rwa [List.nil_append, List.nil_append, hcount, Var.partAt, if_neg (Nat.ne_of_gt hdims)] at hcode

theorem Stage.Inside.below_heap {source : String} {ls : Locals} (h : p.Inside source ctx ls)
    (hglobals : ctx.globals.Unwrapped) (hlocals : ls.Unwrapped) (hv : ctx.var? p.body x = some v)
    : v.address p.machine.base + v.ty.arraySize v.dims ≤ Memory.heapStart.toNat := by
  have hplaced := h.placed hglobals hlocals
  rw [Context.var?, Option.or_eq_some_iff] at hv
  rcases hv with hv | ⟨-, hv⟩
  · have hlookup := h.grows.lookup hv
    obtain ⟨haddress, -, -, hend⟩ := hplaced.inFrame hlookup
    have hbelow := hplaced.below
    have hsize : v.size = v.ty.arraySize v.dims := (hlocals.vars (x, v) (Table.mem_of_lookup hlookup)).size_eq
    omega
  · obtain ⟨haddress, -, -, hend⟩ := hplaced.inData hv
    have hbelow := hplaced.globals.below
    have hsize : v.size = v.ty.arraySize v.dims := (hglobals (x, v) (Table.mem_of_lookup hv)).size_eq
    omega

theorem Stage.comes_access {a : Access} {n : Int32} {front code back : Code} {options : Options}
    (hback : p.machine.Back p'.machine) (hbehind : p'.machine.pc = p.machine.pc + code.extent)
    (hcomes : ∀ address, Code.Stands p.machine.image address p.machine.pc code → p.machine.Comes p'.machine)
    (hreadable : Code.Readable (code ++ [v.access a])) (hoffset : v.offset < 256 ^ 2)
    (himage : assemble (Code.render (front ++ (code ++ [v.access a]) ++ back)) options = .ok p.machine.image)
    (hpc : p.machine.pc = front.stop)
    (haccess : Machine.Stands p'.machine.image p'.machine.pc (.access a v.ty.width v.onFrame) v.offset →
      p'.machine.Runs p'.machine.config
        ⟨p'.machine.pc + 3, n :: p.machine.stack.items.toList.reverse, p'.machine.memory⟩)
    (hlimit : p'.machine.stack.limit = p.machine.stack.limit)
    : p.machine.Comes
        { p'.machine with
          pc := Code.stop (front ++ (code ++ [v.access a]))
          stack := { p.machine.stack with items := p.machine.stack.items.push n } } := by
  obtain ⟨⟨address, hstands⟩, hstop⟩ := Code.stands_of_assemble hreadable himage
  rw [← hpc] at hstands
  obtain ⟨hcode, hline⟩ := Code.stands_append.mp hstands
  rw [← hback.image, ← hbehind] at hline
  have hruns := (haccess (Activation.stands_access_of_lt hoffset hline)).comes
  have hend : p'.machine.pc + 3 = Code.stop (front ++ (code ++ [v.access a])) := by
    rw [hstop, Code.extent_append, Activation.extent_access, hbehind, hpc, Nat.add_assoc]
  simp only [Machine.set, Machine.toArray_push, hend, hlimit] at hruns
  exact (hcomes address hcode).trans hruns

end Runs

/--
Row by row, and without overlap: with a subscript for each dimension, the code of an array element leaves the value at,
or a handle to, the address that row-major order gives it, up to the size of the memory. An array lies below the heap
if no size wraps, and then elements within the extents lie in it and share no byte.
-/
theorem array_elements_row_major {source : String} {ctx : Context} {ls : Locals} {p p' : Stage}
    (hinside : p.Inside source ctx ls)
    -- the array and its subscripts
    {x : String} {v : Var} (hv : ctx.var? p.body x = some v) (harray : v.dims ≠ [])
    {subs : List (Span × Expr)} {is : List Int32} (hsubs : Subscripted ctx v p.machine.stack [] subs p is p')
    (hall : subs.length = v.dims.length)
    (hroom : ∀ n < v.dims.length, p.machine.stack.size + v.room n ≤ p.machine.stack.limit)
    -- the code and the image
    {named span : Span} {ty : Ty} {b' : Body} {front code back : Code} {options : Options}
    (himage : assemble (Code.render (front ++ code ++ back)) options = .ok p.machine.image)
    (hpc : p.machine.pc = front.stop)
    : let start := v.address p.machine.base
      let size := v.ty.arraySize v.dims
      let element := v.element p.machine.base
      let behind (n : Int32) : Machine :=
        { p'.machine with
          pc := Code.stop (front ++ code)
          stack := { p.machine.stack with items := p.machine.stack.items.push n } }
      let e := (Expr.name x named).indexed subs
      (e.Loads ctx span p.body code ty b' →
          ty = v.ty ∧ p.machine.Comes (behind (p'.machine.memory.read (element (is.map Int32.toInt)) v.ty.width)))
        ∧ (e.Handles ctx span p.body code ty b' →
          ty = v.ty ∧ p.machine.Comes (behind (Handle.encode ⟨element (is.map Int32.toInt), v.ty.width, false⟩)))
        ∧ (∀ js, ((element js).toNat : Int) = (start + rowMajor v.dims js * v.ty.size) % 2 ^ 16)
        ∧ (ctx.globals.Unwrapped → ls.Unwrapped → start + size ≤ Memory.heapStart.toNat)
        ∧ (start + size ≤ Memory.heapStart.toNat →
          (∀ js, InRange v.dims js → start ≤ (element js).toNat ∧ (element js).toNat + v.ty.size ≤ start + size)
            ∧ ∀ js ks, InRange v.dims js → InRange v.dims ks → js ≠ ks →
              (element js).toNat + v.ty.size ≤ (element ks).toNat
                ∨ (element ks).toNat + v.ty.size ≤ (element js).toNat) := by
  intro start size element behind e
  have hheap : Memory.heapStart.toNat = 0xE000 := rfl
  have hoffset : v.offset < 256 ^ 2 := Nat.lt_succ_of_le (hinside.inReach.near x v hv)
  have hdims : 0 < v.dims.length := List.length_pos_iff.mpr harray
  obtain ⟨hcount, hback, hlimit, hconfig, offset, hbehind, hplace, hcomes⟩ :=
    hsubs.exists_offset hinside.ready hv harray hall hroom
  have helement : Machine.offsetFrom v.handle (v.skip 0 is) p'.machine.base = element (is.map Int32.toInt) := by
    rw [hback.base]
    exact Var.offsetFrom_skip hcount
  have hfree : p.machine.stack.items.toList.reverse.length < p'.machine.stack.limit := by
    have hone := hroom 0 hdims
    rw [Var.room, if_pos rfl, Stack.size] at hone
    rw [List.length_reverse, Array.length_toList, hlimit]
    omega
  refine ⟨?_, ?_, fun js => toNat_ofInt _, fun hglobals hlocals => hinside.below_heap hglobals hlocals hv,
    fun hend => ⟨fun js hjs => ?_, fun js ks hjs hks hne => ?_⟩⟩
  · rintro hloads
    have hreadable := hinside.readable (hloads.sealed hinside.inReach.near)
    obtain ⟨c, q, c', hcode, hload, rfl⟩ := hloads
    cases hplace.symm.trans hcode
    simp only [Place.load, beq_self_eq_true, if_true] at hload
    cases hload
    refine ⟨rfl, Stage.comes_access hback hbehind hcomes hreadable hoffset himage hpc ?_ hlimit⟩
    intro hop
    rw [hconfig, ← helement]
    exact Machine.runs_access_indexed hback.ready hfree hop
  · rintro hhandles
    have hreadable := hinside.readable (hhandles.sealed hinside.inReach.near)
    obtain ⟨c, q, c', hcode, hhandle, rfl⟩ := hhandles
    cases hplace.symm.trans hcode
    simp only [Place.handle, beq_self_eq_true, if_true] at hhandle
    cases hhandle
    refine ⟨rfl, Stage.comes_access hback hbehind hcomes hreadable hoffset himage hpc ?_ hlimit⟩
    intro hop
    rw [hconfig, ← helement]
    exact Machine.runs_access_effective hback.ready hfree hop
  · exact (Var.element_within hjs (by omega)).2
  · exact Var.element_apart hjs hks hne (by omega)

def gridSource : String :=
  "int t[2][3]; int n; void main() \x7b \x7d"

def gridTable : Var where
  offset := 0x2000
  ty := { base := .int }
  dims := [2, 3]
  onFrame := false

def gridGlobals : Globals where
  vars := [("n", { offset := 0x200C, ty := { base := .int }, onFrame := false }), ("t", gridTable)]
  functions := [("main", { ret := .void, params := 0, defined := true })]
  size := 14

def gridSubscript : Expr :=
  .update .add {} (.name "n" {}) (.num 1)

def gridSubscript' : Expr :=
  .binary .add {} (.name "n" {}) (.num 1)

def gridRow : Code :=
  [.op (.access .handle .word false) [.addr 0x200C], .op .dup, .op .load, .op (.push .byte) [.int 1],
    .op (.binary .add), .op .store]

def gridColumn : Code :=
  [.op (.access .load .word false) [.addr 0x200C], .op (.push .byte) [.int 1], .op (.binary .add)]

def gridCode : Code :=
  gridRow ++ (gridTable.part 0).code ++ gridColumn ++ (gridTable.part 1).code ++ [gridTable.access .effective]

def gridContext : Context where
  globals := gridGlobals
  ret := .void
  main := true

def gridStage (image : Array UInt8) : Stage where
  body := {}
  machine := { image := image, pc := Header.length, base := 0x2010, base2 := 0x2015, loaded := true }

theorem array_elements_row_major_grid :
    ∃ image, assemble gridCode.render {} = .ok image
      ∧ ∃ m', (gridStage image).machine.Comes m' ∧ m'.pc = Code.stop gridCode
        ∧ m'.stack.items = #[Handle.encode ⟨0x200A, .word, false⟩]
        ∧ ∀ js, InRange gridTable.dims js → js ≠ [1, 2] →
          (gridTable.element 0x2010 js).toNat + 2 ≤ 0x200A ∨ 0x200C ≤ (gridTable.element 0x2010 js).toNat := by
  obtain ⟨image, himage⟩ := Except.exists_eq_ok_of_isOk (x := assemble gridCode.render {}) (by decide +kernel)
  have hsurvey : (survey (Cursor.ofSource gridSource)).toOption = some gridGlobals := by decide +kernel
  have hframe : (gridStage image).machine.InFrame gridGlobals {} :=
    ⟨Nat.le_of_ble_eq_true rfl, (gridStage image).machine, _, rfl, rfl, rfl⟩
  have hinside : (gridStage image).Inside gridSource gridContext {} :=
    ⟨Except.eq_ok_of_toOption hsurvey, ⟨[], {}, rfl, .refl⟩, .refl, ⟨rfl, rfl⟩, hframe⟩
  have hrow : gridSubscript.Loads gridContext {} {} gridRow { base := .int } {} := ⟨_, _, _, rfl, rfl, rfl⟩
  have hcolumn : gridSubscript'.Loads gridContext {} {} gridColumn .number {} := ⟨_, _, _, rfl, rfl, rfl⟩
  have hnumeric : gridSubscript.isNumeric (scopeOf gridGlobals {}) := by decide
  have hnumeric' : gridSubscript'.isNumeric (scopeOf gridGlobals {}) := by decide
  have himage1 : assemble (Code.render ([] ++ gridRow ++ ((gridTable.part 0).code ++ gridColumn
      ++ (gridTable.part 1).code ++ [gridTable.access .effective]))) {} = .ok (gridStage image).machine.image := himage
  have himage2 : assemble (Code.render (gridRow ++ (gridTable.part 0).code ++ gridColumn
      ++ ((gridTable.part 1).code ++ [gridTable.access .effective]))) {} = .ok (gridStage image).machine.image := himage
  have himage3 : assemble (Code.render ([] ++ gridCode ++ [])) {} = .ok (gridStage image).machine.image := himage
  have hstop : Code.stop gridRow + (gridTable.part 0).code.extent = Code.stop (gridRow ++ (gridTable.part 0).code) := by
    decide +kernel
  have hone : (gridSubscript.eval (scopeOf gridGlobals {}) (storeOf gridGlobals {} 0x2010 Memory.blank)).1 = 1 := by
    decide +kernel
  have htwo : (gridSubscript'.eval (scopeOf gridGlobals {})
      (gridSubscript.eval (scopeOf gridGlobals {}) (storeOf gridGlobals {} 0x2010 Memory.blank)).2).1 = 2 := by
    decide +kernel
  have hglobals : gridGlobals.Unwrapped := by decide
  have hlocals : Locals.Unwrapped {} := ⟨by decide, by decide⟩
  obtain ⟨memory, hfirst, hstore, -⟩ := Expr.exists_evaluates hinside hglobals hlocals hnumeric hrow himage1 rfl
    (Nat.le_of_ble_eq_true rfl) rfl hone
  have hback := Stage.back_past hfirst.back.ready (gridTable.part 0).code
    (gridTable.stacked (gridStage image).machine.stack [1])
  have hinside' := hinside.of_back (hfirst.back.trans hback) rfl
  obtain ⟨memory', hsecond, -⟩ := Expr.exists_evaluates hinside' hglobals hlocals hnumeric' hcolumn himage2 hstop
    (Nat.le_of_ble_eq_true rfl) hstore htwo
  have hsubs : Subscripted gridContext gridTable (gridStage image).machine.stack []
      [({}, gridSubscript), ({}, gridSubscript')] (gridStage image) [1, 2] _ := .cons hfirst (.cons hsecond (.nil _ _))
  have hhandles : ((Expr.name "t" {}).indexed [({}, gridSubscript), ({}, gridSubscript')]).Handles gridContext {} {}
      gridCode { base := .int } {} := ⟨_, _, _, rfl, rfl, rfl⟩
  have hv : gridContext.var? (gridStage image).body "t" = some gridTable := rfl
  have hroom : ∀ n < gridTable.dims.length, gridTable.room n ≤ 3 := by decide
  obtain ⟨-, hhandle, -, hbelow, hwithin⟩ := array_elements_row_major hinside hv (List.cons_ne_nil _ _) hsubs rfl
    (fun n hn => Nat.le_trans (Nat.add_le_add_left (hroom n hn) _) (Nat.le_of_ble_eq_true rfl)) himage3 rfl
  have helement : gridTable.element 0x2010 ([1, 2].map Int32.toInt) = 0x200A := by decide
  have hrange : InRange gridTable.dims [1, 2] := .cons (by decide) (.cons (by decide) .nil)
  refine ⟨image, himage, _, (hhandle hhandles).2, ?_, ?_, ?_⟩
  · simp only [List.nil_append]
  · exact congrArg (fun a => #[Handle.encode ⟨a, .word, false⟩]) helement
  · intro js hjs hne
    have hapart := (hwithin (hbelow hglobals hlocals)).2 js [1, 2] hjs hrange hne
    rwa [show gridTable.element (gridStage image).machine.base [1, 2] = 0x200A from helement] at hapart

end Handheld.Source
