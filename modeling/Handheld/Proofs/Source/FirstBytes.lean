import Handheld.Proofs.Source.Slots

/-!
The bytes that globals start with: constants or a string, and zeros behind them, inside of the variable.
-/
namespace Handheld

variable {m : Memory} {i addr : Nat} {a : UInt16}

namespace Memory

def fill (m : Memory) : List (Nat × List UInt8) → Memory
  | [] => m
  | p :: pieces => fill (m.copyIn (UInt16.ofNat p.1) p.2) pieces

theorem fill_append (m : Memory) (ps qs : List (Nat × List UInt8)) : m.fill (ps ++ qs) = (m.fill ps).fill qs := by
  induction ps generalizing m with
  | nil => rfl
  | cons p ps ih => exact ih _

theorem byte_fill_of_not_mem {pieces : List (Nat × List UInt8)} {b : UInt16}
    (h : ∀ p ∈ pieces, p.1 + p.2.length ≤ 0xFFFF) (hb : ∀ p ∈ pieces, b.toNat < p.1 ∨ p.1 + p.2.length ≤ b.toNat)
    : (m.fill pieces).byte b = m.byte b := by
  induction pieces generalizing m with
  | nil => rfl
  | cons p pieces ih =>
    rw [List.forall_mem_cons] at h hb
    have hfits := h.1
    have hstart : (UInt16.ofNat p.1).toNat = p.1 := by
      rw [UInt16.toNat_ofNat']
      omega
    rw [fill, ih h.2 hb.2]
    apply byte_copyIn_of_not_mem
    · rw [hstart]
      omega
    · rw [hstart]
      exact hb.1

end Memory

namespace Source

mutual

def Init.constants? : Init → Option (List Int32)
  | .value n => some [n]
  | .text _ => none
  | .list items => Init.constantsAll? items

def Init.constantsAll? : List Init → Option (List Int32)
  | [] => some []
  | item :: items =>
    match item.constants?, Init.constantsAll? items with
    | some ns, some ms => some (ns ++ ms)
    | _, _ => none

end

def Variable.constants? (x : Variable) : Option (List Int32) :=
  match x.init with
  | some init => init.constants?
  | none => some []

mutual

theorem Init.leaves_of_constants? : (init : Init) → {ns : List Int32} → init.constants? = some ns →
    init.leaves = ns.map .value
  | .value n, ns, h => by
    cases h
    rfl
  | .text s, ns, h => by cases h
  | .list items, ns, h => by
    rw [constants?] at h
    rw [leaves]
    exact leavesAll_of_constantsAll? items h

theorem Init.leavesAll_of_constantsAll? : (items : List Init) → {ns : List Int32} →
    Init.constantsAll? items = some ns → Init.leavesAll items = ns.map .value
  | [], ns, h => by
    cases h
    rfl
  | item :: items, ns, h => by
    rw [constantsAll?] at h
    split at h
    next ms ks hms hks =>
      cases h
      rw [leavesAll, leaves_of_constants? item hms, leavesAll_of_constantsAll? items hks, List.map_append]
    next => cases h

end

section Layout

variable {v : Var} {row : Nat} {ns : List Int32} {c : Contents}

def bytesOf (size : Nat) (ns : List Int32) : List UInt8 :=
  ns.flatMap fun n => littleEndian n.toUInt32 size

theorem overlay_zeros (bytes data : List UInt8) (zeros : Nat) :
    overlay (bytes ++ List.replicate zeros 0) bytes.length data
      = bytes ++ data ++ List.replicate (zeros - data.length) 0 := by
  rw [overlay, List.take_left, ← List.drop_drop, List.drop_left, List.drop_replicate]

theorem Contents.lay_values {bytes : List UInt8} {zeros : Nat}
    (h : Contents.lay v row { bytes := bytes ++ List.replicate zeros 0 } bytes.length (ns.map .value) = .ok c)
    : c.strings = [] ∧ ∃ zeros', c.bytes = bytes ++ bytesOf v.ty.size ns ++ List.replicate zeros' 0 := by
  induction ns generalizing bytes zeros with
  | nil =>
    cases h
    exact ⟨rfl, zeros, by rw [bytesOf, List.flatMap_nil, List.append_nil]⟩
  | cons n ns ih =>
    have hlength := length_littleEndian n.toUInt32 v.ty.size
    rw [List.map_cons, Contents.lay] at h
    split at h
    next => cases h
    next =>
      dsimp only at h
      rw [overlay_zeros, hlength] at h
      have hstart : bytes.length + v.ty.size = (bytes ++ littleEndian n.toUInt32 v.ty.size).length := by
        rw [List.length_append, hlength]
      rw [hstart] at h
      obtain ⟨hstrings, zeros', hbytes⟩ := ih h
      refine ⟨hstrings, zeros', ?_⟩
      rw [hbytes, bytesOf, bytesOf, List.flatMap_cons, List.append_assoc bytes]

theorem Contents.ofInit_constants {init : Init} (h : Contents.ofInit v init = .ok c) (hns : init.constants? = some ns)
    : c.strings = [] ∧ ∃ zeros, c.bytes = bytesOf v.ty.size ns ++ List.replicate zeros 0 := by
  have hleaves := Init.leaves_of_constants? init hns
  unfold Contents.ofInit at h
  dsimp only at h
  split at h
  next => cases hns
  next =>
    split at h
    next => cases h
    next =>
      rw [hleaves] at h
      exact @lay_values v _ ns c [] v.size h

theorem Contents.ofInit_text {s : List UInt8} (h : Contents.ofInit v (.text s) = .ok c) (hty : v.ty = .char)
    (harray : v.isArray)
    : c.strings = [] ∧ ∃ zeros, c.bytes = s.take v.size ++ List.replicate zeros 0 := by
  simp only [Contents.ofInit, hty, harray, Bool.and_self, beq_self_eq_true, Except.ok.injEq] at h
  subst h
  exact ⟨rfl, _, overlay_zeros [] _ _⟩

theorem getD_littleEndian_zero (size j : Nat) : (littleEndian 0 size).getD j 0 = 0 := by
  induction size generalizing j with
  | zero => rfl
  | succ size ih =>
    cases j with
    | zero => rfl
    | succ j => exact ih j

theorem length_bytesOf (size : Nat) (ns : List Int32) : (bytesOf size ns).length = size * ns.length := by
  induction ns with
  | nil => rfl
  | cons n ns ih =>
    rw [bytesOf, List.flatMap_cons, List.length_append, length_littleEndian, List.length_cons, Nat.mul_succ, Nat.add_comm,
      ← bytesOf, ih]

theorem getD_bytesOf {size j : Nat} (hj : j < size) :
    (bytesOf size ns).getD (size * i + j) 0 = (littleEndian (ns.getD i 0).toUInt32 size).getD j 0 := by
  induction ns generalizing i with
  | nil =>
    have hzero : (0 : Int32).toUInt32 = 0 := rfl
    rw [List.getD_nil, hzero, getD_littleEndian_zero]
    rfl
  | cons n ns ih =>
    have hlength := length_littleEndian n.toUInt32 size
    rw [bytesOf, List.flatMap_cons]
    cases i with
    | zero =>
      rw [Nat.mul_zero, Nat.zero_add, List.getD_append _ _ _ _ (by omega)]
      rfl
    | succ i =>
      rw [Nat.mul_succ, List.getD_append_right _ _ _ _ (by omega), hlength]
      have hindex : size * i + size + j - size = size * i + j := by omega
      rw [hindex]
      exact ih

theorem getD_append_zeros (bytes : List UInt8) (zeros i : Nat) :
    (bytes ++ List.replicate zeros 0).getD i 0 = bytes.getD i 0 := by
  rcases Nat.lt_or_ge i bytes.length with hlt | hge
  · rw [List.getD_append _ _ _ _ hlt]
  · rw [List.getD_append_right _ _ _ _ hge, List.getD_eq_default _ _ hge, List.getD_eq_getElem?_getD,
      List.getElem?_replicate]
    split
    next => rfl
    next => rfl

theorem length_trimmed_le (bytes : List UInt8) : (bytes.reverse.dropWhile (· == 0)).reverse.length ≤ bytes.length := by
  have hle := (List.dropWhile_sublist (l := bytes.reverse) (· == 0)).length_le
  rw [List.length_reverse] at hle
  rw [List.length_reverse]
  exact hle

theorem getD_trimmed (bytes : List UInt8) (i : Nat) :
    (bytes.reverse.dropWhile (· == 0)).reverse.getD i 0 = bytes.getD i 0 := by
  have hsplit : bytes = (bytes.reverse.dropWhile (· == 0)).reverse ++ (bytes.reverse.takeWhile (· == 0)).reverse := by
    rw [← List.reverse_append, List.takeWhile_append_dropWhile, List.reverse_reverse]
  rcases Nat.lt_or_ge i (bytes.reverse.dropWhile (· == 0)).reverse.length with hlt | hge
  · conv => rhs; rw [hsplit]
    rw [List.getD_append _ _ _ _ hlt]
  · conv => rhs; rw [hsplit]
    rw [List.getD_append_right _ _ _ _ hge, List.getD_eq_default _ _ hge, List.getD_eq_getElem?_getD]
    cases hb : (bytes.reverse.takeWhile (· == 0)).reverse[i - (bytes.reverse.dropWhile (· == 0)).reverse.length]? with
    | none => rfl
    | some b =>
      have hmem := List.mem_reverse.mp (List.mem_of_getElem? hb)
      have hzero := List.mem_takeWhile_imp (p := fun c : UInt8 => c == 0) hmem
      exact (eq_of_beq hzero).symm

theorem writeLE_eq_copyIn (m : Memory) (a : UInt16) (n : UInt32) (len : Nat) :
    m.writeLE a len n = m.copyIn a (littleEndian n len) := by
  induction len generalizing m a n with
  | zero => rfl
  | succ len ih => exact ih _ _ _

theorem read_of_bytes {w : Width} {n : Int32} (h : a.toNat + w.bytes ≤ 0x10000)
    (hbytes : ∀ i < w.bytes, m.byte (a + UInt16.ofNat i) = (littleEndian n.toUInt32 w.bytes).getD i 0)
    : m.read a w = w.normalize n := by
  have hlength := length_littleEndian n.toUInt32 w.bytes
  rw [← Memory.read_write m a w n, Memory.read, Memory.read, Memory.readLE_congr h]
  intro b hlow hhigh
  have hlt := b.toNat_lt
  have hb : b = a + UInt16.ofNat (b.toNat - a.toNat) := by
    rw [← UInt16.toNat_inj, Memory.toNat_add_ofNat (by omega)]
    omega
  rw [hb, hbytes _ (by omega), Memory.write, writeLE_eq_copyIn, Memory.byte_copyIn_of_mem (by omega) (by omega)]

end Layout

section Recorded

variable {g g1 g' : Globals} {x : Variable} {xs : List Variable} {v w : Var} {bytes : List UInt8} {ns : List Int32}
  {name : String} {ty : Ty} {dims : List Nat} {span : Span}

structure Globals.Confined (g : Globals) : Prop where
  below : Memory.dataStart.toNat + g.size ≤ Memory.heapStart.toNat
  inits : ∀ p ∈ g.inits, Memory.dataStart.toNat ≤ p.1 ∧ p.1 + p.2.length ≤ Memory.dataStart.toNat + g.size
  strings : ∀ p ∈ g.strings, Memory.dataStart.toNat ≤ p.1 ∧ p.1 + 4 ≤ Memory.dataStart.toNat + g.size

structure Globals.Starts (g : Globals) (v : Var) (bytes : List UInt8) : Prop where
  room : bytes.length ≤ v.size
  bytes : ∀ i < v.size, (Memory.blank.fill g.inits).byte (UInt16.ofNat (v.offset + i)) = bytes.getD i 0
  strings : ∀ p ∈ g.strings, p.1 + 4 ≤ v.offset ∨ v.offset + v.size ≤ p.1

inductive Variable.Lays (x : Variable) (v : Var) : List UInt8 → Prop where
  | constants {ns : List Int32} (h : x.constants? = some ns) : x.Lays v (bytesOf v.ty.size ns)
  | text {s : List UInt8} (h : x.init = some (.text s)) (hty : v.ty = .char) (harray : v.isArray) :
    x.Lays v (s.take v.size)

def Globals.Prepares (g : Globals) (x : Variable) : Prop :=
  ∃ v, g.vars.lookup x.name = some v ∧ (x.Unwrapped → v.ty = x.ty ∧ v.dims = x.extents)
    ∧ Memory.dataStart.toNat ≤ v.offset ∧ v.offset + v.size ≤ Memory.dataStart.toNat + g.size
    ∧ ∀ bytes, x.Lays v bytes → g.Starts v bytes

def trimmed (addr : Nat) (bytes : List UInt8) : List (Nat × List UInt8) :=
  let used := (bytes.reverse.dropWhile (· == 0)).reverse
  if used.isEmpty then [] else [(addr, used)]

theorem mem_trimmed {p : Nat × List UInt8} (h : p ∈ trimmed addr bytes) : p.1 = addr ∧ p.2.length ≤ bytes.length := by
  unfold trimmed at h
  dsimp only at h
  split at h
  next => cases h
  next =>
    rw [List.mem_singleton] at h
    subst h
    exact ⟨rfl, length_trimmed_le bytes⟩

structure Globals.Supplies (g : Globals) (x : Variable) (v : Var) (c : Contents) (g' : Globals) : Prop where
  inside : c.Inside v
  inits : g'.inits = g.inits ++ trimmed v.offset c.bytes
  strings : g'.strings = g.strings ++ c.strings.map fun p => ((v.offset + p.1) % 0x10000, p.2)
  lays : ∀ bytes, x.Lays v bytes → c.strings = [] ∧ ∃ zeros, c.bytes = bytes ++ List.replicate zeros 0

theorem Globals.Adds.supplies (h : g.Adds x v g') : ∃ c, g.Supplies x v c g' := by
  cases h with
  | plain hinit _ hdeclare =>
    obtain ⟨-, -, hinits, hstrings⟩ := declare_eq_ok hdeclare
    refine ⟨{ bytes := List.replicate v.size 0 }, ⟨List.length_replicate, by simp⟩, ?_, ?_, ?_⟩
    · have hnone : trimmed v.offset (List.replicate v.size 0) = [] := by
        simp [trimmed]
      rw [hinits, hnone, List.append_nil]
    · rw [hstrings, List.map_nil, List.append_nil]
    · rintro _ (hns | htext)
      · rw [Variable.constants?, hinit] at hns
        cases hns
        exact ⟨rfl, v.size, rfl⟩
      · cases hinit.symm.trans htext
  | @filled _ _ g1 init hinit _ hdeclare hset =>
    obtain ⟨-, -, hinits, hstrings⟩ := declare_eq_ok hdeclare
    obtain ⟨c, hc, rfl⟩ := setContents_eq_ok_iff.mp hset
    refine ⟨c, Contents.inside_ofInit hc, ?_, ?_, ?_⟩
    · rw [← hinits, trimmed]
      dsimp only
      split
      next => rw [List.append_nil]
      next => rfl
    · rw [← hstrings]
    · rintro _ (hns | ⟨htext, hty, harray⟩)
      · rw [Variable.constants?, hinit] at hns
        exact Contents.ofInit_constants hc hns
      · cases hinit.symm.trans htext
        exact Contents.ofInit_text hc hty harray

theorem Globals.Adds.new (h : g.Adds x v g') : g.vars.lookup x.name = none := by
  cases h with
  | plain _ _ hdeclare | filled _ _ hdeclare _ => exact (declare_eq_ok_iff.mp hdeclare).1

theorem Globals.Adds.lookup (h : g.Adds x v g') :
    g'.vars.lookup x.name = some v ∧ ∀ y w, g.vars.lookup y = some w → g'.vars.lookup y = some w := by
  rw [h.vars_eq]
  refine ⟨List.lookup_cons_self, fun y w hw => ?_⟩
  have hne : (y == x.name) = false := by
    rw [beq_eq_false_iff_ne]
    rintro rfl
    cases hw.symm.trans h.new
  rw [List.lookup_cons, hne]
  exact hw

theorem Globals.Confined.adds (hg : g.Confined) (h : g.Adds x v g') (hv : v.Unwrapped) : g'.Confined := by
  obtain ⟨hoffset, hheap, hsize⟩ := h.place hg.below hv
  have hmax : Memory.heapStart.toNat ≤ 0xFFFF := by decide
  obtain ⟨c, ⟨hlength, hinside⟩, hinits, hstrings, -⟩ := h.supplies
  constructor
  · omega
  · intro p hp
    rw [hinits, List.mem_append] at hp
    rcases hp with hp | hp
    · have := hg.inits p hp
      omega
    · obtain ⟨hstart, hle⟩ := mem_trimmed hp
      omega
  · intro p hp
    rw [hstrings, List.mem_append] at hp
    rcases hp with hp | hp
    · have := hg.strings p hp
      omega
    · obtain ⟨q, hq, rfl⟩ := List.mem_map.mp hp
      have := hinside q hq
      dsimp only
      omega

theorem Globals.Confined.byte_eq_zero (hg : g.Confined) (ha : Memory.dataStart.toNat + g.size ≤ a.toNat) :
    (Memory.blank.fill g.inits).byte a = 0 := by
  have hheap : Memory.heapStart.toNat ≤ 0xFFFF := by decide
  have hbelow := hg.below
  rw [Memory.byte_fill_of_not_mem, Memory.byte_blank]
  · intro p hp
    have := hg.inits p hp
    omega
  · intro p hp
    have := hg.inits p hp
    omega

theorem Globals.Starts.adds (hg : g.Confined) (h : g.Adds x v g') (hv : v.Unwrapped)
    (hw : w.offset + w.size ≤ Memory.dataStart.toNat + g.size) (hstarts : g.Starts w bytes)
    : g'.Starts w bytes := by
  obtain ⟨hoffset, hheap, hsize⟩ := h.place hg.below hv
  obtain ⟨c, ⟨hlength, hinside⟩, hinits, hstrings, -⟩ := h.supplies
  have hmax : Memory.heapStart.toNat ≤ 0xFFFF := by decide
  refine ⟨hstarts.room, ?_, ?_⟩
  · intro i hi
    rw [← hstarts.bytes i hi, hinits, Memory.fill_append]
    have haddress : (UInt16.ofNat (w.offset + i)).toNat = w.offset + i := by
      rw [UInt16.toNat_ofNat']
      omega
    apply Memory.byte_fill_of_not_mem
    · intro p hp
      obtain ⟨hstart, hle⟩ := mem_trimmed hp
      omega
    · intro p hp
      obtain ⟨hstart, hle⟩ := mem_trimmed hp
      omega
  · intro p hp
    rw [hstrings, List.mem_append] at hp
    rcases hp with hp | hp
    · exact hstarts.strings p hp
    · obtain ⟨q, hq, rfl⟩ := List.mem_map.mp hp
      have := hinside q hq
      dsimp only
      omega

theorem byte_fill_trimmed (h : addr + bytes.length ≤ 0xFFFF)
    (hzero : m.byte (UInt16.ofNat (addr + i)) = 0) (hi : i < bytes.length)
    : (m.fill (trimmed addr bytes)).byte (UInt16.ofNat (addr + i)) = bytes.getD i 0 := by
  rw [← getD_trimmed]
  unfold trimmed
  dsimp only
  split
  next hempty => rw [Memory.fill, hzero, List.isEmpty_iff.mp hempty, List.getD_nil]
  next =>
    have hle := length_trimmed_le bytes
    have hstart : (UInt16.ofNat addr).toNat = addr := by
      rw [UInt16.toNat_ofNat']
      omega
    have haddress : (UInt16.ofNat (addr + i)).toNat = addr + i := by
      rw [UInt16.toNat_ofNat']
      omega
    rw [Memory.fill, Memory.fill]
    dsimp only
    rcases Nat.lt_or_ge i (bytes.reverse.dropWhile (· == 0)).reverse.length with hlt | hge
    · rw [UInt16.ofNat_add, Memory.byte_copyIn_of_mem _ hlt]
      omega
    · rw [Memory.byte_copyIn_of_not_mem, hzero, List.getD_eq_default _ _ hge]
      · omega
      · omega

theorem Globals.Adds.starts (hg : g.Confined) (h : g.Adds x v g') (hv : v.Unwrapped) (hlays : x.Lays v bytes)
    : g'.Starts v bytes := by
  obtain ⟨hoffset, hheap, hsize⟩ := h.place hg.below hv
  obtain ⟨c, ⟨hlength, -⟩, hinits, hstrings, hall⟩ := h.supplies
  obtain ⟨hnone, zeros, hbytes⟩ := hall bytes hlays
  have hmax : Memory.heapStart.toNat ≤ 0xFFFF := by decide
  constructor
  · rw [hbytes, List.length_append] at hlength
    omega
  · intro i hi
    have haddress : (UInt16.ofNat (v.offset + i)).toNat = v.offset + i := by
      rw [UInt16.toNat_ofNat']
      omega
    rw [hinits, Memory.fill_append, byte_fill_trimmed]
    · rw [hbytes, getD_append_zeros]
    · omega
    · apply hg.byte_eq_zero
      omega
    · omega
  · intro p hp
    rw [hstrings, hnone, List.map_nil, List.append_nil] at hp
    have := hg.strings p hp
    omega

theorem Globals.Prepares.adds (hg : g.Confined) (h : g.Adds x v g') (hv : v.Unwrapped) {y : Variable}
    (hy : g.Prepares y)
    : g'.Prepares y := by
  obtain ⟨-, -, hsize⟩ := h.place hg.below hv
  obtain ⟨w, hw, hdeclared, hlow, hhigh, hstarts⟩ := hy
  refine ⟨w, h.lookup.2 _ w hw, hdeclared, hlow, by omega, ?_⟩
  intro bytes hlays
  exact (hstarts bytes hlays).adds hg h hv hhigh

theorem Globals.Adds.prepares (hg : g.Confined) (h : g.Adds x v g') (hv : v.Unwrapped) : g'.Prepares x := by
  obtain ⟨hoffset, -, hsize⟩ := h.place hg.below hv
  exact ⟨v, h.lookup.1, h.declared, by omega, by omega, fun _ hlays => h.starts hg hv hlays⟩

theorem Globals.Confined.congr (hg : g.Confined) (h : g'.data = g.data) : g'.Confined := by
  simp only [data, Prod.mk.injEq] at h
  obtain ⟨-, hsize, hinits, hstrings⟩ := h
  constructor
  · rw [hsize]
    exact hg.below
  · rw [hinits, hsize]
    exact hg.inits
  · rw [hstrings, hsize]
    exact hg.strings

theorem Globals.Prepares.congr (hx : g.Prepares x) (h : g'.data = g.data) : g'.Prepares x := by
  simp only [data, Prod.mk.injEq] at h
  obtain ⟨hvars, hsize, hinits, hstrings⟩ := h
  obtain ⟨v, hv, hdeclared, hlow, hhigh, hstarts⟩ := hx
  refine ⟨v, by rw [hvars, hv], hdeclared, hlow, by rw [hsize]; exact hhigh, ?_⟩
  intro bytes hlays
  refine ⟨(hstarts bytes hlays).room, ?_, ?_⟩
  · rw [hinits]
    exact (hstarts bytes hlays).bytes
  · rw [hstrings]
    exact (hstarts bytes hlays).strings

theorem Globals.Gathers.mem (h : g.Gathers xs g') : ∀ p ∈ g.vars, p ∈ g'.vars := by
  induction h with
  | done => exact fun _ hp => hp
  | aside hdata _ ih =>
    simp only [data, Prod.mk.injEq] at hdata
    rwa [hdata.1] at ih
  | var hadds _ ih =>
    rw [hadds.vars_eq] at ih
    exact fun p hp => ih p (List.mem_cons_of_mem _ hp)

theorem Globals.Gathers.prepares (h : g.Gathers xs g') (hg : g.Confined) (hwords : g'.Unwrapped) :
    g'.Confined ∧ (∀ x, g.Prepares x → g'.Prepares x) ∧ ∀ x ∈ xs, g'.Prepares x := by
  induction h with
  | done => exact ⟨hg, fun _ hx => hx, by simp⟩
  | aside hdata _ ih =>
    obtain ⟨hconfined, hkeep, hall⟩ := ih (hg.congr hdata) hwords
    exact ⟨hconfined, fun x hx => hkeep x (hx.congr hdata), hall⟩
  | @var g g1 g' x xs v hadds hrest ih =>
    have hv : v.Unwrapped := hwords (x.name, v) (hrest.mem _ (by rw [hadds.vars_eq]; exact List.mem_cons_self))
    obtain ⟨hconfined, hkeep, hall⟩ := ih (hg.adds hadds hv) hwords
    refine ⟨hconfined, fun y hy => hkeep y (hy.adds hg hadds hv), ?_⟩
    rw [List.forall_mem_cons]
    exact ⟨hkeep x (hadds.prepares hg hv), hall⟩

theorem prepares_of_survey {source : String} (h : survey (Cursor.ofSource source) = .ok g) (hwords : g.Unwrapped) :
    g.Confined ∧ ∀ x ∈ globalVariables source, g.Prepares x := by
  have hempty : Globals.Confined {} := ⟨by decide, by simp, by simp⟩
  obtain ⟨hconfined, -, hall⟩ := (gathers_of_survey h).prepares hempty hwords
  exact ⟨hconfined, hall⟩

def Var.elements (v : Var) : Nat :=
  v.dims.foldl (· * ·) 1

structure Var.Holds (v : Var) (memory : Memory) (ns : List Int32) : Prop where
  fits : ns.length ≤ v.elements
  element : ∀ i n, ns[i]? = some n →
    memory.read (UInt16.ofNat (v.offset + v.ty.size * i)) v.ty.width = v.ty.width.normalize n
  rest : ∀ i, ns.length ≤ i → i < v.elements → memory.read (UInt16.ofNat (v.offset + v.ty.size * i)) v.ty.width = 0

theorem Globals.Starts.holds {memory : Memory} (h : g.Starts v (bytesOf v.ty.size ns))
    (hv : v.Unwrapped) (hfits : v.offset + v.size ≤ 0xFFFF)
    (hmemory : ∀ i < v.size, memory.byte (UInt16.ofNat (v.offset + i))
      = (Memory.blank.fill g.inits).byte (UInt16.ofNat (v.offset + i)))
    : v.Holds memory ns := by
  have hsize : v.size = v.ty.size * v.elements := hv.size_eq
  have hread {i : Nat} (hi : i < v.elements) :
      memory.read (UInt16.ofNat (v.offset + v.ty.size * i)) v.ty.width = v.ty.width.normalize (ns.getD i 0) := by
    have hinside : v.ty.size * i + v.ty.size ≤ v.size := hsize ▸ Nat.mul_le_mul_left v.ty.size hi
    have haddress : (UInt16.ofNat (v.offset + v.ty.size * i)).toNat = v.offset + v.ty.size * i := by
      rw [UInt16.toNat_ofNat']
      omega
    have hbytes : v.ty.width.bytes = v.ty.size := rfl
    apply read_of_bytes
    · omega
    · intro j hj
      rw [hbytes] at hj ⊢
      rw [← UInt16.ofNat_add, Nat.add_assoc, hmemory _ (by omega), h.bytes _ (by omega), getD_bytesOf hj]
  have hroom : v.ty.size * ns.length ≤ v.ty.size * v.elements := by
    rw [← length_bytesOf, ← hsize]
    exact h.room
  have hcount : ns.length ≤ v.elements := Nat.le_of_mul_le_mul_left hroom v.ty.size_pos
  refine ⟨hcount, ?_, ?_⟩
  · intro i n hn
    obtain ⟨hlt, -⟩ := List.getElem?_eq_some_iff.mp hn
    rw [hread (Nat.lt_of_lt_of_le hlt hcount), List.getD_eq_getElem?_getD, hn]
    rfl
  · intro i hle hi
    rw [hread hi, List.getD_eq_default _ _ hle]
    cases v.ty.width <;> decide

end Recorded

end Source
end Handheld
