import Handheld.Proofs.Machine.Convention
import Handheld.Proofs.Machine.Copying
import Handheld.Proofs.Source.Evaluating
import Handheld.Proofs.Source.Startup

/-!
Rows of characters that are declared with a string: a global is laid out when the program is read, and a local is filled
by code that copies a literal.
-/
namespace Handheld

open Asm

namespace Machine

variable {m : Machine}

theorem address_encode (m : Machine) (a : UInt16) (w : Width) : m.address (Handle.encode ⟨a, w, false⟩) = a := by
  rw [address, Handle.decode_encode]
  rfl

theorem step_of_strcpy {d s : Int32} (rest : List Int32) (h : m.Live) (hcode : m.opcodeByte = Call.strcpy.code)
    (hstack : m.stack.toList = rest ++ [d, s])
    : ∃ m', step m = .ok .running m' ∧ m'.pc = m.pc + 1 ∧ m'.base = m.base
        ∧ m'.stack = { m.stack with items := rest.toArray }
        ∧ m'.memory = m.memory.putString (m.address d) (m.cstr s) := by
  let taken : Machine := { m.begun with stack := { m.stack with items := rest.toArray } }
  have hfinish : finish .strcpy [d, s] taken
      = .ok (if m.halted then .halted else .running) (taken.invoke .strcpy [d, s]) := rfl
  rw [h.halted] at hfinish
  exact ⟨_, (step_of_fixed h hcode rfl rfl rfl hstack).trans hfinish, rfl, rfl, rfl, rfl⟩

theorem reaches_strcpy {offset : Nat} {bytes rest rest' : List UInt8} (hready : m.Ready) (hslots : m.Slots)
    (hzero : Stands m.image m.pc (.push .byte) 0)
    (haccess : Stands m.image (m.pc + 2) (.access .effective .byte true) offset) (htext : m.image.toList.drop (m.pc + 5)
      = Opcode.pushStr.code :: (bytes.map (· ^^^ m.header.mask) ++ m.header.mask :: rest))
    (hbytes : 0 ∉ bytes) (hcall : m.image.toList.drop (m.pc + 5 + (2 + bytes.length)) = Call.strcpy.code :: rest')
    (hroom : m.stack.size + 2 ≤ m.stack.limit)
    : ∃ (memory : Memory) (m' : Machine),
        (∀ b : UInt16, Memory.stringEnd.toNat ≤ b.toNat → memory.byte b = m.memory.byte b)
        ∧ m.Reaches m' ∧ m'.pc = m.pc + (8 + bytes.length) ∧ m'.stack = m.stack ∧ m'.base = m.base
        ∧ m'.memory = memory.putString (m.base + UInt16.ofNat offset) (bytes.take stringRoom) := by
  have hlength : m.config.stack.length = m.stack.size := by simp [config, Stack.size]
  have hfirst : m.Runs ⟨m.pc, m.config.stack, m.memory⟩ ⟨m.pc + 2, 0 :: m.config.stack, m.memory⟩ :=
    runs_of_push hready (by omega) rfl rfl hzero
  have hsecond := @runs_access_effective m 0 .byte true (m.pc + 2) _ m.config.stack m.memory hready (by omega) haccess
  have hplace : offsetFrom ⟨UInt16.ofNat offset, .byte, true⟩ 0 m.base = m.base + UInt16.ofNat offset :=
    (UInt16.add_zero _).trans (UInt16.add_comm _ _)
  rw [hplace] at hsecond
  obtain ⟨last, hreaches⟩ := hfirst.trans hsecond m.lastPc
  rw [show m.set m.lastPc ⟨m.pc, m.config.stack, m.memory⟩ = m from m.set_config] at hreaches
  generalize hdest : Handle.encode ⟨m.base + UInt16.ofNat offset, .byte, false⟩ = dest at hreaches
  obtain ⟨strings, literals, memory, a, hthird, -, hstring, hkeep⟩ :=
    @goes_pushStr m (m.pc + 5) last (dest :: m.config.stack) m.memory _ _ hready hslots htext hbytes
      (by rw [List.length_cons]; omega)
  -- Besides the slots only what `set` has is different now.
  have hready' : ((m.slotted strings literals).set (m.pc + 5)
      ⟨m.pc + 5 + (2 + bytes.length), Handle.encode ⟨a, .byte, false⟩ :: dest :: m.config.stack, memory⟩).Ready :=
    ⟨hready.loaded, hready.halted⟩
  obtain ⟨m', hfourth, hpc, hbase, hstack, hmemory⟩ := step_of_strcpy (d := dest) (s := Handle.encode ⟨a, .byte, false⟩)
    m.config.stack.reverse (live_of_drop hready' hcall) (opcodeByte_of_drop hcall)
    (by simp [set, slotted, Stack.toList])
  refine ⟨memory, m', hkeep, (hreaches.tail hthird).tail hfourth, ?_, ?_, hbase, ?_⟩
  · rw [hpc]
    simp only [set]
    omega
  · rw [hstack]
    simp [set, slotted, config]
  · rw [hmemory, ← hdest, address_encode, cstr, address_encode]
    exact congrArg _ hstring

end Machine

namespace Source

open Machine

variable {d : Declarator} {s : List UInt8} {n : Nat} {v : Var}

/-- The declarator of a row of `n` characters with room for a string and a zero. Without an extent it is just that. -/
structure Declarator.Holds (d : Declarator) (s : List UInt8) (n : Nat) : Prop where
  pointer : d.pointer = 0
  dims : d.dims = [some n] ∨ d.dims = [none] ∧ n = s.length + 1
  small : n ≤ 0xFFFF
  room : s.length < n

theorem Declarator.Holds.extents (h : d.Holds s n) : d.extents .char (some (.text s.length)) = .ok [n] := by
  unfold Declarator.extents
  rcases h.dims with hdims | ⟨hdims, rfl⟩
  · rw [hdims]
    rfl
  · have hmod : (s.length + 1) % 0x10000 = s.length + 1 := Nat.mod_eq_of_lt (Nat.lt_succ_of_le h.small)
    rw [hdims]
    simp [Shape.extent, hmod, Except.map, pure, Except.pure]

theorem Declarator.Holds.ty (h : d.Holds s n) : d.ty .char = .char := by
  rw [Declarator.ty, h.pointer]
  rfl

def charRow (offset n : Nat) (onFrame : Bool) : Var where
  offset := offset
  ty := .char
  dims := [n]
  onFrame := onFrame

theorem unwrapped_charRow (h : n ≤ 0xFFFF) (offset : Nat) (onFrame : Bool) : (charRow offset n onFrame).Unwrapped := by
  have hone : Ty.char.size = 1 := rfl
  simp only [Var.Unwrapped, charRow, Ty.arraySize, hone, List.foldl_cons, List.foldl_nil]
  omega

theorem size_charRow (h : n ≤ 0xFFFF) (offset : Nat) (onFrame : Bool) : (charRow offset n onFrame).size = n := by
  have hone : Ty.char.size = 1 := rfl
  rw [(unwrapped_charRow h offset onFrame).size_eq]
  simp [charRow, Ty.arraySize, hone]

section Reading

variable {g : Globals} {l : Lexeme} {ls : List Lexeme} {final : Except Error Lexeme} {c' : Cursor}

theorem pieces_of_string? {macros : Macros} {c : Cursor} (h : string? macros c = .ok (some s) c') :
    pieces macros c.rest ≠ [] := by
  intro hnil
  replace h := Read.of_get_bind h
  obtain ⟨_, _, hset, h⟩ := Read.bind_eq_ok_iff.mp h
  cases hset
  obtain ⟨_, _, -, h⟩ := Read.bind_eq_ok_iff.mp h
  rw [hnil] at h
  cases h

theorem initializer_of_string? {macros : Macros} {c : Cursor} {fuel : Nat}
    (h : string? macros c = .ok (some s) c') : initializer macros (fuel + 1) c = .ok (.text s) c' := by
  have hpieces := pieces_of_string? h
  obtain ⟨_ | ⟨l, ls⟩, final⟩ := c
  · exact absurd rfl hpieces
  · have hbrace : (l.token == .punct .lBrace) = false := by
      rw [beq_eq_false_iff_ne]
      intro hl
      apply hpieces
      rw [pieces, piece?, hl]
    have heat := @Grammar.Read.eat_cons l ls final (.punct .lBrace)
    rw [hbrace] at heat
    rw [initializer, Read.bind_of_ok heat]
    exact Read.bind_of_ok h

theorem globalRest_iff (h : d.Holds s n) (hassign : l.token = .op .assign)
    (hstring : string? g.macros ⟨ls, final⟩ = .ok (some s) c') (hsize : g.size ≤ 0xFFFF)
    : (∃ g', globalRest g d .char ⟨l :: ls, final⟩ = .ok g' c')
        ↔ g.vars.lookup d.name = none ∧ g.functions.lookup d.name = none
          ∧ Memory.dataStart.toNat + g.size + n ≤ Memory.heapStart.toNat := by
  have hvoid : Ty.char.isVoid = false := rfl
  have heat := @Grammar.Read.eat_cons l ls final (.op .assign)
  rw [hassign, beq_self_eq_true, if_pos rfl] at heat
  have hinit := @initializer_of_string? s c' g.macros ⟨ls, final⟩ (2 * ls.length + 3) hstring
  have hinit' : (some <$> initializer g.macros (2 * (ls.length + 2)) : Read (Option Init)) ⟨ls, final⟩
      = .ok (some (.text s)) c' := by
    rw [map_eq_pure_bind]
    exact Read.bind_of_ok hinit
  have hget : (get : Read Cursor) ⟨ls, final⟩ = .ok ⟨ls, final⟩ ⟨ls, final⟩ := rfl
  have hshape : (some (Init.text s)).bind (·.shape) = some (.text s.length) := rfl
  unfold globalRest
  dsimp only
  rw [hvoid]
  simp only [Bool.false_eq_true, if_false]
  rw [Read.bind_of_ok heat, if_pos rfl, Read.bind_of_ok hget, Read.bind_of_ok hinit', hshape, h.extents]
  dsimp only [bind, Except.bind]
  have hheap := Memory.toNat_heapStart
  have hstart : Memory.dataStart.toNat = 0x2000 := rfl
  have hsmall := h.small
  have hrow := size_charRow hsmall ((Memory.dataStart.toNat + g.size) % 0x100000000 % 0x10000) false
  cases hdeclare : g.declare d.name .char [n] d.span with
  | error e =>
    constructor
    · rintro ⟨g', hg'⟩
      cases hg'
    · rintro ⟨hvars, hfunctions, hfits⟩
      have hwrapped : ((Memory.dataStart.toNat + g.size) % 0x100000000 + n) % 0x100000000 ≤ Memory.heapStart.toNat := by
        omega
      rw [← hrow] at hwrapped
      cases hdeclare.symm.trans (Globals.declare_eq_ok_iff.mpr ⟨hvars, hfunctions, hwrapped, rfl, rfl⟩)
  | ok r =>
    obtain ⟨v, g1⟩ := r
    obtain ⟨hvars, hfunctions, hfits, hv, -⟩ := Globals.declare_eq_ok_iff.mp hdeclare
    obtain rfl : v = charRow ((Memory.dataStart.toNat + g.size) % 0x100000000 % 0x10000) n false := hv
    rw [hrow] at hfits
    exact ⟨fun _ => ⟨hvars, hfunctions, by omega⟩, fun _ => ⟨_, rfl⟩⟩

theorem declared_text (h : d.Holds s n) (hassign : l.token = .op .assign) {macros : Macros} {fuel : Nat}
    (hstring : string? macros ⟨ls, final⟩ = .ok (some s) c')
    : Grammar.declared macros fuel d ⟨l :: ls, final⟩ = (.text d s, c') := by
  have hdims : d.dims.isEmpty = false := by
    rcases h.dims with hdims | ⟨hdims, -⟩ <;> rw [hdims] <;> rfl
  have htree : Grammar.string? macros ⟨ls, final⟩ = (some s, c') := by
    unfold Grammar.string?
    rw [Grammar.bind_apply, Grammar.attempt, hstring]
    rfl
  unfold Grammar.declared
  rw [Grammar.bind_apply, Grammar.peek_apply]
  simp only [Grammar.head_cons, hassign]
  rw [if_neg (by decide)]
  rw [Grammar.bind_apply, Grammar.eat_cons hassign]
  simp only [Bool.not_true, hdims]
  change (Grammar.string? macros >>= _ : Grammar.Tree Declared) ⟨ls, final⟩ = _
  rw [Grammar.bind_apply, htree]
  rfl

end Reading

section Local

variable {ctx : Context} {b b' : Body} {code : Code} {m : Machine} {stop : Nat}

/-- What a literal has of the bytes that it is written with. -/
def literalBytes (s : List UInt8) : List UInt8 :=
  (s.takeWhile (· != 0)).take stringRoom

theorem literalBytes_eq (hzero : 0 ∉ s) (hlength : s.length ≤ 3071) : literalBytes s = s := by
  have hall : s.takeWhile (· != 0) = s := payload_eq hzero
  rw [literalBytes, hall]
  exact List.take_of_length_le hlength

theorem Declarator.Holds.length_literalBytes (h : d.Holds s n) : (literalBytes s).length < n := by
  have htake : (literalBytes s).length ≤ (s.takeWhile (· != 0)).length := List.length_take_le' _ _
  have hwhile := (List.takeWhile_sublist (l := s) (· != 0)).length_le
  have hroom := h.room
  omega

theorem Declarator.Holds.emit_iff {r : Code × Body} (h : d.Holds s n) (hsize : b.locals.size ≤ 0xFFFF) :
    (Declared.text d s).emit ctx .char b = .ok r ↔
      Table.contains b.locals.vars d.name = false ∧ b.locals.size + n ≤ 0xFFFF
        ∧ ([pushInt 0, (charRow b.locals.size n true).access .effective, pushStr s, .call .strcpy],
          { b with
            locals := { b.locals with
              vars := Table.insert b.locals.vars d.name (charRow b.locals.size n true)
              size := b.locals.size + n } }) = r := by
  have hvoid : Ty.char.isVoid = false := rfl
  have hsmall := h.small
  have hrow : (⟨b.locals.size, .char, [n], true⟩ : Var) = charRow b.locals.size n true := rfl
  have hstop : (b.locals.size + n) % 0x100000000 = b.locals.size + n := Nat.mod_eq_of_lt (by omega)
  rw [Declared.emit_text_eq_ok_iff, h.ty, h.extents]
  simp only [Locals.declare_eq_ok_iff, hvoid, true_and, Except.ok.injEq, exists_eq_left', exists_eq_left, Prod.mk.injEq,
    hrow, size_charRow hsmall, hstop]
  constructor
  · rintro ⟨_, _, ⟨hnew, hfits, rfl, rfl⟩, -, rfl⟩
    exact ⟨hnew, hfits, rfl⟩
  · rintro ⟨hnew, hfits, rfl⟩
    refine ⟨_, _, ⟨hnew, hfits, rfl, rfl⟩, ?_, rfl⟩
    rw [size_charRow hsmall]
    exact h.room

theorem readable_copyCode (s : List UInt8) (hv : v.offset < 2 ^ 63) (hframe : v.onFrame = true) :
    ∀ line ∈ [pushInt 0, v.access .effective, pushStr s, .call .strcpy], line.Readable := by
  intro line hline
  simp only [List.mem_cons, List.not_mem_nil, or_false] at hline
  rcases hline with rfl | rfl | rfl | rfl
  · decide
  · simpa [Var.access, hframe, Line.Readable, Arg.Readable] using hv
  · simp [pushStr, Line.Readable, Arg.Readable]
  · trivial

/--
A machine that has come to the code of a declaration in some function of a program, with two values of room on its
stack. The locals are those behind the declaration, and the code ends at `stop`. No word wraps in the frame.
-/
def Declared.Faces (x : Declared) (base : Base) (m : Machine) (locals : Locals) (stop : Nat) : Prop :=
  ∃ source ctx ls b b' code front back options, x.emit ctx base b = .ok (code, b') ∧ b'.locals = locals
    ∧ Stage.Inside ⟨b, m⟩ source ctx ls ∧ b'.locals.Grows ls ∧ ls.Unwrapped ∧ Reached (fun _ => True) m
    ∧ assemble (Code.render (front ++ code ++ back)) options = .ok m.image ∧ m.pc = front.stop
    ∧ Code.stop (front ++ code) = stop ∧ m.stack.size + 2 ≤ m.stack.limit

/-- The bytes stand at the start of a variable of the frame, and the data outside of it is what it was. -/
structure Var.Filled (v : Var) (bytes : List UInt8) (m m' : Machine) : Prop where
  bytes : m'.memory.slice (m.base + UInt16.ofNat v.offset) bytes.length = bytes
  outside : ∀ a : UInt16, Memory.stringEnd.toNat ≤ a.toNat →
    a.toNat < m.base.toNat + v.offset ∨ m.base.toNat + v.offset + v.size ≤ a.toNat →
      m'.memory.byte a = m.memory.byte a

theorem Declarator.Holds.fills {locals : Locals} (h : d.Holds s n)
    (hfaces : (Declared.text d s).Faces .char m locals stop)
    : ∃ v m', locals.vars.lookup d.name = some v ∧ v.ty = .char ∧ v.dims = [n]
        ∧ m.Reaches m' ∧ m'.pc = stop ∧ m'.stack = m.stack ∧ m'.base = m.base
        ∧ v.Filled (literalBytes s ++ [0]) m m' := by
  obtain ⟨source, ctx, ls, b, b', code, front, back, options, hemit, rfl, hinside, hgrows, hwords, hreached, himage, hpc,
    rfl, hroom⟩ := hfaces
  have hsmall : b.locals.size ≤ 0xFFFF := hinside.built.near.size
  obtain ⟨hnew, hsize, heq⟩ := (h.emit_iff hsmall).mp hemit
  have hbuilt := hinside.built.grows (Declared.onlyGrows hemit).locals
  -- what is declared later lies behind, so the row ends inside of the frame
  obtain ⟨-, hend, -⟩ := hgrows.laid (hbuilt.laid (hgrows.unwrapped hwords)) hwords
  cases heq
  have hlookup : (Table.insert b.locals.vars d.name (charRow b.locals.size n true)).lookup d.name
      = some (charRow b.locals.size n true) := by
    rw [Table.insert_of_new hnew, List.lookup_cons_self]
  have hbelow : m.base.toNat + ls.size ≤ Memory.heapStart.toNat := hinside.frame.below
  have hheap := Memory.toNat_heapStart
  have hoffset : (charRow b.locals.size n true).offset = b.locals.size := rfl
  dsimp only at hend
  have hreadable := readable_copyCode s (v := charRow b.locals.size n true) (by omega) rfl
  obtain ⟨-, offset, -, -, -, -, -, hfront, hstop, -⟩ := Code.bytes_of_assemble hreadable himage
  obtain ⟨hpush, haccess, htext, hcall, -⟩ := Code.lies_in_text hreadable himage
  have htwo : (pushInt 0).size = 2 := rfl
  have hthree : ((charRow b.locals.size n true).access .effective).size = 3 := rfl
  have hone : (Line.call .strcpy).size = 1 := rfl
  have hinside' : Header.length < m.image.size := by
    have hle := hpush.size_le
    omega
  have hmask : options.mask = m.header.mask := by
    have hparse := (has_of_reached hreached).header
    rw [parse_of_assemble himage hinside', Except.ok.injEq] at hparse
    rw [← hparse]
    rfl
  rw [← hpc] at hpush haccess htext hcall
  rw [htwo] at haccess htext hcall
  rw [hthree] at htext hcall
  rw [size_pushStr] at hcall
  obtain ⟨rest, htext⟩ := htext.text
  obtain ⟨rest', hcall⟩ := hcall.call
  rw [payload_takeWhile, hmask] at htext
  obtain ⟨memory, m', hkeep, hreaches, hpc', hstack, hbase, hmemory⟩ :=
    reaches_strcpy hinside.ready hreached.slots (hpush.number rfl rfl rfl (by decide))
      (haccess.number rfl rfl rfl (by omega)) htext (zero_not_mem_takeWhile s) hcall hroom
  have hmemory : m'.memory = memory.putString (m.base + UInt16.ofNat b.locals.size) (literalBytes s) := hmemory
  have hlength := h.length_literalBytes
  refine ⟨_, m', hlookup, rfl, rfl, hreaches, ?_, hstack, hbase, ?_, ?_⟩
  · rw [hpc', hstop, hpc, Code.extent_cons, Code.extent_cons, Code.extent_cons, Code.extent_cons, Code.extent_nil,
      size_pushStr, htwo, hthree, hone]
    omega
  · rw [hmemory, List.length_append, List.length_singleton]
    apply Memory.slice_putString
    omega
  · intro a ha hout
    have hstart := Memory.toNat_add_ofNat (a := m.base) (n := b.locals.size) (by omega)
    rw [size_charRow h.small, hoffset] at hout
    rw [← hkeep a ha, hmemory]
    apply Memory.byte_putString_of_not_mem
    · omega
    · omega

end Local

def Variable.text? (x : Variable) : Option (List UInt8) :=
  match x.init with
  | some (.text s) => some s
  | _ => none

theorem Variable.init_of_text? {x : Variable} (h : x.text? = some s) : x.init = some (.text s) := by
  unfold Variable.text? at h
  split at h
  next hinit =>
    cases h
    exact hinit
  next => cases h

theorem Globals.Prepares.slice_text {g : Globals} {memory : Memory} {x : Variable} (hg : g.Confined)
    (h : g.Prepares x) (hx : x.text? = some s) (hmemory : ∀ b : UInt16, Memory.stringEnd.toNat ≤ b.toNat →
      (∀ p ∈ g.strings, b.toNat < p.1 ∨ p.1 + 4 ≤ b.toNat) → memory.byte b = (Memory.blank.fill g.inits).byte b)
    (hv : g.vars.lookup x.name = some v) (hty : v.ty = .char) (hdims : v.dims = [n]) (hsmall : n ≤ 0xFFFF)
    (hroom : s.length < n)
    : memory.slice (UInt16.ofNat v.offset) n = s ++ List.replicate (n - s.length) 0 := by
  obtain ⟨w, hw, -, -, -, hbytes⟩ := h.byte hg hmemory
  cases hv.symm.trans hw
  have hsize : v.size = n := by
    obtain ⟨offset, ty, dims, onFrame⟩ := v
    cases hty
    cases hdims
    exact size_charRow hsmall _ _
  obtain ⟨hstarts, hbyte⟩ := hbytes _ (.text (Variable.init_of_text? hx) hty (by rw [Var.isArray, hdims]; rfl))
  rw [hsize, List.take_of_length_le hroom.le] at hstarts
  have hlength : (s ++ List.replicate (n - s.length) 0).length = n := by
    rw [List.length_append, List.length_replicate]
    omega
  have hslice : memory.slice (UInt16.ofNat v.offset) (s ++ List.replicate (n - s.length) 0).length
      = s ++ List.replicate (n - s.length) 0 := by
    apply Memory.slice_eq_of_bytes
    intro i hi
    rw [← UInt16.ofNat_add, hbyte i (by omega), hstarts.bytes i (by omega), ← getD_append_zeros s (n - s.length),
      List.getD_eq_getElem _ _ hi, List.getElem?_eq_getElem]
  rwa [hlength] at hslice

/--
A row of characters with room for its string. It is accepted as a global if its name is new and it fits into the data
space, and as a local if its name is new and it fits into the frame; either way the same tokens are read. At the start of
`main` the global has all of the string and zeros behind it. Behind its declaration, the local has what a literal keeps
of the string and a zero, which is all of it if it has no zero and fits into the buffer of literals. This takes globals
and frames for which no word wraps.
-/
theorem char_rows_hold_strings {d : Declarator} {s : List UInt8} {n : Nat} (h : d.Holds s n) :
    (∀ (g : Globals) (l : Lexeme) (ls : List Lexeme) (final : Except Error Lexeme) (c' : Cursor),
        l.token = .op .assign → string? g.macros ⟨ls, final⟩ = .ok (some s) c' →
          (∀ fuel, Grammar.declared g.macros fuel d ⟨l :: ls, final⟩ = (.text d s, c'))
            ∧ (g.size ≤ 0xFFFF → ((∃ g', globalRest g d .char ⟨l :: ls, final⟩ = .ok g' c')
              ↔ g.vars.lookup d.name = none ∧ g.functions.lookup d.name = none ∧ 0x2000 + g.size + n ≤ 0xE000)))
      ∧ (∀ (ctx : Context) (b : Body), b.locals.size ≤ 0xFFFF →
          ((∃ code b', (Declared.text d s).emit ctx .char b = .ok (code, b'))
            ↔ b.locals.vars.lookup d.name = none ∧ b.locals.size + n ≤ 0xFFFF))
      ∧ (∀ (source : String) (options : Options) (image : Array UInt8), build source options = .ok image →
          (d.name, some s) ∈ (globalVariables source).map (fun x => (x.name, x.text?)) →
            ∃ text g, compile source = .ok text ∧ survey (Cursor.ofSource source) = .ok g
              ∧ (g.Unwrapped → ∃ start v,
                addressIn text (.named "main") = some start ∧ g.vars.lookup d.name = some v
                ∧ ∀ m0 : Machine, ∃ m m', m0.load image = .ok m ∧ ReachesFirst start m m'
                  ∧ (v.ty = .char → v.dims = [n] →
                    m'.memory.slice (UInt16.ofNat v.offset) n = s ++ List.replicate (n - s.length) 0)))
      ∧ (∀ (m : Machine) (locals : Locals) (stop : Nat), (Declared.text d s).Faces .char m locals stop →
          ∃ v m', locals.vars.lookup d.name = some v ∧ v.ty = .char ∧ v.dims = [n]
            ∧ m.Reaches m' ∧ m'.pc = stop ∧ m'.stack = m.stack ∧ m'.base = m.base
            ∧ v.Filled (literalBytes s ++ [0]) m m')
      ∧ (0 ∉ s → s.length ≤ 3071 → literalBytes s = s) := by
  refine ⟨?_, ?_, ?_, fun m locals stop hfaces => h.fills hfaces, literalBytes_eq⟩
  · intro g l ls final c' hassign hstring
    exact ⟨fun fuel => declared_text h hassign hstring, globalRest_iff h hassign hstring⟩
  · intro ctx b hsize
    rw [← Table.contains_eq_false_iff]
    constructor
    · rintro ⟨code, b', hemit⟩
      obtain ⟨hnew, hfits, -⟩ := (h.emit_iff hsize).mp hemit
      exact ⟨hnew, hfits⟩
    · rintro ⟨hnew, hfits⟩
      exact ⟨_, _, (h.emit_iff hsize).mpr ⟨hnew, hfits, rfl⟩⟩
  · intro source options image hbuild hmem
    obtain ⟨x, hx, heq⟩ := List.mem_map.mp hmem
    obtain ⟨hname, htext⟩ := Prod.mk.inj heq
    obtain ⟨text, hcompile, himage⟩ := build_eq_ok_iff.mp hbuild
    obtain ⟨g, hg, code, hcode, rfl⟩ := compile_eq_ok_iff.mp hcompile
    refine ⟨_, g, hcompile, hg, fun hwords => ?_⟩
    obtain ⟨hconfined, hprepares⟩ := prepares_of_survey hg hwords
    obtain ⟨start, haddress, hmain⟩ := reaches_main hg hcode himage hwords
    obtain ⟨v, hv, -⟩ := hprepares x hx
    refine ⟨start, v, haddress, hname ▸ hv, fun m0 => ?_⟩
    obtain ⟨m, m', hload, hreaches, -, hmemory⟩ := hmain m0
    refine ⟨m, m', hload, hreaches, fun hty hdims => ?_⟩
    exact (hprepares x hx).slice_text hconfined htext hmemory hv hty hdims h.small h.room

def rowSource : String :=
  "char a[4] = \"a\\0b\"; void main() \x7b\x7d"

def rowDeclarator : Declarator where
  name := "a"
  span := {}
  pointer := 0
  dims := [some 4]

def rowContext : Context where
  globals :=
    { vars := [("a", charRow 0x2000 4 false)]
      functions := [("main", { ret := .void, params := 0, defined := true })]
      size := 4
      inits := [(0x2000, [97, 0, 98])] }
  ret := .void
  main := true

def rowFront : Code :=
  [.op .space [.int 4], .op .func [.int 9, .int 0]]

def rowImage : Array UInt8 :=
  #[76, 65, 86, 18, 0, 0, 0, 0, 0, 0, 0, 0, 0, 0, 0, 0, 59, 4, 0, 56, 9, 0, 0, 1, 0, 19, 5, 0, 22, 97, 0, 131]

def rowLocals : Locals where
  vars := [("a", charRow 5 4 true)]
  size := 9

def rowCode : Code :=
  [pushInt 0, (charRow 5 4 true).access .effective, pushStr [97, 0, 98], .call .strcpy]

theorem faces_row : (Declared.text rowDeclarator [97, 0, 98]).Faces .char (ran rowImage 2) rowLocals 32 := by
  have hsurvey : (survey (Cursor.ofSource rowSource)).toOption = some rowContext.globals := by decide +kernel
  have himage : (assemble (Code.render (rowFront ++ rowCode ++ [])) {}).toOption = some rowImage := by decide +kernel
  have hstop : (ran rowImage 2).pc = rowFront.stop ∧ Code.stop (rowFront ++ rowCode) = 32 := by decide +kernel
  have hstate : (ran rowImage 2).loaded = true ∧ (ran rowImage 2).halted = false ∧ (ran rowImage 2).image = rowImage
      ∧ (ran rowImage 2).base = 0x2004 ∧ (ran rowImage 2).base2 = 0x200D
      ∧ (ran rowImage 2).stack.size + 2 ≤ (ran rowImage 2).stack.limit := by decide +kernel
  obtain ⟨hloaded, hhalted, hsame, hbase, hbase2, hroom⟩ := hstate
  have hdeclare : ({} : Locals).declare "a" .char [4] {} = .ok (charRow 5 4 true, rowLocals) := rfl
  have hframe : (ran rowImage 2).InFrame rowContext.globals rowLocals := by
    refine ⟨?_, { base := 0x2004 }, _, rfl, hbase.symm, hbase2.symm⟩
    rw [hbase]
    decide
  rw [← hsame] at himage
  refine ⟨rowSource, rowContext, rowLocals, {}, { locals := rowLocals }, rowCode, rowFront, [], {}, rfl, rfl, ?_, .refl,
    ⟨by decide, by decide⟩, ?_, Except.eq_ok_of_toOption himage, hstop.1, hstop.2, hroom⟩
  · exact ⟨Except.eq_ok_of_toOption hsurvey, ⟨[], {}, rfl, .refl⟩, .declare hdeclare .refl, ⟨hloaded, hhalted⟩, hframe⟩
  · exact reached_ran rfl 2 fun _ _ => trivial

theorem char_rows_hold_strings_row :
    ∃ image start, build rowSource {} = .ok image
      ∧ (∀ m0 : Machine, ∃ m m', m0.load image = .ok m ∧ ReachesFirst start m m'
        ∧ m'.memory.slice 0x2000 4 = [97, 0, 98, 0])
      ∧ ∃ m', (ran rowImage 2).Reaches m' ∧ m'.pc = 32 ∧ m'.memory.slice 0x2009 2 = [97, 0] := by
  have hholds : rowDeclarator.Holds [97, 0, 98] 4 := ⟨rfl, .inl rfl, by decide, by decide⟩
  obtain ⟨-, -, hglobal, hlocal, -⟩ := char_rows_hold_strings hholds
  obtain ⟨image, himage⟩ := Except.exists_eq_ok_of_isOk (x := build rowSource {}) (by decide +kernel)
  have hsurvey : (survey (Cursor.ofSource rowSource)).toOption = some rowContext.globals := by decide +kernel
  obtain ⟨text, g, -, hg, hstarts⟩ := hglobal _ _ _ himage (by decide +kernel)
  rw [hg] at hsurvey
  cases hsurvey
  obtain ⟨start, v, -, hv, hmain⟩ := hstarts (by decide)
  cases hv
  refine ⟨image, start, himage, fun m0 => ?_, ?_⟩
  · obtain ⟨m, m', hload, hreaches, hslice⟩ := hmain m0
    exact ⟨m, m', hload, hreaches, hslice rfl rfl⟩
  · obtain ⟨v, m', hv, -, -, hreaches, hpc, -, -, hfilled⟩ := hlocal _ _ _ faces_row
    cases hv
    have hbase : (ran rowImage 2).base = 0x2004 := by decide +kernel
    have hbytes := hfilled.bytes
    rw [hbase] at hbytes
    exact ⟨m', hreaches, hpc, hbytes⟩

theorem char_rows_disagree :
    (compile "void main() \x7b char a[50000] = \"x\"; \x7d").isOk = true
      ∧ (compile "char a[50000] = \"x\"; void main() \x7b \x7d").isOk = false
      ∧ (compile "void main() \x7b char a[3] = \"abc\"; \x7d").isOk = false
      ∧ (compile "char a[3] = \"abc\"; void main() \x7b \x7d").isOk = true
      ∧ (compile "void main() \x7b char a[4] = \"a\\0b\"; \x7d").toOption
        = (compile "void main() \x7b char a[4] = \"a\"; \x7d").toOption
      ∧ (compile "char a[4] = \"a\\0b\"; void main() \x7b \x7d").toOption
        ≠ (compile "char a[4] = \"a\"; void main() \x7b \x7d").toOption := by
  decide +kernel

end Source
end Handheld
