import Handheld.Proofs.Machine.Display

/-!
The console as a terminal: the grid in memory shows the rows of a terminal on which the same is done.
-/
namespace Handheld

variable {row col row' : Nat}

inductive Console.Action where
  | put (b : UInt8)
  | write (bytes : List UInt8)
  | clear
  | setFont (font : FontSize)
  | locate (row col : Int)

structure Terminal where
  columns : Nat
  rows : List (List UInt8)
  row : Nat := 0
  col : Nat := 0
  deriving DecidableEq, Repr

namespace Terminal

def blankRow (columns : Nat) : List UInt8 :=
  List.replicate columns 0

def blank (columns rows : Nat) : Terminal where
  columns := columns
  rows := List.replicate rows (blankRow columns)

def newRow (t : Terminal) : Terminal :=
  if t.row + 1 = t.rows.length then { t with rows := t.rows.tail ++ [blankRow t.columns], col := 0 }
  else { t with row := t.row + 1, col := 0 }

def overwrite (t : Terminal) (b : UInt8) : Terminal :=
  { t with rows := t.rows.modify t.row (·.set t.col b) }

def advance (t : Terminal) : Terminal :=
  if t.col + 1 = t.columns then t.newRow else { t with col := t.col + 1 }

def put (t : Terminal) (b : UInt8) : Terminal :=
  if b = 0x0A then t.newRow
  else if b = 0x0D then { t with col := 0 }
  else (t.overwrite b).advance

def locate (t : Terminal) (row col : Int) : Terminal :=
  { t with row := min row.toNat (t.rows.length - 1), col := min col.toNat (t.columns - 1) }

def act (size : FontSize → Nat × Nat) (t : Terminal) : Console.Action → Terminal
  | .put b => t.put b
  | .write bytes => bytes.foldl put t
  | .clear => blank t.columns t.rows.length
  | .setFont font => blank (size font).1 (size font).2
  | .locate row col => t.locate row col

end Terminal

namespace Memory

theorem toList_region (m : Memory) {start len : Nat} (h : start + len ≤ 0x10000) :
    (m.region start len).toList = (List.range len).map fun i => m.byte (UInt16.ofNat (start + i)) := by
  apply List.ext_getElem?
  intro i
  rcases Nat.lt_or_ge i len with hi | hi
  · rw [Array.getElem?_toList, getElem?_region m h hi, List.getElem?_map, List.getElem?_range hi, Option.map_some]
  · rw [Array.getElem?_toList, Array.getElem?_eq_none (by simp [region]; omega), List.getElem?_eq_none (by simpa using hi)]

end Memory

namespace Console

variable {c : Console} {m : Memory}

def grid (c : Console) (m : Memory) : List (List UInt8) :=
  (List.range c.rows).map fun row => (m.region (row * c.columns) c.columns).toList

def terminal (s : Console × Memory) : Terminal where
  columns := s.1.columns
  rows := s.1.grid s.2
  row := s.1.row
  col := s.1.col

theorem lines_eq (c : Console) (m : Memory) : c.lines m = (c.grid m).map rowText := by
  simp [lines, grid]

theorem length_grid (c : Console) (m : Memory) : (c.grid m).length = c.rows := by
  simp [grid]

def cellAt (c : Console) (row col : Nat) : UInt16 :=
  UInt16.ofNat (row * c.columns + col)

theorem toNat_cellAt (hrow : row < c.rows) (hcol : col < c.columns) :
    (c.cellAt row col).toNat = row * c.columns + col := by
  have hcell := cell_lt_gridSize hrow hcol
  have hsize : c.gridSize ≤ 0x400 := c.gridSize_le
  rw [cellAt, UInt16.toNat_ofNat']
  omega

theorem cellAt_inj {col' : Nat} (hrow : row < c.rows) (hcol : col < c.columns) (hrow' : row' < c.rows)
    (hcol' : col' < c.columns) (h : c.cellAt row col = c.cellAt row' col') : row = row' ∧ col = col' := by
  have hindex := congrArg UInt16.toNat h
  rw [toNat_cellAt hrow hcol, toNat_cellAt hrow' hcol'] at hindex
  exact eq_of_mul_add_eq hcol hcol' hindex

def cells (c : Console) (m : Memory) (row : Nat) : List UInt8 :=
  (List.range c.columns).map fun col => m.byte (c.cellAt row col)

theorem grid_eq_cells (c : Console) (m : Memory) : c.grid m = (List.range c.rows).map (c.cells m) := by
  apply List.map_congr_left
  intro row hrow
  have hcell := cell_lt_gridSize (List.mem_range.mp hrow) (Nat.sub_lt c.columns_pos Nat.one_pos)
  have hsize : c.gridSize ≤ 0x400 := c.gridSize_le
  rw [Memory.toList_region m (by omega)]
  rfl

theorem cells_congr {m' : Memory} (h : ∀ col < c.columns, m'.byte (c.cellAt row' col) = m.byte (c.cellAt row col))
    : c.cells m' row' = c.cells m row := by
  apply List.map_congr_left
  intro col hcol
  exact h col (List.mem_range.mp hcol)

theorem cells_eq_blankRow (h : ∀ col < c.columns, m.byte (c.cellAt row col) = 0) :
    c.cells m row = Terminal.blankRow c.columns := by
  apply List.eq_replicate_iff.mpr
  constructor
  · rw [cells, List.length_map, List.length_range]
  · intro b hb
    obtain ⟨col, hcol, rfl⟩ := List.mem_map.mp hb
    exact h col (List.mem_range.mp hcol)

theorem grid_eq_blank (h : ∀ a : UInt16, a.toNat < c.gridSize → m.byte a = 0) :
    c.grid m = List.replicate c.rows (Terminal.blankRow c.columns) := by
  rw [grid_eq_cells]
  apply List.eq_replicate_iff.mpr
  constructor
  · rw [List.length_map, List.length_range]
  · intro row hmem
    obtain ⟨row, hrange, rfl⟩ := List.mem_map.mp hmem
    have hrow := List.mem_range.mp hrange
    apply cells_eq_blankRow
    intro col hcol
    apply h
    rw [toNat_cellAt hrow hcol]
    exact cell_lt_gridSize hrow hcol

theorem grid_setByte (hrow : row < c.rows) (hcol : col < c.columns) (m : Memory) (b : UInt8) :
    c.grid (m.setByte (c.cellAt row col) b) = (c.grid m).modify row (·.set col b) := by
  rw [grid_eq_cells, grid_eq_cells]
  apply List.ext_getElem (by simp)
  intro row' hrow' _
  simp only [List.length_map, List.length_range] at hrow'
  rw [List.getElem_modify, List.getElem_map, List.getElem_map, List.getElem_range]
  split
  next heq =>
    subst heq
    apply List.ext_getElem (by simp [cells])
    intro col' hcol' _
    simp only [cells, List.length_map, List.length_range] at hcol'
    simp only [cells, List.getElem_set, List.getElem_map, List.getElem_range, Memory.byte_setByte]
    split
    next hat => rw [if_pos (cellAt_inj hrow hcol hrow hcol' hat).2]
    next hat => rw [if_neg fun heq => hat (by rw [heq])]
  next hne =>
    apply cells_congr
    intro col' hcol'
    rw [Memory.byte_setByte, if_neg fun hat => hne (cellAt_inj hrow hcol hrow' hcol' hat).1]

theorem byte_scroll (hrow : row < c.rows) (hcol : col < c.columns) (m : Memory) :
    (c.scroll m).byte (c.cellAt row col) = if row + 1 < c.rows then m.byte (c.cellAt (row + 1) col) else 0 := by
  have hsize : c.gridSize ≤ 0x400 := c.gridSize_le
  have hcell := cell_lt_gridSize hrow hcol
  have hone := columns_le_gridSize (Nat.lt_of_le_of_lt (Nat.zero_le row) hrow)
  have hregion : (m.region c.columns (c.gridSize - c.columns)).size = c.gridSize - c.columns := by
    simp only [Memory.region, Array.size_extract, Vector.size_toArray]
    omega
  rw [scroll, Memory.byte_setRegion, if_neg (by omega), toNat_cellAt hrow hcol, Nat.sub_zero]
  split
  next hnext =>
    have hbelow := cell_lt_gridSize hnext hcol
    rw [Nat.succ_mul] at hbelow
    rw [Array.getElem?_append_left (by omega), Memory.getElem?_region m (by omega) (by omega), Option.getD_some, cellAt,
      Nat.succ_mul]
    congr 2
    omega
  next hlast =>
    have hgrid : c.gridSize = row * c.columns + c.columns := by
      have heq : c.rows = row + 1 := by omega
      rw [gridSize, heq, Nat.mul_comm, Nat.succ_mul]
    rw [Array.getElem?_append_right (by omega), Array.getElem?_replicate, if_pos (by omega), Option.getD_some]

theorem grid_scroll (h : 1 ≤ c.rows) (m : Memory) :
    c.grid (c.scroll m) = (c.grid m).tail ++ [Terminal.blankRow c.columns] := by
  obtain ⟨rows, hrows⟩ := Nat.exists_eq_add_one.mpr h
  rw [grid_eq_cells, grid_eq_cells, hrows]
  nth_rewrite 1 [List.range_succ]
  rw [List.map_append, List.map_singleton, List.range_succ_eq_map, List.map_cons, List.tail_cons, List.map_map]
  congr 1
  · apply List.map_congr_left
    intro row hrow
    have hrow := List.mem_range.mp hrow
    apply cells_congr
    intro col hcol
    rw [byte_scroll (by omega) hcol, if_pos (by omega)]
  · rw [cells_eq_blankRow]
    intro col hcol
    rw [byte_scroll (by omega) hcol, if_neg (by omega)]

theorem terminal_clear (c : Console) (m : Memory) : terminal (c.clear m) = .blank c.columns c.rows := by
  have hgrid : c.grid (c.clear m).2 = List.replicate c.rows (Terminal.blankRow c.columns) := by
    apply grid_eq_blank
    intro a ha
    rw [clear, Memory.byte_setRegion, if_neg (Nat.not_lt_zero _), Array.getElem?_replicate, if_pos (by omega),
      Option.getD_some]
  exact congrArg (fun rows => ({ columns := c.columns, rows := rows } : Terminal)) hgrid

theorem terminal_newline (hfits : c.Fits) (hrow : c.row < c.rows) (m : Memory) :
    terminal (c.newline m) = (terminal (c, m)).newRow := by
  have hlength : (terminal (c, m)).rows.length = c.rows := length_grid c m
  by_cases hnext : c.row + 1 < c.rows
  · have hnewline : c.newline m = ({ c with row := c.row + 1, col := 0 }, m) := if_pos hnext
    have hnewRow : (terminal (c, m)).newRow = { terminal (c, m) with row := c.row + 1, col := 0 } :=
      if_neg (hlength ▸ Nat.ne_of_lt hnext)
    rw [hnewline, hnewRow]
    rfl
  · have hlast : c.row + 1 = c.rows := Nat.le_antisymm hrow (Nat.le_of_not_lt hnext)
    have hnewline : c.newline m = ({ c with col := 0 }, c.scroll m) := if_neg hnext
    have hnewRow : (terminal (c, m)).newRow
        = { terminal (c, m) with rows := (c.grid m).tail ++ [Terminal.blankRow c.columns], col := 0 } :=
      if_pos (hlength ▸ hlast)
    rw [hnewline, hnewRow, ← grid_scroll (rows_pos (hfits c.font))]
    rfl

theorem terminal_place (h : c.OnGrid) (m : Memory) (b : UInt8) :
    terminal (c.place m b) = ((terminal (c, m)).overwrite b).advance := by
  let moved := { c with col := c.col + 1 }
  let written := m.setByte (c.cellAt c.row c.col) b
  have hoverwrite : (terminal (c, m)).overwrite b = terminal (c, written) := by
    have hgrid := grid_setByte h.row h.col m b
    exact congrArg (fun rows => { terminal (c, m) with rows := rows }) hgrid.symm
  rw [hoverwrite]
  by_cases hfull : c.columns ≤ c.col + 1
  · have hplace : c.place m b = moved.newline written := if_pos hfull
    have hadvance : (terminal (c, written)).advance = (terminal (moved, written)).newRow :=
      if_pos (Nat.le_antisymm h.col hfull)
    rw [hplace, hadvance]
    exact terminal_newline h.fits h.row written
  · have hplace : c.place m b = (moved, written) := if_neg hfull
    have hadvance : (terminal (c, written)).advance = terminal (moved, written) :=
      if_neg fun heq => hfull (Nat.le_of_eq heq.symm)
    rw [hplace, hadvance]

theorem terminal_put (h : c.OnGrid) (m : Memory) (b : UInt8) : terminal (c.put m b) = (terminal (c, m)).put b := by
  -- the transcript and the queue are no part of the terminal
  let queued : Console := { c with transcript := record c.transcript b, pending := c.pending.push b }
  have hqueued : queued.OnGrid := ⟨h.fits, h.row, h.col⟩
  have hsame : terminal (c, m) = terminal (queued, m) := rfl
  rw [hsame]
  unfold put Terminal.put
  simp only [beq_iff_eq]
  split
  next => exact terminal_newline hqueued.fits hqueued.row m
  next =>
    split
    next => rfl
    next => exact terminal_place hqueued m b

theorem terminal_write (h : c.OnGrid) (m : Memory) (bytes : List UInt8) :
    terminal (c.write m bytes) = bytes.foldl Terminal.put (terminal (c, m)) := by
  induction bytes generalizing c m with
  | nil => rfl
  | cons b bytes ih =>
    rw [List.foldl_cons, ← terminal_put h m b]
    exact ih (stays_put h m b).grid _

theorem clamp_eq {count : Nat} (h : 1 ≤ count) (hcount : count ≤ 0x400) (n : Int) :
    clamp n count = min n.toNat (count - 1) := by
  unfold clamp
  omega

theorem terminal_locate (h : c.Fits) (m : Memory) (row col : Int) :
    terminal (c.locate row col, m) = (terminal (c, m)).locate row col := by
  have hrows : 1 ≤ c.rows := rows_pos (h c.font)
  have hrowsLe : c.rows ≤ 0x400 := Nat.le_trans (Nat.le_mul_of_pos_left _ c.columns_pos) c.gridSize_le
  have hrow : clamp row c.rows = min row.toNat ((c.grid m).length - 1) := by
    rw [length_grid, clamp_eq hrows hrowsLe]
  have hcol : clamp col c.columns = min col.toNat (c.columns - 1) := clamp_eq c.columns_pos (h c.font) col
  exact congrArg₂ (fun row col => { terminal (c, m) with row := row, col := col }) hrow hcol

def act (s : Console × Memory) : Action → Console × Memory
  | .put b => s.1.put s.2 b
  | .write bytes => s.1.write s.2 bytes
  | .clear => s.1.clear s.2
  | .setFont font => s.1.setFont s.2 font
  | .locate row col => (s.1.locate row col, s.2)

def size (c : Console) (font : FontSize) : Nat × Nat :=
  (columns { c with font := font }, rows { c with font := font })

theorem Stays.size_eq {next : Console × Memory} (h : c.Stays m next) : next.1.size = c.size := by
  have hshape := h.shape
  simp only [Console.shape, Prod.mk.injEq] at hshape
  funext font
  simp only [size, rows, columns, hshape.2]

theorem terminal_act (h : c.OnGrid) (m : Memory) (a : Action) :
    terminal (act (c, m) a) = (terminal (c, m)).act c.size a ∧ (act (c, m) a).1.OnGrid
      ∧ (act (c, m) a).1.size = c.size := by
  cases a with
  | put b =>
    have hstays := stays_put h m b
    exact ⟨terminal_put h m b, hstays.grid, hstays.size_eq⟩
  | write bytes =>
    have hstays := stays_write h m bytes
    exact ⟨terminal_write h m bytes, hstays.grid, hstays.size_eq⟩
  | clear =>
    have hstays := stays_clear h.fits m
    refine ⟨?_, hstays.grid, hstays.size_eq⟩
    change terminal (c.clear m) = .blank c.columns (c.grid m).length
    rw [length_grid, terminal_clear]
  | setFont font =>
    have hstays := stays_clear (c := { c with font := font }) h.fits m
    exact ⟨terminal_clear { c with font := font } m, hstays.grid, hstays.size_eq⟩
  | locate row col => exact ⟨terminal_locate h.fits m row col, onGrid_locate h.fits row col, rfl⟩

theorem terminal_foldl_act (h : c.OnGrid) (m : Memory) (actions : List Action) :
    terminal (actions.foldl act (c, m)) = actions.foldl (Terminal.act c.size) (terminal (c, m))
      ∧ (actions.foldl act (c, m)).1.OnGrid := by
  induction actions generalizing c m with
  | nil => exact ⟨rfl, h⟩
  | cons a actions ih =>
    obtain ⟨hterminal, hgrid, hsize⟩ := terminal_act h m a
    have hrest := ih hgrid (act (c, m) a).2
    rw [hsize, hterminal] at hrest
    exact hrest

def play (header : Header) (actions : List Action) : Console × Memory :=
  actions.foldl act ({ width := header.width.toNat, height := header.height.toNat }, .blank)

end Console

def Terminal.play (header : Header) (actions : List Console.Action) : Terminal :=
  let size := Console.size { width := header.width.toNat, height := header.height.toNat }
  actions.foldl (act size) (blank (size .large).1 (size .large).2)

namespace Console

theorem terminal_play {image : List UInt8} {header : Header} (h : Header.parse image = .ok header)
    (actions : List Action)
    : terminal (play header actions) = .play header actions ∧ (play header actions).1.OnGrid := by
  let start : Console := { width := header.width.toNat, height := header.height.toNat }
  have hfits : start.Fits := Machine.fits_of_geometry (Header.geometryEncodable_of_parse h) rfl
  have hgrid : start.OnGrid := ⟨hfits, rows_pos (hfits _), start.columns_pos⟩
  have hblank : terminal (start, .blank) = .blank start.columns start.rows := by
    have hrows := grid_eq_blank (c := start) fun a _ => Memory.byte_blank a
    exact congrArg (fun rows => ({ columns := start.columns, rows := rows } : Terminal)) hrows
  have hplay := terminal_foldl_act hgrid .blank actions
  rw [hblank] at hplay
  exact hplay

/--
On every screen that a header can ask for, and whatever is done on the console: the cursor is on the grid, and the grid
in memory shows the rows and the cursor of a terminal on which the same is done.
-/
theorem grid_shows_terminal {image : List UInt8} {header : Header} (h : Header.parse image = .ok header)
    (actions : List Action)
    : (play header actions).1.row < (play header actions).1.rows
        ∧ (play header actions).1.col < (play header actions).1.columns
        ∧ (play header actions).1.row = (Terminal.play header actions).row
        ∧ (play header actions).1.col = (Terminal.play header actions).col
        ∧ (play header actions).1.grid (play header actions).2 = (Terminal.play header actions).rows
        ∧ (play header actions).1.lines (play header actions).2 = (Terminal.play header actions).rows.map rowText := by
  obtain ⟨hterminal, hgrid⟩ := terminal_play h actions
  rw [lines_eq, ← hterminal]
  exact ⟨hgrid.row, hgrid.col, rfl, rfl, rfl, rfl⟩

def narrow : Header :=
  { width := 48, height := 32 }

def scribble : List Action :=
  [.write [0x61, 0x62, 0x63, 0x64, 0x65, 0x66, 0x67, 0x0A], .setFont .small,
    .write [0x30, 0x31, 0x32, 0x33, 0x34, 0x35, 0x36, 0x37, 0x38, 0x0A, 0x39], .locate (-3) 100, .put 0x7A, .put 0x0D]

theorem grid_shows_terminal_scribble :
    (play narrow scribble).1.row = 1 ∧ (play narrow scribble).1.col = 0
      ∧ (play narrow scribble).1.grid (play narrow scribble).2
          = [[0x38, 0, 0, 0, 0, 0, 0, 0x7A], [0x39, 0, 0, 0, 0, 0, 0, 0]] := by
  have hparse : Header.parse (narrow.toBytes ++ [0x3A]) = .ok narrow := rfl
  have hplay := grid_shows_terminal hparse scribble
  have hterminal : Terminal.play narrow scribble
      = { columns := 8, rows := [[0x38, 0, 0, 0, 0, 0, 0, 0x7A], [0x39, 0, 0, 0, 0, 0, 0, 0]], row := 1, col := 0 } := by
    decide
  rw [hterminal] at hplay
  exact ⟨hplay.2.2.1, hplay.2.2.2.1, hplay.2.2.2.2.1⟩

end Console
end Handheld
