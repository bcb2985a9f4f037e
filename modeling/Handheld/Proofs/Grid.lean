import Handheld.Console
import Handheld.Proofs.Memory

/-!
The grid of the console: as long as a row fits the text buffer, the cursor stays on the grid and nothing is written
outside.
-/
namespace Handheld.Console

variable {c : Console}

def Fits (c : Console) : Prop :=
  ∀ font, columns { c with font := font } ≤ Memory.textSize

structure OnGrid (c : Console) : Prop where
  fits : c.Fits
  row : c.row < c.rows
  col : c.col < c.columns

theorem columns_pos (c : Console) : 1 ≤ c.columns :=
  Nat.le_max_right _ _

theorem rows_pos (h : c.columns ≤ Memory.textSize) : 1 ≤ c.rows := by
  have hroom : 1 ≤ Memory.textSize / c.columns := Nat.div_pos h c.columns_pos
  exact Nat.le_min.mpr ⟨Nat.le_max_right _ _, hroom⟩

theorem gridSize_le (c : Console) : c.gridSize ≤ Memory.textSize :=
  calc
    c.columns * c.rows
    _ ≤ c.columns * (Memory.textSize / c.columns) := Nat.mul_le_mul_left _ (Nat.min_le_right _ _)
    _ ≤ Memory.textSize := Nat.mul_div_le _ _

theorem columns_le_gridSize (h : 1 ≤ c.rows) : c.columns ≤ c.gridSize :=
  Nat.le_mul_of_pos_right _ h

theorem cell_lt_gridSize {row col : Nat} (hrow : row < c.rows) (hcol : col < c.columns) :
    row * c.columns + col < c.gridSize :=
  calc
    row * c.columns + col
    _ < row * c.columns + c.columns := Nat.add_lt_add_left hcol _
    _ = c.columns * (row + 1) := by rw [Nat.mul_succ, Nat.mul_comm]
    _ ≤ c.gridSize := Nat.mul_le_mul_left _ hrow

theorem OnGrid.cell_lt (h : c.OnGrid) : c.row * c.columns + c.col < c.gridSize :=
  cell_lt_gridSize h.row h.col

def shape (c : Console) : FontSize × Nat × Nat :=
  (c.font, c.width, c.height)

theorem gridSize_congr {c' : Console} (h : c'.shape = c.shape) : c'.gridSize = c.gridSize := by
  simp only [shape, Prod.mk.injEq] at h
  simp only [gridSize, rows, columns, h]

structure Stays (c : Console) (m : Memory) (next : Console × Memory) : Prop where
  shape : next.1.shape = c.shape
  grid : next.1.OnGrid
  memory : m.SameOutside 0 c.gridSize next.2

theorem Stays.trans {m m' : Memory} {c' : Console} {next : Console × Memory} (h : c.Stays m (c', m'))
    (h' : c'.Stays m' next) : c.Stays m next := by
  refine ⟨h'.shape.trans h.shape, h'.grid, h.memory.trans ?_⟩
  rw [← gridSize_congr h.shape]
  exact h'.memory

theorem stays_clear (h : c.Fits) (m : Memory) : c.Stays m (c.clear m) := by
  refine ⟨rfl, ⟨h, rows_pos (h c.font), c.columns_pos⟩, ?_⟩
  apply Memory.sameOutside_setRegion_of_size_le
  rw [Array.size_replicate]

theorem clamp_lt (n : Int) {count : Nat} (h : 1 ≤ count) : clamp n count < count := by
  unfold clamp
  omega

theorem onGrid_locate (h : c.Fits) (row col : Int) : (c.locate row col).OnGrid :=
  ⟨h, clamp_lt row (rows_pos (h c.font)), clamp_lt col c.columns_pos⟩

theorem sameOutside_scroll (h : 1 ≤ c.rows) (m : Memory) : m.SameOutside 0 c.gridSize (c.scroll m) := by
  apply Memory.sameOutside_setRegion_of_size_le
  have hcolumns := columns_le_gridSize h
  rw [Array.size_append, Array.size_replicate, Memory.region, Array.size_extract]
  omega

theorem stays_newline (hfits : c.Fits) (hrow : c.row < c.rows) (m : Memory) : c.Stays m (c.newline m) := by
  unfold newline
  split
  next hnext => exact ⟨rfl, ⟨hfits, hnext, c.columns_pos⟩, .refl _ _ m⟩
  next => exact ⟨rfl, ⟨hfits, hrow, c.columns_pos⟩, sameOutside_scroll (rows_pos (hfits c.font)) m⟩

theorem sameOutside_setByte (h : c.OnGrid) (m : Memory) (b : UInt8) :
    m.SameOutside 0 c.gridSize (m.setByte (UInt16.ofNat (c.row * c.columns + c.col)) b) := by
  intro a ha
  have hcell := h.cell_lt
  have hsize := c.gridSize_le
  have htext : Memory.textSize = 0x400 := rfl
  rw [Memory.byte_setByte, if_neg]
  rintro rfl
  rw [UInt16.toNat_ofNat', Nat.mod_eq_of_lt (by omega)] at ha
  omega

theorem stays_place (h : c.OnGrid) (m : Memory) (b : UInt8) : c.Stays m (c.place m b) := by
  have hbyte := sameOutside_setByte h m b
  unfold place
  dsimp only
  split
  next =>
    have hnewline := stays_newline (c := { c with col := c.col + 1 }) h.fits h.row
      (m.setByte (UInt16.ofNat (c.row * c.columns + c.col)) b)
    exact ⟨hnewline.shape, hnewline.grid, hbyte.trans hnewline.memory⟩
  next hcol => exact ⟨rfl, ⟨h.fits, h.row, Nat.lt_of_not_le hcol⟩, hbyte⟩

theorem stays_put (h : c.OnGrid) (m : Memory) (b : UInt8) : c.Stays m (c.put m b) := by
  -- the transcript and the queue grow first, which the grid does not depend on
  let c' : Console := { c with transcript := record c.transcript b, pending := c.pending.push b }
  have hgrid : c'.OnGrid := ⟨h.fits, h.row, h.col⟩
  have hqueue : c.Stays m (c', m) := ⟨rfl, hgrid, .refl _ _ m⟩
  unfold put
  dsimp only
  split
  next => exact hqueue.trans (stays_newline hgrid.fits hgrid.row m)
  next =>
    split
    next => exact ⟨rfl, ⟨h.fits, h.row, c.columns_pos⟩, .refl _ _ m⟩
    next => exact hqueue.trans (stays_place hgrid m b)

theorem stays_write (h : c.OnGrid) (m : Memory) (bytes : List UInt8) : c.Stays m (c.write m bytes) := by
  induction bytes generalizing c m with
  | nil => exact ⟨rfl, h, .refl _ _ m⟩
  | cons b bytes ih =>
    have hput := stays_put h m b
    exact hput.trans (ih hput.grid _)

end Handheld.Console
