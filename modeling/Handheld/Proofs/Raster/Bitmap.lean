import Handheld.Proofs.Raster.Drawing
import Mathlib.Data.List.Basic

/-!
Drawing a bitmap and cutting one out of a raster agree on the bit of each pixel.
-/
namespace Handheld.Raster

variable {limit col row : Nat}

structure InBlock (x y : Int) (width height : Nat) (p : Point) : Prop where
  left : x ≤ p.1
  right : p.1 < x + width
  top : y ≤ p.2
  bottom : p.2 < y + height

variable {r r' : Raster} {x y : Int} {w h : Nat} {data : Array UInt8} {p q : Point}

theorem inBlock_iff : InBlock x y w h p ↔ (x ≤ p.1 ∧ p.1 < x + w) ∧ y ≤ p.2 ∧ p.2 < y + h :=
  ⟨fun h => ⟨⟨h.left, h.right⟩, h.top, h.bottom⟩, fun h => ⟨h.1.1, h.1.2, h.2.1, h.2.2⟩⟩

theorem InBlock.place (hblock : InBlock x y w h p) :
    (x + ((p.1 - x).toNat : Int), y + ((p.2 - y).toNat : Int)) = p := by
  obtain ⟨hcol, hrow⟩ := inBlock_iff.mp hblock
  apply Prod.ext
  · dsimp only
    omega
  · dsimp only
    omega

instance : Decidable (InBlock x y w h p) :=
  decidable_of_iff _ inBlock_iff.symm

theorem bitmapBit_eq (width : Nat) (data : Array UInt8) (col row : Nat) :
    bitmapBit width data col row
      = (data[row * stride width + col / 8]?.getD 0).toBitVec.getLsbD (7 - col % 8) :=
  and_bit_ne_zero _ (col, row)

def grid (rows columns : List Int) (lit : Point → Bool) : List Point :=
  rows.flatMap fun y => (columns.map (·, y)).filter lit

section

variable {rows columns : List Int} {lit : Point → Bool}

theorem mem_grid : q ∈ grid rows columns lit ↔ (q.1 ∈ columns ∧ q.2 ∈ rows) ∧ lit q = true := by
  simp only [grid, List.mem_flatMap, List.mem_filter, List.mem_map]
  constructor
  · rintro ⟨y, hy, ⟨x, hx, rfl⟩, hlit⟩
    exact ⟨⟨hx, hy⟩, hlit⟩
  · rintro ⟨⟨hx, hy⟩, hlit⟩
    exact ⟨q.2, hy, ⟨q.1, hx, rfl⟩, hlit⟩

theorem nodup_grid (hrows : rows.Nodup) (hcolumns : columns.Nodup) (lit : Point → Bool) :
    (grid rows columns lit).Nodup := by
  refine List.nodup_flatMap.mpr ⟨fun y _ => List.Nodup.filter lit (hcolumns.map ?_), hrows.imp ?_⟩
  · exact fun x x' heq => congrArg Prod.fst heq
  · intro y y' hne p hp hp'
    obtain ⟨x, -, rfl⟩ := List.mem_map.mp (List.mem_filter.mp hp).1
    obtain ⟨x', -, heq⟩ := List.mem_map.mp (List.mem_filter.mp hp').1
    exact hne (congrArg Prod.snd heq).symm

theorem foldl_grid {α : Type} (f : α → Point → α) (a : α) :
    (grid rows columns lit).foldl f a
      = rows.foldl (fun a y => columns.foldl (fun a x => if lit (x, y) then f a (x, y) else a) a) a := by
  simp only [grid, List.foldl_flatMap, List.foldl_filter, List.foldl_map]

end

theorem nodup_visible (low high : Int) (length : Nat) : (visible low high length).Nodup := by
  refine List.Nodup.map (fun i j hij => ?_) List.nodup_range
  omega

def bitmapPoints (r : Raster) (x y : Int) (width height : Nat) (data : Array UInt8) : List Point :=
  grid (visible y (y + height - 1) r.height) (visible x (x + width - 1) r.width)
    fun p => bitmapBit width data (p.1 - x).toNat (p.2 - y).toNat

theorem mem_bitmapPoints :
    q ∈ r.bitmapPoints x y w h data
      ↔ r.contains q = true ∧ InBlock x y w h q ∧ bitmapBit w data (q.1 - x).toNat (q.2 - y).toNat = true := by
  rw [contains_iff, inBlock_iff, bitmapPoints, mem_grid, mem_visible, mem_visible, ← and_assoc (c := _ = true)]
  apply and_congr_left
  omega

theorem nodup_bitmapPoints (r : Raster) (x y : Int) (w h : Nat) (data : Array UInt8) :
    (r.bitmapPoints x y w h data).Nodup :=
  nodup_grid (nodup_visible _ _ _) (nodup_visible _ _ _) _

theorem blit_eq_plots (r : Raster) (x y : Int) (w h : Nat) (data : Array UInt8) (mode : Mode) :
    r.blit x y w h data mode = (r.bitmapPoints x y w h data).foldl (·.plot · mode) r := by
  rw [bitmapPoints, foldl_grid]
  rfl

theorem blit_eq_draw (r : Raster) (x y : Int) (w h : Nat) (data : Array UInt8) (mode : Mode) :
    r.blit x y w h data mode = r.draw (r.bitmapPoints x y w h data) mode := by
  rw [blit_eq_plots, draw_eq_plots (nodup_bitmapPoints r x y w h data)]

def blankSheet (w h : Nat) : Raster where
  width := w
  height := h
  bits := Array.replicate (size w h) 0

def cutPoints (r : Raster) (x y : Int) (w h : Nat) : List Point :=
  (grid (visible y (y + h - 1) r.height) (visible x (x + w - 1) r.width) r.get).map fun p => (p.1 - x, p.2 - y)

theorem mem_cutPoints :
    q ∈ r.cutPoints x y w h
      ↔ InBlock 0 0 w h q ∧ r.get (x + q.1, y + q.2) = true := by
  rw [cutPoints, List.mem_map, inBlock_iff]
  simp only [mem_grid, mem_visible]
  constructor
  · rintro ⟨p, ⟨⟨hcol, hrow⟩, hlit⟩, rfl⟩
    refine ⟨by dsimp only; omega, ?_⟩
    simpa using hlit
  · rintro ⟨hblock, hlit⟩
    -- what is lit is on the raster
    have hcontains := contains_iff.mp (Bool.and_eq_true_iff.mp hlit).1
    dsimp only at hcontains
    exact ⟨(x + q.1, y + q.2), ⟨by dsimp only; omega, hlit⟩, by simp⟩

theorem nodup_cutPoints (r : Raster) (x y : Int) (w h : Nat) : (r.cutPoints x y w h).Nodup := by
  refine List.Nodup.map ?_ (nodup_grid (nodup_visible _ _ _) (nodup_visible _ _ _) _)
  intro p p' heq
  simpa [Prod.ext_iff] using heq

theorem contains_blankSheet_iff : (blankSheet w h).contains q = true ↔ InBlock 0 0 w h q := by
  rw [contains_iff, inBlock_iff]
  simp only [blankSheet]
  omega

/-- What is cut out is a sheet of its own on which the lit pixels are plotted. -/
theorem grab_eq_plots (hlimit : size w h ≤ limit) :
    r.grab x y w h limit = ((r.cutPoints x y w h).foldl (·.plot · .set) (blankSheet w h)).bits := by
  have hplots (points : List Point) (hpoints : ∀ p ∈ points, InBlock 0 0 w h p) (sheet : Raster)
      (hwidth : sheet.width = w) (hheight : sheet.height = h)
      : (points.foldl (·.plot · .set) sheet).bits
        = points.foldl (fun data p => data.modify (p.2.toNat * stride w + p.1.toNat / 8) (· ||| bit p)) sheet.bits := by
    induction points generalizing sheet with
    | nil => rfl
    | cons p points ih =>
      obtain ⟨hp, hpoints⟩ := List.forall_mem_cons.mp hpoints
      have hcontains : sheet.contains p = true := by
        obtain ⟨hcol, hrow⟩ := inBlock_iff.mp hp
        rw [contains_iff]
        omega
      rw [List.foldl_cons, List.foldl_cons, ih hpoints _ (by simpa) (by simpa), plot, if_pos hcontains, index, hwidth]
      rfl
  have hsize : min (stride w * h) limit = size w h := Nat.min_eq_left hlimit
  rw [hplots _ (fun p hp => (mem_cutPoints.mp hp).1) _ rfl rfl, cutPoints, List.foldl_map, foldl_grid, grab, hsize]
  rfl

theorem size_grab (hlimit : size w h ≤ limit) : (r.grab x y w h limit).size = size w h := by
  have hplots := Redrawn.foldl (fun r p => redrawn_plot r p .set) (blankSheet w h) (r.cutPoints x y w h)
  rw [grab_eq_plots hlimit, hplots.bits, blankSheet, Array.size_replicate]

theorem get_blankSheet (q : Point) : (blankSheet w h).get q = false := by
  have hbyte : (blankSheet w h).bits[(blankSheet w h).index q]?.getD 0 = 0 := by
    rw [blankSheet, Array.getElem?_replicate]
    split <;> rfl
  rw [get, hbyte, UInt8.zero_and]
  exact Bool.and_false _

theorem bitmapBit_grab (hlimit : size w h ≤ limit) (hcol : col < w) (hrow : row < h) :
    bitmapBit w (r.grab x y w h limit) col row = r.get (x + col, y + row) := by
  have hblock : InBlock 0 0 w h ((col : Int), (row : Int)) := inBlock_iff.mpr (by dsimp only; omega)
  have hsheet := Redrawn.foldl (fun r p => redrawn_plot r p .set) (blankSheet w h) (r.cutPoints x y w h)
  have hcontains := contains_blankSheet_iff.mpr hblock
  rw [contains, ← hsheet.width, ← hsheet.height] at hcontains
  have hget := get_plots (nodup_cutPoints r x y w h) (by simp [blankSheet])
    (fun p hp => contains_blankSheet_iff.mpr (mem_cutPoints.mp hp).1) .set ((col : Int), (row : Int))
  simp only [get_blankSheet, mem_cutPoints, hblock, true_and] at hget
  rw [get_eq hcontains, index, hsheet.width] at hget
  rw [bitmapBit_eq, grab_eq_plots hlimit]
  refine Eq.trans hget ?_
  cases r.get (x + col, y + row) with
  | false => rfl
  | true => rfl

theorem mem_bitmapPoints_grab (hlimit : size w h ≤ limit) :
    q ∈ r'.bitmapPoints x y w h (r.grab x y w h limit)
      ↔ (r'.contains q = true ∧ InBlock x y w h q) ∧ r.get q = true := by
  rw [mem_bitmapPoints, ← and_assoc]
  apply and_congr_right
  rintro ⟨-, hblock⟩
  obtain ⟨hcol, hrow⟩ := inBlock_iff.mp hblock
  rw [bitmapBit_grab hlimit (by omega) (by omega), hblock.place]

theorem get_blit_grab (hlimit : size w h ≤ limit) (hbits : size r'.width r'.height ≤ r'.bits.size) (q : Point)
    : (r'.blit x y w h (r.grab x y w h limit) .set).get q
      = if r'.contains q = true ∧ InBlock x y w h q then r'.get q || r.get q else r'.get q := by
  have hplots := get_plots (nodup_bitmapPoints r' x y w h (r.grab x y w h limit)) hbits
    (fun p hp => (mem_bitmapPoints.mp hp).1) .set q
  simp only [mem_bitmapPoints_grab hlimit] at hplots
  rw [blit_eq_plots, hplots]
  by_cases hq : r'.contains q = true ∧ InBlock x y w h q
  · cases hlit : r.get q with
    | false => simp
    | true => simp [hq, Mode.on]
  · simp [hq]

end Handheld.Raster
