import Handheld.Proofs.Machine.Display
import Handheld.Proofs.Memory.Strings
import Handheld.Proofs.Raster.Shapes

/-!
Blocks of the screen. A block that is saved with one call and drawn with another comes back pixel by pixel, wherever it
sticks out and its buffer wraps.
-/
namespace Handheld

variable {start len : Nat} {data : Array UInt8} {a b : UInt16}

namespace Memory

theorem region_eq_of_bytes {m : Memory} (h : start + data.size ≤ 0x10000)
    (hbytes : ∀ i, i < data.size → data[i]? = some (m.byte (UInt16.ofNat (start + i))))
    : m.region start data.size = data := by
  apply Array.ext_getElem?
  intro i
  rcases Nat.lt_or_ge i data.size with hi | hi
  · rw [getElem?_region _ h hi, hbytes i hi]
  · rw [Array.getElem?_eq_none hi, Array.getElem?_eq_none]
    rw [region, Array.size_extract]
    omega

theorem region_setRegion (m : Memory) (h : start + data.size ≤ 0x10000) :
    (m.setRegion start data).region start data.size = data := by
  apply region_eq_of_bytes h
  intro i hi
  have hlt : start + i < 0x10000 := by omega
  have haddr := UInt16.toNat_ofNat_of_lt' hlt
  rw [byte_setRegion, haddr, if_neg (by omega), Nat.add_sub_cancel_left, Array.getElem?_eq_getElem hi,
    Option.getD_some]

end Memory

namespace Machine

open Raster (InBlock)

variable {m m' : Machine} {kind kind' : Int32}

theorem planeStart_cases (kind : Int32) : planeStart kind = 0x1000 ∨ planeStart kind = 0x1800 := by
  unfold planeStart
  split
  · exact .inl rfl
  · exact .inr rfl

theorem planeStart_fits (kind : Int32) : planeStart kind + Memory.rasterSize ≤ 0x2000 := by
  have hstart := planeStart_cases kind
  have hsize : Memory.rasterSize = 0x800 := rfl
  omega

theorem size_bits_plane (m : Machine) (kind : Int32) : (m.plane kind).bits.size = Memory.rasterSize := by
  have hfits := planeStart_fits kind
  unfold plane Memory.region
  rw [Array.size_extract, Vector.size_toArray]
  omega

theorem plane_congr (hheader : m'.header = m.header)
    (h : ∀ b : UInt16, 0x1000 ≤ b.toNat → b.toNat < 0x2000 → m'.memory.byte b = m.memory.byte b) (kind : Int32)
    : m'.plane kind = m.plane kind := by
  have hstart := planeStart_cases kind
  have hfits : planeStart kind + Memory.rasterSize ≤ 0x10000 := (planeStart_fits kind).trans (by decide)
  have hsize := size_bits_plane m kind
  have hregion : m'.memory.region (planeStart kind) (m.plane kind).bits.size = (m.plane kind).bits := by
    apply Memory.region_eq_of_bytes (by omega)
    intro i hi
    rw [hsize] at hi
    have hlt : planeStart kind + i < 0x10000 := by omega
    have haddr := UInt16.toNat_ofNat_of_lt' hlt
    have hend := planeStart_fits kind
    rw [h _ (by omega) (by omega)]
    exact Memory.getElem?_region m.memory hfits hi
  rw [hsize] at hregion
  unfold plane
  rw [hheader, hregion]
  rfl

theorem plane_draw (m : Machine) (kind : Int32) {f : Raster → Raster}
    (h : Raster.Redrawn (m.plane kind) (f (m.plane kind))) : (m.draw kind f).plane kind = f (m.plane kind) := by
  have hfits := planeStart_fits kind
  have hsize := h.bits.trans (size_bits_plane m kind)
  have hbits : planeStart kind + (f (m.plane kind)).bits.size ≤ 0x10000 := by omega
  have hregion := m.memory.region_setRegion hbits
  rw [hsize] at hregion
  exact Raster.ext_bits h.width.symm h.height.symm fun i => congrArg (·[i]?) hregion

section Calls

variable {x y w h dst src : Int32}

def ClearOfPlanes (a : UInt16) (len : Nat) : Prop :=
  ∀ i < len, (a + UInt16.ofNat i).toNat < 0x1000 ∨ 0x2000 ≤ (a + UInt16.ofNat i).toNat

theorem ClearOfPlanes.le_sub (h : ClearOfPlanes a len) (hlow : 0x1000 ≤ b.toNat)
    (hhigh : b.toNat < 0x2000) : len ≤ (b - a).toNat := by
  by_contra hlt
  have hbyte := h (b - a).toNat (by omega)
  rw [Memory.add_ofNat_sub] at hbyte
  omega

theorem ClearOfPlanes.lt (h : ClearOfPlanes a len) : len < 0x10000 :=
  (h.le_sub (b := 0x1000) (by decide) (by decide)).trans_lt (UInt16.toNat_lt _)

def blockBytes (m : Machine) (x y w h kind : Int32) : List UInt8 :=
  ((m.plane kind).grab x.toInt y.toInt (extent w) (extent h) 0x10000).toList

theorem length_blockBytes (hsize : Raster.size (extent w) (extent h) ≤ 0x10000) :
    (m.blockBytes x y w h kind).length = Raster.size (extent w) (extent h) := by
  rw [blockBytes, Array.length_toList, Raster.size_grab hsize]

theorem header_invoke (m : Machine) (c : Call) (args : List Int32) : (m.invoke c args).header = m.header := by
  have hspared : SparedByCall (fun m => m.header) c := {}
  exact hspared.dispatch (m.called args) _

theorem memory_invoke_getblock (m : Machine) (x y w h kind dst : Int32) :
    (m.invoke .getblock [x, y, w, h, kind, dst]).memory
      = m.memory.copyIn (m.address dst) (m.blockBytes x y w h kind) := by
  rfl

section

variable (hapart : ClearOfPlanes (m.address dst) (Raster.size (extent w) (extent h)))

include hapart

theorem plane_invoke_getblock
    (k : Int32) : (m.invoke .getblock [x, y, w, h, kind, dst]).plane k = m.plane k := by
  apply plane_congr (header_invoke m _ _)
  intro b hlow hhigh
  have hle := hapart.le_sub hlow hhigh
  have hlength : (m.blockBytes x y w h kind).length = Raster.size (extent w) (extent h) :=
    length_blockBytes hapart.lt.le
  rw [memory_invoke_getblock, Memory.byte_copyIn, List.getElem?_eq_none, Option.getD_none]
  · rw [hlength]
    exact hle
  · rw [hlength]
    exact hapart.lt.le

theorem slice_eq_blockBytes
    (haddress : m'.address src = m.address dst)
    (hbuffer : ∀ i < Raster.size (extent w) (extent h), m'.memory.byte (m.address dst + UInt16.ofNat i)
      = (m.invoke .getblock [x, y, w, h, kind, dst]).memory.byte (m.address dst + UInt16.ofNat i))
    : m'.slice src (min (Raster.size (extent w) (extent h)) 0x10000) = m.blockBytes x y w h kind := by
  have hlength : (m.blockBytes x y w h kind).length = Raster.size (extent w) (extent h) :=
    length_blockBytes hapart.lt.le
  have hlt := hapart.lt
  rw [Nat.min_eq_left hlt.le, slice, haddress, ← hlength]
  apply Memory.slice_eq_of_bytes
  intro i hi
  rw [hbuffer i (hlength ▸ hi), memory_invoke_getblock, Memory.byte_copyIn_of_mem (by omega) hi,
    List.getElem?_eq_getElem hi, List.getD_eq_getElem _ _ hi]

end

theorem plane_writeBlock (m : Machine) (x y w h kind src : Int32) :
    (m.writeBlock x y w h kind src).plane kind
      = (m.plane kind).blit x.toInt y.toInt (extent w) (extent h)
        (m.slice src (min (Raster.size (extent w) (extent h)) 0x10000)).toArray (Mode.ofType kind) := by
  unfold writeBlock
  dsimp only
  exact plane_draw m kind (Raster.redrawn_blit _ _ _ _ _ _ _)

theorem plane_invoke_writeblock (m : Machine) (x y w h kind src : Int32) :
    (m.invoke .writeblock [x, y, w, h, kind, src]).plane kind
      = (m.plane kind).blit x.toInt y.toInt (extent w) (extent h)
        (m.slice src (min (Raster.size (extent w) (extent h)) 0x10000)).toArray (Mode.ofType kind) := by
  have hcall : m.invoke .writeblock [x, y, w, h, kind, src]
      = (m.called [x, y, w, h, kind, src]).writeBlock x y w h kind src := rfl
  rw [hcall]
  exact plane_writeBlock (m.called [x, y, w, h, kind, src]) x y w h kind src

theorem size_le_size_bits_plane {bytes : List UInt8} (hparse : Header.parse bytes = .ok m.header) (kind : Int32) :
    Raster.size (m.plane kind).width (m.plane kind).height ≤ (m.plane kind).bits.size := by
  obtain ⟨hdvd, hfits⟩ := Header.geometry_of_geometryEncodable (Header.geometryEncodable_of_parse hparse)
  rw [size_bits_plane]
  exact (size_of_dvd hdvd _).trans_le hfits

end Calls

/--
A block of the screen that was saved in a buffer beside the planes, wherever the block sticks out of the screen and the
buffer wraps at the top of the memory, is added to the screen when it is drawn from there: a pixel of the block is lit
if it is lit by then or was lit when the block was saved, and no other pixel changes. Where the block was cleared in
between, the screen is back as it was.
-/
theorem writeblock_restores {bytes : List UInt8} (hparse : Header.parse bytes = .ok m.header)
    (x y w h dst src : Int32) (hapart : ClearOfPlanes (m.address dst) (Raster.size (extent w) (extent h)))
    (hheader : m'.header = m.header) (haddress : m'.address src = m.address dst)
    (hbuffer : ∀ i < Raster.size (extent w) (extent h), m'.memory.byte (m.address dst + UInt16.ofNat i)
      = (m.invoke .getblock [x, y, w, h, kind, dst]).memory.byte (m.address dst + UInt16.ofNat i))
    (hplane : planeStart kind' = planeStart kind) (hmode : Mode.ofType kind' = .set)
    : (∀ k, (m.invoke .getblock [x, y, w, h, kind, dst]).plane k = m.plane k)
      ∧ (∀ p, ((m'.invoke .writeblock [x, y, w, h, kind', src]).plane kind).get p
          = if (m.plane kind).contains p = true ∧ InBlock x.toInt y.toInt (extent w) (extent h) p
            then (m'.plane kind).get p || (m.plane kind).get p else (m'.plane kind).get p)
      ∧ ((∀ p, (m'.plane kind).get p
            = if InBlock x.toInt y.toInt (extent w) (extent h) p then false else (m.plane kind).get p) →
          ∀ p, ((m'.invoke .writeblock [x, y, w, h, kind', src]).plane kind).get p = (m.plane kind).get p) := by
  -- both types choose one plane
  have hchosen (m : Machine) : m.plane kind = m.plane kind' := by
    unfold plane
    rw [hplane]
  have hdrawn (p : Point) : ((m'.invoke .writeblock [x, y, w, h, kind', src]).plane kind).get p
      = if (m.plane kind).contains p = true ∧ InBlock x.toInt y.toInt (extent w) (extent h) p
        then (m'.plane kind).get p || (m.plane kind).get p else (m'.plane kind).get p := by
    have hbits := size_le_size_bits_plane (hheader ▸ hparse) kind
    have hblit := Raster.get_blit_grab (r := m.plane kind) (x := x.toInt) (y := y.toInt) hapart.lt.le hbits p
    have hscreen : (m'.plane kind).contains p = (m.plane kind).contains p := by
      unfold plane Raster.contains
      rw [hheader]
    rw [hchosen, plane_invoke_writeblock, hmode, slice_eq_blockBytes hapart haddress hbuffer, ← hchosen]
    rw [hscreen] at hblit
    exact hblit
  refine ⟨plane_invoke_getblock hapart, hdrawn, fun hcleared p => ?_⟩
  rw [hdrawn, hcleared]
  by_cases hblock : InBlock x.toInt y.toInt (extent w) (extent h) p
  · cases hcontains : (m.plane kind).contains p with
    | true => simp [hblock]
    | false => simp [hblock, Raster.get_of_not_contains hcontains]
  · simp [hblock]

section Wiping

variable {bytes : List UInt8} (hparse : Header.parse bytes = .ok m.header) (x0 y0 x1 y1 : Int32)

theorem invoke_block (m : Machine) (x0 y0 x1 y1 kind : Int32) :
    m.invoke .block [x0, y0, x1, y1, kind] = (m.called [x0, y0, x1, y1, kind]).rect x0 y0 x1 y1 true kind := by
  rfl

include hparse

theorem appliedOnce_invoke_block (kind : Int32) :
    Raster.AppliedOnce (m.plane kind) (Mode.ofType kind)
      (Raster.Shape.rect x0.toInt y0.toInt x1.toInt y1.toInt true).Covers
      ((m.invoke .block [x0, y0, x1, y1, kind]).plane kind) := by
  have hplane : ((m.called [x0, y0, x1, y1, kind]).rect x0 y0 x1 y1 true kind).plane kind
      = (m.plane kind).rect x0.toInt y0.toInt x1.toInt y1.toInt true (Mode.ofType kind) :=
    plane_draw (m.called [x0, y0, x1, y1, kind]) kind (Raster.redrawn_draw _ _ _)
  rw [invoke_block, hplane]
  exact Raster.appliedOnce_drawOn (size_le_size_bits_plane hparse kind)
    (.rect x0.toInt y0.toInt x1.toInt y1.toInt true) (Mode.ofType kind)

theorem byte_invoke_block (kind : Int32) (hb : b.toNat < 0x1000 ∨ 0x2000 ≤ b.toNat) :
    (m.invoke .block [x0, y0, x1, y1, kind]).memory.byte b = m.memory.byte b := by
  have hsize : Raster.size m.header.width.toNat m.header.height.toNat ≤ Memory.rasterSize :=
    (size_le_size_bits_plane hparse kind).trans_eq (size_bits_plane m kind)
  have hstart := planeStart_cases kind
  have hfits := planeStart_fits kind
  have hsame : m.memory.SameOutside (planeStart kind) (Raster.size m.header.width.toNat m.header.height.toNat)
      ((m.called [x0, y0, x1, y1, kind]).rect x0 y0 x1 y1 true kind).memory :=
    sameOutside_draw (m := m.called [x0, y0, x1, y1, kind]) fun r => r.redrawn_draw _ _
  rw [invoke_block]
  apply hsame
  omega

end Wiping

def doodle : Machine :=
  ({} : Machine).invoke .block [1, 0, 12, 3, 0x41]

def wipe (m : Machine) : Machine :=
  (m.invoke .getblock [-3, -1, 13, 2, 0x40, 0xFFFE]).invoke .block [-3, -1, 9, 0, 0x40]

theorem address_top (m : Machine) : m.address 0xFFFE = 0xFFFE := by
  rfl

theorem clearOfPlanes_top (m : Machine) : ClearOfPlanes (m.address 0xFFFE) (Raster.size (extent 13) (extent 2)) := by
  rw [address_top]
  unfold ClearOfPlanes
  decide

theorem get_wipe {bytes : List UInt8} (hparse : Header.parse bytes = .ok m.header) (p : Point) :
    (m.wipe.plane 0x40).get p = if InBlock (-3) (-1) 13 2 p then false else (m.plane 0x40).get p := by
  have hkept : (m.invoke .getblock [-3, -1, 13, 2, 0x40, 0xFFFE]).plane 0x40 = m.plane 0x40 :=
    plane_invoke_getblock (clearOfPlanes_top m) 0x40
  have hcleared := appliedOnce_invoke_block (m := m.invoke .getblock [-3, -1, 13, 2, 0x40, 0xFFFE]) hparse
    (-3) (-1) 9 0 0x40
  rw [hkept] at hcleared
  have hcovers : (Raster.Shape.rect (-3) (-1) 9 0 true).Covers p ↔ InBlock (-3) (-1) 13 2 p := by
    rw [Raster.inBlock_iff]
    constructor
    · rintro ⟨⟨hcolumn, hrow⟩, -⟩
      omega
    · rintro ⟨hcolumn, hrow⟩
      exact ⟨⟨by omega, by omega⟩, .inl rfl⟩
  split
  next hp =>
    cases hcontains : (m.plane 0x40).contains p with
    | true => exact hcleared.get_of_mem hcontains (hcovers.mpr hp)
    | false => exact (hcleared.get_of_not_mem (by simp [hcontains])).trans (Raster.get_of_not_contains hcontains)
  next hp => exact hcleared.get_of_not_mem fun hq => hp (hcovers.mp hq.2)

theorem writeblock_restores_doodle :
    (doodle.plane 0x40).get (9, 0) = true ∧ (doodle.wipe.plane 0x40).get (9, 0) = false
      ∧ ∀ p, ((doodle.wipe.invoke .writeblock [-3, -1, 13, 2, 0x41, 0xFFFE]).plane 0x40).get p
        = (doodle.plane 0x40).get p := by
  have hparse : Header.parse (({} : Header).toBytes ++ [0]) = .ok ({} : Header) := by decide
  have hplane : planeStart 0x41 = planeStart 0x40 := by decide
  -- no state has to be evaluated if the machine is any that has this header
  have hround (m : Machine) (hparse : Header.parse (({} : Header).toBytes ++ [0]) = .ok m.header) :
      (m.wipe.plane 0x40).get (9, 0) = false
        ∧ ∀ p, ((m.wipe.invoke .writeblock [-3, -1, 13, 2, 0x41, 0xFFFE]).plane 0x40).get p
          = (m.plane 0x40).get p := by
    have hbuffer : ∀ i < Raster.size (extent 13) (extent 2), m.wipe.memory.byte (m.address 0xFFFE + UInt16.ofNat i)
        = (m.invoke .getblock [-3, -1, 13, 2, 0x40, 0xFFFE]).memory.byte (m.address 0xFFFE + UInt16.ofNat i) := by
      intro i hi
      exact byte_invoke_block (m := m.invoke .getblock [-3, -1, 13, 2, 0x40, 0xFFFE]) hparse (-3) (-1) 9 0 0x40
        (clearOfPlanes_top m i hi)
    have hheader : m.wipe.header = m.header := (header_invoke _ _ _).trans (header_invoke m _ _)
    have haddress : m.wipe.address 0xFFFE = m.address 0xFFFE := (address_top _).trans (address_top m).symm
    have hback := (writeblock_restores hparse (-3) (-1) 13 2 0xFFFE 0xFFFE (clearOfPlanes_top m) hheader haddress
      hbuffer hplane (by decide)).2.2
    exact ⟨get_wipe hparse (9, 0), hback (get_wipe hparse)⟩
  have hdrawn := appliedOnce_invoke_block (m := {}) hparse 1 0 12 3 0x41
  have hlit : (doodle.plane 0x41).get (9, 0) = true :=
    hdrawn.get_of_mem (q := (9, 0)) (by decide) ⟨⟨by decide, by decide⟩, .inl rfl⟩
  refine ⟨?_, hround doodle ?_⟩
  · rw [plane, ← hplane]
    exact hlit
  · have hheader : doodle.header = {} := header_invoke _ _ _
    rw [hheader]
    exact hparse

end Machine
end Handheld
