import Handheld.Proofs.Grid
import Handheld.Proofs.Image
import Handheld.Proofs.Machine.Reached
import Handheld.Proofs.Raster

/-!
Output stays on the screen: calls that draw change bytes of their raster only, and calls that write text those of the
grid.
-/
namespace Handheld

variable {header : Header} {console : Console} {f : Console → Memory → Console × Memory}

def Call.drawingType? (regs : Vector Int32 8) : Call → Option Int32
  | point | fill => regs[2]?
  | textout => regs[3]?
  | line | rectangle | block | circle | writeblock => regs[4]?
  | box | ellipse => regs[5]?
  | _ => none

def Call.writesText : Call → Bool
  | putchar | printf | locate | setscreen => true
  | _ => false

theorem Call.ofCode?_code (c : Call) : ofCode? c.code = some c := by
  cases c <;> rfl

theorem Call.code_mem_range (c : Call) : firstCode ≤ c.code ∧ c.code ≤ lastCode := by
  cases c <;> decide

namespace Header

theorem width_le_of_geometryEncodable (h : header.geometryEncodable = true) : header.width.toNat ≤ 0xFF0 := by
  simp only [geometryEncodable, Bool.and_eq_true, beq_iff_eq, decide_eq_true_eq, UInt16.le_iff_toNat_le,
    ← UInt16.toNat_inj, UInt16.toNat_mod, UInt16.toNat_div, UInt16.reduceToNat] at h
  omega

theorem geometry_of_geometryEncodable (h : header.geometryEncodable = true) :
    header.width.toNat % 8 = 0 ∧ header.width.toNat * header.height.toNat / 8 ≤ Memory.rasterSize := by
  simp only [geometryEncodable, geometryFits, Bool.and_eq_true, beq_iff_eq, decide_eq_true_eq, ← UInt16.toNat_inj,
    UInt16.toNat_mod, UInt16.reduceToNat] at h
  exact ⟨h.2.1.2, h.2.2⟩

end Header

namespace Machine

variable {m m' : Machine} {c : Call}

structure Screened (m : Machine) : Prop where
  geometry : m.header.geometryEncodable = true
  width : m.console.width = m.header.width.toNat
  height : m.console.height = m.header.height.toNat
  grid : m.console.OnGrid

theorem fits_of_geometry (h : header.geometryEncodable = true)
    (hwidth : console.width = header.width.toNat) : console.Fits := by
  have hle := Header.width_le_of_geometryEncodable h
  intro font
  apply Nat.max_le.mpr
  constructor
  · cases font with
    | large =>
      change console.width / 8 ≤ 0x400
      omega
    | small =>
      change console.width / 6 ≤ 0x400
      omega
  · decide

theorem Screened.congr (h : m.Screened) (hkeeps : (m'.header, m'.console) = (m.header, m.console)) : m'.Screened := by
  simp only [Prod.mk.injEq] at hkeeps
  constructor
  · rw [hkeeps.1]
    exact h.geometry
  · rw [hkeeps.1, hkeeps.2]
    exact h.width
  · rw [hkeeps.1, hkeeps.2]
    exact h.height
  · rw [hkeeps.2]
    exact h.grid

theorem Screened.withConsole (h : m.Screened)
    (hstays : console.Stays m.memory (f m.console m.memory)) (hwidth : console.width = m.console.width)
    (hheight : console.height = m.console.height) : (m.withConsole f).Screened := by
  have hshape := hstays.shape
  simp only [Console.shape, Prod.mk.injEq] at hshape
  exact ⟨h.geometry, (hshape.2.1.trans hwidth).trans h.width, (hshape.2.2.trans hheight).trans h.height, hstays.grid⟩

theorem Screened.dispatch (h : m.Screened) (c : Call) (extra : List Int32) : (m.dispatch c extra).2.Screened := by
  have hfits := h.grid.fits
  cases hc : c.onConsole with
  | false =>
    have hspared : SparedByCall (fun m => (m.header, m.console)) c := { console := fun htrue => by simp [hc] at htrue }
    exact h.congr (hspared.dispatch m extra)
  | true =>
    cases c with
    | putchar =>
      exact h.withConsole (f := fun console memory => console.put memory _) (Console.stays_put h.grid m.memory _) rfl rfl
    | printf =>
      exact h.withConsole (f := fun console memory => console.write memory _) (Console.stays_write h.grid m.memory _)
        rfl rfl
    | setscreen =>
      have hclear (font : FontSize) := Console.stays_clear (c := { m.console with font := font }) hfits m.memory
      exact h.withConsole (f := fun console memory => console.setFont memory _) (hclear _) rfl rfl
    | clearscreen =>
      have hclear := h.withConsole (f := Console.clear) (Console.stays_clear hfits m.memory) rfl rfl
      exact hclear.congr rfl
    | locate => exact ⟨h.geometry, h.width, h.height, Console.onGrid_locate hfits _ _⟩
    | _ => cases hc

theorem Screened.libraryCall (h : m.Screened) (code : UInt8) : (after (libraryCall code m)).Screened := by
  have hcalls := calls_libraryCall m code
  generalize Machine.libraryCall code m = r at hcalls ⊢
  cases hcalls with
  | unknown =>
    have hkeeps : Keeps (fun m => (m.header, m.console)) (push 0) := keeps_onStack (fun _ _ => rfl) _
    exact h.congr (hkeeps.bind (fun _ => keeps_pure _) m)
  | blocked => exact h.congr rfl
  | @short c _ _ _ _ hargs =>
    have hkeeps : Keeps (fun m => (m.header, m.console)) (takeArgs c.signature) := keeps_takeArgs (fun _ _ => rfl) _
    have htake := hkeeps m
    rw [hargs] at htake
    exact h.congr htake
  | @done c args m' _ _ hargs =>
    have hkeeps : Keeps (fun m => (m.header, m.console)) (takeArgs c.signature) := keeps_takeArgs (fun _ _ => rfl) _
    have htake := hkeeps m
    rw [hargs] at htake
    have hcalled : (m'.called args).Screened := h.congr htake
    have hanswer : Keeps (fun m => (m.header, m.console)) (answer c.signature
        ((m'.called args).dispatch c (args.drop c.signature.args)).1) := keeps_answer (fun _ _ => rfl) _ _
    exact (hcalled.dispatch c _).congr (hanswer _)

theorem Screened.step (h : m.Screened) : (after (step m)).Screened := by
  have hsteps := steps_step m
  generalize Machine.step m = r at hsteps ⊢
  cases hsteps with
  | unloaded | halted | overrun | invalid => exact h.congr rfl
  | @op op =>
    have hspared : Spared (fun m => (m.header, m.console)) op := {}
    exact h.congr (hspared.execute m.begun)
  | call => exact Screened.libraryCall (m := m.begun) (h.congr rfl) m.opcodeByte

theorem Reached.screened {guard : Machine → Prop} (h : Reached guard m) : m.Screened := by
  induction h with
  | load hload =>
    obtain ⟨header, hparse, rfl⟩ := load_eq_ok_iff.mp hload
    have hgeometry := Header.geometryEncodable_of_parse hparse
    have hfits : Console.Fits { width := header.width.toNat, height := header.height.toNat } :=
      fits_of_geometry hgeometry rfl
    exact ⟨hgeometry, rfl, rfl, hfits, Console.rows_pos (hfits _), Console.columns_pos _⟩
  | step _ _ ih => exact ih.step
  | outside _ _ _ _ _ _ _ _ ih => exact ⟨ih.geometry, ih.width, ih.height, ih.grid.fits, ih.grid.row, ih.grid.col⟩

structure Confined (m m' : Machine) (c : Call) : Prop where
  drawing : ∀ kind, c.drawingType? m'.regs = some kind →
    m.memory.SameOutside (planeStart kind) (m.header.width.toNat * m.header.height.toNat / 8) m'.memory
  text : c.writesText = true → m.memory.SameOutside 0 m'.console.gridSize m'.memory

theorem confined_of_memory (h : m'.memory = m.memory) : Confined m m' c := by
  constructor
  · intro kind _ a _
    rw [h]
  · intro _ a _
    rw [h]

theorem regs_dispatch (m : Machine) (c : Call) (extra : List Int32) : (m.dispatch c extra).2.regs = m.regs := by
  have hspared : SparedByCall (fun m => m.regs) c := {}
  exact hspared.dispatch m extra

theorem sameOutside_drawing (h : m.Screened) (extra : List Int32) {kind : Int32}
    (hkind : c.drawingType? m.regs = some kind)
    : m.memory.SameOutside (planeStart kind) (m.header.width.toNat * m.header.height.toNat / 8)
      (m.dispatch c extra).2.memory := by
  rw [← size_of_dvd (Header.geometry_of_geometryEncodable h.geometry).1]
  cases c with
  | point =>
    cases hkind
    exact sameOutside_draw (f := fun r => r.plot _ _) fun r => r.redrawn_plot _ _
  | rectangle | block | box | circle | ellipse | fill =>
    cases hkind
    exact sameOutside_draw fun r => r.redrawn_draw _ _
  | writeblock =>
    cases hkind
    exact sameOutside_draw fun r => r.redrawn_blit _ _ _ _ _ _
  | line =>
    cases hkind
    exact sameOutside_draw fun r => r.redrawn_line _ _ _ _ _
  | textout =>
    cases hkind
    exact sameOutside_draw fun r => r.redrawn_drawCodes _ _ _ _ _ _
  | _ => cases hkind

theorem sameOutside_withConsole (hstays : console.Stays m.memory (f m.console m.memory))
    : m.memory.SameOutside 0 (m.withConsole f).console.gridSize (m.withConsole f).memory := by
  have hsize : (m.withConsole f).console.gridSize = console.gridSize := Console.gridSize_congr hstays.shape
  rw [hsize]
  exact hstays.memory

theorem sameOutside_text (h : m.Screened) (extra : List Int32) (hc : c.writesText = true) :
    m.memory.SameOutside 0 (m.dispatch c extra).2.console.gridSize (m.dispatch c extra).2.memory := by
  cases c with
  | putchar =>
    exact sameOutside_withConsole (f := fun console memory => console.put memory _) (Console.stays_put h.grid m.memory _)
  | printf =>
    exact sameOutside_withConsole (f := fun console memory => console.write memory _)
      (Console.stays_write h.grid m.memory _)
  | setscreen =>
    have hclear (font : FontSize) := Console.stays_clear (c := { m.console with font := font }) h.grid.fits m.memory
    exact sameOutside_withConsole (f := fun console memory => console.setFont memory _) (hclear _)
  | locate => exact .refl _ _ m.memory
  | _ => cases hc

theorem confined_dispatch (h : m.Screened) (c : Call) (extra : List Int32) : Confined m (m.dispatch c extra).2 c := by
  constructor
  · intro kind hkind
    rw [regs_dispatch] at hkind
    exact sameOutside_drawing h extra hkind
  · exact sameOutside_text h extra

def invoke (m : Machine) (c : Call) (args : List Int32) : Machine :=
  ((m.called args).dispatch c (args.drop c.signature.args)).2

theorem confined_invoke (h : m.Screened) (c : Call) (args : List Int32) : Confined m (m.invoke c args) c := by
  have hcalled : (m.called args).Screened := h.congr rfl
  have hdispatch := confined_dispatch hcalled c (args.drop c.signature.args)
  exact ⟨hdispatch.drawing, hdispatch.text⟩

theorem confined_step (h : m.Screened) (hlive : m.Live) (hcode : m.opcodeByte = c.code) :
    Confined m (after (step m)) c := by
  have hrange := c.code_mem_range
  rw [step_eq_libraryCall hlive (hcode ▸ hrange.1) (hcode ▸ hrange.2), hcode]
  have hcalls := calls_libraryCall m.begun c.code
  generalize Machine.libraryCall c.code m.begun = r at hcalls ⊢
  cases hcalls with
  | unknown hnone => cases hnone.symm.trans c.ofCode?_code
  | blocked => exact confined_of_memory rfl
  | @short c' _ _ _ _ hargs =>
    have hkeeps : Keeps (fun m => m.memory) (takeArgs c'.signature) := keeps_takeArgs (fun _ _ => rfl) _
    have htake := hkeeps m.begun
    rw [hargs] at htake
    exact confined_of_memory htake
  | @done c' args m' hsome _ hargs =>
    obtain rfl : c = c' := Option.some.inj (c.ofCode?_code.symm.trans hsome)
    have hkeeps : Keeps (fun m => (m.memory, m.header, m.console)) (takeArgs c.signature) :=
      keeps_takeArgs (fun _ _ => rfl) _
    have htake := hkeeps m.begun
    rw [hargs] at htake
    simp only [after, Prod.mk.injEq] at htake
    have hscreened : m'.Screened := h.congr (Prod.ext htake.2.1 htake.2.2)
    have hanswer : Keeps (fun m => (m.memory, m.regs, m.console)) (answer c.signature
        ((m'.called args).dispatch c (args.drop c.signature.args)).1) := keeps_answer (fun _ _ => rfl) _ _
    have hafter := hanswer ((m'.called args).dispatch c (args.drop c.signature.args)).2
    simp only [Prod.mk.injEq] at hafter
    -- neither the arguments nor the result that are moved are part of the memory
    have hmemory : m'.memory = m.memory := htake.1
    have hheader : m'.header = m.header := htake.2.1
    have hinvoke := confined_invoke hscreened c args
    constructor
    · intro kind hkind
      rw [hafter.2.1] at hkind
      have hdrawing := hinvoke.drawing kind hkind
      rw [hmemory, hheader] at hdrawing
      rw [hafter.1]
      exact hdrawing
    · intro hc
      have htext := hinvoke.text hc
      rw [hmemory] at htext
      rw [hafter.1, hafter.2.2]
      exact htext

/--
In every state that an image leads to, the grid of either font fits the text buffer and the raster fits its plane. A call
that draws changes its raster only, a call that writes text changes its grid only: with any arguments, and so in the step
that makes it.
-/
theorem screen_output_confined (h : Reached (fun _ => True) m) :
    (∀ font, 1 ≤ Console.columns { m.console with font := font } ∧ 1 ≤ Console.rows { m.console with font := font }
        ∧ Console.columns { m.console with font := font } * Console.rows { m.console with font := font } ≤ 0x400)
      ∧ m.header.width.toNat * m.header.height.toNat / 8 ≤ Memory.rasterSize
      ∧ (∀ c args, (m.invoke c args).regs = setRegs m.regs args ∧ Confined m (m.invoke c args) c)
      ∧ ∀ c, m.Live → m.opcodeByte = Call.code c → Confined m (after (step m)) c := by
  have hscreened := h.screened
  refine ⟨fun font => ?_, ?_, fun c args => ?_, fun c hlive hcode => ?_⟩
  · have hcolumns := hscreened.grid.fits font
    exact ⟨Console.columns_pos _, Console.rows_pos hcolumns, Console.gridSize_le _⟩
  · exact (Header.geometry_of_geometryEncodable hscreened.geometry).2
  · exact ⟨regs_dispatch _ _ _, confined_invoke hscreened c args⟩
  · exact confined_step hscreened hlive hcode

def sketch : Array UInt8 :=
  (({} : Header).toBytes ++
    [0x01, 1, 0x85, 0x01, 0x41, 0x80, 0x01, 200, 0x01, 3, 0x01, 0x41, Call.point.code]).toArray

theorem screen_output_confined_sketch :
    Confined (ran sketch 1) (ran sketch 2) .setscreen ∧ Confined (ran sketch 3) (ran sketch 4) .putchar
      ∧ (Call.point.drawingType? (ran sketch 8).regs).map planeStart = some 0x1000
      ∧ Confined (ran sketch 7) (ran sketch 8) .point := by
  have hreached (n : Nat) : Reached (fun _ => True) (ran sketch n) := reached_ran rfl n fun _ _ => trivial
  have hcalls (n : Nat) := (screen_output_confined (hreached n)).2.2.2
  obtain ⟨hlive, hsetscreen, hputchar, hpoint, hplane⟩ :
      (∀ n ∈ [1, 3, 7], (ran sketch n).Live) ∧ (ran sketch 1).opcodeByte = Call.setscreen.code
        ∧ (ran sketch 3).opcodeByte = Call.putchar.code ∧ (ran sketch 7).opcodeByte = Call.point.code
        ∧ (Call.point.drawingType? (ran sketch 8).regs).map planeStart = some 0x1000 := by
    decide +kernel
  refine ⟨?_, ?_, hplane, ?_⟩
  · exact hcalls 1 .setscreen (hlive 1 (by decide)) hsetscreen
  · exact hcalls 3 .putchar (hlive 3 (by decide)) hputchar
  · exact hcalls 7 .point (hlive 7 (by decide)) hpoint

end Machine
end Handheld
