import Handheld.Proofs.Files.Calls

/-!
Calls on a file store, in any order. A file stays as long as a handle is open on it; a call that is refused changes
nothing.
-/
namespace Handheld.Files

variable {h : UInt8} {file : OpenFile} {r : Request} {ok : Bool} {fs' : Files}

variable {fs : Files}

structure Stored (fs : Files) : Prop where
  numbered : ∀ h file, fs.handles.lookup h = some file → h ≠ 0
  present : ∀ h file, fs.handles.lookup h = some file → ∃ data, fs.get? file.path = some data

namespace Stored

section

variable (hs : Stored fs)

include hs

theorem of_disk (disk : Option Disk) : Stored { fs with disk := disk } :=
  ⟨hs.numbered, hs.present⟩

theorem insert (path : String) (data : List UInt8) : Stored (fs.insert path data) where
  numbered := hs.numbered
  present := by
    intro h file hopen
    rw [get?_insert]
    split
    · exact ⟨data, rfl⟩
    · exact hs.present h file hopen

theorem setHandle (hne : h ≠ 0) (hdata : ∃ data, fs.get? file.path = some data) : Stored (fs.setHandle h file) := by
  constructor
  all_goals
    intro x other hopen
    rw [lookup_setHandle] at hopen
    split at hopen
  · next heq => rwa [heq]
  · exact hs.numbered x other hopen
  · rwa [← Option.some.inj hopen]
  · exact hs.present x other hopen

theorem moveTo (hopen : fs.handles.lookup h = some file) (pos : Nat) : Stored (fs.moveTo h file pos) := by
  apply hs.setHandle (hs.numbered h file hopen)
  exact hs.present h file hopen

theorem fetch (path : String) : Stored (fs.fetch path).2 := by
  obtain ⟨-, heq⟩ | ⟨-, disk, data, -, -, heq⟩ | ⟨-, heq⟩ := fetch_cases fs path <;> rw [heq]
  · exact hs
  · apply hs.insert
  · exact hs

theorem erase_handle (h : UInt8) : Stored { fs with handles := Table.erase fs.handles h } where
  numbered := fun x file hopen => hs.numbered x file (Table.lookup_erase_eq_some hopen).2
  present := fun x file hopen => hs.present x file (Table.lookup_erase_eq_some hopen).2

theorem erase_file {path : String} (hclosed : ∀ h file, fs.handles.lookup h = some file → file.path ≠ path) :
    Stored { fs with files := Table.erase fs.files path } where
  numbered := hs.numbered
  present := by
    intro h file hopen
    obtain ⟨data, hdata⟩ := hs.present h file hopen
    refine ⟨data, ?_⟩
    rw [get?, Table.lookup_erase, if_neg (hclosed h file hopen)]
    exact hdata

theorem writeBack (path : String) : Stored (fs.writeBack path) := by
  unfold Files.writeBack
  split
  · apply hs.of_disk
  · exact hs

theorem effect (he : Effect fs r ok fs') : Stored fs' := by
  cases he with
  | refused => exact hs
  | fetched => apply hs.fetch
  | opened hfree hpath hthere =>
    apply (hs.fetch _).setHandle (freeHandle_eq_some hfree).1
    rw [hpath]
    exact get?_fetch hthere
  | emptied hfree hpath =>
    apply ((hs.fetch _).insert _ _).setHandle (freeHandle_eq_some hfree).1
    exact ⟨[], by rw [get?_insert, if_pos hpath]⟩
  | closed => apply hs.erase_handle
  | writtenBack => exact (hs.erase_handle _).writeBack _
  | advanced _ _ hopen | sought _ _ _ hopen => exact hs.moveTo hopen _
  | written _ _ _ hopen => exact (hs.insert _ _).moveTo hopen _
  | deleted hclosed => exact hs.erase_file hclosed
  | removed hclosed => exact (hs.erase_file hclosed).of_disk _
  | inserted => apply hs.insert

theorem run (requests : List Request) : Stored (fs.run requests) := by
  induction requests generalizing fs with
  | nil => exact hs
  | cons r requests ih =>
    apply ih
    exact hs.effect (effect_perform fs r)

end

end Stored

theorem Effect.disk_eq_none (he : Effect fs r ok fs') (h : fs.disk = none) : fs'.disk = none := by
  cases he with
  | fetched | opened | emptied =>
    rw [fetch_of_no_disk h]
    exact h
  | writtenBack => simp [writeBack, h]
  | removed _ hdisk =>
    rw [h] at hdisk
    contradiction
  | refused => exact h
  | closed => exact h
  | advanced => exact h
  | sought => exact h
  | written => exact h
  | deleted => exact h
  | inserted => exact h

theorem disk_run (requests : List Request) (h : fs.disk = none) : (fs.run requests).disk = none := by
  induction requests generalizing fs with
  | nil => exact h
  | cons r requests ih =>
    apply ih
    exact (effect_perform fs r).disk_eq_none h

-- only bringing in a file can change the store without an answer, and that takes a disk
theorem Effect.eq_of_refused (he : Effect fs r false fs') (h : fs.disk = none) : fs' = fs := by
  cases he with
  | refused => rfl
  | fetched => rw [fetch_of_no_disk h]

structure Sound (fs : Files) : Prop where
  numbered : ∀ h file, fs.handles.lookup h = some file → 1 ≤ h ∧ h ≤ 255
  fresh : ∀ path mode h, (fs.open path mode).1 = some h → 1 ≤ h ∧ fs.handles.lookup h = none
  opens : ∀ path mode, ValidMode mode →
    ((fs.open path mode).1 = none
      ↔ (∀ h, 1 ≤ h → h ≤ 255 → ∃ file, fs.handles.lookup h = some file)
        ∨ mode.toList.head? = some 'r' ∧ fs.get? path = none)
  present : ∀ h file, fs.handles.lookup h = some file → ∃ data, fs.get? file.path = some data
  reads : ∀ h file len, fs.handles.lookup h = some file → file.readable = true →
    ∃ bytes, (fs.read h len).1 = some bytes
  writes : ∀ h file bytes, fs.handles.lookup h = some file → file.writable = true →
    (fs.write h bytes).1 = some bytes.length
  unchanged : ∀ r, (fs.perform r).1 = false → (fs.perform r).2 = fs

theorem one_le_iff : 1 ≤ h ↔ h ≠ 0 := by
  rw [UInt8.le_iff_toNat_le, ne_eq, ← UInt8.toNat_inj]
  simp only [UInt8.toNat_one, UInt8.toNat_zero]
  omega

theorem le_max (h : UInt8) : h ≤ 255 := by
  rw [UInt8.le_iff_toNat_le]
  have := h.toNat_lt
  simp only [UInt8.reduceToNat]
  omega

theorem Stored.sound (hs : Stored fs) (hdisk : fs.disk = none) : Sound fs where
  numbered := by
    intro h file hopen
    exact ⟨one_le_iff.mpr (hs.numbered h file hopen), le_max h⟩
  fresh := by
    intro path mode h hopen
    have hfree := freeHandle_eq_some (open_eq_some hopen)
    exact ⟨one_le_iff.mpr hfree.1, hfree.2⟩
  opens := by
    intro path mode hmode
    rw [open_eq_none_iff hmode, freeHandle_eq_none_iff, lacks_iff, fetch_of_no_disk hdisk,
      Option.isSome_eq_false_iff, Option.isNone_iff_eq_none]
    simp only [one_le_iff, le_max, true_imp_iff]
  present := hs.present
  reads := by
    intro h file len hopen hreadable
    obtain ⟨data, hdata⟩ := hs.present h file hopen
    simp [read, hopen, hreadable, hdata]
  writes := by
    intro h file bytes hopen hwritable
    obtain ⟨data, hdata⟩ := hs.present h file hopen
    simp [write, hopen, hwritable, hdata]
  unchanged := by
    intro r hrefused
    have he := effect_perform fs r
    rw [hrefused] at he
    exact he.eq_of_refused hdisk

theorem stored_empty (disk : Option Disk) : Stored { disk := disk } := by
  constructor <;> intro h file hopen <;> contradiction

theorem sound_run (requests : List Request) : Sound (run {} requests) := by
  apply Stored.sound
  · exact (stored_empty none).run requests
  · exact disk_run requests rfl

def shared : List Request :=
  [.open "a" "w+", .write 1 [7, 8, 9], .open "a" "w", .delete "a", .read 2 1]

theorem sound_run_shared :
    (run {} shared).get? "a" = some [] ∧ ((run {} shared).handles.lookup 1).map (·.pos) = some 3
      ∧ Sound (run {} shared) :=
  ⟨by decide +kernel, by decide +kernel, sound_run shared⟩

end Handheld.Files
