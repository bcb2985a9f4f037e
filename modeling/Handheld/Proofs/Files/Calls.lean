import Handheld.Files
import Handheld.Proofs.Table

/-!
Calls on a file store, and what each of them does to it.
-/
namespace Handheld.Files

variable {h : UInt8}

inductive Request where
  | «open» (path mode : String)
  | close (h : UInt8)
  | read (h : UInt8) (len : Nat)
  | write (h : UInt8) (bytes : List UInt8)
  | seek (h : UInt8) (offset : Int) (whence : Whence)
  | delete (path : String)
  | insert (path : String) (data : List UInt8)

def perform (fs : Files) : Request → Bool × Files
  | .open path mode => ((fs.open path mode).1.isSome, (fs.open path mode).2)
  | .close h => fs.close h
  | .read h len => ((fs.read h len).1.isSome, (fs.read h len).2)
  | .write h bytes => ((fs.write h bytes).1.isSome, (fs.write h bytes).2)
  | .seek h offset whence => ((fs.seek h offset whence).1.isSome, (fs.seek h offset whence).2)
  | .delete path => fs.delete path
  | .insert path data => (true, fs.insert path data)

def run (fs : Files) (requests : List Request) : Files :=
  requests.foldl (fun fs r => (fs.perform r).2) fs

def setHandle (fs : Files) (h : UInt8) (file : OpenFile) : Files :=
  { fs with handles := Table.insert fs.handles h file }

variable {fs : Files}

theorem get?_insert (path name : String) (data : List UInt8) :
    (fs.insert path data).get? name = if name = path then some data else fs.get? name := by
  apply Table.lookup_insert

theorem lookup_setHandle (h x : UInt8) (file : OpenFile) :
    (fs.setHandle h file).handles.lookup x = if x = h then some file else fs.handles.lookup x := by
  apply Table.lookup_insert

theorem mem_numbers : h ∈ (List.range 255).map (fun n => UInt8.ofNat (n + 1)) ↔ h ≠ 0 := by
  rw [List.mem_map]
  constructor
  · rintro ⟨n, hn, rfl⟩ hzero
    have := congrArg UInt8.toNat hzero
    rw [List.mem_range] at hn
    simp only [UInt8.toNat_ofNat', UInt8.toNat_zero] at this
    omega
  · intro hne
    have hpos : h.toNat ≠ 0 := fun hzero => hne (UInt8.toNat_inj.mp hzero)
    have hlt := h.toNat_lt
    refine ⟨h.toNat - 1, List.mem_range.mpr (by omega), ?_⟩
    rw [Nat.sub_add_cancel (by omega), UInt8.ofNat_toNat]

theorem freeHandle_eq_some (hfree : fs.freeHandle = some h) : h ≠ 0 ∧ fs.handles.lookup h = none := by
  have hmem := List.mem_of_find?_eq_some hfree
  have hnew := List.find?_some hfree
  rw [Bool.not_eq_true', Table.contains_eq_false_iff] at hnew
  exact ⟨mem_numbers.mp hmem, hnew⟩

theorem freeHandle_eq_none_iff : fs.freeHandle = none ↔ ∀ h, h ≠ 0 → ∃ file, fs.handles.lookup h = some file := by
  simp only [freeHandle, List.find?_eq_none, mem_numbers, Bool.not_eq_true', Bool.not_eq_false, Table.contains_iff]

section Opening

variable {path mode : String}

theorem fetch_cases (fs : Files) (path : String) :
    (∃ data, fs.get? path = some data) ∧ fs.fetch path = (true, fs)
      ∨ fs.get? path = none ∧ (∃ disk data, fs.disk = some disk ∧ disk.read (diskPath path) = .ok data
          ∧ fs.fetch path = (true, fs.insert path data))
      ∨ fs.get? path = none ∧ fs.fetch path = (false, fs) := by
  unfold fetch
  cases hhere : Table.contains fs.files path with
  | true => exact .inl ⟨Table.contains_iff.mp hhere, rfl⟩
  | false =>
    have hnone : fs.get? path = none := Table.contains_eq_false_iff.mp hhere
    cases hdisk : fs.disk with
    | none => exact .inr (.inr ⟨hnone, rfl⟩)
    | some disk =>
      cases hread : disk.read (diskPath path) with
      | error e => exact .inr (.inr ⟨hnone, by simp [hread, Except.toOption]⟩)
      | ok data => exact .inr (.inl ⟨hnone, disk, data, rfl, hread, by simp [hread, Except.toOption]⟩)

theorem fetch_of_no_disk (h : fs.disk = none) (path : String) : fs.fetch path = ((fs.get? path).isSome, fs) := by
  obtain ⟨⟨data, hget⟩, heq⟩ | ⟨-, disk, -, hdisk, -⟩ | ⟨hget, heq⟩ := fetch_cases fs path
  · rw [heq, hget, Option.isSome_some]
  · rw [h] at hdisk
    contradiction
  · rw [heq, hget, Option.isSome_none]

theorem handles_fetch (fs : Files) (path : String) : (fs.fetch path).2.handles = fs.handles := by
  obtain ⟨-, heq⟩ | ⟨-, disk, data, -, -, heq⟩ | ⟨-, heq⟩ := fetch_cases fs path <;> rw [heq]
  rfl

theorem get?_fetch (h : (fs.fetch path).1 = true) : ∃ data, (fs.fetch path).2.get? path = some data := by
  obtain ⟨hget, heq⟩ | ⟨-, disk, data, -, -, heq⟩ | ⟨-, heq⟩ := fetch_cases fs path <;> rw [heq] at h ⊢
  · exact hget
  · exact ⟨data, by rw [get?_insert, if_pos rfl]⟩
  · contradiction

theorem freeHandle_fetch (fs : Files) (path : String) : (fs.fetch path).2.freeHandle = fs.freeHandle := by
  simp only [freeHandle, handles_fetch]

def ValidMode (mode : String) : Prop :=
  ∃ c ∈ ['r', 'w', 'a'], mode.toList.head? = some c

theorem modeFlags_of_valid (h : ValidMode mode) : ∃ flags, modeFlags mode = some flags := by
  obtain ⟨c, hc, hhead⟩ := h
  simp only [List.mem_cons, List.not_mem_nil, or_false] at hc
  obtain rfl | rfl | rfl := hc <;> simp [modeFlags, hhead]

theorem modeFlags_writable {readable writable append : Bool} (h : modeFlags mode = some (readable, writable, append))
    (hmode : mode.toList.head? ≠ some 'r') : writable = true := by
  unfold modeFlags at h
  split at h <;> simp_all

variable {readable writable append : Bool}

def lacks (fs : Files) (path mode : String) : Bool :=
  mode.toList.head? == some 'r' && !(fs.fetch path).1

theorem lacks_iff : fs.lacks path mode = true ↔ mode.toList.head? = some 'r' ∧ (fs.fetch path).1 = false := by
  rw [lacks, Bool.and_eq_true, beq_iff_eq, Bool.not_eq_true']

section

variable (hflags : modeFlags mode = some (readable, writable, append))

include hflags

theorem open_of_lacks (hlacks : fs.lacks path mode = true) : fs.open path mode = (none, (fs.fetch path).2) := by
  unfold lacks at hlacks
  simp only [«open», hflags, hlacks, ↓reduceIte]

theorem open_of_full
    (hlacks : fs.lacks path mode = false) (hfull : fs.freeHandle = none) :
    fs.open path mode = (none, (fs.fetch path).2) := by
  rw [← freeHandle_fetch fs path] at hfull
  unfold lacks at hlacks
  simp only [«open», hflags, hlacks, hfull, Bool.false_eq_true, ↓reduceIte]

theorem open_of_free
    (hlacks : fs.lacks path mode = false) (hfree : fs.freeHandle = some h) :
    ∃ file : OpenFile, file.path = path ∧ file.writable = writable ∧ file.append = append
      ∧ fs.open path mode = (some h,
          (if mode.toList.head? == some 'w' || !(fs.fetch path).1 then (fs.fetch path).2.insert path []
            else (fs.fetch path).2).setHandle h file) := by
  rw [← freeHandle_fetch fs path] at hfree
  unfold lacks at hlacks
  simp only [«open», hflags, hlacks, hfree, Bool.false_eq_true, ↓reduceIte]
  refine ⟨_, ?_, ?_, ?_, rfl⟩ <;> rfl

end

theorem open_of_invalid (hflags : modeFlags mode = none) : fs.open path mode = (none, fs) := by
  simp only [«open», hflags]

theorem open_fst {flags : Bool × Bool × Bool} (hflags : modeFlags mode = some flags) :
    (fs.open path mode).1 = if fs.lacks path mode then none else fs.freeHandle := by
  cases hlacks : fs.lacks path mode with
  | true => rw [open_of_lacks hflags hlacks, if_pos rfl]
  | false =>
    rw [if_neg Bool.false_ne_true]
    cases hfree : fs.freeHandle with
    | none => rw [open_of_full hflags hlacks hfree]
    | some h =>
      obtain ⟨file, -, -, -, heq⟩ := open_of_free hflags hlacks hfree
      rw [heq]

theorem open_eq_none_iff (hmode : ValidMode mode) :
    (fs.open path mode).1 = none ↔ fs.freeHandle = none ∨ fs.lacks path mode = true := by
  obtain ⟨flags, hflags⟩ := modeFlags_of_valid hmode
  rw [open_fst hflags]
  cases fs.lacks path mode <;> simp

theorem open_eq_some (hopen : (fs.open path mode).1 = some h) : fs.freeHandle = some h := by
  cases hflags : modeFlags mode with
  | none =>
    rw [open_of_invalid hflags] at hopen
    contradiction
  | some flags =>
    rw [open_fst hflags] at hopen
    split at hopen
    · contradiction
    · exact hopen

end Opening

theorem handles_writeBack (fs : Files) (path : String) : (fs.writeBack path).handles = fs.handles := by
  unfold writeBack
  split <;> rfl

inductive Effect (fs : Files) : Request → Bool → Files → Prop where
  | refused (r : Request) : Effect fs r false fs
  | fetched (path mode : String) : Effect fs (.open path mode) false (fs.fetch path).2
  | opened {path mode : String} {h : UInt8} {file : OpenFile} (hfree : fs.freeHandle = some h)
      (hpath : file.path = path) (hthere : (fs.fetch path).1 = true) :
      Effect fs (.open path mode) true ((fs.fetch path).2.setHandle h file)
  | emptied {path mode : String} {h : UInt8} {file : OpenFile} (hfree : fs.freeHandle = some h)
      (hpath : file.path = path) (hwritable : file.writable = true) :
      Effect fs (.open path mode) true (((fs.fetch path).2.insert path []).setHandle h file)
  | closed {h : UInt8} {file : OpenFile} (hopen : fs.handles.lookup h = some file) (hwritable : file.writable = false) :
      Effect fs (.close h) true { fs with handles := Table.erase fs.handles h }
  | writtenBack {h : UInt8} {file : OpenFile} (hopen : fs.handles.lookup h = some file)
      (hwritable : file.writable = true) :
      Effect fs (.close h) true (writeBack { fs with handles := Table.erase fs.handles h } file.path)
  | advanced {h : UInt8} {file : OpenFile} (len pos : Nat) (hopen : fs.handles.lookup h = some file) :
      Effect fs (.read h len) true (fs.moveTo h file pos)
  | sought {h : UInt8} {file : OpenFile} (offset : Int) (whence : Whence) (pos : Nat)
      (hopen : fs.handles.lookup h = some file) : Effect fs (.seek h offset whence) true (fs.moveTo h file pos)
  | written {h : UInt8} {file : OpenFile} (bytes data : List UInt8) (pos : Nat)
      (hopen : fs.handles.lookup h = some file) (hwritable : file.writable = true) :
      Effect fs (.write h bytes) true ((fs.insert file.path data).moveTo h file pos)
  | deleted {path : String} (hclosed : ∀ h file, fs.handles.lookup h = some file → file.path ≠ path)
      (hdisk : ∀ disk, fs.disk = some disk → ∃ e, disk.remove (diskPath path) = .error e) :
      Effect fs (.delete path) true { fs with files := Table.erase fs.files path }
  | removed {path : String} {disk disk' : Disk} (hclosed : ∀ h file, fs.handles.lookup h = some file → file.path ≠ path)
      (hdisk : fs.disk = some disk) (hremove : disk.remove (diskPath path) = .ok disk') :
      Effect fs (.delete path) true { fs with files := Table.erase fs.files path, disk := some disk' }
  | inserted (path : String) (data : List UInt8) : Effect fs (.insert path data) true (fs.insert path data)

theorem effect_open (fs : Files) (path mode : String) :
    Effect fs (.open path mode) (fs.open path mode).1.isSome (fs.open path mode).2 := by
  cases hflags : modeFlags mode with
  | none =>
    rw [open_of_invalid hflags]
    apply Effect.refused
  | some flags =>
    obtain ⟨readable, writable, append⟩ := flags
    cases hlacks : fs.lacks path mode with
    | true =>
      rw [open_of_lacks hflags hlacks]
      apply Effect.fetched
    | false =>
      cases hfree : fs.freeHandle with
      | none =>
        rw [open_of_full hflags hlacks hfree]
        apply Effect.fetched
      | some h =>
        obtain ⟨file, hpath, hwritable, -, heq⟩ := open_of_free hflags hlacks hfree
        rw [heq]
        split
        · next hempty =>
          -- a file that is emptied or made here is not opened for reading only
          apply Effect.emptied hfree hpath
          rw [hwritable]
          apply modeFlags_writable hflags
          intro hreads
          simp [lacks, hreads] at hlacks hempty
          simp [hlacks] at hempty
        · next hkept =>
          apply Effect.opened hfree hpath
          rw [Bool.or_eq_true, not_or, Bool.not_eq_true', Bool.not_eq_false] at hkept
          exact hkept.2

theorem effect_close (fs : Files) (h : UInt8) : Effect fs (.close h) (fs.close h).1 (fs.close h).2 := by
  unfold close
  cases hopen : fs.handles.lookup h with
  | none => apply Effect.refused
  | some file =>
    dsimp only
    split
    · next hwritable => exact Effect.writtenBack hopen hwritable
    · next hwritable => exact Effect.closed hopen (eq_false_of_ne_true hwritable)

theorem effect_read (fs : Files) (h : UInt8) (len : Nat) :
    Effect fs (.read h len) (fs.read h len).1.isSome (fs.read h len).2 := by
  unfold read
  cases hopen : fs.handles.lookup h with
  | none => apply Effect.refused
  | some file =>
    dsimp only
    split
    · exact Effect.advanced _ _ hopen
    · apply Effect.refused

theorem effect_write (fs : Files) (h : UInt8) (bytes : List UInt8) :
    Effect fs (.write h bytes) (fs.write h bytes).1.isSome (fs.write h bytes).2 := by
  unfold write
  cases hopen : fs.handles.lookup h with
  | none => apply Effect.refused
  | some file =>
    dsimp only
    split
    · next hwritable _ => exact Effect.written _ _ _ hopen hwritable
    · apply Effect.refused

theorem seek_eq {file : OpenFile} (hopen : fs.handles.lookup h = some file) (offset : Int) (whence : Whence) :
    ∃ pos : Int, fs.seek h offset whence
      = if pos < 0 then (none, fs) else (some (UInt32.ofNat pos.toNat), fs.moveTo h file pos.toNat) := by
  simp only [seek, hopen]
  exact ⟨_, rfl⟩

theorem effect_seek (fs : Files) (h : UInt8) (offset : Int) (whence : Whence) :
    Effect fs (.seek h offset whence) (fs.seek h offset whence).1.isSome (fs.seek h offset whence).2 := by
  cases hopen : fs.handles.lookup h with
  | none =>
    simp only [seek, hopen]
    apply Effect.refused
  | some file =>
    obtain ⟨pos, heq⟩ := seek_eq hopen offset whence
    rw [heq]
    split
    · apply Effect.refused
    · exact Effect.sought _ _ _ hopen

theorem effect_erase {path : String} (hclosed : ∀ h file, fs.handles.lookup h = some file → file.path ≠ path)
    (hdisk : ∀ disk, fs.disk = some disk → ∃ e, disk.remove (diskPath path) = .error e) :
    Effect fs (.delete path) (Table.contains fs.files path) { fs with files := Table.erase fs.files path } := by
  cases hhere : Table.contains fs.files path with
  | true => exact Effect.deleted hclosed hdisk
  | false =>
    rw [Table.erase_of_new hhere]
    apply Effect.refused

theorem effect_delete (fs : Files) (path : String) :
    Effect fs (.delete path) (fs.delete path).1 (fs.delete path).2 := by
  unfold delete
  split
  · apply Effect.refused
  · next hany =>
    have hclosed : ∀ h file, fs.handles.lookup h = some file → file.path ≠ path := by
      intro h file hopen hpath
      apply hany
      rw [List.any_eq_true]
      exact ⟨(h, file), Table.mem_of_lookup hopen, by simpa using hpath⟩
    cases hdisk : fs.disk with
    | none =>
      have heffect := effect_erase hclosed (by simp [hdisk])
      rw [hdisk] at heffect
      exact heffect
    | some disk =>
      cases hremove : disk.remove (diskPath path) with
      | error e =>
        have heffect := effect_erase hclosed (by simp [hdisk, hremove])
        simpa [hdisk, hremove, Except.toOption] using heffect
      | ok disk' =>
        have heffect := Effect.removed hclosed hdisk hremove
        simpa [hremove, Except.toOption] using heffect

theorem effect_perform (fs : Files) (r : Request) : Effect fs r (fs.perform r).1 (fs.perform r).2 := by
  cases r with
  | «open» path mode => apply effect_open
  | close h => apply effect_close
  | read h len => apply effect_read
  | write h bytes => apply effect_write
  | seek h offset whence => apply effect_seek
  | delete path => apply effect_delete
  | insert path data => apply Effect.inserted

end Handheld.Files
