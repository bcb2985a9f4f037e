import Handheld.Proofs.Files.Handles

/-!
A handle reads and writes where it stands, and what is done through it changes no other file and moves no other handle.
-/
namespace Handheld.Files

variable {fs fs' : Files} {h : UInt8} {file : OpenFile} {data bytes : List UInt8}

def byteAfter (data : List UInt8) (pos : Nat) (bytes : List UInt8) (i : Nat) : Option UInt8 :=
  if pos ≤ i ∧ i < pos + bytes.length then bytes[i - pos]?
  else if i < data.length then data[i]?
  else if i < pos then some 0
  else none

theorem getElem?_overwrite (data : List UInt8) (pos : Nat) (bytes : List UInt8) (i : Nat) :
    (overwrite data pos bytes)[i]? = byteAfter data pos bytes i := by
  have hfront : pos ≤ (data ++ List.replicate (pos + bytes.length - data.length) (0 : UInt8)).length := by
    rw [List.length_append, List.length_replicate]
    omega
  have hpadded (i : Nat) : (data ++ List.replicate (pos + bytes.length - data.length) (0 : UInt8))[i]?
      = if i < data.length then data[i]? else if i < pos + bytes.length then some 0 else none := by
    rw [List.getElem?_append, List.getElem?_replicate]
    split
    · rfl
    · congr 1
      simp only [eq_iff_iff]
      omega
  unfold byteAfter
  simp only [overwrite]
  rw [List.append_assoc, List.getElem?_append, List.length_take_of_le hfront, List.getElem?_take]
  split
  · next hlt => rw [if_neg (by omega), hpadded, if_pos (show i < pos + bytes.length by omega)]
  · next hge =>
    rw [List.getElem?_append]
    split
    · next hlt => rw [if_pos (by omega)]
    · next hbehind =>
      have hindex : pos + bytes.length + (i - pos - bytes.length) = i := by omega
      rw [if_neg (by omega), List.getElem?_drop, hpadded, hindex, if_neg (show ¬i < pos + bytes.length by omega)]

theorem take_drop_overwrite (data : List UInt8) (pos : Nat) (bytes : List UInt8) :
    ((overwrite data pos bytes).drop pos).take bytes.length = bytes := by
  apply List.ext_getElem?
  intro i
  rw [List.getElem?_take]
  split
  · next hlt => rw [List.getElem?_drop, getElem?_overwrite, byteAfter, if_pos (by omega), Nat.add_sub_cancel_left]
  · next hge => rw [List.getElem?_eq_none (by omega)]

theorem overwrite_end (data bytes : List UInt8) : overwrite data data.length bytes = data ++ bytes := by
  apply List.ext_getElem?
  intro i
  rw [getElem?_overwrite, byteAfter, List.getElem?_append]
  grind

def Appending (fs : Files) : Prop :=
  ∀ h file, fs.handles.lookup h = some file → file.append = true → file.writable = true

theorem Appending.setHandle (ha : Appending fs) (hfile : file.append = true → file.writable = true) :
    Appending (fs.setHandle h file) := by
  intro x other hopen
  rw [lookup_setHandle] at hopen
  split at hopen
  · rwa [← Option.some.inj hopen]
  · exact ha x other hopen

theorem Appending.moveTo (ha : Appending fs) (hopen : fs.handles.lookup h = some file) (pos : Nat) :
    Appending (fs.moveTo h file pos) :=
  ha.setHandle (ha h file hopen)

theorem Appending.erase (ha : Appending fs) (h : UInt8) : Appending { fs with handles := Table.erase fs.handles h } :=
  fun x other hopen => ha x other (Table.lookup_erase_eq_some hopen).2

theorem Appending.fetch (ha : Appending fs) (path : String) : Appending (fs.fetch path).2 := by
  rw [Appending, handles_fetch]
  exact ha

theorem modeFlags_appending {mode : String} {readable writable append : Bool}
    (h : modeFlags mode = some (readable, writable, append)) : append = true → writable = true := by
  unfold modeFlags at h
  split at h <;> simp_all

theorem Appending.open (ha : Appending fs) (path mode : String) : Appending (fs.open path mode).2 := by
  cases hflags : modeFlags mode with
  | none =>
    rw [open_of_invalid hflags]
    exact ha
  | some flags =>
    obtain ⟨readable, writable, append⟩ := flags
    cases hlacks : fs.lacks path mode with
    | true =>
      rw [open_of_lacks hflags hlacks]
      exact ha.fetch path
    | false =>
      cases hfree : fs.freeHandle with
      | none =>
        rw [open_of_full hflags hlacks hfree]
        exact ha.fetch path
      | some h =>
        obtain ⟨file, -, hwritable, happend, heq⟩ := open_of_free hflags hlacks hfree
        have hfile : file.append = true → file.writable = true := by
          rw [hwritable, happend]
          exact modeFlags_appending hflags
        rw [heq]
        split
        · exact setHandle (ha.fetch path) hfile
        · exact (ha.fetch path).setHandle hfile

theorem Appending.effect {r : Request} {ok : Bool} (ha : Appending fs) (he : Effect fs r ok fs')
    (hr : ∀ path mode, r ≠ .open path mode) : Appending fs' := by
  cases he with
  | refused => exact ha
  | fetched | opened | emptied => exact absurd rfl (hr _ _)
  | closed => exact ha.erase _
  | writtenBack =>
    rw [Appending, handles_writeBack]
    exact ha.erase _
  | advanced _ _ hopen | sought _ _ _ hopen => exact ha.moveTo hopen _
  | written _ _ _ hopen => exact moveTo ha hopen _
  | deleted | removed | inserted => exact ha

theorem Appending.run (ha : Appending fs) (requests : List Request) : Appending (fs.run requests) := by
  induction requests generalizing fs with
  | nil => exact ha
  | cons r requests ih =>
    apply ih
    have he := effect_perform fs r
    cases r with
    | «open» path mode => exact ha.open path mode
    | close | read | write | seek | delete | insert => exact ha.effect he (by simp)

section Handles

def position (fs : Files) (h : UInt8) : Option Nat :=
  (fs.handles.lookup h).map OpenFile.pos

def SeeksTo (fs : Files) (h : UInt8) (p : Nat) (fs' : Files) : Prop :=
  ∃ offset whence answer, fs.seek h offset whence = (some answer, fs') ∧ fs'.position h = some p

structure SameBeside (path : String) (h : UInt8) (fs fs' : Files) : Prop where
  contents : ∀ name, name ≠ path → fs'.get? name = fs.get? name
  handles : ∀ x, x ≠ h → fs'.handles.lookup x = fs.handles.lookup x

theorem lookup_moveTo (p : Nat) (x : UInt8) :
    (fs.moveTo h file p).handles.lookup x = if x = h then some { file with pos := p } else fs.handles.lookup x :=
  lookup_setHandle h x _

theorem position_moveTo (p : Nat) : (fs.moveTo h file p).position h = some p := by
  rw [position, lookup_moveTo, if_pos rfl, Option.map_some]

theorem sameBeside_moveTo (path : String) (p : Nat) : SameBeside path h fs (fs.moveTo h file p) where
  contents := fun _ _ => rfl
  handles := fun x hx => by rw [lookup_moveTo, if_neg hx]

theorem sameBeside_insert (path : String) (data : List UInt8) : SameBeside path h fs (fs.insert path data) where
  contents := fun name hname => by rw [get?_insert, if_neg hname]
  handles := fun _ _ => rfl

theorem SameBeside.trans {path : String} {fs'' : Files} (hf : SameBeside path h fs fs')
    (hs : SameBeside path h fs' fs'') : SameBeside path h fs fs'' where
  contents := fun name hname => (hs.contents name hname).trans (hf.contents name hname)
  handles := fun x hx => (hs.handles x hx).trans (hf.handles x hx)

theorem seeksTo_moveTo (hopen : fs.handles.lookup h = some file) (p : Nat) : fs.SeeksTo h p (fs.moveTo h file p) := by
  refine ⟨p, .start, UInt32.ofNat p, ?_, position_moveTo p⟩
  simp [seek, hopen]

theorem SeeksTo.eq {p : Nat} (hs : fs.SeeksTo h p fs') (hopen : fs.handles.lookup h = some file) :
    fs' = fs.moveTo h file p := by
  obtain ⟨offset, whence, answer, heq, hposition⟩ := hs
  obtain ⟨pos, hpos⟩ := seek_eq hopen offset whence
  rw [hpos] at heq
  split at heq
  · cases heq
  · cases heq
    cases (position_moveTo _).symm.trans hposition
    rfl

theorem SeeksTo.spec {p : Nat} (hs : fs.SeeksTo h p fs') (hopen : fs.handles.lookup h = some file) :
    fs'.handles.lookup h = some { file with pos := p } ∧ fs'.get? file.path = fs.get? file.path
      ∧ SameBeside file.path h fs fs' := by
  rw [hs.eq hopen]
  exact ⟨by rw [lookup_moveTo, if_pos rfl], rfl, sameBeside_moveTo _ p⟩

variable (hopen : fs.handles.lookup h = some file) (hdata : fs.get? file.path = some data)
include hopen hdata

theorem write_spec (hwritable : file.writable = true) (bytes : List UInt8) :
    let pos := if file.append then data.length else file.pos
    ∃ fs', fs.write h bytes = (some bytes.length, fs')
      ∧ fs'.handles.lookup h = some { file with pos := pos + bytes.length }
      ∧ fs'.get? file.path = some (overwrite data pos bytes) ∧ SameBeside file.path h fs fs' := by
  intro pos
  have heq : fs.write h bytes = (some bytes.length,
      (fs.insert file.path (overwrite data pos bytes)).moveTo h file (pos + bytes.length)) := by
    simp only [write, hopen, hwritable, hdata, pos]
  refine ⟨_, heq, ?_, ?_, ?_⟩
  · rw [lookup_moveTo, if_pos rfl]
  · exact (get?_insert _ _ _).trans (if_pos rfl)
  · exact (sameBeside_insert _ _).trans (sameBeside_moveTo _ _)

theorem read_at (hreadable : file.readable = true) (len : Nat) :
    fs.read h len
      = (some ((data.drop file.pos).take len),
          fs.moveTo h file (min file.pos data.length + ((data.drop file.pos).take len).length)) := by
  have hdrop : data.drop (min file.pos data.length) = data.drop file.pos := by
    rcases Nat.le_total file.pos data.length with hle | hle
    · rw [Nat.min_eq_left hle]
    · rw [Nat.min_eq_right hle, List.drop_length, List.drop_eq_nil_of_le hle]
  simp only [read, hopen, hreadable, hdata, hdrop]

end Handles

structure Positional (fs : Files) (h : UInt8) (file : OpenFile) (data : List UInt8) : Prop where
  seeks : ∀ p, ∃ fs', fs.SeeksTo h p fs'
  unmoved : ∀ p fs', fs.SeeksTo h p fs' → fs'.get? file.path = some data ∧ SameBeside file.path h fs fs'
  writes : file.writable = true → file.append = false → ∀ p fs1 bytes, fs.SeeksTo h p fs1 →
    ∃ fs2 data', fs1.write h bytes = (some bytes.length, fs2) ∧ fs2.get? file.path = some data'
      ∧ (∀ i, data'[i]? = byteAfter data p bytes i)
      ∧ SameBeside file.path h fs fs2
      ∧ (file.readable = true → ∀ fs3, fs2.SeeksTo h p fs3 → (fs3.read h bytes.length).1 = some bytes)
  appends : file.append = true → ∀ bytes, ∃ fs', fs.write h bytes = (some bytes.length, fs')
    ∧ fs'.get? file.path = some (data ++ bytes) ∧ SameBeside file.path h fs fs'
  reads : file.readable = true → ∀ len, ∃ bytes fs', fs.read h len = (some bytes, fs')
    ∧ bytes = (data.drop file.pos).take len
    ∧ fs'.position h = some (if file.pos ≤ data.length then file.pos + bytes.length else data.length)
    ∧ fs'.get? file.path = some data ∧ SameBeside file.path h fs fs'

theorem positional (hopen : fs.handles.lookup h = some file) (hdata : fs.get? file.path = some data)
    (happending : file.append = true → file.writable = true) : Positional fs h file data where
  seeks := fun p => ⟨_, seeksTo_moveTo hopen p⟩
  unmoved := by
    intro p fs' hseek
    obtain ⟨-, hget, hbeside⟩ := hseek.spec hopen
    exact ⟨hget.trans hdata, hbeside⟩
  writes := by
    intro hwritable happend p fs1 bytes hseek
    obtain ⟨hopen1, hget1, hbeside1⟩ := hseek.spec hopen
    obtain ⟨fs2, hwrite, hopen2, hdata2, hbeside2⟩ := write_spec hopen1 (hget1.trans hdata) hwritable bytes
    simp only [happend, Bool.false_eq_true, ↓reduceIte] at hopen2 hdata2
    refine ⟨fs2, _, hwrite, hdata2, getElem?_overwrite data p bytes, hbeside1.trans hbeside2, ?_⟩
    intro hreadable fs3 hagain
    obtain ⟨hopen3, hget3, -⟩ := hagain.spec hopen2
    rw [read_at hopen3 (hget3.trans hdata2) hreadable]
    exact congrArg some (take_drop_overwrite data p bytes)
  appends := by
    intro happend bytes
    obtain ⟨fs', hwrite, -, hdata', hbeside⟩ := write_spec hopen hdata (happending happend) bytes
    rw [happend, if_pos rfl, overwrite_end] at hdata'
    exact ⟨fs', hwrite, hdata', hbeside⟩
  reads := by
    intro hreadable len
    refine ⟨_, _, read_at hopen hdata hreadable len, rfl, ?_, hdata, sameBeside_moveTo _ _⟩
    rw [position_moveTo]
    split
    · next hle => rw [Nat.min_eq_left hle]
    · next hlt =>
      rw [Nat.min_eq_right (by omega), List.drop_eq_nil_of_le (by omega), List.take_nil, List.length_nil, Nat.add_zero]

/-- After any calls on a store in memory, every open handle reads and writes at its position. -/
theorem positional_run (requests : List Request) {h : UInt8} {file : OpenFile}
    (hopen : (run {} requests).handles.lookup h = some file) :
    ∃ data, (run {} requests).get? file.path = some data ∧ Positional (run {} requests) h file data := by
  obtain ⟨data, hdata⟩ := ((stored_empty none).run requests).present h file hopen
  have hempty : Appending {} := by
    intro x other hlookup
    contradiction
  exact ⟨data, hdata, positional hopen hdata (hempty.run requests h file hopen)⟩

def gapped : List Request :=
  [.open "a" "w+", .write 1 [7, 8], .open "a" "a", .seek 1 4 .start]

theorem positional_run_gapped :
    (run {} gapped).position 1 = some 4
      ∧ ∃ file data, (run {} gapped).handles.lookup 1 = some file ∧ Positional (run {} gapped) 1 file data := by
  refine ⟨by decide +kernel, { path := "a", pos := 4, readable := true, writable := true, append := false }, ?_⟩
  have hopen : (run {} gapped).handles.lookup 1
      = some { path := "a", pos := 4, readable := true, writable := true, append := false } := by decide +kernel
  obtain ⟨data, -, hpositional⟩ := positional_run gapped hopen
  exact ⟨data, hopen, hpositional⟩

/-- A read that returns nothing can move its handle. -/
theorem read_behind_end :
    (run {} gapped).position 1 = some 4 ∧ ((run {} gapped).read 1 1).1 = some []
      ∧ ((run {} gapped).read 1 1).2.position 1 ≠ some 4 := by
  decide +kernel

end Handheld.Files
