import Handheld.Proofs.Files.Handles

/-!
A file store over a directory holds what lies in the directory, unless a handle that can write is open on the file.
-/
namespace Handheld

namespace Disk

structure Takes (d : Disk) (name : String) : Prop where
  nonempty : name ≠ ""
  noSlash : '/' ∉ name.toList
  notHere : name ≠ "."
  notAbove : name ≠ ".."
  writes : ∀ data, ∃ d', d.write name data = .ok d'

def held (d : Disk) (name : String) : Option (List UInt8) :=
  d.files.lookup (d.root ++ [name])

section Names

variable {d d' : Disk} {name : String}

theorem names_of_noSlash (h : '/' ∉ name.toList) : names name = [name] := by
  rw [names, List.splitOn_eq_singleton h, List.map_singleton, String.ofList_toList]

theorem isHere_eq_false (hempty : name ≠ "") (hhere : name ≠ ".") : isHere name = false := by
  rw [isHere, Bool.or_eq_false_iff, String.isEmpty_eq_false_iff, beq_eq_false_iff_ne]
  exact ⟨hempty, hhere⟩

theorem isDirectory_below (d : Disk) (name : String) : d.isDirectory (d.root ++ [name]) = false := by
  rw [isDirectory, ← Bool.not_eq_true, List.isPrefixOf_iff_prefix]
  intro hprefix
  have hlen := hprefix.length_le
  rw [List.length_append, List.length_singleton] at hlen
  omega

theorem resolve_name (d : Disk) (hempty : name ≠ "") (hslash : '/' ∉ name.toList) (hhere : name ≠ ".")
    (habove : name ≠ "..") :
    d.resolve name
      = if name.toList.contains '\x00' then .error .zeroInName
        else if nameLimit < name.utf8ByteSize then .error .nameTooLong
        else .ok (d.root ++ [name]) := by
  have hfront : (name.toList.head? == some '/') = false := by
    rw [beq_eq_false_iff_ne]
    exact fun hhead => hslash (List.mem_of_mem_head? hhead)
  have hsome : name.isEmpty = false := by rwa [String.isEmpty_eq_false_iff]
  have habove' : (name == "..") = false := by rwa [beq_eq_false_iff_ne]
  simp only [resolve, follow, names_of_noSlash hslash, hfront, hsome, isHere_eq_false hempty hhere, habove',
    isDirectory_below, Bool.false_eq_true, ↓reduceIte, List.isEmpty_nil]
  -- a name that is too long for a path is too long for a name
  have hlimits : nameLimit < pathLimit := by decide
  split
  · rfl
  · split
    · rw [if_pos (by omega)]
    · rfl

theorem takes_iff (d : Disk) (name : String) :
    d.Takes name
      ↔ name ≠ "" ∧ '/' ∉ name.toList ∧ name ≠ "." ∧ name ≠ ".."
        ∧ name.toList.contains '\x00' = false ∧ name.utf8ByteSize ≤ nameLimit := by
  constructor
  · intro h
    refine ⟨h.nonempty, h.noSlash, h.notHere, h.notAbove, ?_⟩
    obtain ⟨d', hwrite⟩ := h.writes []
    simp only [write, resolve_name d h.nonempty h.noSlash h.notHere h.notAbove] at hwrite
    split at hwrite
    · contradiction
    · next hzero =>
      split at hwrite
      · contradiction
      · next hlong => exact ⟨eq_false_of_ne_true hzero, Nat.le_of_not_lt hlong⟩
  · rintro ⟨hempty, hslash, hhere, habove, hzero, hshort⟩
    refine ⟨hempty, hslash, hhere, habove, fun data => ?_⟩
    simp only [write, resolve_name d hempty hslash hhere habove, hzero, Nat.not_lt.mpr hshort, Bool.false_eq_true,
      ↓reduceIte]
    exact ⟨_, rfl⟩

theorem Takes.resolve_eq (h : d.Takes name) (hroot : d'.root = d.root) : d'.resolve name = .ok (d.root ++ [name]) := by
  obtain ⟨hempty, hslash, hhere, habove, hzero, hshort⟩ := (takes_iff d name).mp h
  simp only [resolve_name d' hempty hslash hhere habove, hzero, Nat.not_lt.mpr hshort, Bool.false_eq_true, ↓reduceIte,
    hroot]

theorem Takes.read_eq_ok (h : d.Takes name) (hroot : d'.root = d.root) {data : List UInt8}
    (hread : d'.read name = .ok data) : d'.held name = some data := by
  rw [held, hroot]
  simp only [read, h.resolve_eq hroot, bind, Except.bind] at hread
  split at hread
  · next found hfound =>
    rw [hfound]
    exact congrArg some (Except.ok.inj hread)
  · contradiction

theorem Takes.write_eq (h : d.Takes name) (hroot : d'.root = d.root) (data : List UInt8) :
    d'.write name data = .ok { d' with files := Table.insert d'.files (d.root ++ [name]) data } := by
  simp only [write, h.resolve_eq hroot, bind, Except.bind]
  rfl

theorem Takes.remove_eq (h : d.Takes name) (hroot : d'.root = d.root) :
    d'.remove name
      = if Table.contains d'.files (d.root ++ [name])
        then .ok { d' with files := Table.erase d'.files (d.root ++ [name]) }
        else .error .missing := by
  simp only [remove, h.resolve_eq hroot, bind, Except.bind]
  rfl

theorem below_inj {root : List String} {x y : String} : root ++ [x] = root ++ [y] ↔ x = y := by
  rw [List.append_cancel_left_eq, List.singleton_inj]

end Names

end Disk

namespace Files

theorem diskPath_eq {path : String} (h : '/' ∉ path.toList) : diskPath path = path := by
  have hkeep : path.toList.dropWhile (· == '/') = path.toList := by
    cases hlist : path.toList with
    | nil => rfl
    | cons c cs =>
      rw [hlist, List.mem_cons, not_or] at h
      exact List.dropWhile_cons_of_neg (by simpa using Ne.symm h.1)
  rw [diskPath, hkeep, String.ofList_toList]

def Request.touches : Request → Bool → List String
  | .open path _, true => [path]
  | .delete path, true => [path]
  | _, _ => []

def touched (fs : Files) : List Request → List String
  | [] => []
  | r :: requests => r.touches (fs.perform r).1 ++ (fs.perform r).2.touched requests

def Request.Plain (d : Disk) : Request → Prop
  | .open path _ => d.Takes path
  | .delete path => d.Takes path
  | .insert _ _ => False
  | _ => True

def BeingWritten (fs : Files) (name : String) : Prop :=
  ∃ h file, fs.handles.lookup h = some file ∧ file.path = name ∧ file.writable = true

structure Backed (d d' : Disk) (names : List String) (fs : Files) : Prop where
  disk : fs.disk = some d'
  root : d'.root = d.root
  takes : ∀ name data, fs.get? name = some data → d.Takes name
  current : ∀ name data, fs.get? name = some data → fs.BeingWritten name ∨ d'.held name = some data
  opened : ∀ h file, fs.handles.lookup h = some file → file.path ∈ names
  elsewhere : ∀ place, (∀ name ∈ names, place ≠ d.root ++ [name]) → d'.files.lookup place = d.files.lookup place

variable {d d' : Disk} {fs : Files} {names : List String} {path name : String} {data found : List UInt8}
  {h : UInt8} {file : OpenFile}

theorem writeBack_eq (htakes : d.Takes path) (hroot : d'.root = d.root) (hdisk : fs.disk = some d')
    (hget : fs.get? path = some data) :
    fs.writeBack path
      = { fs with disk := some { d' with files := Table.insert d'.files (d.root ++ [path]) data } } := by
  simp only [writeBack, hdisk, hget, diskPath_eq htakes.noSlash, htakes.write_eq hroot, Except.toOption,
    Option.getD_some]

def Continues (fs : Files) (h : UInt8) (file : OpenFile) : Prop :=
  ∀ old, fs.handles.lookup h = some old → old.path = file.path ∧ old.writable = file.writable

theorem continues_of_free (hfree : fs.freeHandle = some h) (file : OpenFile) : fs.Continues h file := by
  intro old hold
  rw [(freeHandle_eq_some hfree).2] at hold
  contradiction

theorem continues_of_open (hopen : fs.handles.lookup h = some file) (pos : Nat) :
    fs.Continues h { file with pos := pos } := by
  intro old hold
  rw [Option.some.inj (hold.symm.trans hopen)]
  exact ⟨rfl, rfl⟩

namespace BeingWritten

theorem setHandle (hw : fs.BeingWritten name) (hsame : fs.Continues h file) :
    (fs.setHandle h file).BeingWritten name := by
  obtain ⟨x, other, hopen, hpath, hwritable⟩ := hw
  by_cases heq : x = h
  · rw [heq] at hopen
    have hold := hsame other hopen
    exact ⟨h, file, by rw [lookup_setHandle, if_pos rfl], hold.1.symm.trans hpath, hold.2.symm.trans hwritable⟩
  · exact ⟨x, other, by rw [lookup_setHandle, if_neg heq, hopen], hpath, hwritable⟩

theorem erase_handle (hw : fs.BeingWritten name) (hopen : fs.handles.lookup h = some file)
    (hother : file.path ≠ name ∨ file.writable = false) :
    { fs with handles := Table.erase fs.handles h }.BeingWritten name := by
  obtain ⟨x, other, hopen', hpath, hwritable⟩ := hw
  have hne : x ≠ h := by
    rintro rfl
    rw [hopen] at hopen'
    simp_all
  exact ⟨x, other, by rw [Table.lookup_erase, if_neg hne, hopen'], hpath, hwritable⟩

end BeingWritten

namespace Backed

section

variable (hb : Backed d d' names fs)

include hb

theorem mono (more : List String) : Backed d d' (names ++ more) fs where
  disk := hb.disk
  root := hb.root
  takes := hb.takes
  current := hb.current
  opened := fun h file hopen => List.mem_append_left _ (hb.opened h file hopen)
  elsewhere := fun place hplace => hb.elsewhere place fun name hname => hplace name (List.mem_append_left _ hname)

theorem takes_insert (htakes : d.Takes path) (hget : (fs.insert path data).get? name = some found) : d.Takes name := by
  rw [get?_insert] at hget
  split at hget
  · next hname => rwa [hname]
  · exact hb.takes name found hget

theorem fetch (htakes : d.Takes path) : Backed d d' names (fs.fetch path).2 := by
  obtain ⟨-, heq⟩ | ⟨-, disk, data, hdisk, hread, heq⟩ | ⟨-, heq⟩ := fetch_cases fs path <;> rw [heq]
  · exact hb
  · obtain rfl : d' = disk := Option.some.inj (hb.disk.symm.trans hdisk)
    rw [diskPath_eq htakes.noSlash] at hread
    refine ⟨hb.disk, hb.root, fun name found hget => hb.takes_insert htakes hget, ?_, hb.opened, hb.elsewhere⟩
    intro name found hget
    rw [get?_insert] at hget
    split at hget
    · next hname =>
      right
      rw [hname, ← Option.some.inj hget]
      exact htakes.read_eq_ok hb.root hread
    · exact hb.current name found hget
  · exact hb

theorem setHandle (hsame : fs.Continues h file) (hpath : file.path ∈ names) :
    Backed d d' names (fs.setHandle h file) where
  disk := hb.disk
  root := hb.root
  takes := hb.takes
  current := by
    intro name data hget
    apply (hb.current name data hget).imp_left
    intro hw
    exact hw.setHandle hsame
  opened := by
    intro x other hopen
    rw [lookup_setHandle] at hopen
    split at hopen
    · rwa [← Option.some.inj hopen]
    · exact hb.opened x other hopen
  elsewhere := hb.elsewhere

theorem overwrite (hsame : fs.Continues h file) (hpath : file.path = path)
    (hmem : path ∈ names) (htakes : d.Takes path) (hwritable : file.writable = true) (data : List UInt8) :
    Backed d d' names ((fs.insert path data).setHandle h file) := by
  have hset := hb.setHandle hsame (hpath ▸ hmem)
  refine ⟨hset.disk, hset.root, fun name found hget => hb.takes_insert htakes hget, ?_, hset.opened, hset.elsewhere⟩
  intro name found hget
  change (fs.insert path data).get? name = some found at hget
  rw [get?_insert] at hget
  split at hget
  · next hname => exact .inl ⟨h, file, by rw [lookup_setHandle, if_pos rfl], hpath.trans hname.symm, hwritable⟩
  · exact hset.current name found hget

theorem moveTo (hopen : fs.handles.lookup h = some file) (pos : Nat) : Backed d d' names (fs.moveTo h file pos) := by
  apply hb.setHandle (continues_of_open hopen pos)
  exact hb.opened h file hopen

theorem write (hs : Stored fs) (hopen : fs.handles.lookup h = some file)
    (hwritable : file.writable = true) (data : List UInt8) (pos : Nat) :
    Backed d d' names ((fs.insert file.path data).moveTo h file pos) := by
  obtain ⟨old, hold⟩ := hs.present h file hopen
  apply hb.overwrite (continues_of_open hopen pos) rfl
  · exact hb.opened h file hopen
  · exact hb.takes file.path old hold
  · exact hwritable

theorem close (hopen : fs.handles.lookup h = some file) (hwritable : file.writable = false) :
    Backed d d' names { fs with handles := Table.erase fs.handles h } where
  disk := hb.disk
  root := hb.root
  takes := hb.takes
  current := by
    intro name data hget
    apply (hb.current name data hget).imp_left
    intro hw
    exact hw.erase_handle hopen (.inr hwritable)
  opened := fun x other hopen' => hb.opened x other (Table.lookup_erase_eq_some hopen').2
  elsewhere := hb.elsewhere

theorem writeBack (hs : Stored fs) (hopen : fs.handles.lookup h = some file) :
    ∃ d'', Backed d d'' names (writeBack { fs with handles := Table.erase fs.handles h } file.path) := by
  obtain ⟨data, hdata⟩ := hs.present h file hopen
  have htakes := hb.takes file.path data hdata
  have heq : Files.writeBack { fs with handles := Table.erase fs.handles h } file.path = _ :=
    writeBack_eq htakes hb.root hb.disk hdata
  rw [heq]
  refine ⟨_, rfl, hb.root, hb.takes, ?_, ?_, ?_⟩
  · intro name found hget
    rw [Disk.held, hb.root, Table.lookup_insert]
    by_cases hname : name = file.path
    · right
      rw [if_pos (Disk.below_inj.mpr hname), ← hget, hname]
      exact hdata.symm
    · rw [if_neg (mt Disk.below_inj.mp hname), ← hb.root]
      apply (hb.current name found hget).imp_left
      intro hw
      exact hw.erase_handle hopen (.inl (Ne.symm hname))
  · intro x other hopen'
    exact hb.opened x other (Table.lookup_erase_eq_some hopen').2
  · intro place hplace
    rw [Table.lookup_insert, if_neg (hplace file.path (hb.opened h file hopen))]
    exact hb.elsewhere place hplace

theorem delete (path : String) :
    Backed d d' names { fs with files := Table.erase fs.files path } where
  disk := hb.disk
  root := hb.root
  takes := fun name data hget => hb.takes name data (Table.lookup_erase_eq_some hget).2
  current := fun name data hget => hb.current name data (Table.lookup_erase_eq_some hget).2
  opened := hb.opened
  elsewhere := hb.elsewhere

theorem remove {disk : Disk} (htakes : d.Takes path) (hremove : d'.remove path = .ok disk) :
    Backed d disk (names ++ [path]) { fs with files := Table.erase fs.files path, disk := some disk } := by
  rw [htakes.remove_eq hb.root] at hremove
  split at hremove
  · cases hremove
    have hdelete := hb.delete path
    refine ⟨rfl, hb.root, hdelete.takes, ?_, (hdelete.mono [path]).opened, ?_⟩
    · intro name data hget
      have hne := (Table.lookup_erase_eq_some hget).1
      rw [Disk.held, hb.root, Table.lookup_erase, if_neg (mt Disk.below_inj.mp hne), ← hb.root]
      exact hdelete.current name data hget
    · intro place hplace
      rw [Table.lookup_erase, if_neg (hplace path (by simp))]
      exact (hb.mono [path]).elsewhere place hplace
  · contradiction

theorem effect {r : Request} {ok : Bool} {fs' : Files} (hs : Stored fs) (hr : r.Plain d)
    (he : Effect fs r ok fs') : ∃ d'', Backed d d'' (names ++ r.touches ok) fs' := by
  cases he with
  | refused => exact ⟨d', hb.mono _⟩
  | fetched => exact ⟨d', (hb.fetch hr).mono _⟩
  | opened hnew hpath =>
    refine ⟨d', ((hb.fetch hr).mono _).setHandle ?_ (by simp [Request.touches, hpath])⟩
    apply continues_of_free
    rw [freeHandle_fetch]
    exact hnew
  | emptied hnew hpath hwritable =>
    refine ⟨d', ((hb.fetch hr).mono _).overwrite ?_ hpath (by simp [Request.touches]) hr hwritable []⟩
    apply continues_of_free
    rw [freeHandle_fetch]
    exact hnew
  | closed hopen hwritable => exact ⟨d', (hb.close hopen hwritable).mono _⟩
  | writtenBack hopen =>
    obtain ⟨d'', hb'⟩ := hb.writeBack hs hopen
    exact ⟨d'', hb'.mono _⟩
  | advanced _ _ hopen | sought _ _ _ hopen => exact ⟨d', (hb.moveTo hopen _).mono _⟩
  | written _ _ _ hopen hwritable => exact ⟨d', (hb.write hs hopen hwritable _ _).mono _⟩
  | deleted => exact ⟨d', (hb.delete _).mono _⟩
  | removed _ hdisk hremove =>
    obtain rfl := Option.some.inj (hb.disk.symm.trans hdisk)
    rw [diskPath_eq (Disk.Takes.noSlash hr)] at hremove
    exact ⟨_, hb.remove hr hremove⟩
  | inserted => exact hr.elim

theorem run (hs : Stored fs) (requests : List Request)
    (hplain : ∀ r ∈ requests, r.Plain d) : ∃ d'', Backed d d'' (names ++ fs.touched requests) (fs.run requests) := by
  induction requests generalizing fs d' names with
  | nil => exact ⟨d', hb.mono []⟩
  | cons r requests ih =>
    have he := effect_perform fs r
    obtain ⟨d1, hb1⟩ := hb.effect hs (hplain r List.mem_cons_self) he
    rw [touched, ← List.append_assoc]
    apply ih hb1 (hs.effect he)
    intro r' hr'
    exact hplain r' (List.mem_cons_of_mem r hr')

theorem held_delete (htakes : d.Takes name) (hdeleted : (fs.delete name).1 = true) :
    (fs.delete name).2.get? name = none
      ∧ ∃ d'', (fs.delete name).2.disk = some d'' ∧ d''.root = d.root ∧ d''.held name = none := by
  have hgone : (Table.erase fs.files name).lookup name = none := by rw [Table.lookup_erase, if_pos rfl]
  have he := effect_delete fs name
  rw [hdeleted] at he
  generalize (fs.delete name).2 = fs' at he ⊢
  cases he with
  | deleted _ hdisk =>
    obtain ⟨e, herror⟩ := hdisk d' hb.disk
    rw [diskPath_eq htakes.noSlash, htakes.remove_eq hb.root] at herror
    split at herror
    · contradiction
    · next hmissing =>
      rw [Bool.not_eq_true, Table.contains_eq_false_iff, ← hb.root] at hmissing
      exact ⟨hgone, d', hb.disk, hb.root, hmissing⟩
  | removed _ hdisk hremove =>
    obtain rfl := Option.some.inj (hb.disk.symm.trans hdisk)
    rw [diskPath_eq htakes.noSlash, htakes.remove_eq hb.root] at hremove
    split at hremove
    · cases hremove
      refine ⟨hgone, _, rfl, hb.root, ?_⟩
      rw [Disk.held, Table.lookup_erase, if_pos (by rw [hb.root])]
    · contradiction

end

end Backed

theorem backed_empty (d : Disk) : Backed d d [] { disk := some d } := by
  constructor
  case disk => rfl
  case root => rfl
  case elsewhere => exact fun _ _ => rfl
  all_goals
    intro _ _ hnone
    contradiction

/--
Whatever is opened, closed, read, written, moved and deleted by plain names, a file in the store lies in the directory
with the same bytes unless a handle that can write is open on it. Files that were not opened or deleted lie there as
before, and a file that is deleted now is in neither.
-/
theorem directory_stays_current (d : Disk) (requests : List Request) (hplain : ∀ r ∈ requests, r.Plain d) :
    ∃ d', (run { disk := some d } requests).disk = some d' ∧ d'.root = d.root
      ∧ (∀ name data, (run { disk := some d } requests).get? name = some data →
          (run { disk := some d } requests).BeingWritten name ∨ d'.held name = some data)
      ∧ (∀ place, (∀ name ∈ touched { disk := some d } requests, place ≠ d.root ++ [name]) →
          d'.files.lookup place = d.files.lookup place)
      ∧ ∀ name, d.Takes name → ((run { disk := some d } requests).delete name).1 = true →
          ((run { disk := some d } requests).delete name).2.get? name = none
            ∧ ∃ d'', ((run { disk := some d } requests).delete name).2.disk = some d'' ∧ d''.root = d.root
              ∧ d''.held name = none := by
  obtain ⟨d', hb⟩ := (backed_empty d).run (stored_empty (some d)) requests hplain
  refine ⟨d', hb.disk, hb.root, hb.current, hb.elsewhere, ?_⟩
  intro name htakes hdeleted
  exact hb.held_delete htakes hdeleted

def writers : List Request :=
  [.open "a" "r+", .open "a" "a", .write 1 [7], .write 2 [8], .close 1, .write 2 [9], .close 2]

def home : Disk where
  root := ["home"]
  files := [(["home", "a"], [1, 2]), (["home", "b"], [3])]

theorem directory_stays_current_writers :
    ∃ d', (run { disk := some home } writers).disk = some d' ∧ d'.held "a" = some [7, 2, 8, 9] ∧ d'.held "b" = some [3]
      ∧ ∃ d'', ((run { disk := some home } writers).delete "b").2.disk = some d'' ∧ d''.held "b" = none := by
  have ha : home.Takes "a" := (Disk.takes_iff home "a").mpr (by decide +kernel)
  have hb : home.Takes "b" := (Disk.takes_iff home "b").mpr (by decide +kernel)
  have hplain : ∀ r ∈ writers, r.Plain home := by simp [writers, Request.Plain, ha]
  obtain ⟨d', hdisk, hroot, hcurrent, helsewhere, hdelete⟩ := directory_stays_current home writers hplain
  have hclosed : (run { disk := some home } writers).handles = [] := by decide +kernel
  refine ⟨d', hdisk, ?_, ?_, ?_⟩
  · obtain ⟨h, file, hopen, -⟩ | hheld := hcurrent "a" [7, 2, 8, 9] (by decide +kernel)
    · rw [hclosed] at hopen
      contradiction
    · exact hheld
  · rw [Disk.held, hroot, helsewhere _ (by decide +kernel)]
    rfl
  · obtain ⟨-, d'', hdisk', -, hheld⟩ := hdelete "b" hb (by decide +kernel)
    exact ⟨d'', hdisk', hheld⟩

end Files
end Handheld
