import Handheld.Proofs.Files.WriteBack

/-!
A file store over a directory keeps to it, as long as no path that the store is given leads up out of where it starts.
-/
namespace Handheld

variable {p : List String} {h : UInt8} {file : OpenFile}

namespace Disk

def walk (dir : List String) : List String → List String
  | [] => dir
  | name :: names =>
    if isHere name then walk dir names
    else if name == ".." then walk dir.dropLast names
    else walk (dir ++ [name]) names

structure Route where
  up : Nat := 0
  down : List String := []
  deriving DecidableEq, Repr

def Route.next (r : Route) (name : String) : Route :=
  if isHere name then r
  else if name == ".." then
    if r.down.isEmpty then { r with up := r.up + 1 } else { r with down := r.down.dropLast }
  else { r with down := r.down ++ [name] }

def route (names : List String) : Route :=
  names.foldl Route.next {}

theorem walk_next (dir : List String) (r : Route) (names : List String) :
    walk (dir.take (dir.length - r.up) ++ r.down) names
      = dir.take (dir.length - (names.foldl Route.next r).up) ++ (names.foldl Route.next r).down := by
  induction names generalizing r with
  | nil => rfl
  | cons name names ih =>
    rw [walk, List.foldl_cons, ← ih, Route.next]
    split
    next => rfl
    next =>
      split
      next =>
        split
        next hdown =>
          rw [List.isEmpty_iff] at hdown
          have hless : min (min (dir.length - r.up) dir.length - 1) (dir.length - r.up) = dir.length - (r.up + 1) := by
            omega
          rw [hdown, List.append_nil, List.append_nil, List.dropLast_eq_take, List.length_take, List.take_take, hless]
        next hdown =>
          rw [List.isEmpty_iff] at hdown
          rw [List.dropLast_append_of_ne_nil hdown]
      next => rw [List.append_assoc]

theorem walk_eq (dir names : List String) :
    walk dir names = dir.take (dir.length - (route names).up) ++ (route names).down := by
  have hwalk := walk_next dir {} names
  rwa [Nat.sub_zero, List.take_length, List.append_nil] at hwalk

theorem isPrefix_walk_iff (names : List String) :
    (∀ dir : List String, dir <+: walk dir names) ↔ (route names).up = 0 := by
  constructor
  · intro hinside
    -- a directory with a name that the route does not start with
    obtain ⟨name, hname⟩ : ∃ name, (route names).down.head? ≠ some name := by
      by_cases hfirst : (route names).down.head? = some "a"
      · exact ⟨"b", by simp [hfirst]⟩
      · exact ⟨"a", hfirst⟩
    have hprefix := hinside [name]
    rw [walk_eq, List.length_singleton] at hprefix
    rcases Nat.eq_zero_or_pos (route names).up with hzero | hpos
    · exact hzero
    · rw [Nat.sub_eq_zero_of_le hpos, List.take_zero, List.nil_append] at hprefix
      obtain ⟨rest, hrest⟩ := hprefix
      exact (hname (by rw [← hrest]; rfl)).elim
  · intro hup dir
    rw [walk_eq, hup, Nat.sub_zero, List.take_length]
    exact List.prefix_append dir _

theorem follow_eq_ok {d : Disk} {dir names : List String} (h : d.follow dir names = .ok p) : p = walk dir names := by
  induction names generalizing dir with
  | nil => cases h
  | cons name names ih =>
    rw [follow] at h
    rw [walk]
    split at h
    next hhere =>
      rw [if_pos hhere]
      exact ih h
    next hhere =>
      rw [if_neg hhere]
      split at h
      next habove =>
        rw [if_pos habove]
        exact ih h
      next habove =>
        rw [if_neg habove]
        split at h
        next => cases h
        next =>
          split at h
          next => exact ih h
          next =>
            split at h
            next hlast =>
              rw [List.isEmpty_iff.mp hlast, walk]
              exact (Except.ok.inj h).symm
            next =>
              split at h <;> cases h

def place (d : Disk) (path : String) : List String :=
  walk (if path.toList.head? == some '/' then [] else d.root) (names path)

structure Alike (inside : List String → Prop) (d d' : Disk) : Prop where
  root : d'.root = d.root
  files : ∀ p, inside p → d'.files.lookup p = d.files.lookup p

section Alike

variable {inside : List String → Prop} {d d' e : Disk} {path : String}

theorem Alike.refl (inside : List String → Prop) (d : Disk) : d.Alike inside d :=
  ⟨rfl, fun _ _ => rfl⟩

theorem Alike.trans (h : d.Alike inside d') (h' : d'.Alike inside e) : d.Alike inside e :=
  ⟨h'.root.trans h.root, fun p hp => (h'.files p hp).trans (h.files p hp)⟩

theorem place_eq_of_root (hroot : d'.root = d.root) (path : String) : d'.place path = d.place path := by
  rw [place, place, hroot]

theorem toOption_follow (hroot : d'.root = d.root) (dir names : List String) :
    (d'.follow dir names).toOption = (d.follow dir names).toOption := by
  induction names generalizing dir with
  | nil => rfl
  | cons name names ih =>
    have hdirectory : d'.isDirectory (dir ++ [name]) = d.isDirectory (dir ++ [name]) := by
      rw [isDirectory, isDirectory, hroot]
    rw [follow, follow, hdirectory]
    split
    next => exact ih dir
    next =>
      split
      next => exact ih dir.dropLast
      next =>
        split
        next => rfl
        next =>
          split
          next => exact ih (dir ++ [name])
          next =>
            split
            next => rfl
            next => split <;> split <;> rfl

theorem toOption_resolve (hroot : d'.root = d.root) (path : String) :
    (d'.resolve path).toOption = (d.resolve path).toOption := by
  rw [resolve, resolve, hroot]
  split
  next => rfl
  next =>
    split
    next => rfl
    next =>
      split
      next => rfl
      next => exact toOption_follow hroot _ _

theorem place_of_resolve (h : d.resolve path = .ok p) : d.place path = p := by
  rw [resolve] at h
  split at h
  next => cases h
  next =>
    split at h
    next => cases h
    next =>
      split at h
      next => cases h
      next => exact (follow_eq_ok h).symm

theorem Alike.resolve (h : d.Alike inside d') (path : String) :
    d.resolve path = .ok (d.place path) ∧ d'.resolve path = .ok (d.place path)
      ∨ ∃ e e', d.resolve path = .error e ∧ d'.resolve path = .error e' := by
  have hsame := toOption_resolve h.root path
  cases hd : d.resolve path with
  | ok p =>
    cases hd' : d'.resolve path with
    | ok p' =>
      rw [place_of_resolve hd]
      rw [hd, hd'] at hsame
      exact .inl ⟨rfl, congrArg Except.ok (Option.some.inj hsame)⟩
    | error e' => simp [hd, hd', Except.toOption] at hsame
  | error e =>
    cases hd' : d'.resolve path with
    | ok p' => simp [hd, hd', Except.toOption] at hsame
    | error e' => exact .inr ⟨e, e', rfl, rfl⟩

theorem Alike.read (h : d.Alike inside d') (hinside : inside (d.place path)) :
    (d'.read path).toOption = (d.read path).toOption := by
  obtain ⟨hd, hd'⟩ | ⟨e, e', hd, hd'⟩ := h.resolve path
  · simp only [Disk.read, hd, hd', bind, Except.bind, h.files _ hinside]
  · simp only [Disk.read, hd, hd', bind, Except.bind]
    rfl

structure Tracks (inside : List String → Prop) (d d' e e' : Disk) : Prop where
  alike : e.Alike inside e'
  kept : d.Alike (fun p => ¬inside p) e
  kept' : d'.Alike (fun p => ¬inside p) e'

namespace Tracks

theorem refl (h : d.Alike inside d') : Tracks inside d d' d d' :=
  ⟨h, .refl _ d, .refl _ d'⟩

theorem trans {d1 d1' d2 d2' : Disk} (h : Tracks inside d d' d1 d1') (h' : Tracks inside d1 d1' d2 d2') :
    Tracks inside d d' d2 d2' :=
  ⟨h'.alike, h.kept.trans h'.kept, h.kept'.trans h'.kept'⟩

theorem of_files (h : d.Alike inside d') {change : List (List String × List UInt8) → List (List String × List UInt8)}
    {new : Option (List UInt8)} {place : List String} (hinside : inside place)
    (hchange : ∀ files p, (change files).lookup p = if p = place then new else files.lookup p)
    : Tracks inside d d' { d with files := change d.files } { d' with files := change d'.files } := by
  have helse : ∀ (files : List (List String × List UInt8)) (p : List String), ¬inside p →
      (change files).lookup p = files.lookup p := by
    intro files p hp
    rw [hchange, if_neg]
    rintro rfl
    exact hp hinside
  refine ⟨⟨h.root, ?_⟩, ⟨rfl, helse d.files⟩, ⟨rfl, helse d'.files⟩⟩
  intro p hp
  rw [hchange, hchange, h.files p hp]

theorem write (h : d.Alike inside d') (hinside : inside (d.place path)) (data : List UInt8) :
    Tracks inside d d' ((d.write path data).toOption.getD d) ((d'.write path data).toOption.getD d') := by
  obtain ⟨hd, hd'⟩ | ⟨e, e', hd, hd'⟩ := h.resolve path
  · simp only [Disk.write, hd, hd', bind, Except.bind]
    exact of_files h hinside fun files p => Table.lookup_insert files (d.place path) p data
  · simp only [Disk.write, hd, hd', bind, Except.bind]
    exact refl h

theorem remove (h : d.Alike inside d') (hinside : inside (d.place path)) :
    (∃ e e', d.remove path = .ok e ∧ d'.remove path = .ok e' ∧ Tracks inside d d' e e')
      ∨ ∃ e e', d.remove path = .error e ∧ d'.remove path = .error e' := by
  obtain ⟨hd, hd'⟩ | ⟨e, e', hd, hd'⟩ := h.resolve path
  · have hthere : Table.contains d'.files (d.place path) = Table.contains d.files (d.place path) := by
      rw [Table.contains, Table.contains, h.files _ hinside]
    simp only [Disk.remove, hd, hd', bind, Except.bind, hthere]
    split
    next =>
      exact .inl ⟨_, _, rfl, rfl, of_files h hinside fun files p => Table.lookup_erase files (d.place path) p⟩
    next => exact .inr ⟨_, _, rfl, rfl⟩
  · simp only [Disk.remove, hd, hd', bind, Except.bind]
    exact .inr ⟨e, e', rfl, rfl⟩

end Tracks

end Alike

end Disk

namespace Files

def onDisk (fs : Files) (d : Disk) : Files :=
  { fs with disk := some d }

def access (fs : Files) : Request → Option String
  | .open path mode => if (modeFlags mode).isSome && !Table.contains fs.files path then some (diskPath path) else none
  | .close h =>
    match fs.handles.lookup h with
    | some file => if file.writable && Table.contains fs.files file.path then some (diskPath file.path) else none
    | none => none
  | .delete path => if fs.handles.any fun (_, file) => file.path == path then none else some (diskPath path)
  | _ => none

def accesses (fs : Files) : List Request → List String
  | [] => []
  | r :: requests => (fs.access r).toList ++ (fs.perform r).2.accesses requests

section Over

variable {inside : List String → Prop} {d d' : Disk}

def Answers (inside : List String → Prop) (d d' : Disk) (fs : Files) (r : Request) : Prop :=
  ∃ ok gs e e', (fs.onDisk d).perform r = (ok, onDisk gs e) ∧ (fs.onDisk d').perform r = (ok, onDisk gs e')
    ∧ Disk.Tracks inside d d' e e'

theorem fetch_onDisk (fs : Files) (h : d.Alike inside d') {path : String}
    (hinside : Table.contains fs.files path = false → inside (d.place (diskPath path)))
    : ∃ there gs, (fs.onDisk d).fetch path = (there, onDisk gs d)
        ∧ (fs.onDisk d').fetch path = (there, onDisk gs d') := by
  cases hhere : Table.contains fs.files path with
  | true => exact ⟨true, fs, by simp [fetch, onDisk, hhere], by simp [fetch, onDisk, hhere]⟩
  | false =>
    have hread := h.read (hinside hhere)
    cases hdata : (d.read (diskPath path)).toOption with
    | none =>
      rw [hdata] at hread
      exact ⟨false, fs, by simp [fetch, onDisk, hhere, hdata], by simp [fetch, onDisk, hhere, hread]⟩
    | some data =>
      rw [hdata] at hread
      refine ⟨true, fs.insert path data, ?_, ?_⟩
      · simp [fetch, onDisk, insert, hhere, hdata]
      · simp [fetch, onDisk, insert, hhere, hread]

theorem answers_open (fs : Files) (h : d.Alike inside d') (path mode : String)
    (hinside : ∀ p, fs.access (.open path mode) = some p → inside (d.place p))
    : fs.Answers inside d d' (.open path mode) := by
  cases hflags : modeFlags mode with
  | none =>
    refine ⟨false, fs, d, d', ?_, ?_, .refl h⟩
    · rw [perform, open_of_invalid hflags]
      rfl
    · rw [perform, open_of_invalid hflags]
      rfl
  | some flags =>
    have hplace : Table.contains fs.files path = false → inside (d.place (diskPath path)) := by
      intro hnew
      apply hinside
      rw [access, hflags, hnew]
      rfl
    obtain ⟨there, gs, hfetch, hfetch'⟩ := fetch_onDisk fs h hplace
    obtain ⟨readable, writable, append⟩ := flags
    have hfree (d : Disk) : (onDisk gs d).freeHandle = gs.freeHandle := rfl
    simp only [Answers, perform, «open», hflags, hfetch, hfetch', hfree]
    split
    next => exact ⟨_, gs, d, d', rfl, rfl, .refl h⟩
    next =>
      split
      next => exact ⟨_, gs, d, d', rfl, rfl, .refl h⟩
      next number _ =>
        split
        next =>
          exact ⟨_, (gs.insert path []).setHandle number _, d, d', rfl, rfl, .refl h⟩
        next => exact ⟨_, gs.setHandle number _, d, d', rfl, rfl, .refl h⟩

theorem writeBack_onDisk (fs : Files) (d : Disk) (path : String) :
    (fs.onDisk d).writeBack path
      = fs.onDisk (((fs.get? path).bind fun data => (d.write (diskPath path) data).toOption).getD d) := by
  have hget : (fs.onDisk d).get? path = fs.get? path := rfl
  rw [writeBack, hget]
  cases fs.get? path with
  | none => rfl
  | some data => rfl

theorem answers_close (fs : Files) (h : d.Alike inside d') (number : UInt8)
    (hinside : ∀ p, fs.access (.close number) = some p → inside (d.place p))
    : fs.Answers inside d d' (.close number) := by
  cases hopen : fs.handles.lookup number with
  | none =>
    have hclose (d : Disk) : (fs.onDisk d).close number = (false, fs.onDisk d) := by simp only [close, onDisk, hopen]
    exact ⟨false, fs, d, d', hclose d, hclose d', .refl h⟩
  | some file =>
    let gs := { fs with handles := Table.erase fs.handles number }
    cases hwritable : file.writable with
    | false =>
      have hclose (d : Disk) : (fs.onDisk d).close number = (true, gs.onDisk d) := by
        simp [close, onDisk, hopen, hwritable, gs]
      exact ⟨true, gs, d, d', hclose d, hclose d', .refl h⟩
    | true =>
      have hclose (d : Disk) : (fs.onDisk d).close number = (true, (gs.onDisk d).writeBack file.path) := by
        simp [close, onDisk, hopen, hwritable, gs]
      simp only [writeBack_onDisk] at hclose
      refine ⟨true, gs, _, _, hclose d, hclose d', ?_⟩
      cases hget : gs.get? file.path with
      | none => exact .refl h
      | some data =>
        apply Disk.Tracks.write h
        apply hinside
        have hthere : Table.contains fs.files file.path = true := Table.contains_iff.mpr ⟨data, hget⟩
        simp [access, hopen, hwritable, hthere]

theorem answers_delete (fs : Files) (h : d.Alike inside d') (path : String)
    (hinside : ∀ p, fs.access (.delete path) = some p → inside (d.place p))
    : fs.Answers inside d d' (.delete path) := by
  have hhandles (d : Disk) : (fs.onDisk d).handles = fs.handles := rfl
  simp only [Answers, perform, delete, hhandles]
  split
  next => exact ⟨false, fs, d, d', rfl, rfl, .refl h⟩
  next hclosed =>
    have hplace : inside (d.place (diskPath path)) := by
      apply hinside
      rw [access, if_neg hclosed]
    let gs := { fs with files := Table.erase fs.files path }
    obtain ⟨e, e', hd, hd', htracks⟩ | ⟨e, e', hd, hd'⟩ := Disk.Tracks.remove h hplace
    · refine ⟨true, gs, e, e', ?_, ?_, htracks⟩
      · simp [onDisk, gs, hd, Except.toOption]
      · simp [onDisk, gs, hd', Except.toOption]
    · refine ⟨Table.contains fs.files path, gs, d, d', ?_, ?_, .refl h⟩
      · simp [onDisk, gs, hd, Except.toOption]
      · simp [onDisk, gs, hd', Except.toOption]

theorem perform_onDisk {r : Request} (hr : r matches .read .. | .write .. | .seek ..) (fs : Files) :
    ∃ ok gs, ∀ d, (fs.onDisk d).perform r = (ok, onDisk gs d) := by
  have hhandles (d : Disk) : (fs.onDisk d).handles = fs.handles := rfl
  have hget (d : Disk) (path : String) : (fs.onDisk d).get? path = fs.get? path := rfl
  cases r with
  | read number len =>
    simp only [perform, read, hhandles, hget]
    split
    next => exact ⟨false, fs, fun d => rfl⟩
    next =>
      split
      next => exact ⟨true, fs.moveTo number _ _, fun d => rfl⟩
      next => exact ⟨false, fs, fun d => rfl⟩
  | write number bytes =>
    simp only [perform, write, hhandles, hget]
    split
    next => exact ⟨false, fs, fun d => rfl⟩
    next =>
      split
      next => exact ⟨true, (fs.insert _ _).moveTo number _ _, fun d => rfl⟩
      next => exact ⟨false, fs, fun d => rfl⟩
  | seek number offset whence =>
    simp only [perform, seek, hhandles, hget]
    cases fs.handles.lookup number with
    | none => exact ⟨false, fs, fun d => rfl⟩
    | some file =>
      dsimp only
      generalize (_ : Int) + offset = pos
      split
      next => exact ⟨false, fs, fun d => rfl⟩
      next => exact ⟨true, fs.moveTo number file pos.toNat, fun d => rfl⟩
  | «open» | close | delete | insert => cases hr

theorem answers_of_open {fs : Files} (h : d.Alike inside d') {r : Request}
    (hsame : ∃ ok gs, ∀ d, (fs.onDisk d).perform r = (ok, onDisk gs d))
    : fs.Answers inside d d' r := by
  obtain ⟨ok, gs, hsame⟩ := hsame
  exact ⟨ok, gs, d, d', hsame d, hsame d', .refl h⟩

theorem answers (fs : Files) (h : d.Alike inside d') (r : Request)
    (hinside : ∀ p, fs.access r = some p → inside (d.place p))
    : fs.Answers inside d d' r := by
  cases r with
  | «open» path mode => exact answers_open fs h path mode hinside
  | close number => exact answers_close fs h number hinside
  | delete path => exact answers_delete fs h path hinside
  | insert path data => exact ⟨true, fs.insert path data, d, d', rfl, rfl, .refl h⟩
  | read | write | seek => exact answers_of_open h (perform_onDisk rfl fs)

end Over

section Paths

def Request.path? : Request → Option String
  | .open path _ => some path
  | .delete path => some path
  | _ => none

def Opened (P : String → Prop) (fs : Files) : Prop :=
  ∀ h file, fs.handles.lookup h = some file → P file.path

variable {P : String → Prop} {fs fs' : Files} {r : Request} {ok : Bool}

section

variable (hopened : Opened P fs)

include hopened

theorem Opened.setHandle (hfile : P file.path) : Opened P (fs.setHandle h file) := by
  intro x other hlookup
  rw [lookup_setHandle] at hlookup
  split at hlookup
  · rwa [← Option.some.inj hlookup]
  · exact hopened x other hlookup

theorem Opened.moveTo (hopen : fs.handles.lookup h = some file) (pos : Nat) : Opened P (fs.moveTo h file pos) :=
  hopened.setHandle (hopened h file hopen)

theorem Opened.erase (h : UInt8) : Opened P { fs with handles := Table.erase fs.handles h } :=
  fun x other hlookup => hopened x other (Table.lookup_erase_eq_some hlookup).2

theorem Opened.effect (hr : ∀ path, r.path? = some path → P path) (he : Effect fs r ok fs') : Opened P fs' := by
  have hfetch (path : String) : Opened P (fs.fetch path).2 := by
    rw [Opened, handles_fetch]
    exact hopened
  cases he with
  | refused => exact hopened
  | fetched path => exact hfetch path
  | opened _ hpath => exact (hfetch _).setHandle (hr _ (congrArg some hpath.symm))
  | emptied _ hpath => exact Opened.setHandle (hfetch _) (hr _ (congrArg some hpath.symm))
  | closed => exact hopened.erase _
  | writtenBack =>
    rw [Opened, handles_writeBack]
    exact hopened.erase _
  | advanced _ _ hopen | sought _ _ _ hopen => exact hopened.moveTo hopen _
  | @written _ file _ data _ hopen =>
    have hinsert : Opened P (fs.insert file.path data) := hopened
    exact hinsert.moveTo hopen _
  | deleted | removed => exact hopened
  | inserted => exact hopened

theorem Opened.access (hr : ∀ path, r.path? = some path → P path) {p : String} (h : fs.access r = some p)
    : ∃ path, p = diskPath path ∧ P path := by
  cases r with
  | «open» path mode =>
    rw [Files.access] at h
    split at h
    · exact ⟨path, (Option.some.inj h).symm, hr path rfl⟩
    · cases h
  | close number =>
    rw [Files.access] at h
    split at h
    next file hopen =>
      split at h
      · exact ⟨file.path, (Option.some.inj h).symm, hopened number file hopen⟩
      · cases h
    next => cases h
  | delete path =>
    rw [Files.access] at h
    split at h
    · cases h
    · exact ⟨path, (Option.some.inj h).symm, hr path rfl⟩
  | read | write | seek | insert => cases h

end

end Paths

def Steady (path : String) : Prop :=
  (Disk.route (Disk.names (diskPath path))).up = 0

instance : DecidablePred Steady :=
  fun _ => inferInstanceAs (Decidable (_ = _))

theorem place_diskPath (d : Disk) (path : String) :
    d.place (diskPath path) = Disk.walk d.root (Disk.names (diskPath path)) := by
  have hfront : ((diskPath path).toList.head? == some '/') = false := by
    have hkept := List.head?_dropWhile_not (· == '/') path.toList
    rw [diskPath, String.toList_ofList]
    cases hhead : (path.toList.dropWhile (· == '/')).head? with
    | none => rfl
    | some c =>
      rw [hhead] at hkept
      simpa using hkept
  rw [Disk.place, hfront]
  rfl

theorem steady_iff (path : String) : Steady path ↔ ∀ d : Disk, d.root <+: d.place (diskPath path) := by
  rw [Steady, ← Disk.isPrefix_walk_iff]
  constructor
  · intro hwalk d
    rw [place_diskPath]
    exact hwalk d.root
  · intro hplace dir
    have hdir := hplace { root := dir }
    rwa [place_diskPath] at hdir

theorem run_onDisk {fs : Files} {d d' : Disk} {root : List String} (h : d.Alike (root <+: ·) d') (hroot : d.root = root)
    {requests : List Request} (hopened : Opened Steady fs)
    (hsteady : ∀ r ∈ requests, ∀ path, r.path? = some path → Steady path)
    : (∀ p ∈ (fs.onDisk d).accesses requests, root <+: d.place p)
      ∧ ∃ gs e e', (fs.onDisk d).run requests = onDisk gs e ∧ (fs.onDisk d').run requests = onDisk gs e'
        ∧ Disk.Tracks (root <+: ·) d d' e e' := by
  induction requests generalizing fs d d' with
  | nil => exact ⟨fun p hp => (List.not_mem_nil hp).elim, fs, d, d', rfl, rfl, .refl h⟩
  | cons r requests ih =>
    have hr := hsteady r List.mem_cons_self
    have hinside : ∀ p, fs.access r = some p → root <+: d.place p := by
      intro p hp
      obtain ⟨path, rfl, hpath⟩ := hopened.access hr hp
      rw [← hroot]
      exact (steady_iff path).mp hpath d
    obtain ⟨ok, gs, e, e', hd, hd', htracks⟩ := answers fs h r hinside
    have hnext : Opened Steady (gs.onDisk e) := by
      have hover : Opened Steady (fs.onDisk d) := hopened
      have heffect := effect_perform (fs.onDisk d) r
      rw [hd] at heffect
      exact hover.effect hr heffect
    obtain ⟨haccesses, gs', e1, e1', hrun, hrun', htracks'⟩ :=
      ih htracks.alike (htracks.kept.root.trans hroot) hnext fun r' hr' => hsteady r' (List.mem_cons_of_mem r hr')
    refine ⟨?_, gs', e1, e1', ?_, ?_, htracks.trans htracks'⟩
    · intro p hp
      rw [accesses, hd, List.mem_append, Option.mem_toList] at hp
      rcases hp with hp | hp
      · exact hinside p hp
      · rw [← Disk.place_eq_of_root htracks.kept.root]
        exact haccesses p hp
    · rw [run, List.foldl_cons, hd]
      exact hrun
    · rw [run, List.foldl_cons, hd']
      exact hrun'

/--
A store over a directory whose calls are given steady paths goes to the disk below the directory only. What lies elsewhere
stays as it is, and the files and handles of the store do not depend on it. Any other path leads out of some directory.
-/
theorem disk_use_stays_below_root (d : Disk) (requests : List Request)
    (hsteady : ∀ r ∈ requests, ∀ path, r.path? = some path → Steady path)
    : (∀ p ∈ accesses { disk := some d } requests, d.root <+: d.place p)
      ∧ (∀ d' : Disk, d.Alike (d.root <+: ·) d' →
          ∃ gs e e', run { disk := some d } requests = onDisk gs e ∧ run { disk := some d' } requests = onDisk gs e'
            ∧ Disk.Tracks (d.root <+: ·) d d' e e')
      ∧ ∀ path, ¬Steady path → ∃ d' : Disk, ∃ p ∈ accesses { disk := some d' } [.open path "r"],
          ¬d'.root <+: d'.place p := by
  have hopened : Opened Steady {} := fun h file hopen => by cases hopen
  refine ⟨(run_onDisk (.refl _ d) rfl hopened hsteady).1, ?_, ?_⟩
  · intro d' halike
    exact (run_onDisk halike rfl hopened hsteady).2
  · intro path hpath
    rw [steady_iff, Classical.not_forall] at hpath
    obtain ⟨d', hout⟩ := hpath
    exact ⟨d', diskPath path, List.mem_singleton_self _, hout⟩

def vault : Disk where
  root := ["srv", "box"]
  files := [(["srv", "box", "a"], [1]), (["srv", "key"], [7])]

def tidy : List Request :=
  [.open "//./a" "a", .write 1 [2], .close 1, .open "b/../c" "w", .close 1, .open "/a" "r", .read 1 9, .delete "/a/"]

theorem disk_use_stays_below_root_tidy :
    (∀ r ∈ tidy, ∀ path, r.path? = some path → Steady path)
      ∧ (∀ p ∈ accesses { disk := some vault } tidy, vault.root <+: vault.place p)
      ∧ ∃ gs e e', run { disk := some vault } tidy = onDisk gs e
          ∧ run { disk := some { vault with files := [(["srv", "box", "a"], [1])] } } tidy = onDisk gs e'
          ∧ e.files.lookup ["srv", "key"] = some [7] ∧ e'.files.lookup ["srv", "key"] = none := by
  have hsteady : ∀ r ∈ tidy, ∀ path, r.path? = some path → Steady path := by
    have hall : ∀ r ∈ tidy, ∀ path ∈ r.path?.toList, Steady path := by decide +kernel
    intro r hr path hpath
    exact hall r hr path (Option.mem_toList.mpr hpath)
  have hbeside : ¬vault.root <+: ["srv", "key"] := by decide
  have halike : vault.Alike (vault.root <+: ·) { vault with files := [(["srv", "box", "a"], [1])] } := by
    refine ⟨rfl, fun p hp => ?_⟩
    have hne : (p == ["srv", "key"]) = false := by
      rw [beq_eq_false_iff_ne]
      rintro rfl
      exact hbeside hp
    simp only [vault, List.lookup_cons, hne]
  obtain ⟨haccesses, hsame, -⟩ := disk_use_stays_below_root vault tidy hsteady
  obtain ⟨gs, e, e', hrun, hrun', htracks⟩ := hsame _ halike
  exact ⟨hsteady, haccesses, gs, e, e', hrun, hrun', htracks.kept.files _ hbeside, htracks.kept'.files _ hbeside⟩

/-- Names that lead up are followed: the file beside the directory is read, and then removed. -/
theorem disk_use_beside_root :
    accesses { disk := some vault } [.open "../key" "r", .close 1, .delete "../key"] = ["../key", "../key"]
      ∧ ¬vault.root <+: vault.place "../key"
      ∧ (run { disk := some vault } [.open "../key" "r"]).get? "../key" = some [7]
      ∧ ((run { disk := some vault } [.open "../key" "r", .close 1, .delete "../key"]).disk.bind
          (·.files.lookup ["srv", "key"])) = none := by
  decide +kernel

end Files
end Handheld
