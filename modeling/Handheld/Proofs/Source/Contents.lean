import Handheld.Proofs.Source.Layout

/-!
What a survey records lies in reach of operands: contents lie inside of the data space, and functions have names of the
text.
-/
namespace Handheld.Source

variable {g' : Globals} {ty : Ty} {dims : List Nat}

variable {init : Init} {g : Globals} {name : String} {span : Span} {v : Var} {c : Cursor}

section Contents

variable {row pos : Nat} {c c' : Contents}

theorem length_overlay {bytes data : List UInt8} {pos : Nat} (h : pos + data.length ≤ bytes.length) :
    (overlay bytes pos data).length = bytes.length := by
  simp only [overlay, List.length_append, List.length_take, List.length_drop]
  omega

theorem length_littleEndian (n : UInt32) (len : Nat) : (littleEndian n len).length = len := by
  induction len generalizing n with
  | zero => rfl
  | succ len ih => simp [littleEndian, ih]

def Contents.Inside (v : Var) (c : Contents) : Prop :=
  c.bytes.length = v.size ∧ ∀ p ∈ c.strings, p.1 + 4 ≤ v.size

theorem Contents.Inside.lay {inits : List Init} (h : c.Inside v) (hlay : c.lay v row pos inits = .ok c') :
    c'.Inside v := by
  obtain ⟨hlength, hstrings⟩ := h
  induction inits generalizing c pos with
  | nil =>
    cases hlay
    exact ⟨hlength, hstrings⟩
  | cons init inits ih =>
    cases init with
    | value n =>
      rw [Contents.lay] at hlay
      split at hlay
      next => cases hlay
      next hfits =>
        refine ih hlay ?_ hstrings
        rw [length_overlay, hlength]
        rw [length_littleEndian]
        omega
    | text s =>
      rw [Contents.lay] at hlay
      split at hlay
      next hpointer =>
        have hsize : v.ty.size = 4 := by
          rw [Ty.size, Ty.width, if_pos hpointer]
          rfl
        split at hlay
        next => cases hlay
        next hfits =>
          refine ih hlay hlength ?_
          intro p hp
          rcases List.mem_append.mp hp with hp | hp
          · exact hstrings p hp
          · rw [List.mem_singleton.mp hp]
            omega
      next =>
        split at hlay
        next =>
          dsimp only at hlay
          split at hlay
          next => cases hlay
          next hfits =>
            refine ih hlay ?_ hstrings
            rw [length_overlay, hlength]
            have hle := List.length_take_le row s
            omega
        next => cases hlay
    | list items => cases hlay

theorem Contents.inside_ofInit (h : Contents.ofInit v init = .ok c) : c.Inside v := by
  have hblank : Contents.Inside v { bytes := List.replicate v.size 0 } := ⟨List.length_replicate, by simp⟩
  unfold Contents.ofInit at h
  dsimp only at h
  split at h
  next s _ =>
    cases h
    refine ⟨?_, by simp⟩
    rw [length_overlay, List.length_replicate]
    rw [Nat.zero_add, List.length_replicate]
    exact List.length_take_le v.size s
  next =>
    split at h
    next => cases h
    next => exact hblank.lay h

end Contents

structure Globals.Filled (g : Globals) : Prop where
  laid : g.Laid
  inits : ∀ p ∈ g.inits, p.1 + p.2.length ≤ 0xFFFF

theorem Globals.declare_eq_ok {g : Globals} (h : g.declare name ty dims span = .ok (v, g'))
    : g'.vars.lookup name = some v ∧ g'.functions = g.functions ∧ g'.inits = g.inits ∧ g'.strings = g.strings := by
  obtain ⟨-, -, -, -, rfl⟩ := declare_eq_ok_iff.mp h
  exact ⟨List.lookup_cons_self, rfl, rfl, rfl⟩

theorem Globals.Filled.declare {g : Globals} {name : String} {span : Span} {v : Var}
    (h : g.Filled) (hdeclare : g.declare name ty dims span = .ok (v, g')) (hwords : v.Unwrapped)
    : g'.Filled := by
  obtain ⟨-, -, hinits, -⟩ := declare_eq_ok hdeclare
  exact ⟨h.laid.declare hdeclare hwords, hinits ▸ h.inits⟩

theorem Globals.Filled.setContents {g g1 : Globals} (h : g.Filled)
    (hdeclare : g.declare name ty dims span = .ok (v, g1)) (hwords : v.Unwrapped)
    (hset : g1.setContents v init span = .ok g')
    : g'.Filled := by
  have h1 := h.declare hdeclare hwords
  have hinside : v.offset + v.size ≤ 0xFFFF := by
    have hhi := (place_of_declare hdeclare h.laid.below hwords).2.1
    have hheap : Memory.heapStart.toNat ≤ 0xFFFF := by decide
    omega
  obtain ⟨c, hc, rfl⟩ := setContents_eq_ok_iff.mp hset
  obtain ⟨hlength, -⟩ := Contents.inside_ofInit hc
  refine ⟨⟨h1.laid.packed, h1.laid.below⟩, ?_⟩
  intro p hp
  dsimp only at hp
  split at hp
  next => exact h1.inits p hp
  next =>
    rcases List.mem_append.mp hp with hp | hp
    · exact h1.inits p hp
    · rw [List.mem_singleton.mp hp]
      have hle := (List.dropWhile_sublist (l := c.bytes.reverse) (· == 0)).length_le
      simp only [List.length_reverse] at hle ⊢
      omega

theorem Globals.Filled.stable : Globals.Stable (fun _ => True) fun g => g.Unwrapped → g.Filled where
  macros _ h hwords := ⟨⟨(h hwords).laid.packed, (h hwords).laid.below⟩, (h hwords).inits⟩
  function _ h hadd := by
    obtain ⟨f', rfl, -⟩ := Globals.addFunction_eq_ok hadd
    exact fun hwords => ⟨⟨(h hwords).laid.packed, (h hwords).laid.below⟩, (h hwords).inits⟩
  var h hdeclare hwords := by
    obtain ⟨hg, hv⟩ := unwrapped_of_declare hdeclare hwords
    exact (h hg).declare hdeclare hv
  contents h hdeclare hset hwords := by
    have hvars : ∃ c, _ := (setContents_eq_ok_iff.mp hset).imp fun c h => h.2
    obtain ⟨hg, hv⟩ := unwrapped_of_declare hdeclare (by obtain ⟨_, rfl⟩ := hvars; exact hwords)
    exact (h hg).setContents hdeclare hv hset

theorem survey_filled (h : survey c = .ok g) (hwords : g.Unwrapped) : g.Filled :=
  stable_of_survey Globals.Filled.stable (fun _ => ⟨.empty, by simp⟩) (fun _ _ _ _ => trivial) h hwords

theorem survey_laid (h : survey c = .ok g) (hwords : g.Unwrapped) : g.Laid :=
  (survey_filled h hwords).laid

section Names

variable {N : String → Prop}

def Globals.Named (N : String → Prop) (g : Globals) : Prop :=
  ∀ x, (g.functions.lookup x).isSome → N x

theorem Globals.Named.stable : Globals.Stable N (Globals.Named N) where
  macros _ h := h
  function hname h hadd := by
    obtain ⟨f', rfl, -⟩ := Globals.addFunction_eq_ok hadd
    intro x hx
    rw [Table.lookup_insert] at hx
    split at hx
    next heq => exact heq ▸ hname
    next => exact h x hx
  var h hdeclare := by
    intro x
    rw [(Globals.declare_eq_ok hdeclare).2.1]
    exact h x
  contents h hdeclare hset := by
    obtain ⟨_, -, rfl⟩ := Globals.setContents_eq_ok_iff.mp hset
    intro x
    rw [(Globals.declare_eq_ok hdeclare).2.1]
    exact h x

theorem survey_named (hnamed : c.Named N) (h : survey c = .ok g) : g.Named N :=
  stable_of_survey Globals.Named.stable (fun x hx => by cases hx) hnamed h

theorem main_of_survey (h : survey c = .ok g) : (g.functions.lookup "main").isSome := by
  unfold survey at h
  split at h
  next => cases h
  next =>
    split at h
    next f hf =>
      split at h
      next => cases h
      next =>
        split at h
        next => cases h
        next =>
          cases h
          exact Option.isSome_of_eq_some hf
    next => cases h

end Names

end Handheld.Source
