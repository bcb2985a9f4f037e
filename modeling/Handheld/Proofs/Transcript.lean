import Handheld.Proofs.Console
import Handheld.Proofs.Terminal

/-!
The transcript of a console is a recent part of what was written, and never less than the limit of it.
-/
namespace Handheld.Console

variable {all bytes : List UInt8} {t : Array UInt8}

/-- Everything that can be asked of a console. -/
inductive Request where
  | act (a : Action)
  | take
  | flush

def Request.written : Request → List UInt8
  | .act (.put b) => [b]
  | .act (.write bytes) => bytes
  | _ => []

def serve (s : Console × Memory) : Request → Console × Memory
  | .act a => act s a
  | .take => (s.1.takeOutput.2, s.2)
  | .flush => (s.1.flush.2, s.2)

/-- `t` is what a transcript keeps of `all`. -/
structure Recent (all : List UInt8) (t : Array UInt8) : Prop where
  suffix : t.toList <:+ all
  size_lt : t.size < 2 * transcriptLimit
  whole : all.length < 2 * transcriptLimit → t.toList = all
  limit_le : 2 * transcriptLimit ≤ all.length → transcriptLimit ≤ t.size

theorem Recent.record (h : Recent all t) (b : UInt8) : Recent (all ++ [b]) (record t b) := by
  have hlimit : transcriptLimit = 0x1000 := rfl
  have hsize := h.size_lt
  have hshort := h.suffix.length_le
  have hsuffix : (t.push b).toList <:+ all ++ [b] := by
    obtain ⟨front, hfront⟩ := h.suffix
    exact ⟨front, by rw [Array.toList_push, ← List.append_assoc, hfront]⟩
  rw [Array.length_toList] at hshort
  unfold Console.record
  dsimp only
  rw [Array.size_push]
  split
  next hfull =>
    -- the cut leaves the limit, and the bytes were too many already
    have hkept : ((t.push b).extract (t.size + 1 - transcriptLimit) (t.size + 1)).toList <:+ (t.push b).toList := by
      rw [Array.toList_extract, List.extract_eq_take_drop, List.take_of_length_le (by simp)]
      apply List.drop_suffix
    refine ⟨hkept.trans hsuffix, ?_, ?_, ?_⟩
    · rw [Array.size_extract, Array.size_push]
      omega
    · intro hfew
      rw [List.length_append, List.length_singleton] at hfew
      omega
    · intro _
      rw [Array.size_extract, Array.size_push]
      omega
  next hroom =>
    refine ⟨hsuffix, ?_, ?_, ?_⟩
    · rw [Array.size_push]
      omega
    · intro hfew
      rw [List.length_append, List.length_singleton] at hfew
      rw [Array.toList_push, h.whole (by omega)]
    · intro hmany
      rw [List.length_append, List.length_singleton] at hmany
      rw [Array.size_push]
      -- a byte that does not fill the transcript to the brim is not the one that makes the bytes too many
      rcases Nat.lt_or_ge all.length (2 * transcriptLimit) with hlt | hge
      · have hwhole := congrArg List.length (h.whole hlt)
        rw [Array.length_toList] at hwhole
        omega
      · have hlower := h.limit_le hge
        omega

theorem Recent.write {c : Console} (h : Recent all c.transcript) (m : Memory) (bytes : List UInt8) :
    Recent (all ++ bytes) (c.write m bytes).1.transcript := by
  induction bytes generalizing all c m with
  | nil => rwa [List.append_nil]
  | cons b bytes ih =>
    have hput : Recent (all ++ [b]) (c.put m b).1.transcript := by
      rw [show (c.put m b).1.transcript = Console.record c.transcript b from congrArg Prod.fst (logs_put c m b)]
      exact h.record b
    rw [List.append_cons]
    exact ih hput (c.put m b).2

theorem Recent.serve {s : Console × Memory} (h : Recent all s.1.transcript) (r : Request) :
    Recent (all ++ r.written) (serve s r).1.transcript := by
  have hsilent : Recent (all ++ []) s.1.transcript := by rwa [List.append_nil]
  cases r with
  | act a =>
    cases a with
    | put b => exact h.write s.2 [b]
    | write bytes => exact h.write s.2 bytes
    | clear | setFont | locate => exact hsilent
  | take => exact hsilent
  | flush =>
    unfold Console.serve Console.flush
    dsimp only
    split
    next => exact hsilent
    next => exact hsilent

theorem Recent.foldl_serve {s : Console × Memory} (h : Recent all s.1.transcript) (requests : List Request) :
    Recent (all ++ requests.flatMap Request.written) (requests.foldl Console.serve s).1.transcript := by
  induction requests generalizing all s with
  | nil => rwa [List.flatMap_nil, List.append_nil]
  | cons r requests ih =>
    rw [List.flatMap_cons, ← List.append_assoc]
    apply ih
    exact h.serve r

/--
The transcript is the end of what was put on the console, whatever else was asked of it: all of it as long as that is
less than twice the limit, and from then on at least the limit.
-/
theorem transcript_recent (width height : Nat) (memory : Memory) (requests : List Request) :
    let all := requests.flatMap Request.written
    let transcript := (requests.foldl serve ({ width := width, height := height }, memory)).1.transcript
    transcript.toList <:+ all
      ∧ if all.length < 8192 then transcript.toList = all else 4096 ≤ transcript.size ∧ transcript.size < 8192 := by
  intro all transcript
  have hnew : Recent [] (#[] : Array UInt8) := ⟨List.suffix_refl [], by decide, fun _ => rfl, by simp [transcriptLimit]⟩
  have h : Recent all transcript := Recent.foldl_serve (s := ({ width := width, height := height }, memory)) hnew requests
  refine ⟨h.suffix, ?_⟩
  split
  next hfew => exact h.whole hfew
  next hmany => exact ⟨h.limit_le (Nat.le_of_not_lt hmany), h.size_lt⟩

end Handheld.Console
