import Mathlib
import LifeSim.Cache.Lru

/-!
# Static re-reference interval prediction

`cache_set_srrip.cc`: every way has a counter, and the victim of a full set is the first way, from a pointer on, whose
counter is at its maximum. If a round over the ways finds none, all counters go up by one. There are as many rounds as
that takes at most. But a way that is rejected by query-based selection gets the counter zero and uses up a turn of the
round without moving the pointer.
-/

namespace LifeSim.Cache

open LifeSim.Lib

/-- `CacheSetSRRIP`. -/
structure CacheSetSRRIP where
  associativity : ℕ
  rripMax : ℕ
  rripInsert : ℕ
  numAttempts : ℕ
  rripBits : ℕ → ℕ
  replacementPointer : ℕ

namespace CacheSetSRRIP

/-- The constructor. -/
def new (associativity numbits numAttempts : ℕ) : CacheSetSRRIP where
  associativity := associativity
  rripMax := (2 ^ numbits - 1) % 256
  rripInsert := ((2 ^ numbits - 1) % 256 + 255) % 256
  numAttempts := numAttempts
  rripBits := fun _ => ((2 ^ numbits - 1) % 256 + 255) % 256
  replacementPointer := 0

/-- The counter of a way is set. -/
def setBits (s : CacheSetSRRIP) (way value : ℕ) : CacheSetSRRIP :=
  { s with rripBits := Function.update s.rripBits way value }

/-- The pointer moves to the next way. -/
def advance (s : CacheSetSRRIP) : CacheSetSRRIP :=
  { s with replacementPointer := nextPointer s.associativity s.replacementPointer }

/-- All counters that are not at the maximum go up by one. -/
def age (s : CacheSetSRRIP) : CacheSetSRRIP :=
  { s with rripBits := fun i =>
      if i < s.associativity ∧ s.rripBits i < s.rripMax then (s.rripBits i + 1) % 256 else s.rripBits i }

@[simp] theorem setBits_self (s : CacheSetSRRIP) (way value : ℕ) : (s.setBits way value).rripBits way = value :=
  Function.update_self ..

theorem setBits_of_ne (s : CacheSetSRRIP) {way i : ℕ} (h : i ≠ way) (value : ℕ) :
    (s.setBits way value).rripBits i = s.rripBits i :=
  Function.update_of_ne h ..

theorem age_rripBits (s : CacheSetSRRIP) {i : ℕ} (hmax : s.rripMax < 256) (hi : i < s.associativity) :
    s.age.rripBits i = if s.rripBits i < s.rripMax then s.rripBits i + 1 else s.rripBits i := by
  change (if i < s.associativity ∧ s.rripBits i < s.rripMax then (s.rripBits i + 1) % 256 else s.rripBits i) = _
  by_cases hlow : s.rripBits i < s.rripMax
  · rw [if_pos ⟨hi, hlow⟩, if_pos hlow, Nat.mod_eq_of_lt (by omega)]
  · rw [if_neg fun h => hlow h.2, if_neg hlow]

/-- `n` turns of a round: the victim if it is found, the attempt, and the set. -/
def scan (answers : Answers) : ℕ → ℕ → CacheSetSRRIP → Option ℕ × ℕ × CacheSetSRRIP
  | 0, attempt, s => (none, attempt, s)
  | n + 1, attempt, s =>
    let index := s.replacementPointer
    if s.rripMax ≤ s.rripBits index then
      if attempt + 1 < s.numAttempts ∧ answers attempt then scan answers n (attempt + 1) (s.setBits index 0)
      else (some index, attempt, s.advance.setBits index s.rripInsert)
    else scan answers n attempt s.advance

/-- The rounds of the search. -/
def rounds (answers : Answers) : ℕ → ℕ → CacheSetSRRIP → Option ℕ × ℕ × CacheSetSRRIP
  | 0, attempt, s => (none, attempt, s)
  | j + 1, attempt, s =>
    match scan answers s.associativity attempt s with
    | (some index, attempt, s) => (some index, attempt, s)
    | (none, attempt, s) => rounds answers j attempt s.age

/-- `CacheSetSRRIP::getReplacementIndex`. -/
def getReplacementIndex (s : CacheSetSRRIP) (blocks : Blocks) (answers : Answers) :
    Except Fault (ℕ × CacheSetSRRIP) :=
  match firstInvalid s.associativity blocks with
  | some i => .ok (i, s.setBits i s.rripInsert)
  | none =>
    match rounds answers (s.rripMax + 1) 0 s with
    | (none, _, _) => .error .errorFindingReplacementIndex
    | (some index, attempt, s') => do
      incrementAttempt s.numAttempts attempt
      require (blocks index).isValidReplacement .invalidReplacementCandidate
      .ok (index, s')

/-- `CacheSetSRRIP::updateReplacementIndex`. -/
def updateReplacementIndex (s : CacheSetSRRIP) (accessed : ℕ) : Except Fault CacheSetSRRIP := do
  increment s.associativity (s.rripBits accessed)
  .ok (s.setBits accessed (s.rripBits accessed - 1))

/-! ### The ways that the search comes to -/

/-- The ways with the maximal counter that `n` turns come to when all of them are rejected, and the set afterwards. -/
def scanAll : ℕ → CacheSetSRRIP → List ℕ × CacheSetSRRIP
  | 0, s => ([], s)
  | n + 1, s =>
    let index := s.replacementPointer
    if s.rripMax ≤ s.rripBits index then
      let (l, s') := scanAll n (s.setBits index 0)
      (index :: l, s')
    else scanAll n s.advance

/-- The same for some rounds. -/
def roundsAll : ℕ → CacheSetSRRIP → List ℕ
  | 0, _ => []
  | j + 1, s =>
    let (l, s') := scanAll s.associativity s
    l ++ roundsAll j s'.age

/-- The ways among which the answers choose: those that the search comes to as long as it only meets rejections. They
depend on the counters and the pointer alone. -/
def candidates (s : CacheSetSRRIP) : List ℕ := roundsAll (s.rripMax + 1) s

end CacheSetSRRIP

/-- How many ways are rejected from an attempt on: the questions that are answered by yes in a row. The last attempt asks
none. -/
def rejections (numAttempts : ℕ) (answers : Answers) (attempt : ℕ) : ℕ :=
  ((List.range' attempt (numAttempts - 1 - attempt)).takeWhile answers).length

section Rejections

variable {numAttempts attempt : ℕ} {answers : Answers}

theorem rejections_of_yes (h : attempt + 1 < numAttempts ∧ answers attempt = true) :
    rejections numAttempts answers attempt = rejections numAttempts answers (attempt + 1) + 1 := by
  obtain ⟨n, hn⟩ : ∃ n, numAttempts - 1 - attempt = n + 1 := ⟨numAttempts - 1 - attempt - 1, by omega⟩
  have hn' : numAttempts - 1 - (attempt + 1) = n := by omega
  rw [rejections, rejections, hn, hn', List.range'_succ, List.takeWhile_cons_of_pos h.2, List.length_cons]

theorem rejections_of_no (h : ¬(attempt + 1 < numAttempts ∧ answers attempt = true)) :
    rejections numAttempts answers attempt = 0 := by
  rw [rejections]
  by_cases hlast : attempt + 1 < numAttempts
  · obtain ⟨n, hn⟩ : ∃ n, numAttempts - 1 - attempt = n + 1 := ⟨numAttempts - 1 - attempt - 1, by omega⟩
    rw [hn, List.range'_succ, List.takeWhile_cons_of_neg fun hyes => h ⟨hlast, hyes⟩]
    rfl
  · have hzero : numAttempts - 1 - attempt = 0 := by omega
    rw [hzero]
    rfl

theorem rejections_lt (h : attempt < numAttempts) : attempt + rejections numAttempts answers attempt < numAttempts := by
  have hle := (List.takeWhile_prefix answers (l := List.range' attempt (numAttempts - 1 - attempt))).length_le
  rw [List.length_range'] at hle
  rw [rejections]
  omega

/-- There is a place for every attempt that is made. -/
theorem incrementAttempt_rejections (numAttempts : ℕ) (answers : Answers) :
    incrementAttempt numAttempts (0 + rejections numAttempts answers 0) = .ok () := by
  rcases Nat.eq_zero_or_pos numAttempts with rfl | hpos
  · rfl
  · exact incrementAttempt_of_lt (rejections_lt hpos)

/-- If every question is answered by yes, all attempts but the last are rejected. -/
theorem rejections_yes (numAttempts : ℕ) : rejections numAttempts (fun _ => true) 0 = numAttempts - 1 := by
  rw [rejections, List.takeWhile_eq_self_iff.2 fun _ _ => rfl, List.length_range', Nat.sub_zero]

end Rejections

end LifeSim.Cache
