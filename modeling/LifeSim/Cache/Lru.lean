import LifeSim.Cache.BlockInfo
import LifeSim.Lib.Machine
import LifeSim.Lib.MoveToFront
import Mathlib.Data.List.Perm.Basic
import Mathlib.Data.List.Range
import Mathlib.Order.Nat

/-!
# Least recently used

`cache_set_lru.cc`: every way has an age of eight bits. The victim of a full set is the oldest way, and with
query-based selection a victim that is still in a lower-level cache becomes the youngest way and the next one is tried,
as long as there are attempts left.
-/

namespace LifeSim.Cache

open LifeSim.Lib

/-! ### What all sets of a cache share -/

/-- `CacheSetInfoLRU::increment`, without the counters. -/
def increment (associativity index : ℕ) : Except Fault Unit :=
  require (index < associativity) .indexBeyondAssociativity

/-- `CacheSetInfoLRU::incrementAttempt`, without the counters. They exist only if there can be several attempts. -/
def incrementAttempt (numAttempts attempt : ℕ) : Except Fault Unit :=
  if 1 < numAttempts then require (attempt < numAttempts) .attemptOutOfBounds
  else require (attempt = 0) .attemptOutOfBounds

theorem incrementAttempt_of_lt {numAttempts attempt : ℕ} (h : attempt < numAttempts) :
    incrementAttempt numAttempts attempt = .ok () := by
  rw [incrementAttempt]
  split_ifs with hmany
  · exact require_of h _
  · exact require_of (by omega) _

/-! ### The policy -/

/-- The loop of `moveToMRU`: what is younger than the accessed way gets older, and that way is the youngest. -/
def moveToFrontBits (associativity : ℕ) (bits : ℕ → ℕ) (accessed : ℕ) : ℕ → ℕ := fun i =>
  if i = accessed then 0 else if i < associativity ∧ bits i < bits accessed then (bits i + 1) % 256 else bits i

@[simp] theorem moveToFrontBits_self (associativity : ℕ) (bits : ℕ → ℕ) (accessed : ℕ) :
    moveToFrontBits associativity bits accessed accessed = 0 := if_pos rfl

/-- No age goes beyond eight bits. -/
theorem moveToFrontBits_of_ne {associativity accessed i : ℕ} {bits : ℕ → ℕ} (hbits : bits accessed < 256)
    (hi : i < associativity) (hne : i ≠ accessed) : moveToFrontBits associativity bits accessed i =
      if bits i < bits accessed then bits i + 1 else bits i := by
  rw [moveToFrontBits, if_neg hne]
  by_cases hyounger : bits i < bits accessed
  · rw [if_pos ⟨hi, hyounger⟩, if_pos hyounger, Nat.mod_eq_of_lt (by omega)]
  · rw [if_neg fun h => hyounger h.2, if_neg hyounger]

/-- `CacheSetLRU`. -/
structure CacheSetLRU where
  associativity : ℕ
  numAttempts : ℕ
  lruBits : ℕ → ℕ

/-- What `getReplacementIndex` tells: the way, and the ways for which `incrementQBSLookupCost` was called before. -/
structure Choice where
  index : ℕ
  rejected : List ℕ
  deriving DecidableEq, Repr

namespace CacheSetLRU

/-- The constructor. -/
def new (associativity numAttempts : ℕ) : CacheSetLRU := ⟨associativity, numAttempts, fun i => i % 256⟩

/-- `CacheSetLRU::moveToMRU`. -/
def moveToMRU (s : CacheSetLRU) (accessed : ℕ) : CacheSetLRU :=
  { s with lruBits := moveToFrontBits s.associativity s.lruBits accessed }

/-- The search of one attempt over the first `n` ways: the oldest one that may be replaced, and its age. -/
def search (s : CacheSetLRU) (blocks : Blocks) : ℕ → ℕ × ℕ
  | 0 => (0, 0)
  | n + 1 =>
    let (index, maxBits) := s.search blocks n
    if maxBits < s.lruBits n ∧ (blocks n).isValidReplacement then (n, s.lruBits n) else (index, maxBits)

/-- The attempts of `getReplacementIndex`. -/
def attempts (blocks : Blocks) (answers : Answers) : ℕ → ℕ → CacheSetLRU → Except Fault (Choice × CacheSetLRU)
  | 0, _, _ => .error .shouldNotReachHere
  | left + 1, attempt, s => do
    let index := (s.search blocks s.associativity).1
    require (index < s.associativity) .errorFindingLruBits
    if attempt + 1 < s.numAttempts ∧ answers attempt then
      let (c, s') ← attempts blocks answers left (attempt + 1) (s.moveToMRU index)
      .ok (⟨c.index, index :: c.rejected⟩, s')
    else
      incrementAttempt s.numAttempts attempt
      .ok (⟨index, []⟩, s.moveToMRU index)

/-- `CacheSetLRU::getReplacementIndex`. -/
def getReplacementIndex (s : CacheSetLRU) (blocks : Blocks) (answers : Answers) :
    Except Fault (Choice × CacheSetLRU) :=
  match firstInvalid s.associativity blocks with
  | some i => .ok (⟨i, []⟩, s.moveToMRU i)
  | none => attempts blocks answers s.numAttempts 0 s

/-- `CacheSetLRU::updateReplacementIndex`. -/
def updateReplacementIndex (s : CacheSetLRU) (accessed : ℕ) : Except Fault CacheSetLRU := do
  increment s.associativity (s.lruBits accessed)
  .ok (s.moveToMRU accessed)

@[simp] theorem moveToMRU_associativity (s : CacheSetLRU) (i : ℕ) : (s.moveToMRU i).associativity = s.associativity := rfl

@[simp] theorem moveToMRU_numAttempts (s : CacheSetLRU) (i : ℕ) : (s.moveToMRU i).numAttempts = s.numAttempts := rfl

/-- What a search finds: nothing that is old, or the oldest of the ways that may be replaced. -/
theorem search_spec (s : CacheSetLRU) (blocks : Blocks) (n : ℕ) :
    (∀ i < n, (blocks i).isValidReplacement = true → s.lruBits i ≤ (s.search blocks n).2) ∧
      (s.search blocks n = (0, 0) ∨ (s.search blocks n).1 < n ∧
        (blocks (s.search blocks n).1).isValidReplacement = true ∧
        s.lruBits (s.search blocks n).1 = (s.search blocks n).2 ∧ 0 < (s.search blocks n).2) := by
  induction n with
  | zero => exact ⟨fun i hi => absurd hi (Nat.not_lt_zero i), .inl rfl⟩
  | succ n ih =>
    obtain ⟨hmax, hfound⟩ := ih
    rw [search]
    generalize s.search blocks n = x at hmax hfound ⊢
    obtain ⟨index, maxBits⟩ := x
    dsimp only at hmax hfound ⊢
    split_ifs with h
    · refine ⟨fun i hi hvalid => ?_, .inr ⟨Nat.lt_succ_self n, h.2, rfl, Nat.zero_lt_of_lt h.1⟩⟩
      rcases Nat.lt_succ_iff_lt_or_eq.1 hi with hlt | rfl
      · exact (hmax i hlt hvalid).trans h.1.le
      · exact le_refl _
    · refine ⟨fun i hi hvalid => ?_, hfound.imp_right fun h => ⟨Nat.lt_succ_of_lt h.1, h.2⟩⟩
      rcases Nat.lt_succ_iff_lt_or_eq.1 hi with hlt | rfl
      · exact hmax i hlt hvalid
      · exact Nat.le_of_not_lt fun hlt => h ⟨hlt, hvalid⟩

end CacheSetLRU

end LifeSim.Cache
