import Mathlib.Data.List.Basic
import Mathlib.Logic.Function.Basic
import LifeSim.Lib.Checked

/-!
# What a cache knows about a block

`cache_state.h`, `cache_block_info.cc` and the parts of `cache_set.cc` that all replacement policies share. A block is
valid when its tag is not the all-ones word, and a block that is being upgraded may not be replaced.

The arrays of a set are functions of the way, and the associativity says how many ways there are.
-/

namespace LifeSim.Cache

open LifeSim.Lib

/-- `CacheState::cstate_t`, without the states that are used for reporting only. -/
inductive CState
  | invalid
  | shared
  | sharedUpgrading
  | exclusive
  | owned
  | modified
  deriving DecidableEq, Repr

/-- `CacheBlockInfo`. -/
structure CacheBlockInfo where
  tag : BitVec 64
  cstate : CState
  owner : BitVec 64
  used : BitVec 8
  options : BitVec 8
  deriving DecidableEq, Repr

/-- The tag of a block that is not valid, `~0`. -/
def invalidTag : BitVec 64 := BitVec.allOnes 64

namespace CacheBlockInfo

/-- `CacheBlockInfo::create`. -/
def create : CacheBlockInfo := ⟨invalidTag, .invalid, 0, 0, 0⟩

/-- `CacheBlockInfo::invalidate`. -/
def invalidate (b : CacheBlockInfo) : CacheBlockInfo := { b with tag := invalidTag, cstate := .invalid }

/-- `CacheBlockInfo::isValid`. -/
def isValid (b : CacheBlockInfo) : Bool := b.tag ≠ invalidTag

/-- `CacheSet::isValidReplacement`, for the block of a way. -/
def isValidReplacement (b : CacheBlockInfo) : Bool := b.cstate ≠ .sharedUpgrading

@[simp] theorem isValid_create : create.isValid = false := by decide

@[simp] theorem isValid_invalidate (b : CacheBlockInfo) : b.invalidate.isValid = false := by
  simp [isValid, invalidate]

end CacheBlockInfo

/-- A block that has been fetched for reading: a new one with a tag and the state `SHARED`. -/
def taggedBlock (tag : BitVec 64) : CacheBlockInfo := { CacheBlockInfo.create with tag, cstate := .shared }

/-- `m_cache_block_info_array`. -/
abbrev Blocks := ℕ → CacheBlockInfo

/-- What ends the simulation in the replacement of a block. -/
inductive Fault
  /-- `CacheSetLRU::getReplacementIndex`: Should not reach here. -/
  | shouldNotReachHere
  /-- Error Finding LRU bits. -/
  | errorFindingLruBits
  /-- `CacheSetSRRIP::getReplacementIndex`: Error finding replacement index. -/
  | errorFindingReplacementIndex
  /-- PLRU or SRRIP selected an invalid replacement candidate. -/
  | invalidReplacementCandidate
  /-- `CacheSetInfoLRU::increment`: the index is not below the associativity. -/
  | indexBeyondAssociativity
  /-- `CacheSetInfoLRU::incrementAttempt`: there is no place for the attempt. -/
  | attemptOutOfBounds
  /-- `CacheSetPLRU`: not implemented for this associativity. -/
  | plruAssociativity
  /-- `CacheSet::read_line` and `write_line`: an access beyond the end of the block. -/
  | beyondBlock
  /-- `Cache::invalidateSingleLine`: the index of the set is not below the number of sets. -/
  | noSuchSet
  /-- The index of a way that does not exist. -/
  | noSuchWay
  /-- A recursion that has not returned after the given number of calls. -/
  | unfinished
  deriving DecidableEq, Repr

/-- An assertion. -/
def require (p : Prop) [Decidable p] (f : Fault) : Except Fault Unit := if p then .ok () else .error f

theorem require_of {p : Prop} [Decidable p] (h : p) (f : Fault) : require p f = .ok () := if_pos h

theorem require_eq_ok_iff {p : Prop} [Decidable p] {f : Fault} {u : Unit} : require p f = .ok u ↔ p := by
  rw [require]
  split_ifs with h
  · exact iff_of_true rfl h
  · exact iff_of_false nofun h

/-- The first way whose block is not valid: the loop with which most policies begin. -/
def firstInvalid (associativity : ℕ) (blocks : Blocks) : Option ℕ :=
  (List.range associativity).find? fun i => !(blocks i).isValid

theorem firstInvalid_eq_none {associativity : ℕ} {blocks : Blocks} :
    firstInvalid associativity blocks = none ↔ ∀ i < associativity, (blocks i).isValid = true := by
  simp [firstInvalid]

theorem firstInvalid_eq_some {associativity : ℕ} {blocks : Blocks} {i : ℕ} :
    firstInvalid associativity blocks = some i ↔
      i < associativity ∧ (blocks i).isValid = false ∧ ∀ j < i, (blocks j).isValid = true := by
  simp only [firstInvalid, List.find?_range_eq_some, Bool.not_eq_true', Bool.not_eq_false', List.mem_range]
  tauto

/-- The next position of a pointer to a way, which has eight bits. -/
def nextPointer (associativity pointer : ℕ) : ℕ := (pointer + 1) % associativity % 256

/-- The answers of `isInLowerLevelCache`, in the order of the questions. -/
abbrev Answers := ℕ → Bool

end LifeSim.Cache
