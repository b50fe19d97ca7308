import Mathlib
import LifeSim.Cache.BlockInfo

/-!
# Addresses, tags and sets

`cache_base.cc`, `address_home_lookup.cc` and `rng.h`: an address is split into the tag, which is the number of its block,
and the index of a set. The index is computed by one of several hashes of the address within the home node, and it is the
same for all addresses of a block.
-/

namespace LifeSim.Cache

/-- `IntPtr`. -/
abbrev Address := BitVec 64

/-- `CacheBase::hash_t`. -/
inductive Hash
  | mask
  | mod
  | rng1Mod
  | rng2Mod
  deriving DecidableEq, Repr

/-- `rng_seed`. -/
def rngSeed (seed : BitVec 64) : BitVec 64 := (seed <<< 16) + 0x330E#64

/-- The new state in `rng_next`. -/
def rngState (state : BitVec 64) : BitVec 64 := (0x5DEECE66D#64 * state + 0xB#64) &&& 0xFFFFFFFFFFFF#64

/-- The value of `rng_next` for its new state. -/
def rngValue (state : BitVec 64) : BitVec 64 := state >>> 16

/-- `AddressHomeLookup`. -/
structure AddressHomeLookup where
  ahlParam : ℕ
  totalModules : ℕ

/-- `AddressHomeLookup::getLinearAddress`. -/
def AddressHomeLookup.getLinearAddress (l : AddressHomeLookup) (address : Address) : Address :=
  (((address >>> l.ahlParam) / BitVec.ofNat 64 l.totalModules) <<< l.ahlParam) |||
    (address &&& (((1#64) <<< l.ahlParam) - 1))

/-- `CacheBase`, with what its constructor asserts, and with a home lookup whose pieces hold whole blocks. This is what
the assertion of `AddressHomeLookup` asks for; comparing signed numbers, it lets a block of at least 2147483648 bytes pass
as well, which may be larger than a piece. -/
structure CacheBase where
  numSets : ℕ
  associativity : ℕ
  blocksize : ℕ
  hash : Hash
  ahl : Option AddressHomeLookup
  numSets_pos : 0 < numSets
  numSets_lt : numSets < 2 ^ 32
  mask_pow : hash = .mask → ∃ k, numSets = 2 ^ k
  blocksize_pos : 0 < blocksize
  ahl_covers : ∀ l ∈ ahl, blocksize ≤ 2 ^ l.ahlParam

namespace CacheBase

variable (c : CacheBase)

/-- `m_log_blocksize`. -/
def logBlocksize : ℕ := Nat.log2 c.blocksize

/-- The tag in `splitAddress`. -/
def tag (addr : Address) : BitVec 64 := addr >>> c.logBlocksize

/-- `linearAddress` in `splitAddress`. -/
def linearAddress (addr : Address) : Address :=
  match c.ahl with
  | none => addr
  | some l => l.getLinearAddress addr

/-- The hash of a block number. -/
def hashBlock (blockNum : BitVec 64) : ℕ :=
  match c.hash with
  | .mask => (blockNum &&& BitVec.ofNat 64 (c.numSets - 1)).toNat
  | .mod => blockNum.toNat % c.numSets
  | .rng1Mod => (rngValue (rngState (rngSeed blockNum))).toNat % c.numSets
  | .rng2Mod => (rngValue (rngState (rngState (rngSeed blockNum)))).toNat % c.numSets

/-- The index of the set in `splitAddress`. -/
def setIndex (addr : Address) : ℕ := c.hashBlock (c.linearAddress addr >>> c.logBlocksize)

/-- The offset in `splitAddress`. -/
def blockOffset (addr : Address) : ℕ := (addr &&& BitVec.ofNat 64 (c.blocksize - 1)).toNat

/-- `CacheBase::tagToAddress`. -/
def tagToAddress (tag : BitVec 64) : Address := tag <<< c.logBlocksize

variable {c}

/-- Dividing the space among the modules keeps the offset in a block apart. -/
theorem linearAddress_shift (l : AddressHomeLookup) {log : ℕ} (hlog : log ≤ l.ahlParam) (addr : Address) :
    l.getLinearAddress addr >>> log =
      ((((addr >>> log) >>> (l.ahlParam - log)) / BitVec.ofNat 64 l.totalModules) <<< l.ahlParam) >>> log |||
        ((addr >>> log) &&& ((((1#64) <<< l.ahlParam) - 1) >>> log)) := by
  rw [AddressHomeLookup.getLinearAddress, BitVec.ushiftRight_or_distrib, BitVec.ushiftRight_and_distrib,
    ← BitVec.shiftRight_add, Nat.add_sub_cancel' hlog]

theorem logBlocksize_le {l : AddressHomeLookup} (hl : c.ahl = some l) : c.logBlocksize ≤ l.ahlParam := by
  have hcovers := c.ahl_covers l hl
  have hself := Nat.log2_self_le (Nat.ne_of_gt c.blocksize_pos)
  exact (Nat.pow_le_pow_iff_right (by decide)).1 (hself.trans hcovers)

/-- All addresses of a block belong to one set. -/
theorem setIndex_congr {a b : Address} (h : c.tag a = c.tag b) : c.setIndex a = c.setIndex b := by
  rw [setIndex, setIndex, linearAddress, linearAddress]
  rw [tag, tag] at h
  cases hahl : c.ahl with
  | none => rw [h]
  | some l =>
    dsimp only
    rw [linearAddress_shift l (logBlocksize_le hahl), linearAddress_shift l (logBlocksize_le hahl), h]

/-- The address that is rebuilt from a tag is one of the block. -/
theorem tag_tagToAddress (addr : Address) : c.tag (c.tagToAddress (c.tag addr)) = c.tag addr := by
  rw [tag, tag, tagToAddress]
  ext i hi
  simp only [BitVec.getElem_ushiftRight, BitVec.getLsbD_shiftLeft, BitVec.getLsbD_ushiftRight]
  by_cases hin : c.logBlocksize + i < 64
  · simp [hin]
  · simp [hin, BitVec.getLsbD_of_ge _ _ (Nat.le_of_not_lt hin)]

/-- Only blocks of one byte can have the tag of a block that is not valid. -/
theorem tag_ne_invalidTag (hsize : 2 ≤ c.blocksize) (addr : Address) : c.tag addr ≠ invalidTag := by
  intro h
  have hlog : 1 ≤ c.logBlocksize := by
    rw [logBlocksize, Nat.le_log2 (Nat.ne_of_gt c.blocksize_pos)]
    exact hsize
  have hbit := congrArg (fun x => x.getLsbD 63) h
  simp only [tag, invalidTag, BitVec.getLsbD_ushiftRight, BitVec.getLsbD_allOnes] at hbit
  rw [BitVec.getLsbD_of_ge _ _ (by omega)] at hbit
  exact absurd hbit (by decide)

end CacheBase

end LifeSim.Cache
