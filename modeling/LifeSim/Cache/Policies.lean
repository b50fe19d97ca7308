import LifeSim.Cache.Srrip

/-!
# The replacement policies

The other policies of `CacheSet::createCacheSet`, and the choice between all of them. Two of them call themselves again
until they come to a way that may be replaced. These take the number of calls that are allowed, so that a search that
never ends has no result for any number.
-/

namespace LifeSim.Cache

open LifeSim.Lib

/-! ### Round robin -/

/-- `CacheSetRoundRobin`. -/
structure CacheSetRoundRobin where
  associativity : ℕ
  replacementIndex : ℕ

namespace CacheSetRoundRobin

/-- The constructor. -/
def new (associativity : ℕ) : CacheSetRoundRobin := ⟨associativity, associativity - 1⟩

/-- The index moves down by one way. -/
def next (s : CacheSetRoundRobin) : CacheSetRoundRobin :=
  { s with replacementIndex := if s.replacementIndex = 0 then s.associativity - 1 else s.replacementIndex - 1 }

/-- `CacheSetRoundRobin::getReplacementIndex`. The test is made after the index has moved. -/
def getReplacementIndex (blocks : Blocks) : ℕ → CacheSetRoundRobin → Except Fault (ℕ × CacheSetRoundRobin)
  | 0, _ => .error .unfinished
  | calls + 1, s =>
    if (blocks s.next.replacementIndex).isValidReplacement then .ok (s.replacementIndex, s.next)
    else getReplacementIndex blocks calls s.next

end CacheSetRoundRobin

/-! ### Searches for a way -/

/-- How a search over all ways ends: with a way and the set after it has been chosen, or with an error. -/
def chosen {σ : Type} (f : ℕ → σ) : Option ℕ → Except Fault (ℕ × σ)
  | some i => .ok (i, f i)
  | none => .error .errorFindingLruBits

/-- The first of `n` positions that passes a test: the search of `CacheSetNRU` and of `CacheSetNMRU`. -/
def pointerScan (associativity : ℕ) (test : ℕ → Bool) : ℕ → ℕ → Option ℕ
  | 0, _ => none
  | n + 1, pointer =>
    if test pointer then some pointer else pointerScan associativity test n (nextPointer associativity pointer)

/-! ### Not recently used -/

/-- `CacheSetNRU`. -/
structure CacheSetNRU where
  associativity : ℕ
  lruBits : ℕ → ℕ
  numBitsSet : ℕ
  replacementPointer : ℕ

namespace CacheSetNRU

/-- The constructor. -/
def new (associativity : ℕ) : CacheSetNRU := ⟨associativity, fun _ => 0, 0, 0⟩

/-- `CacheSetNRU::updateReplacementIndex`. -/
def updateReplacementIndex (s : CacheSetNRU) (accessed : ℕ) : CacheSetNRU :=
  if (s.numBitsSet + 1) % 256 = s.associativity then { s with lruBits := fun _ => 0, numBitsSet := 0 }
  else { s with lruBits := Function.update s.lruBits accessed 1, numBitsSet := (s.numBitsSet + 1) % 256 }

/-- A way that may be replaced has not been touched. -/
def haveZeroBit (s : CacheSetNRU) (blocks : Blocks) : Bool :=
  (List.range s.associativity).any fun i => s.lruBits i = 0 && (blocks i).isValidReplacement

/-- The test of the search: the way may be replaced, and it has not been touched, unless all of these have. -/
def test (s : CacheSetNRU) (blocks : Blocks) (i : ℕ) : Bool :=
  (s.lruBits i = 0 || !s.haveZeroBit blocks) && (blocks i).isValidReplacement

/-- `CacheSetNRU::getReplacementIndex`. -/
def getReplacementIndex (s : CacheSetNRU) (blocks : Blocks) : Except Fault (ℕ × CacheSetNRU) :=
  match firstInvalid s.associativity blocks with
  | some i => .ok (i, s.updateReplacementIndex i)
  | none =>
    chosen (fun i => { s with replacementPointer := nextPointer s.associativity i }.updateReplacementIndex i)
      (pointerScan s.associativity (s.test blocks) s.associativity s.replacementPointer)

end CacheSetNRU

/-! ### Most recently used -/

/-- `CacheSetMRU`. -/
structure CacheSetMRU where
  associativity : ℕ
  lruBits : ℕ → ℕ

namespace CacheSetMRU

/-- The constructor. -/
def new (associativity : ℕ) : CacheSetMRU := ⟨associativity, fun i => i % 256⟩

/-- `CacheSetMRU::updateReplacementIndex`. -/
def updateReplacementIndex (s : CacheSetMRU) (accessed : ℕ) : CacheSetMRU :=
  { s with lruBits := moveToFrontBits s.associativity s.lruBits accessed }

/-- The youngest way that may be replaced: the loop over the ages, and in it the loop over the ways. -/
def youngest (s : CacheSetMRU) (blocks : Blocks) : Option ℕ :=
  (List.range s.associativity).findSome? fun target =>
    (List.range s.associativity).find? fun i => s.lruBits i = target && (blocks i).isValidReplacement

/-- `CacheSetMRU::getReplacementIndex`. -/
def getReplacementIndex (s : CacheSetMRU) (blocks : Blocks) : Except Fault (ℕ × CacheSetMRU) :=
  match firstInvalid s.associativity blocks with
  | some i => .ok (i, s.updateReplacementIndex i)
  | none => chosen s.updateReplacementIndex (s.youngest blocks)

end CacheSetMRU

/-! ### Not most recently used -/

/-- `CacheSetNMRU`. -/
structure CacheSetNMRU where
  associativity : ℕ
  lruBits : ℕ → ℕ
  replacementPointer : ℕ

namespace CacheSetNMRU

/-- The constructor. -/
def new (associativity : ℕ) : CacheSetNMRU := ⟨associativity, fun i => i % 256, 0⟩

/-- `CacheSetNMRU::updateReplacementIndex`. -/
def updateReplacementIndex (s : CacheSetNMRU) (accessed : ℕ) : CacheSetNMRU :=
  { s with lruBits := moveToFrontBits s.associativity s.lruBits accessed }

/-- The test of the search: the way may be replaced and is not the youngest. -/
def test (s : CacheSetNMRU) (blocks : Blocks) (i : ℕ) : Bool :=
  s.lruBits i ≠ 0 && (blocks i).isValidReplacement

/-- `CacheSetNMRU::getReplacementIndex`. -/
def getReplacementIndex (s : CacheSetNMRU) (blocks : Blocks) : Except Fault (ℕ × CacheSetNMRU) :=
  match firstInvalid s.associativity blocks with
  | some i => .ok (i, s.updateReplacementIndex i)
  | none =>
    chosen (fun i => { s with replacementPointer := nextPointer s.associativity i }.updateReplacementIndex i)
      (pointerScan s.associativity (s.test blocks) s.associativity s.replacementPointer)

end CacheSetNMRU

/-! ### The tree of bits -/

/-- `CacheSetPLRU`. -/
structure CacheSetPLRU where
  associativity : ℕ
  b : ℕ → Bool

namespace CacheSetPLRU

/-- The constructor. -/
def new (associativity : ℕ) : Except Fault CacheSetPLRU :=
  if associativity = 4 ∨ associativity = 8 then .ok ⟨associativity, fun _ => false⟩ else .error .plruAssociativity

/-- The bits of the tree are set. -/
def set (s : CacheSetPLRU) (bits : List (ℕ × Bool)) : CacheSetPLRU :=
  { s with b := bits.foldl (fun b x => Function.update b x.1 x.2) s.b }

/-- `CacheSetPLRU::updateReplacementIndex`. -/
def updateReplacementIndex (s : CacheSetPLRU) (accessed : ℕ) : CacheSetPLRU :=
  if s.associativity = 4 then
    match accessed with
    | 0 => s.set [(0, true), (1, true)]
    | 1 => s.set [(0, true), (1, false)]
    | 2 => s.set [(0, false), (2, true)]
    | 3 => s.set [(0, false), (2, false)]
    | _ => s
  else
    match accessed with
    | 0 => s.set [(0, true), (1, true), (2, true)]
    | 1 => s.set [(0, true), (1, true), (2, false)]
    | 2 => s.set [(0, true), (1, false), (3, true)]
    | 3 => s.set [(0, true), (1, false), (3, false)]
    | 4 => s.set [(0, false), (4, true), (5, true)]
    | 5 => s.set [(0, false), (4, true), (5, false)]
    | 6 => s.set [(0, false), (4, false), (6, true)]
    | 7 => s.set [(0, false), (4, false), (6, false)]
    | _ => s

/-- The way that the bits point at. -/
def victim (s : CacheSetPLRU) : ℕ :=
  if s.associativity = 4 then
    bif s.b 0 then (bif s.b 2 then 3 else 2) else (bif s.b 1 then 1 else 0)
  else
    bif s.b 0 then
      (bif s.b 4 then (bif s.b 6 then 7 else 6) else (bif s.b 5 then 5 else 4))
    else
      (bif s.b 1 then (bif s.b 3 then 3 else 2) else (bif s.b 2 then 1 else 0))

/-- `CacheSetPLRU::getReplacementIndex`. -/
def getReplacementIndex (s : CacheSetPLRU) (blocks : Blocks) : Except Fault (ℕ × CacheSetPLRU) :=
  match firstInvalid s.associativity blocks with
  | some i => .ok (i, s.updateReplacementIndex i)
  | none => do
    require (blocks s.victim).isValidReplacement .invalidReplacementCandidate
    .ok (s.victim, s.updateReplacementIndex s.victim)

end CacheSetPLRU

/-! ### Random -/

/-- `CacheSetRandom`. -/
structure CacheSetRandom where
  associativity : ℕ
  seed : ℕ

namespace CacheSetRandom

/-- The new seed in `Random::next`. -/
def nextSeed (seed : ℕ) : ℕ := (1103515245 * seed + 12345) % 2 ^ 32

/-- The value of `Random::next` for its new seed. -/
def value (seed : ℕ) : ℕ := seed / 65536 % 32768

/-- `CacheSetRandom::getReplacementIndex`. -/
def getReplacementIndex (blocks : Blocks) : ℕ → CacheSetRandom → Except Fault (ℕ × CacheSetRandom)
  | 0, _ => .error .unfinished
  | calls + 1, s =>
    match firstInvalid s.associativity blocks with
    | some i => .ok (i, s)
    | none =>
      let s' := { s with seed := nextSeed s.seed }
      let index := value s'.seed % s.associativity
      if (blocks index).isValidReplacement then .ok (index, s') else getReplacementIndex blocks calls s'

end CacheSetRandom

/-! ### All of them -/

/-- `CacheBase::ReplacementPolicy`. -/
inductive ReplacementPolicy
  | roundRobin
  | lru
  | lruQbs
  | nru
  | mru
  | nmru
  | plru
  | srrip
  | srripQbs
  | random
  deriving DecidableEq, Repr

/-- What the configuration and the clock say: `qbs/attempts`, `srrip/bits`, and the time that is the first seed. -/
structure ReplacementConfig where
  qbsAttempts : ℕ
  srripBits : ℕ
  time : ℕ

/-- `CacheSet::getNumQBSAttempts`. -/
def getNumQBSAttempts (cfg : ReplacementConfig) : ReplacementPolicy → ℕ
  | .lruQbs | .srripQbs => cfg.qbsAttempts % 256
  | _ => 1

/-- The replacement state of a set: one of the subclasses of `CacheSet`. -/
inductive Replacement
  | roundRobin (s : CacheSetRoundRobin)
  | lru (s : CacheSetLRU)
  | nru (s : CacheSetNRU)
  | mru (s : CacheSetMRU)
  | nmru (s : CacheSetNMRU)
  | plru (s : CacheSetPLRU)
  | srrip (s : CacheSetSRRIP)
  | random (s : CacheSetRandom)

namespace Replacement

/-- `CacheSet::createCacheSet`. -/
def createCacheSet (cfg : ReplacementConfig) (associativity : ℕ) : ReplacementPolicy → Except Fault Replacement
  | .roundRobin => .ok (.roundRobin (CacheSetRoundRobin.new associativity))
  | .lru => .ok (.lru (CacheSetLRU.new associativity (getNumQBSAttempts cfg .lru)))
  | .lruQbs => .ok (.lru (CacheSetLRU.new associativity (getNumQBSAttempts cfg .lruQbs)))
  | .nru => .ok (.nru (CacheSetNRU.new associativity))
  | .mru => .ok (.mru (CacheSetMRU.new associativity))
  | .nmru => .ok (.nmru (CacheSetNMRU.new associativity))
  | .plru => Replacement.plru <$> CacheSetPLRU.new associativity
  | .srrip => .ok (.srrip (CacheSetSRRIP.new associativity cfg.srripBits (getNumQBSAttempts cfg .srrip)))
  | .srripQbs => .ok (.srrip (CacheSetSRRIP.new associativity cfg.srripBits (getNumQBSAttempts cfg .srripQbs)))
  | .random => .ok (.random ⟨associativity, cfg.time % 2 ^ 32⟩)

/-- `getReplacementIndex`, with at most this many calls of it by itself. -/
def getReplacementIndex (calls : ℕ) (blocks : Blocks) (answers : Answers) :
    Replacement → Except Fault (ℕ × Replacement)
  | .roundRobin s => Prod.map id roundRobin <$> s.getReplacementIndex blocks calls
  | .lru s => Prod.map Choice.index lru <$> s.getReplacementIndex blocks answers
  | .nru s => Prod.map id nru <$> s.getReplacementIndex blocks
  | .mru s => Prod.map id mru <$> s.getReplacementIndex blocks
  | .nmru s => Prod.map id nmru <$> s.getReplacementIndex blocks
  | .plru s => Prod.map id plru <$> s.getReplacementIndex blocks
  | .srrip s => Prod.map id srrip <$> s.getReplacementIndex blocks answers
  | .random s => Prod.map id random <$> s.getReplacementIndex blocks calls

/-- `updateReplacementIndex`. -/
def updateReplacementIndex (accessed : ℕ) : Replacement → Except Fault Replacement
  | .roundRobin s => .ok (.roundRobin s)
  | .lru s => lru <$> s.updateReplacementIndex accessed
  | .nru s => .ok (.nru (s.updateReplacementIndex accessed))
  | .mru s => .ok (.mru (s.updateReplacementIndex accessed))
  | .nmru s => .ok (.nmru (s.updateReplacementIndex accessed))
  | .plru s => .ok (.plru (s.updateReplacementIndex accessed))
  | .srrip s => srrip <$> s.updateReplacementIndex accessed
  | .random s => .ok (.random s)

end Replacement

end LifeSim.Cache
