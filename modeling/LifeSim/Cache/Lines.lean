import LifeSim.Cache.Address
import LifeSim.Cache.Sets
import LifeSim.Lib.Machine

/-!
# A cache and its lines

`cache.cc`: the operations on a single line find the set by the hash of the address and look for the tag there. The
address of an evicted block is rebuilt from its tag. There is no fault injector that changes the data.
-/

set_option linter.dupNamespace false

namespace LifeSim.Cache

open LifeSim.Lib

/-- `Cache`. -/
structure Cache where
  base : CacheBase
  sets : ℕ → CacheSet

/-- `Cache::access_t`. -/
inductive AccessType
  | load
  | store
  deriving DecidableEq, Repr

/-- What an insertion reports when it has evicted a block. -/
structure Eviction where
  addr : Address
  line : CacheLine

namespace Cache

/-- The constructor, for sets whose policies have been created. -/
def new (base : CacheBase) (hasData : Bool) (replacements : ℕ → Replacement) : Cache :=
  ⟨base, fun i => CacheSet.new base.associativity base.blocksize hasData (replacements i)⟩

/-- The set of an address. -/
def set (c : Cache) (addr : Address) : CacheSet := c.sets (c.base.setIndex addr)

/-- The set of an address is changed. -/
def setSet (c : Cache) (addr : Address) (s : CacheSet) : Cache :=
  { c with sets := Function.update c.sets (c.base.setIndex addr) s }

/-- What the cache holds for an address. -/
def lookup (c : Cache) (addr : Address) : Option CacheLine := (c.set addr).lookup (c.base.tag addr)

/-- `Cache::peekSingleLine`. -/
def peekSingleLine (c : Cache) (addr : Address) : Option CacheBlockInfo :=
  ((c.set addr).find (c.base.tag addr)).map (c.set addr).blocks

/-- `Cache::invalidateSingleLine`. -/
def invalidateSingleLine (c : Cache) (addr : Address) : Except Fault (Bool × Cache) := do
  require (c.base.setIndex addr < c.base.numSets) .noSuchSet
  let (found, s) := (c.set addr).invalidate (c.base.tag addr)
  .ok (found, c.setSet addr s)

/-- `Cache::accessSingleLine`: the block if it is found, and the bytes that a load copies. -/
def accessSingleLine (c : Cache) (addr : Address) (type : AccessType) (buff : Option Bytes) (bytes : ℕ)
    (updateReplacement : Bool) : Except Fault (Option (CacheBlockInfo × Option (List (BitVec 8))) × Cache) :=
  match (c.set addr).find (c.base.tag addr) with
  | none => .ok (none, c)
  | some line =>
    match type with
    | .load => do
      let (out, s) ← (c.set addr).readLine line (c.base.blockOffset addr) bytes updateReplacement
      .ok (some ((c.set addr).blocks line, out), c.setSet addr s)
    | .store => do
      let s ← (c.set addr).writeLine line (c.base.blockOffset addr) buff bytes updateReplacement
      .ok (some ((c.set addr).blocks line, none), c.setSet addr s)

/-- `Cache::insertSingleLine`. -/
def insertSingleLine (c : Cache) (addr : Address) (fill : Option Bytes) (calls : ℕ) (answers : Answers) :
    Except Fault (Option Eviction × Cache) := do
  let block := { CacheBlockInfo.create with tag := c.base.tag addr }
  let (evicted, s) ← (c.set addr).insert block fill calls answers
  .ok (evicted.map fun line => ⟨c.base.tagToAddress line.info.tag, line⟩, c.setSet addr s)

/-- `CacheCntlr::setCacheState`: the state of the block that `peekSingleLine` finds. -/
def setCacheState (c : Cache) (addr : Address) (cstate : CState) : Cache :=
  match (c.set addr).find (c.base.tag addr) with
  | none => c
  | some i => c.setSet addr ((c.set addr).setWay i { (c.set addr).blocks i with cstate } ((c.set addr).data i))

end Cache

/-! ### Runs -/

/-- The calls that a cache gets. -/
inductive LineEvent
  /-- `insertSingleLine` and then `setCacheState`, as in `CacheCntlr::insertCacheBlock`. -/
  | insert (addr : Address) (fill : Option Bytes) (cstate : CState) (calls : ℕ) (answers : Answers)
  | access (addr : Address) (type : AccessType) (buff : Option Bytes) (bytes : ℕ) (updateReplacement : Bool)
  | peek (addr : Address)
  | invalidate (addr : Address)
  /-- `setCacheState` alone: the coherence state of a line changes. -/
  | setCacheState (addr : Address) (cstate : CState)

/-- A cache, and which blocks have been inserted and neither evicted nor invalidated since. -/
structure LineRun where
  cache : Cache
  present : BitVec 64 → Bool

/-- The blocks without the one that has been evicted. -/
def withoutEvicted (base : CacheBase) (present : BitVec 64 → Bool) : Option Eviction → BitVec 64 → Bool
  | none => present
  | some e => Function.update present (base.tag e.addr) false

/-- What a call tells its caller. -/
inductive LineAnswer
  | inserted (eviction : Option Eviction)
  | accessed (found : Option (CacheBlockInfo × Option (List (BitVec 8))))
  | peeked (found : Option CacheBlockInfo)
  | invalidated (found : Bool)
  | stateSet

namespace LineRun

/-- One call, with its answer. -/
def call (r : LineRun) : LineEvent → Except Fault (LineAnswer × LineRun)
  | .insert addr fill cstate calls answers => do
    let (eviction, c) ← r.cache.insertSingleLine addr fill calls answers
    .ok (.inserted eviction, ⟨c.setCacheState addr cstate,
      Function.update (withoutEvicted r.cache.base r.present eviction) (r.cache.base.tag addr) true⟩)
  | .access addr type buff bytes updateReplacement => do
    let (found, c) ← r.cache.accessSingleLine addr type buff bytes updateReplacement
    .ok (.accessed found, ⟨c, r.present⟩)
  | .peek addr => .ok (.peeked (r.cache.peekSingleLine addr), r)
  | .invalidate addr => do
    let (found, c) ← r.cache.invalidateSingleLine addr
    .ok (.invalidated found, ⟨c, Function.update r.present (r.cache.base.tag addr) false⟩)
  | .setCacheState addr cstate => .ok (.stateSet, { r with cache := r.cache.setCacheState addr cstate })

/-- A new cache. -/
def new (base : CacheBase) (hasData : Bool) (replacements : ℕ → Replacement) : LineRun :=
  ⟨Cache.new base hasData replacements, fun _ => false⟩

end LineRun

/-- The calls one after the other. -/
def lineMachine : Machine LineRun LineEvent Fault where
  step r e := Prod.snd <$> r.call e

end LifeSim.Cache
