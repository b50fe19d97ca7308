import LifeSim.Directory.Controller

/-!
# The DRAM directory cache

`DramDirectoryCache` keeps the directory entries of all lines: an array of sets, and the list of the entries
that have been replaced and whose copies are still being called back. `DramDirectoryCntlr` looks
an entry up in every handler, replaces one when a set is full, and drops the replaced one when it is nullified.

The handlers are reduced to these calls and to the queues that decide about them. What a handler does to the
entry of its line, and whether it has answered the request at the front, is left open.
-/

namespace LifeSim.Directory

open LifeSim.Lib

/-- The failed assertions. -/
inductive CacheFault
  /-- `getReplacementCandidates`: the line has an entry. -/
  | entryPresent
  /-- `processDirectoryEntryAllocationReq`: all entries of the set have requests. -/
  | noCandidate
  /-- The address to be replaced is `INVALID_ADDRESS`. -/
  | invalidAddress
  /-- `replaceDirectoryEntry`: the address is not in its set. -/
  | notInSet
  /-- `processDirectoryEntryAllocationReq`: the replaced line has a request. -/
  | victimQueued
  /-- `invalidateDirectoryEntry`: the address is not in the list. -/
  | notReplaced
  /-- There is no directory entry. -/
  | noEntry
  /-- `processNextReqFromL2Cache`: there is no request. -/
  | emptyQueue
  /-- `processNextReqFromL2Cache`: unrecognized request. -/
  | unrecognizedRequest
  /-- `processDRAMReply`: unsupported request type. -/
  | dramReplyRequest
  deriving DecidableEq, Repr

/-- The shape of the cache. -/
structure CacheConfig where
  numSets : ℕ
  associativity : ℕ
  logCacheBlockSize : ℕ
  numSets_pos : 0 < numSets

/-- `splitAddress`, without the tag. -/
def CacheConfig.setIndex (cc : CacheConfig) (address : ℕ) : ℕ :=
  ((address >>> cc.logCacheBlockSize) % 2 ^ 32) &&& (cc.numSets - 1)

/-- The entries of the set of an address. -/
def CacheConfig.ways (cc : CacheConfig) (address : ℕ) : List ℕ :=
  (List.range cc.associativity).map fun i => cc.setIndex address * cc.associativity + i

/-- A directory entry with its address; no address stands for `INVALID_ADDRESS`. -/
structure Line (n : ℕ) where
  address : Option ℕ
  entry : DirectoryEntry n

/-- `DramDirectoryCache`. -/
structure DramDirectoryCache (n : ℕ) where
  /-- `m_directory`. An entry that has not been created yet is one without an address. -/
  directory : ℕ → Line n
  /-- `m_replaced_directory_entry_list`. -/
  replaced : List (Line n)
  replacementPtrs : ℕ → ℕ

/-- `DirectoryEntry*`: an element of the directory or of the list of replaced entries. -/
inductive EntryRef
  | live (k : ℕ)
  | replaced (j : ℕ)
  deriving DecidableEq, Repr

variable {n : ℕ}

namespace DramDirectoryCache

/-- The entry behind a pointer. -/
def deref (c : DramDirectoryCache n) : EntryRef → Option (Line n)
  | .live k => some (c.directory k)
  | .replaced j => c.replaced[j]?

/-- The entry behind a pointer is changed. -/
def modify (r : EntryRef) (f : DirectoryEntry n → DirectoryEntry n) (c : DramDirectoryCache n) :
    DramDirectoryCache n :=
  match r with
  | .live k =>
    let l := { c.directory k with entry := f (c.directory k).entry }
    { c with directory := Function.update c.directory k l }
  | .replaced j => { c with replaced := c.replaced.modify j fun l => { l with entry := f l.entry } }

/-- `getDirectoryEntry`. A free entry of the set is taken before the replaced entries are searched. -/
def getDirectoryEntry (cc : CacheConfig) (address : ℕ) (c : DramDirectoryCache n) :
    DramDirectoryCache n × Option EntryRef :=
  match (cc.ways address).find? fun k => (c.directory k).address = some address with
  | some k => (c, some (.live k))
  | none =>
    match (cc.ways address).find? fun k => (c.directory k).address = none with
    | some k =>
      let l := { c.directory k with address := some address }
      ({ c with directory := Function.update c.directory k l }, some (.live k))
    | none => (c, (c.replaced.findIdx? fun l => l.address = some address).map .replaced)

/-- The list of `getReplacementCandidates`. -/
def candidates (cc : CacheConfig) (address : ℕ) (c : DramDirectoryCache n) : List ℕ :=
  (List.range cc.associativity).map fun i => cc.setIndex address * cc.associativity +
    (i + c.replacementPtrs (cc.setIndex address)) % 2 ^ 32 % cc.associativity

/-- The last line of `getReplacementCandidates`. -/
def advance (cc : CacheConfig) (address : ℕ) (c : DramDirectoryCache n) : DramDirectoryCache n :=
  let set := cc.setIndex address
  { c with replacementPtrs := Function.update c.replacementPtrs set ((c.replacementPtrs set + 1) % 2 ^ 32) }

/-- `replaceDirectoryEntry`. -/
def replaceDirectoryEntry (cfg : Config n) (cc : CacheConfig) (replacedAddress address : ℕ)
    (c : DramDirectoryCache n) : Except CacheFault (DramDirectoryCache n × EntryRef) :=
  match (cc.ways replacedAddress).find? fun k => (c.directory k).address = some replacedAddress with
  | some k =>
    .ok ({ c with replaced := c.replaced ++ [c.directory k]
                  directory := Function.update c.directory k ⟨some address, cfg.createDirectoryEntry⟩ }, .live k)
  | none => .error .notInSet

/-- `invalidateDirectoryEntry`. -/
def invalidateDirectoryEntry (address : ℕ) (c : DramDirectoryCache n) :
    Except CacheFault (DramDirectoryCache n) :=
  match c.replaced.findIdx? fun l => l.address = some address with
  | some j => .ok { c with replaced := c.replaced.eraseIdx j }
  | none => .error .notReplaced

end DramDirectoryCache

/-- What can be in the queue of a line. -/
inductive QueuedReq
  /-- `EX_REQ`, `SH_REQ` or `UPGRADE_REQ`. -/
  | request
  | nullifyReq
  deriving DecidableEq, Repr

/-- What a handler does with the request at the front. -/
structure Work (n : ℕ) where
  change : DirectoryEntry n → DirectoryEntry n
  /-- The request is answered and `processNextReqFromL2Cache` follows. -/
  completed : Bool

/-- `DramDirectoryCntlr`. -/
structure DramDirectoryCntlr (n : ℕ) where
  cache : DramDirectoryCache n
  /-- `m_dram_directory_req_queue_list`. -/
  queue : ℕ → List QueuedReq
  /-- History: the entry of each line, as a map. -/
  known : ℕ → Option (DirectoryEntry n)

namespace DramDirectoryCntlr

/-- No line has an entry; the pointers are what they happen to be. -/
def initial (cfg : Config n) (ptrs : ℕ → ℕ) : DramDirectoryCntlr n where
  cache := ⟨fun _ => ⟨none, cfg.createDirectoryEntry⟩, [], ptrs⟩
  queue := fun _ => []
  known := fun _ => none

/-- The queue of a line is changed. -/
def setQueue (address : ℕ) (q : List QueuedReq) (s : DramDirectoryCntlr n) : DramDirectoryCntlr n :=
  { s with queue := Function.update s.queue address q }

/-- A call of `getDirectoryEntry`. In the map it finds the entry of the line or adds a new one. -/
def lookup (cfg : Config n) (cc : CacheConfig) (address : ℕ) (s : DramDirectoryCntlr n) :
    DramDirectoryCntlr n × Option EntryRef :=
  match s.cache.getDirectoryEntry cc address with
  | (c, some r) =>
    ({ s with cache := c
              known := Function.update s.known address
                (some ((s.known address).getD cfg.createDirectoryEntry)) }, some r)
  | (c, none) => ({ s with cache := c }, none)

/-- A call of `getDirectoryEntry` whose result is asserted. -/
def entryOf (cfg : Config n) (cc : CacheConfig) (address : ℕ) (s : DramDirectoryCntlr n) :
    Except CacheFault (DramDirectoryCntlr n × EntryRef) :=
  match s.lookup cfg cc address with
  | (s, some r) => .ok (s, r)
  | (_, none) => .error .noEntry

/-- A handler changes the entry of its line. -/
def changeEntry (address : ℕ) (r : EntryRef) (f : DirectoryEntry n → DirectoryEntry n)
    (s : DramDirectoryCntlr n) : DramDirectoryCntlr n :=
  { s with cache := s.cache.modify r f
           known := Function.update s.known address ((s.known address).map f) }

/-- `processNullifyReq`: whether the line is nullified, so that the next request follows. -/
def processNullifyReq (cfg : Config n) (cc : CacheConfig) (address : ℕ) (s : DramDirectoryCntlr n) :
    Except CacheFault (DramDirectoryCntlr n × Bool) := do
  let (s, r) ← s.entryOf cfg cc address
  if (s.cache.deref r).any fun l => l.entry.dstate = .uncached then
    let c ← s.cache.invalidateDirectoryEntry address
    .ok ({ s with cache := c, known := Function.update s.known address none }, true)
  else .ok (s, false)

/-- The loop of `processDirectoryEntryAllocationReq` over the candidates. -/
def replacementCandidate (s : DramDirectoryCntlr n) (candidates : List ℕ) : Option ℕ :=
  candidates.foldl (fun best k =>
    if (best.all fun b => (s.cache.directory b).entry.getNumSharers > (s.cache.directory k).entry.getNumSharers) ∧
        (s.cache.directory k).address.elim [] s.queue = [] then some k else best) none

/-- `processDirectoryEntryAllocationReq` for the replaced line. The request to nullify it is the
only one in its queue. -/
def replace (cfg : Config n) (cc : CacheConfig) (replacedAddress address : ℕ) (s : DramDirectoryCntlr n) :
    Except CacheFault (DramDirectoryCntlr n × EntryRef) := do
  let (c, r) ← s.cache.replaceDirectoryEntry cfg cc replacedAddress address
  let s := { s with cache := c, known := Function.update s.known address (some cfg.createDirectoryEntry) }
  let s := s.setQueue replacedAddress (s.queue replacedAddress ++ [.nullifyReq])
  if (s.queue replacedAddress).length = 1 then
    let (s, completed) ← s.processNullifyReq cfg cc replacedAddress
    .ok (if completed then s.setQueue replacedAddress [] else s, r)
  else .error .victimQueued

/-- `processDirectoryEntryAllocationReq`. -/
def allocate (cfg : Config n) (cc : CacheConfig) (address : ℕ) (s : DramDirectoryCntlr n) :
    Except CacheFault (DramDirectoryCntlr n × EntryRef) :=
  match s.lookup cfg cc address with
  | (_, some _) => .error .entryPresent
  | (s, none) =>
    let candidates := s.cache.candidates cc address
    let s := { s with cache := s.cache.advance cc address }
    match s.replacementCandidate candidates with
    | none => .error .noCandidate
    | some k =>
      match (s.cache.directory k).address with
      | none => .error .invalidAddress
      | some replacedAddress => s.replace cfg cc replacedAddress address

/-- `processExReqFromL2Cache`, `processShReqFromL2Cache` or `processUpgradeReqFromL2Cache`. -/
def processReq (cfg : Config n) (cc : CacheConfig) (address : ℕ) (f : DirectoryEntry n → DirectoryEntry n)
    (s : DramDirectoryCntlr n) : Except CacheFault (DramDirectoryCntlr n) :=
  match s.lookup cfg cc address with
  | (s, some r) => .ok (s.changeEntry address r f)
  | (s, none) => do
    let (s, r) ← s.allocate cfg cc address
    .ok (s.changeEntry address r f)

/-- `processNextReqFromL2Cache`. The number bounds the requests in the queue. -/
def processNextReq (cfg : Config n) (cc : CacheConfig) (address : ℕ) (work : ℕ → Work n) :
    ℕ → DramDirectoryCntlr n → Except CacheFault (DramDirectoryCntlr n)
  | 0, _ => .error .emptyQueue
  | k + 1, s =>
    match s.queue address with
    | [] => .error .emptyQueue
    | _ :: [] => .ok (s.setQueue address [])
    | _ :: .nullifyReq :: _ => .error .unrecognizedRequest
    | _ :: .request :: rest => do
      let s ← (s.setQueue address (.request :: rest)).processReq cfg cc address (work k).change
      if (work k).completed then processNextReq cfg cc address work k s else .ok s

/-- The request at the front is worked on. -/
def processFront (cfg : Config n) (cc : CacheConfig) (address : ℕ) (work : ℕ → Work n)
    (s : DramDirectoryCntlr n) : Except CacheFault (DramDirectoryCntlr n) := do
  let k := (s.queue address).length
  let s ← s.processReq cfg cc address (work k).change
  if (work k).completed then s.processNextReq cfg cc address work k else .ok s

end DramDirectoryCntlr

/-- The messages, for a line each. -/
inductive CacheEvent (n : ℕ)
  /-- A request of a last-level cache. -/
  | request (address : ℕ) (work : ℕ → Work n)
  /-- `INV_REP`, `FLUSH_REP` or `WB_REP`, and what it changes in the entry. -/
  | reply (address : ℕ) (change : DirectoryEntry n → DirectoryEntry n) (work : ℕ → Work n)
  /-- `DRAM_READ_REP`. -/
  | dramReply (address : ℕ) (work : ℕ → Work n)

open DramDirectoryCntlr in
/-- `handleMsgFromL2Cache` and `handleMsgFromDRAM`. -/
def cacheStep (cfg : Config n) (cc : CacheConfig) (s : DramDirectoryCntlr n) :
    CacheEvent n → Except CacheFault (DramDirectoryCntlr n)
  | .request address work =>
    let s := (s.lookup cfg cc address).1
    let s := s.setQueue address (s.queue address ++ [.request])
    if (s.queue address).length = 1 then s.processFront cfg cc address work else .ok s
  | .reply address change work => do
    let s := (s.lookup cfg cc address).1
    let (s, r) ← s.entryOf cfg cc address
    let s := s.changeEntry address r change
    match s.queue address with
    | [] => .ok s
    | .request :: _ => s.processFront cfg cc address work
    | .nullifyReq :: rest => do
      let (s, completed) ← s.processNullifyReq cfg cc address
      if completed then s.processNextReq cfg cc address work (rest.length + 1) else .ok s
  | .dramReply address work =>
    match s.queue address with
    | [] => .error .emptyQueue
    | req :: rest => do
      let (s, _) ← s.entryOf cfg cc address
      if req = .request then s.processNextReq cfg cc address work (rest.length + 1)
      else .error .dramReplyRequest

/-- The directory cache under its controller as a machine. -/
def cacheMachine (cfg : Config n) (cc : CacheConfig) :
    Machine (DramDirectoryCntlr n) (CacheEvent n) CacheFault where
  step := cacheStep cfg cc

end LifeSim.Directory
