import Mathlib
import LifeSim.Directory.Llc
import LifeSim.Lib.LevelTree

/-!
# The controllers of a hierarchy of caches

`CacheCntlr` of `cache_cntlr.cc`, for the caches below one last-level cache, with all of its levels. The caches keep the
coherence and write back, and none is perfect or passed through. One access is processed at a time. A miss in the last
level is answered before the next access.

A state says of each line which caches have it and how; the contents of the lines are left out. The replacement policy
is free: an access comes with the line that has to leave each cache in which it may insert its own one.

A cache that several cores share has one controller for each of them. The lists of previous caches hold the controllers
of the masters only, so that the controller of another core is none of the list.
-/

namespace LifeSim.Hierarchy

open LifeSim.Lib
open LifeSim.Directory (CacheState)

/-- The caches below one last-level cache, which is the root. The parent of a cache is `m_next_cache_cntlr`, its
children are `m_prev_cache_cntlrs`. -/
structure CacheTree (ι : Type) extends LevelTree ι where
  /-- `isMasterCache` of the controller that a core has for a cache. -/
  isMasterCache : ℕ → ι → Bool
  /-- `m_dram_cntlr` of the last level, which then needs no directory. -/
  dram : Bool

/-- The assertions, and what else ends an access. -/
inductive Fault
  /-- Got writeback for non-MODIFIED line. -/
  | writebackState
  /-- writethrough expected a hit at next-level cache but got miss. -/
  | writebackMiss
  /-- MODIFIED data is about to get lost. -/
  | modifiedLost
  /-- out_buf passed in but never written to. -/
  | bufferUnwritten
  /-- Cannot change block status. -/
  | blockStatus
  /-- `invalidateCacheBlock`: the line is `MODIFIED`. -/
  | invalidateModified
  /-- `invalidateCacheBlock`: the line is `INVALID`. -/
  | invalidateInvalid
  /-- Tried to read from next-level cache, but data is already gone. -/
  | dataGone
  /-- We already have this line, can't add it again. -/
  | blockPresent
  /-- The line that leaves the last level is in none of its states. -/
  | evictState
  /-- Evicted address did not become invalid. -/
  | evictedPresent
  /-- Line was not there after prefetch. -/
  | prefetchGone
  /-- Expected a line to be valid in L1. -/
  | notInL1
  /-- ExReq for a line that is not `INVALID`. -/
  | exReqState
  /-- Trying to upgrade a block that is not `SHARED_UPGRADING`. -/
  | upgradeState
  /-- `m_next_cache_cntlr` is missing. -/
  | noCache
  deriving DecidableEq

/-- `Core::mem_op_t`. -/
inductive MemOp
  | read
  | readEx
  | write
  deriving DecidableEq

/-- `CacheState::readable`. -/
def readable (state : CacheState) : Bool := state = .modified ∨ state = .shared ∨ state = .exclusive

/-- `CacheState::writable`. -/
def writable (state : CacheState) : Bool := state = .modified

/-- `operationPermissibleinCache`. -/
def operationPermissible (state : CacheState) : MemOp → Bool
  | .read => readable state
  | .readEx => writable state
  | .write => writable state

/-- The states of all lines in all caches, and the line that a cache is evicting. -/
structure Caches (ι α : Type) where
  /-- `getCacheState`, which is `INVALID` if the cache has no block of the line. -/
  cstate : α → ι → CacheState
  /-- `m_evicting_address`, while there is an `m_evicting_buf`. -/
  evicting : ι → Option α

/-- The message to the directory for which an access waits. -/
inductive Request
  | shReq
  | exReq
  | upgradeReq
  deriving DecidableEq

/-- What `processShmemReqFromPrevCache` returns. -/
inductive Outcome
  | hit
  | miss (request : Request)
  deriving DecidableEq

variable {ι α : Type} [DecidableEq ι] [DecidableEq α]

namespace Caches

/-- Nothing is cached. -/
def empty : Caches ι α := ⟨fun _ _ => .invalid, fun _ => none⟩

/-- `setCState`. -/
def setState (s : Caches ι α) (a : α) (c : ι) (state : CacheState) : Caches ι α :=
  { s with cstate := Function.update s.cstate a (Function.update (s.cstate a) c state) }

/-- `invalidateCacheBlock`. -/
def invalidateCacheBlock (s : Caches ι α) (a : α) (c : ι) : Except Fault (Caches ι α) :=
  if s.cstate a c = .modified then .error .invalidateModified
  else if s.cstate a c = .invalid then .error .invalidateInvalid
  else .ok (s.setState a c .invalid)

/-- `writeCacheBlock`: data of the previous level arrives in the cache or in its eviction buffer. -/
def writeCacheBlock (s : Caches ι α) (a : α) (c : ι) : Except Fault (Caches ι α) :=
  if s.evicting c = some a then .ok s
  else if s.cstate a c = .invalid then .error .writebackMiss
  else if s.cstate a c = .modified then .ok s
  else .error .writebackState

/-- `invalidateCacheBlock`, if there is a block. -/
def dropBlock (s : Caches ι α) (a : α) (c : ι) : Except Fault (Caches ι α) :=
  if s.cstate a c ≠ .invalid then s.invalidateCacheBlock a c else .ok s

/-- The line that has to leave a cache, if it is there. -/
def evicted (s : Caches ι α) (victim : Option α) (c : ι) : Option α := victim.filter fun v => s.cstate v c ≠ .invalid

end Caches

namespace CacheTree

variable (H : CacheTree ι)

/-- The data of a `MODIFIED` line is written back by `updateCacheBlock`, to the next level or to whom it is for. -/
def writeBack (a : α) (outBuf : Bool) (c : ι) (s : Caches ι α) : Except Fault (Caches ι α) :=
  if s.cstate a c = .modified then
    match H.parent c with
    | some n => do
      let s ← s.writeCacheBlock a n
      .ok (s.setState a c .shared)
    | none => if outBuf then .ok (s.setState a c .shared) else .error .modifiedLost
  else .ok s

/-- `updateCacheBlock`, after the previous levels. -/
def updateBlock (a : α) (newState : CacheState) (outBuf : Bool) (c : ι) (s : Caches ι α) :
    Except Fault (Caches ι α) :=
  if s.cstate a c = .invalid then
    if outBuf then .error .bufferUnwritten else .ok s
  else if newState = s.cstate a c ∧ outBuf = true then .ok s
  else do
    let s ← H.writeBack a outBuf c s
    match newState with
    | .invalid => s.invalidateCacheBlock a c
    | .shared => .ok (s.setState a c .shared)
    | .modified => if outBuf then .error .bufferUnwritten else .ok (s.setState a c .modified)
    | _ => .error .blockStatus

/-- `updateCacheBlock`, for a cache that has so many levels below it. -/
def updateCacheBlock (a : α) (newState : CacheState) : ℕ → Bool → ι → Caches ι α → Except Fault (Caches ι α)
  | 0, outBuf, c, s => H.updateBlock a newState outBuf c s
  | n + 1, outBuf, c, s => do
    let s ← (H.children c).foldlM (fun s p => updateCacheBlock a newState n false p s) s
    H.updateBlock a newState outBuf c s

/-- `updateCacheBlock` of several caches. -/
def updateAll (a : α) (newState : CacheState) (caches : List ι) (s : Caches ι α) : Except Fault (Caches ι α) :=
  caches.foldlM (fun s p => H.updateCacheBlock a newState (H.level p) false p s) s

/-- `updateCacheBlock` of all previous caches but the requester. -/
def updateSiblings (a : α) (newState : CacheState) (requester : Option ι) (c : ι) (s : Caches ι α) :
    Except Fault (Caches ι α) :=
  H.updateAll a newState ((H.children c).filter fun p => requester ≠ some p) s

/-- The eviction in `insertCacheBlock`. -/
def evictBlock (v : α) (oldState : CacheState) (c : ι) (s : Caches ι α) : Except Fault (Caches ι α) := do
  let s ← H.updateAll v .invalid (H.children c) { s with evicting := Function.update s.evicting c (some v) }
  let s : Caches ι α := { s with evicting := Function.update s.evicting c none }
  let s ← match H.parent c with
    | some n => if oldState = .modified then s.writeCacheBlock v n else .ok s
    | none =>
      if H.dram = true ∨ oldState = .modified ∨ oldState = .shared ∨ oldState = .exclusive then .ok s
      else .error .evictState
  if s.cstate v c = .invalid then .ok s else .error .evictedPresent

/-- `insertCacheBlock`. -/
def insertCacheBlock (a : α) (state : CacheState) (victim : Option α) (c : ι) (s : Caches ι α) :
    Except Fault (Caches ι α) :=
  if s.cstate a c ≠ .invalid then .error .blockPresent
  else match s.evicted victim c with
    | none => .ok (s.setState a c state)
    | some v => H.evictBlock v (s.cstate v c) c ((s.setState v c .invalid).setState a c state)

/-- `copyDataFromNextLevel`. -/
def copyDataFromNextLevel (op : MemOp) (a : α) (victim : Option α) (n c : ι) (s : Caches ι α) :
    Except Fault (Caches ι α) :=
  if operationPermissible (s.cstate a n) op = false then .error .dataGone
  else if s.cstate a c ≠ .invalid then H.updateCacheBlock a (s.cstate a n) (H.level c) false c s
  else H.insertCacheBlock a (s.cstate a n) victim c s

/-- `initiateDirectoryAccess`, with `processUpgradeReqToDirectory`, `processExReqToDirectory` and
`processShReqToDirectory`. -/
def initiateDirectoryAccess (op : MemOp) (a : α) (s : Caches ι α) : Except Fault (Caches ι α × Outcome) :=
  if op = .read then .ok (s, .miss .shReq)
  else if s.cstate a H.root = .shared then .ok (s.setState a H.root .sharedUpgrading, .miss .upgradeReq)
  else if s.cstate a H.root = .invalid then .ok (s, .miss .exReq)
  else .error .exReqState

/-- A miss in the last level. -/
def lastLevelMiss (op : MemOp) (a : α) (victim : Option α) (requester : Option ι) (s : Caches ι α) :
    Except Fault (Caches ι α × Outcome) :=
  if s.cstate a H.root = .exclusive then do
    let s ← H.updateSiblings a .invalid requester H.root s
    .ok (s.setState a H.root .modified, .hit)
  else if H.dram then
    if s.cstate a H.root ≠ .invalid then .ok (s.setState a H.root .modified, .hit)
    else do
      let s ← H.insertCacheBlock a (if op = .read then .shared else .modified) victim H.root s
      .ok (s, .hit)
  else H.initiateDirectoryAccess op a s

/-- The controller of a core for a cache, as one of the previous caches of the next level. -/
def requester (core : ℕ) (c : ι) : Option ι := if H.isMasterCache core c then some c else none

/-- A hit: the other previous caches lose the line, or keep it as `SHARED`. -/
def snoopHit (op : MemOp) (a : α) (requester : Option ι) (c : ι) (s : Caches ι α) : Except Fault (Caches ι α) :=
  if op ≠ .read then H.updateSiblings a .invalid requester c s
  else if s.cstate a c = .modified ∨ s.cstate a c = .exclusive then H.updateSiblings a .shared requester c s
  else .ok s

/-- A miss: if this is a write to a `SHARED` line, the other previous caches lose it. -/
def snoopMiss (a : α) (requester : Option ι) (c : ι) (s : Caches ι α) : Except Fault (Caches ι α) :=
  if s.cstate a c = .shared then H.updateSiblings a .invalid requester c s else .ok s

/-- `processShmemReqFromPrevCache` of the first cache of a path to the last level. -/
def processShmemReq (core : ℕ) (op : MemOp) (a : α) (victims : ι → Option α) :
    List ι → Option ι → Caches ι α → Except Fault (Caches ι α × Outcome)
  | [], _, _ => .error .noCache
  | c :: rest, requester, s =>
    if operationPermissible (s.cstate a c) op then do
      let s ← H.snoopHit op a requester c s
      .ok (s, .hit)
    else do
      let s ← H.snoopMiss a requester c s
      match H.parent c with
      | some n => do
        let s ← s.dropBlock a c
        let p ← processShmemReq core op a victims rest (H.requester core c) s
        match p.2 with
        | .hit => do
          let s ← H.copyDataFromNextLevel op a (victims c) n c p.1
          .ok (s, .hit)
        | .miss request => .ok (p.1, .miss request)
      | none => H.lastLevelMiss op a (victims c) requester s

/-- `processExRepFromDramDirectory`, `processShRepFromDramDirectory` and `processUpgradeRepFromDramDirectory`. A reader
may be granted the line as `EXCLUSIVE`. -/
def processReply (request : Request) (grant : Bool) (a : α) (victim : Option α) (s : Caches ι α) :
    Except Fault (Caches ι α) :=
  match request with
  | .shReq => H.insertCacheBlock a (if grant then .exclusive else .shared) victim H.root s
  | .exReq => H.insertCacheBlock a .exclusive victim H.root s
  | .upgradeReq =>
    if s.cstate a H.root = .invalid then H.updateCacheBlock a .modified (H.level H.root) true H.root s
    else if s.cstate a H.root = .sharedUpgrading then H.updateCacheBlock a .modified (H.level H.root) false H.root s
    else .error .upgradeState

/-- A request from a cache on, with the answer of the directory to a miss and the second try after it. -/
def request (core : ℕ) (op : MemOp) (a : α) (grant : Bool) (victims : ι → Option α) (gone : Fault) (c : ι)
    (requester : Option ι) (s : Caches ι α) : Except Fault (Caches ι α) := do
  let p ← H.processShmemReq core op a victims (H.path c) requester s
  match p.2 with
  | .hit => .ok p.1
  | .miss request => do
    let s ← H.processReply request grant a (victims H.root) p.1
    let q ← H.processShmemReq core op a victims (H.path c) requester s
    if q.2 = .hit then .ok q.1 else .error gone

/-- `processMemOpFromCore`. -/
def processMemOpFromCore (core : ℕ) (op : MemOp) (a : α) (grant : Bool) (victims : ι → Option α) (l : ι)
    (s : Caches ι α) : Except Fault (Caches ι α) :=
  if operationPermissible (s.cstate a l) op then .ok s
  else do
    let s ← s.dropBlock a l
    match H.parent l with
    | some n => do
      let s ← H.request core op a grant victims .dataGone n (H.requester core l) s
      let s ← H.copyDataFromNextLevel op a (victims l) n l s
      if operationPermissible (s.cstate a l) op then .ok s else .error .notInL1
    | none => .error .noCache

/-- `doPrefetch`, after `Prefetch` has looked whether the line is there. -/
def doPrefetch (core : ℕ) (a : α) (grant : Bool) (victims : ι → Option α) (c : ι) (s : Caches ι α) :
    Except Fault (Caches ι α) :=
  if readable (s.cstate a c) then .ok s
  else H.request core .read a grant victims .prefetchGone c (H.requester core c) s

/-- `processInvReqFromDramDirectory`. -/
def processInvReq (a : α) (s : Caches ι α) : Except Fault (Caches ι α) :=
  if s.cstate a H.root = .invalid then .ok s
  else H.updateCacheBlock a .invalid (H.level H.root) false H.root s

/-- `processFlushReqFromDramDirectory`. -/
def processFlushReq (a : α) (s : Caches ι α) : Except Fault (Caches ι α) :=
  if s.cstate a H.root = .invalid then .ok s
  else H.updateCacheBlock a .invalid (H.level H.root) true H.root s

/-- `processWbReqFromDramDirectory`. -/
def processWbReq (a : α) (s : Caches ι α) : Except Fault (Caches ι α) :=
  if s.cstate a H.root = .invalid ∨ s.cstate a H.root = .sharedUpgrading then .ok s
  else H.updateCacheBlock a .shared (H.level H.root) true H.root s

end CacheTree

/-- An access with what else is chosen in it, or a message of the directory. -/
inductive Event (ι α : Type)
  | memOp (core : ℕ) (l : ι) (op : MemOp) (a : α) (grant : Bool) (victims : ι → Option α)
  | prefetch (core : ℕ) (c : ι) (a : α) (grant : Bool) (victims : ι → Option α)
  | invReq (a : α)
  | flushReq (a : α)
  | wbReq (a : α)

/-- One event. -/
def CacheTree.step (H : CacheTree ι) (s : Caches ι α) : Event ι α → Except Fault (Caches ι α)
  | .memOp core l op a grant victims => H.processMemOpFromCore core op a grant victims l s
  | .prefetch core c a grant victims => H.doPrefetch core a grant victims c s
  | .invReq a => H.processInvReq a s
  | .flushReq a => H.processFlushReq a s
  | .wbReq a => H.processWbReq a s

/-- The hierarchy as a machine. -/
def hierarchyMachine (H : CacheTree ι) : Machine (Caches ι α) (Event ι α) Fault := ⟨H.step⟩

/-- The events that there are: a core accesses a first-level cache, which is not the last level, and the directory sends
`INV_REQ` to sharers, whose copies are not `MODIFIED`. -/
def CacheTree.Issued (H : CacheTree ι) (s : Caches ι α) : Event ι α → Prop
  | .memOp _ l _ _ _ _ => H.children l = [] ∧ l ≠ H.root
  | .invReq a => s.cstate a H.root ≠ .modified
  | _ => True

end LifeSim.Hierarchy
