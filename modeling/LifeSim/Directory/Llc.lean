import Mathlib
import LifeSim.Lib.Machine
import LifeSim.Lib.Checked

/-!
# The last-level cache side of the directory protocol

The part of `CacheCntlr` that talks to the DRAM directory, for one cache line. A last-level
cache stands here for the whole stack of caches below it: what an upper level holds is written
back before the last level answers, so that the data of the line is one value.

A read or a write that cannot be done in place becomes a waiter, and the first waiter of a line
sends the request. A reply wakes the waiters in order, until a write finds the line `SHARED`
and the request goes on as an upgrade.

A buffer whose contents are undefined is `none`.
-/

namespace LifeSim.Directory

open LifeSim.Lib

/-- `CacheState`, without the states this protocol never enters. -/
inductive CacheState
  | invalid
  | shared
  | sharedUpgrading
  | exclusive
  | modified
  deriving DecidableEq, Repr

/-- What a core asks of its last-level cache. -/
inductive Access (V : Type)
  | read
  | write (v : V)
  deriving DecidableEq, Repr

/-- The messages from the directory to a last-level cache. -/
inductive DirMsg (V : Type)
  | shRep (data : Option V)
  | exRep (data : Option V)
  | upgradeRep
  | invReq
  | flushReq
  | wbReq
  deriving DecidableEq, Repr

/-- The messages from a last-level cache to the directory. -/
inductive LlcMsg (V : Type)
  | shReq
  | exReq
  | upgradeReq
  | invRep
  | flushRep (data : Option V)
  | wbRep (data : Option V)
  deriving DecidableEq, Repr

/-- The assertions of the two controllers, and what else ends the simulation. -/
inductive Fault
  /-- `processExReqToDirectory`: the block is not `INVALID`. -/
  | exReqState
  /-- `insertCacheBlock`: the block is already there. -/
  | blockPresent
  /-- `insertCacheBlock`: the evicted block is neither `MODIFIED` nor `SHARED` nor `EXCLUSIVE`. -/
  | evictState
  /-- `handleMsgFromDramDirectory`: nobody waits for the reply. -/
  | noWaiter
  /-- `processUpgradeRepFromDramDirectory`: the block is `INVALID` and the message has no data. -/
  | upgradeNoData
  /-- `processUpgradeRepFromDramDirectory`: the block is not `SHARED_UPGRADING`. -/
  | upgradeState
  /-- `updateCacheBlock`: `MODIFIED` data is about to get lost. -/
  | modifiedLost
  /-- `addSharer` of a sharer. -/
  | alreadySharer
  /-- `removeSharer` of a core that is no sharer. -/
  | notSharer
  /-- `setOwner` with a core that is no sharer. -/
  | ownerNotSharer
  /-- `addSharer` refused a sharer of an `UNCACHED` line. -/
  | addResult
  /-- A message is sent to `INVALID_CORE_ID`, or the first sharer of an empty list is read. -/
  | noOwner
  /-- `cached_data_buf` is not `NULL`. -/
  | dataNotNull
  /-- `processShReqFromL2Cache`: the requester is the owner. -/
  | requesterIsOwner
  /-- `processUpgradeReqFromL2Cache`: the requester is not the owner. -/
  | requesterNotOwner
  /-- `processUpgradeReqFromL2Cache`: an `UNCACHED` line has sharers. -/
  | uncachedSharers
  /-- There is no directory entry. -/
  | noEntry
  /-- There is no request in the queue. -/
  | emptyQueue
  /-- `processNextReqFromL2Cache`: unrecognized request. -/
  | unrecognizedRequest
  /-- `processInvRepFromL2Cache`: the line is neither `SHARED` nor `EXCLUSIVE`. -/
  | invRepState
  /-- `processFlushRepFromL2Cache`: the sender is no sharer. -/
  | flushRepSharer
  /-- `processFlushRepFromL2Cache`: there are other sharers and the line is not `SHARED`. -/
  | flushRepState
  /-- `processWbRepFromL2Cache`: the sender is no sharer. -/
  | wbRepSharer
  /-- `processWbRepFromL2Cache`: the request at the front is no `SH_REQ`. -/
  | wbRepRequest
  /-- `processWbRepFromL2Cache`: there is no request. -/
  | wbRepNoRequest
  /-- `processDRAMReply`: the directory state does not fit the request. -/
  | dramReplyState
  /-- `processDRAMReply`: unsupported request type. -/
  | dramReplyRequest
  deriving DecidableEq, Repr

variable {V : Type}

/-- One line in one last-level cache, with the two channels that connect it to the directory. -/
structure Llc (V : Type) where
  cstate : CacheState
  data : Option V
  /-- `m_directory_waiters`. -/
  waiters : List (Access V)
  /-- The messages on their way from the directory, the oldest first. -/
  rx : List (DirMsg V)
  /-- The messages on their way to the directory, the oldest first. -/
  tx : List (LlcMsg V)

namespace Llc

/-- The line is not cached and nothing is on its way. -/
def empty : Llc V where
  cstate := .invalid
  data := none
  waiters := []
  rx := []
  tx := []

/-- The line leaves the cache with a message to the directory. -/
def leave (l : Llc V) (m : LlcMsg V) : Llc V :=
  { l with cstate := .invalid, data := none, tx := l.tx ++ [m] }

/-- `processUpgradeReqToDirectory`. -/
def processUpgradeReqToDirectory (l : Llc V) : Llc V :=
  { l with cstate := .sharedUpgrading, tx := l.tx ++ [.upgradeReq] }

/-- `processExReqToDirectory`. -/
def processExReqToDirectory (l : Llc V) : Except Fault (Llc V) :=
  if l.cstate = .invalid then .ok { l with tx := l.tx ++ [.exReq] } else .error .exReqState

/-- `processShReqToDirectory`. -/
def processShReqToDirectory (l : Llc V) : Llc V :=
  { l with tx := l.tx ++ [.shReq] }

/-- `initiateDirectoryAccess`: only the first waiter sends a request. -/
def initiateDirectoryAccess (a : Access V) (l : Llc V) : Except Fault (Llc V) :=
  let l' := { l with waiters := l.waiters ++ [a] }
  if l.waiters = [] then
    match a with
    | .read => .ok l'.processShReqToDirectory
    | .write _ =>
      if l.cstate = .shared then .ok l'.processUpgradeReqToDirectory else l'.processExReqToDirectory
  else .ok l'

/-- `processShmemReqFromPrevCache` at the last level. A write to an `EXCLUSIVE` line upgrades it
silently. `last` is the value of the latest write to the line anywhere. -/
def access (a : Access V) (l : Llc V) (last : V) : Except Fault (Llc V × V) :=
  match a, l.cstate with
  | .read, .shared => .ok (l, last)
  | .read, .exclusive => .ok (l, last)
  | .read, .modified => .ok (l, last)
  | .write v, .exclusive => .ok ({ l with cstate := .modified, data := some v }, v)
  | .write v, .modified => .ok ({ l with data := some v }, v)
  | a, _ => (l.initiateDirectoryAccess a).map fun l' => (l', last)

/-- The eviction of the line by `insertCacheBlock` of another one. A line that is not there is not evicted. -/
def evict (l : Llc V) : Except Fault (Llc V) :=
  match l.cstate with
  | .invalid => .ok l
  | .modified => .ok (l.leave (.flushRep l.data))
  | .shared => .ok (l.leave .invRep)
  | .exclusive => .ok (l.leave .invRep)
  | .sharedUpgrading => .error .evictState

/-- Only a line that waits for an upgrade cannot be evicted. -/
theorem evict_eq_error {l : Llc V} {f : Fault} :
    l.evict = .error f ↔ l.cstate = .sharedUpgrading ∧ f = .evictState := by
  unfold evict
  cases l.cstate <;> simp [eq_comm]

/-- The loop over `m_directory_waiters` after a reply. -/
def wakeWaiters : List (Access V) → Llc V → V → Llc V × V
  | [], l, last => ({ l with waiters := [] }, last)
  | .read :: ws, l, last => wakeWaiters ws l last
  | .write v :: ws, l, last =>
    if l.cstate = .shared then
      ({ l with waiters := .write v :: ws }.processUpgradeReqToDirectory, last)
    else wakeWaiters ws { l with cstate := .modified, data := some v } v

/-- `processShRepFromDramDirectory` and `processExRepFromDramDirectory`. -/
def insertCacheBlock (cstate : CacheState) (data : Option V) (l : Llc V) : Except Fault (Llc V) :=
  if l.cstate = .invalid then .ok { l with cstate := cstate, data := data } else .error .blockPresent

/-- `processUpgradeRepFromDramDirectory`. -/
def processUpgradeRep (l : Llc V) : Except Fault (Llc V) :=
  match l.cstate with
  | .invalid => .error .upgradeNoData
  | .sharedUpgrading => .ok { l with cstate := .modified }
  | _ => .error .upgradeState

/-- `processInvReqFromDramDirectory`. -/
def processInvReq (l : Llc V) : Except Fault (Llc V) :=
  match l.cstate with
  | .invalid => .ok l
  | .modified => .error .modifiedLost
  | _ => .ok (l.leave .invRep)

/-- `processFlushReqFromDramDirectory`. -/
def processFlushReq (l : Llc V) : Llc V :=
  match l.cstate with
  | .invalid => l
  | _ => l.leave (.flushRep l.data)

/-- `processWbReqFromDramDirectory`. The buffer is not filled when the block is `SHARED_UPGRADING`. -/
def processWbReq (l : Llc V) : Llc V :=
  match l.cstate with
  | .invalid => l
  | .sharedUpgrading => { l with tx := l.tx ++ [.wbRep none] }
  | _ => { l with cstate := .shared, tx := l.tx ++ [.wbRep l.data] }

/-- `handleMsgFromDramDirectory` for a reply: there is a waiter, and the waiters are woken at the end. -/
def handleReply (process : Llc V → Except Fault (Llc V)) (l : Llc V) (last : V) :
    Except Fault (Llc V × V) :=
  if l.waiters = [] then .error .noWaiter
  else (process l).map fun l' => wakeWaiters l'.waiters l' last

/-- `handleMsgFromDramDirectory`. -/
def handleMsg (m : DirMsg V) (l : Llc V) (last : V) : Except Fault (Llc V × V) :=
  match m with
  | .shRep d => l.handleReply (insertCacheBlock .shared d) last
  | .exRep d => l.handleReply (insertCacheBlock .exclusive d) last
  | .upgradeRep => l.handleReply processUpgradeRep last
  | .invReq => l.processInvReq.map fun l' => (l', last)
  | .flushReq => .ok (l.processFlushReq, last)
  | .wbReq => .ok (l.processWbReq, last)

end Llc

end LifeSim.Directory
