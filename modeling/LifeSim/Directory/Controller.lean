import LifeSim.Directory.Llc

/-!
# The directory controller

`DramDirectoryCntlr`, for one cache line and the `n` last-level caches. Requests for the line
wait in a queue and only the one at the front is worked on; a request that has to wait for
messages stays at the front, and a request that has been answered hands over to the next one.
The source does the latter by calling `processNextReqFromL2Cache`, always as the last thing
it does; here the handlers return whether that call follows.

Lines share nothing but the room in the directory. A line that is to be replaced is nullified
when its queue is empty, which is an event of its own.

The memory behind the directory is DRAM with a channel in each direction, and optionally a NUCA cache.
-/

namespace LifeSim.Directory

open LifeSim.Lib

/-- `CoherencyProtocol`. -/
inductive Protocol
  | msi
  | mesi
  | mesif
  deriving DecidableEq, Repr

/-- `Directory::DirectoryType`. -/
inductive DirectoryType
  | fullMap
  | limitedNoBroadcast
  | limitless
  deriving DecidableEq, Repr

/-- `DirectoryState`, without the state this protocol never enters. -/
inductive DirectoryState
  | uncached
  | shared
  | exclusive
  | modified
  deriving DecidableEq, Repr

/-- The requests that can be in the queue of a line. -/
inductive ReqType
  | shReq
  | exReq
  | upgradeReq
  | nullifyReq
  deriving DecidableEq, Repr

/-- The configuration. -/
structure Config (n : ℕ) where
  /-- `m_protocol`. -/
  protocol : Protocol
  directoryType : DirectoryType
  /-- `m_max_hw_sharers`. -/
  maxHwSharers : ℕ
  /-- `m_nuca_cache` is not `NULL`. -/
  nuca : Bool
  /-- What the forwarder of a new entry holds, which its constructor does not set. -/
  newForwarder : Option (Fin n)

variable {n : ℕ} {V : Type}

/-- `m_use_max_hw_sharers`. -/
def Config.useMaxHwSharers (cfg : Config n) : ℕ :=
  match cfg.directoryType with
  | .fullMap => n
  | _ => cfg.maxHwSharers

/-- `DirectoryEntry`; no core stands for `INVALID_CORE_ID`. -/
structure DirectoryEntry (n : ℕ) where
  dstate : DirectoryState
  sharers : Fin n → Bool
  owner : Option (Fin n)
  forwarder : Option (Fin n)

/-- `createDirectoryEntry`. -/
def Config.createDirectoryEntry (cfg : Config n) : DirectoryEntry n where
  dstate := .uncached
  sharers := fun _ => false
  owner := none
  forwarder := cfg.newForwarder

namespace DirectoryEntry

/-- `getSharersList`, in increasing order. -/
def getSharersList (e : DirectoryEntry n) : List (Fin n) :=
  (List.finRange n).filter e.sharers

/-- `getNumSharers`. -/
def getNumSharers (e : DirectoryEntry n) : ℕ :=
  e.getSharersList.length

/-- The result of `addSharer`: only the limited directory refuses a sharer. -/
def refusesSharer (cfg : Config n) (e : DirectoryEntry n) : Bool :=
  match cfg.directoryType with
  | .limitless => false
  | _ => cfg.useMaxHwSharers ≤ e.getNumSharers

/-- `addSharer`; nothing is returned when the sharer is refused. -/
def addSharer (cfg : Config n) (x : Fin n) (e : DirectoryEntry n) :
    Except Fault (Option (DirectoryEntry n)) :=
  if e.sharers x then .error .alreadySharer
  else if e.refusesSharer cfg then .ok none
  else .ok (some { e with sharers := Function.update e.sharers x true })

/-- `addSharer` where the result is asserted. -/
def addFirstSharer (cfg : Config n) (x : Fin n) (e : DirectoryEntry n) :
    Except Fault (DirectoryEntry n) := do
  match ← e.addSharer cfg x with
  | some e' => .ok e'
  | none => .error .addResult

/-- `removeSharer`. -/
def removeSharer (x : Fin n) (e : DirectoryEntry n) : Except Fault (DirectoryEntry n) :=
  if e.sharers x then .ok { e with sharers := Function.update e.sharers x false }
  else .error .notSharer

/-- `setOwner`. -/
def setOwner (x : Fin n) (e : DirectoryEntry n) : Except Fault (DirectoryEntry n) :=
  if e.sharers x then .ok { e with owner := some x } else .error .ownerNotSharer

/-- `getOneSharer`; `pick` is the random number. -/
def getOneSharer (pick : ℕ) (e : DirectoryEntry n) : Except Fault (Fin n) :=
  match e.getSharersList[pick % e.getNumSharers]? with
  | some x => .ok x
  | none => .error .noOwner

/-- `getOwner` as the receiver of a message. -/
def getOwner (e : DirectoryEntry n) : Except Fault (Fin n) :=
  match e.owner with
  | some x => .ok x
  | none => .error .noOwner

end DirectoryEntry

/-- `ShmemReq`. -/
structure ShmemReq (n : ℕ) where
  msgType : ReqType
  requester : Fin n
  /-- `m_wait_for_data`. -/
  waitForData : Bool
  /-- `m_forwarding_from`. -/
  forwardingFrom : Option (Fin n)
  /-- `setDataBuf` was called. The buffer belongs to a message that is deleted when its handler returns. -/
  dataBuf : Bool
  /-- History: the sharer that was asked to make room for the requester. -/
  victim : Option (Fin n)
  deriving DecidableEq, Repr

/-- A new request. -/
def ShmemReq.new (msgType : ReqType) (requester : Fin n) : ShmemReq n where
  msgType := msgType
  requester := requester
  waitForData := false
  forwardingFrom := none
  dataBuf := false
  victim := none

/-- The messages from the directory to DRAM. -/
inductive DramMsg (V : Type)
  | readReq
  | writeReq (data : Option V)
  deriving DecidableEq, Repr

/-- The line in the NUCA cache. -/
structure NucaBlock (V : Type) where
  data : Option V
  /-- The block is `MODIFIED`. -/
  modified : Bool
  deriving DecidableEq, Repr

/-- What decides about a step besides the state. -/
structure Env where
  /-- The random number of `getOneSharer`. -/
  pick : ℕ
  /-- `eviction` and `evict_address` of `sendDataToNUCA`, which a write hit leaves as they are on the
  stack, happen to ask for a write of this line. -/
  stray : Bool
  deriving DecidableEq, Repr

/-- One line: its directory entry and request queue, the last-level caches, the memory. -/
structure State (n : ℕ) (V : Type) where
  entry : Option (DirectoryEntry n)
  /-- `m_dram_directory_req_queue_list`. -/
  queue : List (ShmemReq n)
  llc : Fin n → Llc V
  toDram : List (DramMsg V)
  fromDram : List (Option V)
  dram : Option V
  nuca : Option (NucaBlock V)
  /-- History: the value of the latest write. -/
  lastWrite : V
  /-- History: the senders of the requests, in the order of their arrival. -/
  arrived : List (Fin n)
  /-- History: the receivers of the replies, in the order in which they were sent. -/
  replied : List (Fin n)

/-- Nothing is cached and memory holds `v`. -/
def initial (v : V) : State n V where
  entry := none
  queue := []
  llc := fun _ => .empty
  toDram := []
  fromDram := []
  dram := some v
  nuca := none
  lastWrite := v
  arrived := []
  replied := []

/-- A handler ends with the new state and says whether `processNextReqFromL2Cache` follows. -/
abbrev Outcome (n : ℕ) (V : Type) := State n V × Bool

namespace State

/-- `sendMsg` to a last-level cache. -/
def sendMsg (x : Fin n) (m : DirMsg V) (s : State n V) : State n V :=
  { s with llc := Function.update s.llc x { s.llc x with rx := (s.llc x).rx ++ [m] } }

/-- `sendMsg` in a loop. -/
def sendMsgs (msgs : List (Fin n × DirMsg V)) (s : State n V) : State n V :=
  msgs.foldl (fun s m => s.sendMsg m.1 m.2) s

/-- `sendMsg` of a reply. -/
def sendReply (x : Fin n) (m : DirMsg V) (s : State n V) : State n V :=
  { s.sendMsg x m with replied := s.replied ++ [x] }

/-- `getDirectoryEntry` followed by `processDirectoryEntryAllocationReq` where there is none. -/
def getDirectoryEntry (cfg : Config n) (s : State n V) : DirectoryEntry n :=
  s.entry.getD cfg.createDirectoryEntry

/-- The directory entry is changed in place. -/
def setEntry (e : DirectoryEntry n) (s : State n V) : State n V :=
  { s with entry := some e }

/-- `sendDataToNUCA`. A block that is not there yet is inserted without being marked as `MODIFIED`. -/
def sendDataToNUCA (cfg : Config n) (env : Env) (data : Option V) (s : State n V) : State n V :=
  if cfg.nuca then
    match s.nuca with
    | some _ =>
      { s with nuca := some ⟨data, true⟩
               toDram := if env.stray then s.toDram ++ [.writeReq none] else s.toDram }
    | none => { s with nuca := some ⟨data, false⟩ }
  else s

/-- `sendDataToDram`. -/
def sendDataToDram (cfg : Config n) (env : Env) (data : Option V) (s : State n V) : State n V :=
  if cfg.nuca then s.sendDataToNUCA cfg env data
  else { s with toDram := s.toDram ++ [.writeReq data] }

/-- The cache that MESIF asks for the data, if forwarding has not been tried before. -/
def forwardCandidate (cfg : Config n) (e : DirectoryEntry n) (req : ShmemReq n) : Option (Fin n) :=
  if cfg.protocol = .mesif ∧ req.forwardingFrom = none ∧ e.dstate = .shared then e.forwarder else none

/-- The part of `retrieveDataAndSendToL2Cache` for data that is neither at hand nor in the NUCA cache. -/
def fetchData (cfg : Config n) (e : DirectoryEntry n) (s : State n V) : Except Fault (Outcome n V) :=
  match s.queue with
  | [] => .error .emptyQueue
  | req :: rest =>
    match forwardCandidate cfg e req with
    | some y =>
      .ok ({ s with queue := { req with forwardingFrom := some y } :: rest }.sendMsg y .wbReq, false)
    | none =>
      .ok ({ s with queue := { req with waitForData := true } :: rest
                    toDram := s.toDram ++ [.readReq] }, false)

/-- `retrieveDataAndSendToL2Cache`; no buffer stands for `NULL`. -/
def retrieveDataAndSendToL2Cache (cfg : Config n) (rep : Option V → DirMsg V) (receiver : Fin n)
    (buf : Option (Option V)) (e : DirectoryEntry n) (s : State n V) : Except Fault (Outcome n V) :=
  match buf with
  | some data =>
    .ok ((s.setEntry { e with forwarder := some receiver }).sendReply receiver (rep data), true)
  | none =>
    match s.nuca with
    | some block => .ok ((s.setEntry e).sendReply receiver (rep block.data), true)
    | none => (s.setEntry e).fetchData cfg e

/-- `INV_REQ` to all sharers. -/
def invalidateSharers (e : DirectoryEntry n) (s : State n V) : State n V :=
  s.sendMsgs (e.getSharersList.map fun x => (x, .invReq))

/-- `processNullifyReq`. -/
def processNullifyReq (s : State n V) : Except Fault (Outcome n V) :=
  match s.entry with
  | none => .error .noEntry
  | some e =>
    match e.dstate with
    | .exclusive | .modified => do
      let owner ← e.getOwner
      .ok (s.sendMsg owner .flushReq, false)
    | .shared => .ok (s.invalidateSharers e, false)
    | .uncached => .ok ({ s with entry := none }, true)

/-- `processExReqFromL2Cache`. -/
def processExReqFromL2Cache (cfg : Config n) (req : ShmemReq n) (buf : Option (Option V))
    (s : State n V) : Except Fault (Outcome n V) :=
  let e := s.getDirectoryEntry cfg
  match e.dstate with
  | .exclusive | .modified =>
    if buf.isSome then .error .dataNotNull
    else do
      let owner ← e.getOwner
      .ok (s.sendMsg owner .flushReq, false)
  | .shared =>
    if buf.isSome then .error .dataNotNull else .ok (s.invalidateSharers e, false)
  | .uncached => do
    let e ← e.addFirstSharer cfg req.requester
    let e ← e.setOwner req.requester
    s.retrieveDataAndSendToL2Cache cfg .exRep req.requester buf { e with dstate := .modified }

/-- An `SH_REQ` for a line that is `EXCLUSIVE` or `MODIFIED`. -/
def writeBackOwner (buf : Option (Option V)) (e : DirectoryEntry n) (s : State n V) : Except Fault (Outcome n V) :=
  if buf.isSome then .error .dataNotNull
  else do
    let owner ← e.getOwner
    .ok (s.sendMsg owner .wbReq, false)

/-- `addSharer` was refused: one of the sharers has to go. -/
def makeRoom (env : Env) (e : DirectoryEntry n) (s : State n V) : Except Fault (Outcome n V) :=
  match s.queue with
  | [] => .error .emptyQueue
  | req :: rest => do
    let victim ← e.getOneSharer env.pick
    .ok ({ s with queue := { req with victim := some victim } :: rest }.sendMsg victim .invReq, false)

/-- `processShReqFromL2Cache`. -/
def processShReqFromL2Cache (cfg : Config n) (env : Env) (req : ShmemReq n) (buf : Option (Option V))
    (s : State n V) : Except Fault (Outcome n V) :=
  let e := s.getDirectoryEntry cfg
  match e.dstate with
  | .exclusive =>
    if e.owner = some req.requester then .error .requesterIsOwner else s.writeBackOwner buf e
  | .modified => s.writeBackOwner buf e
  | .shared =>
    if e.sharers req.requester then s.retrieveDataAndSendToL2Cache cfg .shRep req.requester buf e
    else do
      match ← e.addSharer cfg req.requester with
      | none => s.makeRoom env e
      | some e => s.retrieveDataAndSendToL2Cache cfg .shRep req.requester buf e
  | .uncached => do
    let e ← e.addFirstSharer cfg req.requester
    let e ← e.setOwner req.requester
    if cfg.protocol = .msi then
      s.retrieveDataAndSendToL2Cache cfg .shRep req.requester buf { e with dstate := .shared }
    else
      s.retrieveDataAndSendToL2Cache cfg .exRep req.requester buf { e with dstate := .exclusive }

/-- The messages of an upgrade of a line that others share. When the requester has lost its copy,
the first sharer is asked for the data. -/
def upgradeMsgs (requester : Fin n) (hasCopy : Bool) (sharers : List (Fin n)) : List (Fin n × DirMsg V) :=
  (sharers.zipIdx.filter fun x => x.1 ≠ requester).map fun x =>
    (x.1, if !hasCopy && x.2 == 0 then .flushReq else .invReq)

/-- An upgrade of a line that is `EXCLUSIVE` or `MODIFIED`. -/
def upgradeOwned (requester : Fin n) (e : DirectoryEntry n) (s : State n V) : Except Fault (Outcome n V) :=
  match e.getSharersList with
  | [] => .error .noOwner
  | x :: _ =>
    if x = requester then
      if e.owner = some requester then
        .ok ((s.setEntry { e with dstate := .modified }).sendReply requester .upgradeRep, true)
      else .error .requesterNotOwner
    else do
      let owner ← e.getOwner
      .ok (s.sendMsg owner .flushReq, false)

/-- An upgrade of a line that is `SHARED`. -/
def upgradeShared (requester : Fin n) (e : DirectoryEntry n) (s : State n V) : Except Fault (Outcome n V) :=
  if e.getSharersList = [requester] then do
    let e ← e.setOwner requester
    .ok ((s.setEntry { e with dstate := .modified }).sendReply requester .upgradeRep, true)
  else .ok (s.sendMsgs (upgradeMsgs requester (e.sharers requester) e.getSharersList), false)

/-- `processUpgradeReqFromL2Cache`. The stored buffer has been freed in the meantime. -/
def processUpgradeReqFromL2Cache (cfg : Config n) (req : ShmemReq n) (buf : Option (Option V))
    (s : State n V) : Except Fault (Outcome n V) :=
  let e := s.getDirectoryEntry cfg
  match e.dstate with
  | .exclusive | .modified => s.upgradeOwned req.requester e
  | .shared => s.upgradeShared req.requester e
  | .uncached =>
    if e.getSharersList ≠ [] then .error .uncachedSharers
    else do
      let e ← e.addFirstSharer cfg req.requester
      let e ← e.setOwner req.requester
      s.retrieveDataAndSendToL2Cache cfg .exRep req.requester
        (buf.or (if req.dataBuf then some none else none)) { e with dstate := .modified }

/-- The request at the front is worked on for the first time. -/
def processReq (cfg : Config n) (env : Env) (req : ShmemReq n) (s : State n V) : Except Fault (Outcome n V) :=
  match req.msgType with
  | .exReq => s.processExReqFromL2Cache cfg req none
  | .shReq => s.processShReqFromL2Cache cfg env req none
  | .upgradeReq => s.processUpgradeReqFromL2Cache cfg req none
  | .nullifyReq => .error .unrecognizedRequest

/-- `processNextReqFromL2Cache`. The number bounds the requests in the queue. -/
def processNextReqFromL2Cache (cfg : Config n) (env : Env) : ℕ → State n V → Except Fault (State n V)
  | 0, _ => .error .emptyQueue
  | k + 1, s =>
    match s.queue with
    | [] => .error .emptyQueue
    | _ :: [] => .ok { s with queue := [] }
    | _ :: req :: rest => do
      let (s, completed) ← { s with queue := req :: rest }.processReq cfg env req
      if completed then processNextReqFromL2Cache cfg env k s else .ok s

/-- The end of a handler. -/
def finish (cfg : Config n) (env : Env) (r : Outcome n V) : Except Fault (State n V) :=
  if r.2 then processNextReqFromL2Cache cfg env r.1.queue.length r.1 else .ok r.1

/-- A request of a last-level cache arrives. -/
def enqueueReq (cfg : Config n) (env : Env) (msgType : ReqType) (sender : Fin n) (s : State n V) :
    Except Fault (Outcome n V) :=
  let req := ShmemReq.new msgType sender
  let s := { s with queue := s.queue ++ [req], arrived := s.arrived ++ [sender] }
  if s.queue.length = 1 then s.processReq cfg env req else .ok (s, false)

/-- What `processInvRepFromL2Cache` does for the request at the front. -/
def resumeAfterInv (cfg : Config n) (env : Env) (sender : Fin n) (e : DirectoryEntry n) (s : State n V) :
    Except Fault (Outcome n V) :=
  match s.queue with
  | [] => .ok (s, false)
  | req :: _ =>
    match req.msgType with
    | .exReq =>
      if e.dstate = .uncached then s.processExReqFromL2Cache cfg req none else .ok (s, false)
    | .upgradeReq =>
      if e.getNumSharers = 1 then
        if e.sharers req.requester then s.processUpgradeReqFromL2Cache cfg req none else .ok (s, false)
      else if e.getNumSharers = 0 then
        (s.setEntry { e with dstate := .uncached }).processUpgradeReqFromL2Cache cfg req none
      else .ok (s, false)
    | .shReq =>
      if req.waitForData then .ok (s, false)
      else if req.forwardingFrom.isSome ∧ req.forwardingFrom ≠ some sender then .ok (s, false)
      else s.processShReqFromL2Cache cfg env req none
    | .nullifyReq => if e.dstate = .uncached then s.processNullifyReq else .ok (s, false)

/-- The directory entry after a copy has left: without sharers the line is `UNCACHED`. -/
def uncacheIfEmpty (e : DirectoryEntry n) : DirectoryEntry n :=
  if e.getNumSharers = 0 then { e with dstate := .uncached } else e

/-- `processInvRepFromL2Cache`. -/
def processInvRepFromL2Cache (cfg : Config n) (env : Env) (sender : Fin n) (s : State n V) :
    Except Fault (Outcome n V) :=
  match s.entry with
  | none => .error .noEntry
  | some e =>
    if e.dstate = .shared ∨ e.dstate = .exclusive then do
      let e ← e.removeSharer sender
      let e := uncacheIfEmpty
        { e with forwarder := if e.forwarder = some sender then none else e.forwarder }
      (s.setEntry e).resumeAfterInv cfg env sender e
    else .error .invRepState

/-- What `processFlushRepFromL2Cache` does with the data. -/
def resumeAfterFlush (cfg : Config n) (env : Env) (data : Option V) (e : DirectoryEntry n)
    (s : State n V) : Except Fault (Outcome n V) :=
  match s.queue with
  | [] => .ok (s.sendDataToDram cfg env data, false)
  | req :: rest =>
    match req.msgType with
    | .exReq => s.processExReqFromL2Cache cfg req (some data)
    | .shReq => (s.sendDataToDram cfg env data).processShReqFromL2Cache cfg env req (some data)
    | .upgradeReq =>
      if e.getNumSharers = 0 then s.processUpgradeReqFromL2Cache cfg req (some data)
      else .ok ({ s with queue := { req with dataBuf := true } :: rest }, false)
    | .nullifyReq => (s.sendDataToDram cfg env data).processNullifyReq

/-- `processFlushRepFromL2Cache`. -/
def processFlushRepFromL2Cache (cfg : Config n) (env : Env) (sender : Fin n) (data : Option V)
    (s : State n V) : Except Fault (Outcome n V) :=
  match s.entry with
  | none => .error .noEntry
  | some e =>
    if e.sharers sender then do
      let e ← e.removeSharer sender
      let e := uncacheIfEmpty { e with forwarder := none, owner := none }
      if e.getNumSharers ≠ 0 ∧ e.dstate ≠ .shared then .error .flushRepState
      else (s.setEntry e).resumeAfterFlush cfg env data e
    else .error .flushRepSharer

/-- `processWbRepFromL2Cache`. -/
def processWbRepFromL2Cache (cfg : Config n) (env : Env) (sender : Fin n) (data : Option V)
    (s : State n V) : Except Fault (Outcome n V) :=
  match s.entry with
  | none => .error .noEntry
  | some e =>
    if e.sharers sender then
      let s := s.setEntry { e with owner := none, dstate := .shared }
      match s.queue with
      | [] => .error .wbRepNoRequest
      | req :: _ =>
        if req.msgType = .shReq then s.processShReqFromL2Cache cfg env req (some data)
        else .error .wbRepRequest
    else .error .wbRepSharer

/-- `handleMsgFromL2Cache`. -/
def handleMsgFromL2Cache (cfg : Config n) (env : Env) (sender : Fin n) (m : LlcMsg V) (s : State n V) :
    Except Fault (Outcome n V) :=
  match m with
  | .exReq => s.enqueueReq cfg env .exReq sender
  | .shReq => s.enqueueReq cfg env .shReq sender
  | .upgradeReq => s.enqueueReq cfg env .upgradeReq sender
  | .invRep => s.processInvRepFromL2Cache cfg env sender
  | .flushRep data => s.processFlushRepFromL2Cache cfg env sender data
  | .wbRep data => s.processWbRepFromL2Cache cfg env sender data

/-- The type of the reply with which `processDRAMReply` answers a request. -/
def dramReplyType (msgType : ReqType) (dstate : DirectoryState) :
    Except Fault (Option V → DirMsg V) :=
  match msgType, dstate with
  | .shReq, .exclusive => .ok .exRep
  | .shReq, .shared => .ok .shRep
  | .shReq, _ => .error .dramReplyState
  | .exReq, .modified => .ok .exRep
  | .exReq, _ => .error .dramReplyState
  | .upgradeReq, _ => .ok .exRep
  | .nullifyReq, _ => .error .dramReplyRequest

/-- `processDRAMReply`. -/
def processDRAMReply (cfg : Config n) (env : Env) (data : Option V) (s : State n V) : Except Fault (Outcome n V) :=
  match s.queue, s.entry with
  | [], _ => .error .emptyQueue
  | _ :: _, none => .error .noEntry
  | req :: _, some e => do
    let rep ← dramReplyType req.msgType e.dstate
    .ok ((s.sendReply req.requester (rep data)).sendDataToNUCA cfg env data, true)

/-- The part of `processDirectoryEntryAllocationReq` that replaces this line. -/
def nullify (requester : Fin n) (s : State n V) : Except Fault (Outcome n V) :=
  { s with queue := s.queue ++ [ShmemReq.new .nullifyReq requester] }.processNullifyReq

/-- The NUCA cache evicts the block. -/
def evictNuca (s : State n V) : State n V :=
  match s.nuca with
  | some block =>
    { s with nuca := none
             toDram := if block.modified then s.toDram ++ [.writeReq block.data] else s.toDram }
  | none => s

/-- DRAM serves one message. -/
def serveDram (m : DramMsg V) (s : State n V) : State n V :=
  match m with
  | .readReq => { s with fromDram := s.fromDram ++ [s.dram] }
  | .writeReq data => { s with dram := data }

/-- A last-level cache has done something. -/
def setLlc (x : Fin n) (r : Llc V × V) (s : State n V) : State n V :=
  { s with llc := Function.update s.llc x r.1, lastWrite := r.2 }

/-- A message of a last-level cache is taken from its channel. -/
def popTx (x : Fin n) (tx : List (LlcMsg V)) (s : State n V) : State n V :=
  { s with llc := Function.update s.llc x { s.llc x with tx := tx } }

end State

/-- The events. -/
inductive Event (n : ℕ) (V : Type)
  /-- A core reads or writes. -/
  | access (x : Fin n) (a : Access V)
  /-- A last-level cache needs room for another line. -/
  | evict (x : Fin n)
  /-- A last-level cache takes the next message of the directory. -/
  | toLlc (x : Fin n)
  /-- The directory takes the next message of a last-level cache. -/
  | toDir (x : Fin n) (env : Env)
  /-- DRAM takes the next message. -/
  | dram
  /-- The directory takes the next reply of DRAM. -/
  | fromDram (env : Env)
  /-- The directory needs room for another line, on behalf of a request of `x` for that line. -/
  | nullify (x : Fin n) (env : Env)
  /-- The NUCA cache needs room for another line. -/
  | evictNuca
  deriving DecidableEq, Repr

/-- The eviction, if this is one, spares the line that waits for an upgrade. -/
def Event.Spares (s : State n V) : Event n V → Prop
  | .evict x => (s.llc x).cstate ≠ .sharedUpgrading
  | _ => True

instance (s : State n V) : (ev : Event n V) → Decidable (ev.Spares s)
  | .evict x => inferInstanceAs (Decidable ((s.llc x).cstate ≠ .sharedUpgrading))
  | .access .. | .toLlc _ | .toDir .. | .dram | .fromDram _ | .nullify .. | .evictNuca => isTrue trivial

open State in
/-- One step. An event that cannot happen in the state changes nothing. -/
def step (cfg : Config n) (s : State n V) : Event n V → Except Fault (State n V)
  | .access x a => ((s.llc x).access a s.lastWrite).map fun r => s.setLlc x r
  | .evict x => (s.llc x).evict.map fun l => s.setLlc x (l, s.lastWrite)
  | .toLlc x =>
    match (s.llc x).rx with
    | [] => .ok s
    | m :: rx =>
      ({ s.llc x with rx := rx }.handleMsg m s.lastWrite).map fun r => s.setLlc x r
  | .toDir x env =>
    match (s.llc x).tx with
    | [] => .ok s
    | m :: tx => (s.popTx x tx).handleMsgFromL2Cache cfg env x m >>= finish cfg env
  | .dram =>
    match s.toDram with
    | [] => .ok s
    | m :: rest => .ok ({ s with toDram := rest }.serveDram m)
  | .fromDram env =>
    match s.fromDram with
    | [] => .ok s
    | data :: rest => { s with fromDram := rest }.processDRAMReply cfg env data >>= finish cfg env
  | .nullify x env =>
    if s.entry.isSome ∧ s.queue = [] then s.nullify x >>= finish cfg env else .ok s
  | .evictNuca => .ok s.evictNuca

/-- The line as a machine. -/
def machine (n : ℕ) (V : Type) (cfg : Config n) : Machine (State n V) (Event n V) Fault where
  step := step cfg

end LifeSim.Directory
