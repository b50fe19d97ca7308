import LifeSim.Lib.Machine
import LifeSim.Sift.Reader

/-!
# Requests over two FIFOs

The calls of the writer that wait for an answer, and the reader that handles them. Requests and the results of memory
accesses travel in the trace; answers and memory requests travel in the response stream. The reader's handlers
are programs that may read and write the memory of the traced program before they return a value.

The two sides are separate processes: a step is a step of one of them. What a side sends is appended to a FIFO, and a side
that finds its FIFO empty is blocked. Returned values, answers and memory accesses are recorded on both sides.
-/

namespace LifeSim.Sift

open LifeSim.Lib

/-- The calls that wait for an answer. `EmuRequest` is a union of eight bytes. -/
inductive Request
  | instructionCount (icount : BitVec 32)
  | newThread
  | join (thread : BitVec 32)
  | fork
  | sync
  | syscall (number : BitVec 16) (data : List Byte)
  | magic (a b c : Word)
  | emulate (type : BitVec 16) (req : Word)
  deriving DecidableEq, Repr

/-- What such a call returns. `EmuReply` is a union of three words. -/
inductive Value
  | mode (m : BitVec 32)
  | int (v : BitVec 32)
  | word (v : Word)
  | emu (handled : Bool) (a b c : Word)
  deriving DecidableEq, Repr

namespace Request

/-- The value has the type that the call returns. -/
def Returns : Request → Value → Prop
  | instructionCount _, .mode _ => True
  | sync, .mode _ => True
  | newThread, .int _ => True
  | join _, .int _ => True
  | fork, .int _ => True
  | syscall _ _, .word _ => True
  | magic _ _ _, .word _ => True
  | emulate _ _, .emu _ _ _ _ => True
  | _, _ => False

/-- The writer handles memory requests while it waits. -/
def handlesMemory : Request → Bool
  | sync => true
  | syscall _ _ => true
  | magic _ _ _ => true
  | emulate _ _ => true
  | _ => false

/-- The record of a request. -/
def record : Request → List Byte
  | instructionCount icount => otherHeader .instructionCount 4 ++ leBytes 4 icount.toNat
  | newThread => otherHeader .newThread 0
  | join thread => otherHeader .join 4 ++ leBytes 4 thread.toNat
  | fork => otherHeader .fork 0
  | sync => otherHeader .sync 0
  | syscall number data => otherHeader .syscallRequest (2 + data.length) ++ leBytes 2 number.toNat ++ data
  | magic a b c => otherHeader .magicInstruction 24 ++ wordBytes a ++ wordBytes b ++ wordBytes c
  | emulate type req => otherHeader .emu (2 + 8) ++ leBytes 2 type.toNat ++ wordBytes req

/-- The type of record that answers a request. -/
def responseType : Request → RecOtherType
  | instructionCount _ => .syncResponse
  | newThread => .newThreadResponse
  | join _ => .joinResponse
  | fork => .forkResponse
  | sync => .syncResponse
  | syscall _ _ => .syscallResponse
  | magic _ _ _ => .magicInstructionResponse
  | emulate _ _ => .emuResponse

/-- An argument of a system call. -/
def syscallArg (data : List Byte) (k : ℕ) : Word := BitVec.ofNat 64 (ofLeBytes ((data.drop (8 * k)).take 8))

/-- The argument that is the address of data: the first one of `SYS_futex` and the second one of `SYS_write`. -/
def addressArg (number : BitVec 16) : Option ℕ := if number = 202 then some 0 else if number = 1 then some 1 else none

/-- The addresses that are read, and whose physical pages are sent, before a request. -/
def addresses : Request → List Word
  | syscall number data => (addressArg number).toList.map (syscallArg data)
  | _ => []

/-- The argument that `Syscall` looks up is in the payload, and `force_read` can read an `int` at the address it is. -/
def ForceRead (readable : Word → Bool) : Request → Prop
  | syscall number data =>
    ∀ k ∈ (addressArg number).toList, 8 * (k + 1) ≤ data.length ∧ readable (syscallArg data k) = true
  | _ => True

instance (readable : Word → Bool) : (q : Request) → Decidable (q.ForceRead readable)
  | syscall number _ => inferInstanceAs (Decidable (∀ k ∈ (addressArg number).toList, _ ∧ _))
  | instructionCount _ | newThread | join _ | fork | sync | magic .. | emulate .. => isTrue trivial

end Request

/-- The bytes of a value. -/
def Value.bytes : Value → List Byte
  | mode m => leBytes 4 m.toNat
  | int v => leBytes 4 v.toNat
  | word v => wordBytes v
  | emu handled a b c => [if handled then 1 else 0] ++ wordBytes a ++ wordBytes b ++ wordBytes c

/-- `sendSimpleResponse`, `sendSyscallResponse` and `sendEmuResponse`. -/
def Request.response (q : Request) (v : Value) : List Byte := otherHeader q.responseType v.bytes.length ++ v.bytes

/-! ### Memory accesses -/

/-- `MemoryLockType`. -/
inductive LockType
  | invalid
  | noLock
  | lock
  | unlock
  deriving DecidableEq, Repr

/-- The value of the enumerator. -/
def LockType.code : LockType → ℕ
  | invalid => 0
  | noLock => 1
  | lock => 2
  | unlock => 3

/-- The enumerator with a value. -/
def LockType.ofCode : ℕ → LockType
  | 1 => .noLock
  | 2 => .lock
  | 3 => .unlock
  | _ => .invalid

/-- `AccessMemory` with `MemRead` or `MemWrite`. -/
inductive Access
  | read (mode : LockType) (addr : Word) (size : BitVec 32)
  | write (mode : LockType) (addr : Word) (data : List Byte)
  deriving DecidableEq, Repr

namespace Access

def lockOf : Access → LockType
  | read mode _ _ => mode
  | write mode _ _ => mode

def addrOf : Access → Word
  | read _ addr _ => addr
  | write _ addr _ => addr

/-- `data_size`. -/
def dataSize : Access → ℕ
  | read _ _ size => size.toNat
  | write _ _ data => data.length

/-- The value of `MemRead` or `MemWrite`. -/
def opCode : Access → ℕ
  | read _ _ _ => 1
  | write _ _ _ => 2

/-- The bytes that are sent with the request. -/
def payload : Access → List Byte
  | read _ _ _ => []
  | write _ _ data => data

/-- The record that asks for an access. -/
def record (a : Access) : List Byte :=
  otherHeader .memoryRequest (20 + a.payload.length) ++ (wordBytes a.addrOf ++ (leBytes 4 a.dataSize ++
    (leBytes 4 a.lockOf.code ++ (leBytes 4 a.opCode ++ a.payload))))

end Access

/-- The record that reports an access, with the data that was read. -/
def memoryResponse (addr : Word) (opCode : ℕ) (data : List Byte) : List Byte :=
  otherHeader .memoryResponse (12 + data.length) ++ (wordBytes addr ++ (leBytes 4 opCode ++ data))

/-- `handleAccessMemoryFunc`: the memory of the traced program. A read fills the buffer that it is given. -/
structure Memory (μ : Type) where
  read : μ → LockType → Word → ℕ → μ × List Byte
  write : μ → LockType → Word → List Byte → μ
  length_read : ∀ m mode addr n, (read m mode addr n).2.length = n

/-- What a handler does: memory accesses, and then a value. -/
inductive Prog (α : Type)
  | ret (a : α)
  | access (a : Access) (k : List Byte → Prog α)

/-! ### The writer waits -/

/-- Why a side does not go on. -/
inductive ProtocolFault
  /-- It waits for its FIFO, or has nothing to do. -/
  | blocked
  | writer (f : WriterFault)
  | reader (f : ReaderFault)
  /-- `Syscall` reads its arguments behind the payload, or `force_read` an address that is not mapped. -/
  | forceRead
  /-- An assertion about the answer to a call. -/
  | response
  /-- An assertion in `handleMemoryRequest`. -/
  | memoryRequest
  /-- An assertion in `AccessMemory`. -/
  | memoryResponse
  deriving DecidableEq, Repr

namespace Response

/-- Read a number of bytes. -/
def bytes (n : ℕ) : Parser ProtocolFault (List Byte) := Parser.read n .blocked

/-- Read a number. -/
def number (n : ℕ) : Parser ProtocolFault ℕ := do return ofLeBytes (← bytes n)

/-- Read a word. -/
def word : Parser ProtocolFault Word := do return BitVec.ofNat 64 (← number 8)

end Response

/-- What a waiting writer gets. -/
inductive Answer
  | value (v : Value)
  | access (a : Access)
  /-- `Syscall` skips headers that it does not know. -/
  | skipped
  deriving DecidableEq, Repr

open Response in
/-- The value in an answer. -/
def Request.readValue (q : Request) (size : ℕ) : Parser ProtocolFault Value :=
  match q with
  | .instructionCount _ | .sync => do
    Parser.check (size = 4) .response
    return .mode (BitVec.ofNat 32 (← number 4))
  | .newThread | .join _ | .fork => do
    Parser.check (size = 4) .response
    return .int (BitVec.ofNat 32 (← number 4))
  | .syscall _ _ | .magic _ _ _ => do
    Parser.check (size = 8) .response
    return .word (← word)
  | .emulate _ _ => do
    Parser.check (size ≤ 1 + 24) .response
    let result ← number 1
    let reply ← bytes (size - 1)
    return .emu (result ≠ 0) (BitVec.ofNat 64 (ofLeBytes (reply.take 8)))
      (BitVec.ofNat 64 (ofLeBytes ((reply.drop 8).take 8))) (BitVec.ofNat 64 (ofLeBytes ((reply.drop 16).take 8)))

open Response in
/-- The part of `handleMemoryRequest` that reads the request. -/
def readAccess (recSize : ℕ) : Parser ProtocolFault Access := do
  Parser.check (20 ≤ recSize) .memoryRequest
  let addr ← word
  let size ← number 4
  let mode ← number 4
  let type ← number 4
  let payloadSize := recSize - 20
  if type = 1 then do
    Parser.check (payloadSize = 0 ∧ 0 < size) .memoryRequest
    return .read (LockType.ofCode mode) addr (BitVec.ofNat 32 size)
  else if type = 2 then do
    Parser.check (0 < payloadSize ∧ payloadSize = size) .memoryRequest
    let data ← bytes payloadSize
    return .write (LockType.ofCode mode) addr data
  else Parser.fail .memoryRequest

open Response in
/-- One record of the response stream, while a call waits. -/
def Request.readAnswer (q : Request) : Parser ProtocolFault Answer := do
  let first ← number 1
  let type ← number 1
  let size ← number 4
  Parser.check (first = 0) .response
  if type = q.responseType.code.toNat then do return .value (← q.readValue size)
  else if type = RecOtherType.memoryRequest.code.toNat ∧ q.handlesMemory = true then do return .access (← readAccess size)
  else
    match q with
    | .syscall _ _ => return .skipped
    | _ => Parser.fail .response

open Response in
/-- The part of `AccessMemory` that waits for the result. -/
def Access.readResult (a : Access) : Parser ProtocolFault (List Byte) := do
  let _ ← number 1
  let type ← number 1
  let recSize ← number 4
  Parser.check (type = RecOtherType.memoryResponse.code.toNat) .memoryResponse
  let addr ← word
  let _ ← number 4
  Parser.check (addr = a.addrOf) .memoryResponse
  -- the difference is taken in 64 bits and kept in 32
  let payloadSize := (recSize + 2 ^ 64 - 12) % 2 ^ 32
  match a with
  | .read _ _ size => do
    Parser.check (size.toNat = payloadSize) .memoryResponse
    bytes size.toNat
  | .write _ _ _ => do
    Parser.check (payloadSize = 0) .memoryResponse
    return []

/-! ### The system -/

/-- A call of the writer, with the page map that it finds and, for a request, the addresses at which an `int` can be
read. -/
inductive ClientCall
  | instruction (i : Insn) (pagemap : Word → Word)
  | request (q : Request) (pagemap : Word → Word) (readable : Word → Bool)

/-- Where the reader is. -/
inductive Phase (σ : Type)
  /-- In the loop of `Read`. -/
  | reading
  /-- In a handler. -/
  | handling (q : Request) (p : Prog (σ × Value))
  /-- In `AccessMemory`, waiting for the result. -/
  | accessing (q : Request) (a : Access) (k : List Byte → Prog (σ × Value))

/-- Both processes, the FIFOs between them, and what has happened. -/
structure System (σ μ : Type) where
  calls : List ClientCall
  writer : Writer
  /-- The call that waits for an answer. -/
  waiting : Option Request
  memory : μ
  reader : Reader
  phase : Phase σ
  /-- What the handlers keep between calls. -/
  handlerState : σ
  requests : List Byte
  responses : List Byte
  /-- History: the instructions written and those read. -/
  written : List Insn
  seen : List Item
  /-- History: the calls that have returned, and the requests that were handled, with their values. -/
  returned : List (Request × Value)
  answered : List (Request × Value)
  /-- History: memory accesses as the writer carried them out, and as the reader saw them, with the data read. -/
  served : List (Access × List Byte)
  accessed : List (Access × List Byte)

/-- The surroundings of the two processes: the writer's configuration, code and memory and the reader's handlers. -/
structure Context (σ μ : Type) where
  cfg : Config
  code : Word → Byte
  memory : Memory μ
  handler : σ → Request → Prog (σ × Value)

/-- The processes before the first call. -/
def System.start {σ μ : Type} (calls : List ClientCall) (memory : μ) (handlerState : σ) : System σ μ where
  calls := calls
  writer := .new
  waiting := none
  memory := memory
  reader := .new
  phase := .reading
  handlerState := handlerState
  requests := []
  responses := []
  written := []
  seen := []
  returned := []
  answered := []
  served := []
  accessed := []

/-- The request that an item is. -/
def Item.request : Item → Option Request
  | .instructionCount icount => some (.instructionCount icount)
  | .newThread => some .newThread
  | .join thread => some (.join thread)
  | .fork => some .fork
  | .sync => some .sync
  | .syscall number data => some (.syscall number data)
  | .magic a b c => some (.magic a b c)
  | .emu type req => some (.emulate type (BitVec.ofNat 64 (ofLeBytes req)))
  | _ => none

variable {σ μ : Type}

/-- The writer makes its next call. -/
def System.nextCall (ctx : Context σ μ) (s : System σ μ) : Except ProtocolFault (System σ μ) :=
  match s.calls with
  | [] => .error .blocked
  | .instruction i pagemap :: calls =>
    match s.writer.instruction ctx.code pagemap ctx.cfg i with
    | .error f => .error (.writer f)
    | .ok (w, sent) =>
      .ok { s with calls := calls, writer := w, requests := s.requests ++ sent, written := s.written ++ [i] }
  | .request q pagemap readable :: calls =>
    if q.ForceRead readable then
      let (w, sent) := s.writer.sendVa2pas pagemap ctx.cfg q.addresses
      .ok { s with calls := calls, writer := w, waiting := some q, requests := s.requests ++ (sent ++ q.record) }
    else .error .forceRead

/-- `handleAccessMemoryFunc` and the report of the access. -/
def System.serve (ctx : Context σ μ) (a : Access) (s : System σ μ) : System σ μ :=
  match a with
  | .read mode addr size =>
    let (m, data) := ctx.memory.read s.memory mode addr size.toNat
    { s with
      memory := m
      requests := s.requests ++ memoryResponse addr 1 data
      served := s.served ++ [(a, data)] }
  | .write mode addr data =>
    { s with
      memory := ctx.memory.write s.memory mode addr data
      requests := s.requests ++ memoryResponse addr 2 []
      served := s.served ++ [(a, [])] }

/-- A step of the writer. -/
def System.writerStep (ctx : Context σ μ) (s : System σ μ) : Except ProtocolFault (System σ μ) :=
  match s.waiting with
  | none => s.nextCall ctx
  | some q =>
    match q.readAnswer s.responses with
    | .error f => .error f
    | .ok (.value v, rest) =>
      .ok { s with waiting := none, responses := rest, returned := s.returned ++ [(q, v)] }
    | .ok (.access a, rest) => .ok ({ s with responses := rest }.serve ctx a)
    | .ok (.skipped, rest) => .ok { s with responses := rest }

/-- A step of the reader. -/
def System.readerStep (ctx : Context σ μ) (s : System σ μ) : Except ProtocolFault (System σ μ) :=
  match s.phase with
  | .reading =>
    match s.reader.readRecord s.requests with
    | .error .endOfStream => .error .blocked
    | .error f => .error (.reader f)
    | .ok ((r, none), rest) => .ok { s with reader := r, requests := rest }
    | .ok ((r, some item), rest) =>
      match item.request with
      | some q => .ok { s with reader := r, requests := rest, phase := .handling q (ctx.handler s.handlerState q) }
      | none => .ok { s with reader := r, requests := rest, seen := s.seen ++ [item] }
  | .handling q (.ret (h, v)) =>
    .ok { s with
      phase := .reading
      handlerState := h
      responses := s.responses ++ q.response v
      answered := s.answered ++ [(q, v)] }
  | .handling q (.access a k) => .ok { s with phase := .accessing q a k, responses := s.responses ++ a.record }
  | .accessing q a k =>
    match a.readResult s.requests with
    | .error f => .error f
    | .ok (data, rest) =>
      .ok { s with phase := .handling q (k data), requests := rest, accessed := s.accessed ++ [(a, data)] }

/-- Which process takes a step. -/
inductive Side
  | writer
  | reader
  deriving DecidableEq, Repr

/-- The two processes as one machine. -/
def protocol (ctx : Context σ μ) : Machine (System σ μ) Side ProtocolFault where
  step s side :=
    match side with
    | .writer => s.writerStep ctx
    | .reader => s.readerStep ctx

end LifeSim.Sift
