import LifeSim.Sift.Writer

/-!
# Reading a SIFT trace

`sift_reader.cc`: one record at a time, and `Read` as the loop over records. Pages of code are kept as
functions of the offset, and a place that was never written has no value. Decoded instructions live on a heap and
are pointed to by their position: `scache` finds them by address, and each one may point to the instruction that
followed it the last time.

What a record leads to is an item: an instruction that `Read` returns or a call of a handler. Records that only fill the
reader's tables lead to nothing. The answers to requests are written to another stream and are not part of this module.
The decoder is assumed to accept the code bytes, and all handlers are set.
-/

namespace LifeSim.Sift

open LifeSim.Lib

/-- A page of code. -/
abbrev Page := ℕ → Option Byte

/-- `StaticInstruction`, without what the decoder says about it. -/
structure StaticInstruction where
  addr : Word
  size : Byte
  data : List (Option Byte)
  next : Option ℕ
  deriving DecidableEq, Repr, Inhabited

/-- `Sift::Instruction`. -/
structure Instruction where
  /-- A pointer to a static instruction. -/
  sinst : ℕ
  addresses : List Word
  isBranch : Bool
  taken : Bool
  isPredicate : Bool
  executed : Bool
  deriving DecidableEq, Repr

/-- What the reader calls or returns. -/
inductive Item
  /-- An instruction is returned, with what its pointer leads to. -/
  | instruction (inst : Instruction) (sinst : StaticInstruction)
  | instructionCount (icount : BitVec 32)
  | cacheOnly (icount type : Byte) (eip address : Word)
  | output (fd : Byte) (bytes : List Byte)
  | syscall (number : BitVec 16) (bytes : List Byte)
  | newThread
  | join (thread : BitVec 32)
  | sync
  | fork
  | magic (a b c : Word)
  | emu (type : BitVec 16) (req : List Byte)
  | routineChange (event : Byte) (eip esp callEip : Word)
  | routineAnnounce (eip : Word) (name imgname : List Byte) (offset : Word) (line column : BitVec 32)
      (filename : List Byte)
  /-- The end of the trace. -/
  | end
  deriving DecidableEq, Repr

/-- `Read` returns with this item. -/
def Item.isLast : Item → Bool
  | .instruction _ _ => true
  | .end => true
  | _ => false

/-- `Sift::Reader`. -/
structure Reader where
  lastAddress : Word
  icache : Word → Option Page
  /-- The static instructions that were made. -/
  heap : List StaticInstruction
  scache : Word → Option ℕ
  vcache : Word → Option Word
  traceHasPa : Bool
  seenEnd : Bool
  lastSinst : Option ℕ

/-- Why the reader stops. -/
inductive ReaderFault
  | endOfStream
  /-- An assertion about the header of the file. -/
  | header
  /-- A compressed trace, which is not part of the model. -/
  | compressed
  /-- An assertion about `rec.Other.size`. -/
  | recordSize (type : RecOtherType)
  /-- `assert(icache.count(base_addr))`. -/
  | noCode
  /-- `assert(sinst->size == size)`. -/
  | insnSize
  deriving DecidableEq, Repr

/-- The constructor. -/
def Reader.new : Reader := ⟨0, fun _ => none, [], fun _ => none, fun _ => none, false, false, none⟩

namespace Reader

/-- Read a number of bytes. -/
def bytes (n : ℕ) : Parser ReaderFault (List Byte) := Parser.read n .endOfStream

/-- Read a number. -/
def number (n : ℕ) : Parser ReaderFault ℕ := do return ofLeBytes (← bytes n)

/-- Read a word. -/
def word : Parser ReaderFault Word := do return BitVec.ofNat 64 (← number 8)

/-- Read a byte. -/
def byte : Parser ReaderFault Byte := do return BitVec.ofNat 8 (← number 1)

/-- `initStream`: the header of the file. The decoder's mode is not kept. -/
def initStream (r : Reader) : Parser ReaderFault Reader := do
  let magic ← number 4
  let size ← number 4
  let options ← word
  Parser.check (magic = magicNumber ∧ size = 0) .header
  Parser.check (options &&& 1#64 = 0#64) .compressed
  -- no option that the reader does not know
  Parser.check (options &&& ~~~(0xf#64) = 0#64) .header
  return { r with traceHasPa := options &&& 8#64 ≠ 0#64 }

/-- Put bytes into a page. -/
def writePage (page : Page) (offset : ℕ) (chunk : List Byte) : Page := fun k =>
  if offset ≤ k ∧ k < offset + chunk.length then chunk[k - offset]? else page k

/-- Code arrives for a part of a page. -/
def storeCode (address : Word) (chunk : List Byte) (r : Reader) : Reader :=
  let page := (r.icache (pageOf address)).getD fun _ => none
  { r with icache := Function.update r.icache (pageOf address) (some (writePage page (offsetOf address) chunk)) }

/-- The loop that reads code of any length into the pages it belongs to. Each round reads a byte or more. -/
def readVariable : ℕ → Word → ℕ → Reader → Parser ReaderFault Reader
  | 0, _, _, r => pure r
  | fuel + 1, address, sizeLeft, r =>
    if sizeLeft = 0 then pure r
    else do
      let chunk ← bytes (min sizeLeft (icacheSize - offsetOf address))
      readVariable fuel (pageOf address + BitVec.ofNat 64 icacheSize) (sizeLeft - chunk.length)
        (r.storeCode address chunk)

/-- The loop of `decodeInstruction` that collects the code. -/
def copyCode (icache : Word → Option Page) : ℕ → Word → ℕ → ℕ → Option (List (Option Byte))
  | 0, _, _, _ => some []
  | fuel + 1, baseAddr, offset, size =>
    if size = 0 then some []
    else
      match icache baseAddr with
      | none => none
      | some page =>
        let n := min size (icacheSize - offset)
        (copyCode icache fuel (baseAddr + BitVec.ofNat 64 icacheSize) 0 (size - n)).map fun rest =>
          (List.range n).map (fun k => page (offset + k)) ++ rest

/-- `decodeInstruction`. -/
def decodeInstruction (addr : Word) (size : Byte) (r : Reader) : Except ReaderFault StaticInstruction :=
  match copyCode r.icache size.toNat (pageOf addr) (offsetOf addr) size.toNat with
  | none => .error .noCode
  | some data => .ok ⟨addr, size, data, none⟩

/-- The instruction after the last one, if it is the one at this address. -/
def nextSinst (addr : Word) (r : Reader) : Option ℕ := do
  let last ← r.lastSinst
  let sinst ← r.heap[last]?
  let next ← sinst.next
  let nextSinst ← r.heap[next]?
  if nextSinst.addr = addr then some next else none

/-- The static instruction is found or made. -/
def findSinst (addr : Word) (size : Byte) (r : Reader) : Except ReaderFault (Reader × ℕ) :=
  match r.nextSinst addr with
  | some i => .ok (r, i)
  | none =>
    match r.scache addr with
    | some i =>
      if (r.heap[i]?.map StaticInstruction.size) = some size then .ok (r, i) else .error .insnSize
    | none =>
      match r.decodeInstruction addr size with
      | .error f => .error f
      | .ok sinst =>
        .ok ({ r with heap := r.heap ++ [sinst], scache := Function.update r.scache addr (some r.heap.length) },
          r.heap.length)

/-- The last instruction remembers what came after it, unless it does already. -/
def linkLast (i : ℕ) (r : Reader) : Reader :=
  match r.lastSinst with
  | none => { r with lastSinst := some i }
  | some last =>
    { r with
      heap := r.heap.modify last fun sinst => { sinst with next := some (sinst.next.getD i) }
      lastSinst := some i }

/-- `getStaticInstruction`. -/
def getStaticInstruction (addr : Word) (size : Byte) (r : Reader) : Except ReaderFault (Reader × ℕ) :=
  match r.findSinst addr size with
  | .error f => .error f
  | .ok (r, i) => .ok (r.linkLast i, i)

/-- An instruction is looked up after its record has been read. -/
def foundInstruction (addr : Word) (size : Byte) (inst : ℕ → Instruction) (r : Reader) :
    Parser ReaderFault (Reader × Option Item) := fun input =>
  match { r with lastAddress := addr + size.setWidth 64 }.getStaticInstruction addr size with
  | .error f => .error f
  | .ok (r, i) => .ok ((r, some (.instruction (inst i) (r.heap.getD i default))), input)

/-- The addresses after an instruction record. -/
def readAddresses : ℕ → Parser ReaderFault (List Word)
  | 0 => pure []
  | n + 1 => do
    let a ← word
    let rest ← readAddresses n
    return a :: rest

/-- `Record::Instruction`. -/
def readSimple (r : Reader) : Parser ReaderFault (Reader × Option Item) := do
  let b ← byte
  let addresses ← readAddresses (b >>> 4 &&& 3#8).toNat
  foundInstruction r.lastAddress (b &&& 0xf#8)
    (fun sinst => ⟨sinst, addresses, (b >>> 6 &&& 1#8) = 1#8, (b >>> 7 &&& 1#8) = 1#8, false, true⟩) r

/-- `Record::InstructionExt`. -/
def readExt (r : Reader) : Parser ReaderFault (Reader × Option Item) := do
  let b ← byte
  let c ← byte
  let addr ← word
  let addresses ← readAddresses (c &&& 3#8).toNat
  foundInstruction addr (b >>> 4)
    (fun sinst => ⟨sinst, addresses, (c >>> 2 &&& 1#8) = 1#8, (c >>> 3 &&& 1#8) = 1#8, (c >>> 4 &&& 1#8) = 1#8,
      (c >>> 5 &&& 1#8) = 1#8⟩) r

/-- An assertion about the size of a record. -/
def checkSize (type : RecOtherType) (c : Prop) [Decidable c] : Parser ReaderFault Unit :=
  Parser.check c (.recordSize type)

/-- A difference of sizes in 64 bits. -/
def sizeMinus (size n : ℕ) : ℕ := (size + 2 ^ 64 - n) % 2 ^ 64

/-- A C string of a routine announcement, as the buffer it is read into. -/
def readString : Parser ReaderFault (List Byte) := do bytes (← number 2)

/-- The body of a record with the header of `Record::Other`. -/
def readBody (type : RecOtherType) (size : ℕ) (r : Reader) : Parser ReaderFault (Reader × Option Item) :=
  match type with
  | .end => do
    checkSize .end (size = 0)
    return ({ r with seenEnd := true }, some .end)
  | .icache => do
    checkSize .icache (size = 8 + icacheSize)
    let address ← word
    let page ← bytes icacheSize
    return ({ r with icache := Function.update r.icache address (some fun k => page[k]?) }, none)
  | .icacheVariable => do
    let address ← word
    let r ← readVariable (sizeMinus size 8) address (sizeMinus size 8) r
    return (r, none)
  | .logical2Physical => do
    checkSize .logical2Physical (size = 16)
    let vp ← word
    let pp ← word
    return ({ r with vcache := Function.update r.vcache vp (some pp) }, none)
  | .instructionCount => do
    checkSize .instructionCount (size = 4)
    let icount ← number 4
    return (r, some (.instructionCount (BitVec.ofNat 32 icount)))
  | .cacheOnly => do
    checkSize .cacheOnly (size = 18)
    let icount ← byte
    let kind ← byte
    let eip ← word
    let address ← word
    return (r, some (.cacheOnly icount kind eip address))
  | .output => do
    checkSize .output (size > 1)
    let fd ← byte
    let data ← bytes (size - 1)
    return (r, some (.output fd data))
  | .syscallRequest => do
    checkSize .syscallRequest (size > 2)
    let syscallNumber ← number 2
    let data ← bytes (size - 2)
    return (r, some (.syscall (BitVec.ofNat 16 syscallNumber) data))
  | .newThread => do
    checkSize .newThread (size = 0)
    return (r, some .newThread)
  | .join => do
    checkSize .join (size = 4)
    let thread ← number 4
    return (r, some (.join (BitVec.ofNat 32 thread)))
  | .sync => do
    checkSize .sync (size = 0)
    return (r, some .sync)
  | .fork => do
    checkSize .fork (size = 0)
    return (r, some .fork)
  | .magicInstruction => do
    checkSize .magicInstruction (size = 24)
    let a ← word
    let b ← word
    let c ← word
    return (r, some (.magic a b c))
  | .emu => do
    checkSize .emu (size ≤ 2 + 8)
    let kind ← number 2
    let req ← bytes (sizeMinus size 2)
    return (r, some (.emu (BitVec.ofNat 16 kind) req))
  | .routineChange => do
    checkSize .routineChange (size = 25)
    let event ← byte
    let eip ← word
    let esp ← word
    let callEip ← word
    return (r, some (.routineChange event eip esp callEip))
  | .routineAnnounce => do
    let eip ← word
    let name ← readString
    let imgname ← readString
    let offset ← word
    let line ← number 4
    let column ← number 4
    let filename ← readString
    return (r, some (.routineAnnounce eip name imgname offset (BitVec.ofNat 32 line) (BitVec.ofNat 32 column) filename))
  | _ => do
    let _ ← bytes size
    return (r, none)

/-- A record with the header of `Record::Other`. A type that is not an enumerator is skipped. -/
def readOther (r : Reader) : Parser ReaderFault (Reader × Option Item) := do
  let _ ← byte
  let type ← byte
  let size ← number 4
  match RecOtherType.ofCode type with
  | some type => readBody type size r
  | none => do
    let _ ← bytes size
    return (r, none)

/-- One round of the loop in `Read`. -/
def readRecord (r : Reader) : Parser ReaderFault (Reader × Option Item) := fun input =>
  match input with
  | [] => .error .endOfStream
  | b :: _ =>
    if b = 0#8 then readOther r input
    else if b &&& 0xf#8 ≠ 0#8 then readSimple r input
    else readExt r input

/-- The loop of `Read`, which reads a byte or more in each round. -/
def readLoop : ℕ → Reader → List Byte → Except ReaderFault (Reader × List Item × List Byte)
  | 0, _, _ => .error .endOfStream
  | fuel + 1, r, input =>
    match readRecord r input with
    | .error f => .error f
    | .ok ((r, none), rest) => readLoop fuel r rest
    | .ok ((r, some item), rest) =>
      if item.isLast then .ok (r, [item], rest)
      else
        match readLoop fuel r rest with
        | .error f => .error f
        | .ok (r, items, rest) => .ok (r, item :: items, rest)

/-- `Read`: the items up to the next instruction or the end of the trace. -/
def read (r : Reader) (input : List Byte) : Except ReaderFault (Reader × List Item × List Byte) :=
  if r.seenEnd then .ok (r, [], input) else readLoop (input.length + 1) r input

end Reader

end LifeSim.Sift
