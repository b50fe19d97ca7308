import LifeSim.Sift.Format

/-!
# Writing a SIFT trace

`sift_writer.cc`: what each call of the writer appends to the trace. The writer remembers the address after the last
instruction, the pages or instructions whose code was sent, and the pages whose physical address was sent. The
code of the traced program and the kernel's page map are the surroundings of the writer: the code is read through
`getCodeFunc`, and the page map may be different at each call.

The loop over the pages of an instruction does not end when the last page of the address space is among them,
because the next page address is zero again. The loop is run for one round more than there are pages.
-/

namespace LifeSim.Sift

open LifeSim.Lib

/-- The options of the writer that decide what is sent. -/
structure Config where
  arch32 : Bool
  /-- `m_requires_icache_per_insn`. -/
  icachePerInsn : Bool
  /-- `m_send_va2pa_mapping`. -/
  sendVa2pa : Bool
  deriving DecidableEq, Repr

/-- `Sift::Writer`. -/
structure Writer where
  lastAddress : Word
  icache : Word → Bool
  va2pa : Word → Bool

/-- Why the writer stops. -/
inductive WriterFault
  /-- `sift_assert(size < 16)`. -/
  | insnSize
  /-- `sift_assert(num_addresses <= MAX_DYNAMIC_ADDRESSES)`. -/
  | numAddresses
  /-- The loop over the pages does not end. -/
  | loops
  deriving DecidableEq, Repr

/-- The constructor. -/
def Writer.new : Writer := ⟨0, fun _ => false, fun _ => false⟩

/-- The header of the file, which the constructor writes. -/
def Writer.header (cfg : Config) : List Byte :=
  let options : Word := (if cfg.arch32 then 2 else 0) ||| (if cfg.icachePerInsn then 4 else 0) |||
    (if cfg.sendVa2pa then 8 else 0)
  leBytes 4 magicNumber ++ leBytes 4 0 ++ leBytes 8 options.toNat

/-- `getCodeFunc`: the code of the traced program from an address on. -/
def getCode (code : Word → Byte) (src : Word) (size : ℕ) : List Byte :=
  (List.range size).map fun k => code (src + BitVec.ofNat 64 k)

@[simp] theorem length_getCode (code : Word → Byte) (src : Word) (size : ℕ) : (getCode code src size).length = size := by
  simp [getCode]

/-- Data with a length of type `uint32_t`. -/
structure Payload where
  bytes : List Byte
  fits : bytes.length < 2 ^ 32
  deriving DecidableEq

/-- A C string: its characters, without the final zero. -/
structure CString where
  chars : List Byte
  noZero : (0 : Byte) ∉ chars
  deriving DecidableEq

namespace Writer

variable (code : Word → Byte) (pagemap : Word → Word)

/-- The code of one instruction is sent once. -/
def sendInsn (addr : Word) (size : ℕ) (w : Writer) : Writer × List Byte :=
  if w.icache addr then (w, [])
  else
    ({ w with icache := Function.update w.icache addr true },
      otherHeader .icacheVariable (8 + size) ++ wordBytes addr ++ getCode code addr size)

/-- The code of one page is sent once. -/
def sendPage (base : Word) (w : Writer) : Writer × List Byte :=
  if w.icache base then (w, [])
  else
    ({ w with icache := Function.update w.icache base true },
      otherHeader .icache (8 + icacheSize) ++ wordBytes base ++ getCode code base icacheSize)

/-- The loop over the pages from `base` to `last`. -/
def sendPages : ℕ → Word → Word → Writer → Except WriterFault (Writer × List Byte)
  | 0, _, _, _ => .error .loops
  | fuel + 1, base, last, w =>
    if base ≤ last then
      let (w, sent) := sendPage code base w
      match sendPages fuel (base + BitVec.ofNat 64 icacheSize) last w with
      | .ok (w, rest) => .ok (w, sent ++ rest)
      | .error f => .error f
    else .ok (w, [])

/-- `va2pa_lookup`, with the contents of `/proc/self/pagemap`. -/
def va2paLookup (vp : Word) : Word :=
  -- the vsyscall range
  if 0xffffffffff600 ≤ vp ∧ vp < 0xfffffffffffff then vp else pagemap vp

/-- `send_va2pa`. -/
def sendVa2pa (cfg : Config) (va : Word) (w : Writer) : Writer × List Byte :=
  let vp := va / 4096
  if cfg.sendVa2pa = false ∨ w.va2pa vp = true then (w, [])
  else if va2paLookup pagemap vp = 0 then (w, [])
  else
    ({ w with va2pa := Function.update w.va2pa vp true },
      otherHeader .logical2Physical 16 ++ wordBytes vp ++ wordBytes (va2paLookup pagemap vp))

/-- `send_va2pa` for several addresses. -/
def sendVa2pas (cfg : Config) : List Word → Writer → Writer × List Byte
  | [], w => (w, [])
  | va :: vas, w =>
    let (w, sent) := sendVa2pa pagemap cfg va w
    let (w, rest) := sendVa2pas cfg vas w
    (w, sent ++ rest)

/-- One round more than there are pages. -/
def pageRounds : ℕ := 2 ^ 52 + 1

/-- The part of `Instruction` that sends code. -/
def sendCode (cfg : Config) (i : Insn) (w : Writer) : Except WriterFault (Writer × List Byte) :=
  if cfg.icachePerInsn then .ok (sendInsn code i.addr i.size.toNat w)
  else sendPages code pageRounds (pageOf i.addr) (pageOf (i.addr + i.size.setWidth 64 - 1)) w

/-- The part of `Instruction` that writes the instruction itself. -/
def sendRecord (i : Insn) (w : Writer) : Writer × List Byte :=
  let n := i.addresses.length
  let head :=
    if i.addr = w.lastAddress ∧ i.isPredicate = false then [simpleByte i.size n i.isBranch i.taken]
    else [extByte i.size, extFlags n i.isBranch i.taken i.isPredicate i.executed] ++ wordBytes i.addr
  ({ w with lastAddress := i.addr + i.size.setWidth 64 }, head ++ i.addresses.flatMap wordBytes)

/-- `Instruction`. -/
def instruction (cfg : Config) (i : Insn) (w : Writer) : Except WriterFault (Writer × List Byte) :=
  if ¬ i.size < 16 then .error .insnSize
  else if ¬ i.addresses.length ≤ maxDynamicAddresses then .error .numAddresses
  else
    match sendCode code cfg i w with
    | .error f => .error f
    | .ok (w, sent) =>
      let (w, mapped) := sendVa2pas pagemap cfg (i.addr :: i.addresses) w
      let (w, written) := sendRecord i w
      .ok (w, sent ++ mapped ++ written)

/-- `CacheOnly`. -/
def cacheOnly (cfg : Config) (icount : Byte) (type : CacheOnlyType) (eip address : Word) (w : Writer) :
    Writer × List Byte :=
  let (w, mapped) := sendVa2pas pagemap cfg [eip, address] w
  (w, mapped ++ (otherHeader .cacheOnly 18 ++ [icount, type.code] ++ wordBytes eip ++ wordBytes address))

/-- `Output`. -/
def output (fd : Byte) (data : Payload) : List Byte :=
  otherHeader .output (1 + data.bytes.length) ++ [fd] ++ data.bytes

/-- `RoutineChange`. -/
def routineChange (event : RoutineOpType) (eip esp callEip : Word) : List Byte :=
  otherHeader .routineChange 25 ++ [event.code] ++ wordBytes eip ++ wordBytes esp ++ wordBytes callEip

end Writer

/-- The length of a string with its final zero, which is kept in 16 bits. -/
def CString.len (s : CString) : ℕ := (s.chars.length + 1) % 2 ^ 16

/-- The bytes written for a string: its length, and that many bytes of it. -/
def CString.bytes (s : CString) : List Byte := leBytes 2 s.len ++ (s.chars ++ [0]).take s.len

/-- The arguments of `RoutineAnnounce`. -/
structure Routine where
  eip : Word
  name : CString
  imgname : CString
  offset : Word
  line : BitVec 32
  column : BitVec 32
  filename : CString
  deriving DecidableEq

/-- `RoutineAnnounce`. -/
def Writer.routineAnnounce (r : Routine) : List Byte :=
  otherHeader .routineAnnounce
      (8 + 2 + r.name.len + 2 + r.imgname.len + 8 + 4 + 4 + 2 + r.filename.len) ++
    wordBytes r.eip ++ r.name.bytes ++ r.imgname.bytes ++ wordBytes r.offset ++ leBytes 4 r.line.toNat ++
    leBytes 4 r.column.toNat ++ r.filename.bytes

/-- `End`. -/
def Writer.finish : List Byte := otherHeader .end 0

end LifeSim.Sift
