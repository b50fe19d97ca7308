import Mathlib
import LifeSim.Lib.Bytes

/-!
# The SIFT trace format

`sift_format.h`: the kinds of records and their layout. A record starts with one of three
headers, and the first byte tells them apart: the simple form of an instruction has a size in its low
four bits, the extended form has zero there and a size in the high four bits, and every other record starts with a
zero byte. Words are little-endian and bit fields are filled from the low end.
-/

namespace LifeSim.Sift

open LifeSim.Lib

/-- `uint8_t`. -/
abbrev Byte := BitVec 8

/-- `uint64_t`. -/
abbrev Word := BitVec 64

/-- `MagicNumber`. -/
def magicNumber : ℕ := 0x54464953

/-- `ICACHE_SIZE`. -/
def icacheSize : ℕ := 4096

/-- `ICACHE_OFFSET_MASK`. -/
def icacheOffsetMask : Word := 0xfff

/-- `ICACHE_PAGE_MASK`. -/
def icachePageMask : Word := ~~~icacheOffsetMask

/-- `MAX_DYNAMIC_ADDRESSES`. -/
def maxDynamicAddresses : ℕ := 2

/-- `RecOtherType`. -/
inductive RecOtherType
  | icache
  | output
  | syscallRequest
  | syscallResponse
  | newThread
  | newThreadResponse
  | memoryRequest
  | memoryResponse
  | join
  | joinResponse
  | endResponse
  | icacheVariable
  | sync
  | syncResponse
  | logical2Physical
  | magicInstruction
  | magicInstructionResponse
  | routineChange
  | routineAnnounce
  | emu
  | emuResponse
  | fork
  | forkResponse
  | instructionCount
  | cacheOnly
  | end
  deriving DecidableEq, Repr

namespace RecOtherType

/-- The value of the enumerator. -/
def code : RecOtherType → Byte
  | icache => 0
  | output => 1
  | syscallRequest => 2
  | syscallResponse => 3
  | newThread => 4
  | newThreadResponse => 5
  | memoryRequest => 6
  | memoryResponse => 7
  | join => 8
  | joinResponse => 9
  | endResponse => 10
  | icacheVariable => 11
  | sync => 12
  | syncResponse => 13
  | logical2Physical => 14
  | magicInstruction => 15
  | magicInstructionResponse => 16
  | routineChange => 17
  | routineAnnounce => 18
  | emu => 19
  | emuResponse => 20
  | fork => 21
  | forkResponse => 22
  | instructionCount => 23
  | cacheOnly => 24
  | «end» => 0xff

/-- All enumerators. -/
def all : List RecOtherType :=
  [icache, output, syscallRequest, syscallResponse, newThread, newThreadResponse, memoryRequest, memoryResponse, join,
    joinResponse, endResponse, icacheVariable, sync, syncResponse, logical2Physical, magicInstruction,
    magicInstructionResponse, routineChange, routineAnnounce, emu, emuResponse, fork, forkResponse, instructionCount,
    cacheOnly, «end»]

/-- The enumerator with a value, if there is one. -/
def ofCode (b : Byte) : Option RecOtherType := all.find? fun t => t.code = b

/-- Enumerators are told apart by their values. -/
@[simp] theorem ofCode_code (t : RecOtherType) : ofCode t.code = some t := by
  cases t <;> rfl

end RecOtherType

/-- `CacheOnlyType`. -/
inductive CacheOnlyType
  | branchTaken
  | branchNotTaken
  | memRead
  | memWrite
  | memIcache
  deriving DecidableEq, Repr

/-- The value of the enumerator. -/
def CacheOnlyType.code : CacheOnlyType → Byte
  | branchTaken => 0
  | branchNotTaken => 1
  | memRead => 2
  | memWrite => 3
  | memIcache => 4

/-- `RoutineOpType`. -/
inductive RoutineOpType
  | enter
  | exit
  | assert
  deriving DecidableEq, Repr

/-- The value of the enumerator. -/
def RoutineOpType.code : RoutineOpType → Byte
  | enter => 0
  | exit => 1
  | assert => 2

/-- The header of `Record::Other`: the size field has 32 bits. -/
def otherHeader (type : RecOtherType) (size : ℕ) : List Byte := 0 :: type.code :: leBytes 4 size

@[simp] theorem length_otherHeader (type : RecOtherType) (size : ℕ) : (otherHeader type size).length = 6 := by
  simp [otherHeader]

/-- A word in the trace. -/
def wordBytes (v : Word) : List Byte := leBytes 8 v.toNat

@[simp] theorem length_wordBytes (v : Word) : (wordBytes v).length = 8 := length_leBytes ..

/-- The bit of a flag. -/
def flagBit (b : Bool) (position : ℕ) : Byte := if b then 1 <<< position else 0

/-- The byte of `Record::Instruction`. -/
def simpleByte (size : Byte) (numAddresses : ℕ) (isBranch taken : Bool) : Byte :=
  (size &&& 0xf#8) ||| (BitVec.ofNat 8 numAddresses &&& 3#8) <<< 4 ||| flagBit isBranch 6 ||| flagBit taken 7

/-- The first byte of `Record::InstructionExt`. -/
def extByte (size : Byte) : Byte := (size &&& 0xf#8) <<< 4

/-- The second byte of `Record::InstructionExt`. -/
def extFlags (numAddresses : ℕ) (isBranch taken isPredicate executed : Bool) : Byte :=
  (BitVec.ofNat 8 numAddresses &&& 3#8) ||| flagBit isBranch 2 ||| flagBit taken 3 ||| flagBit isPredicate 4 |||
    flagBit executed 5

/-- An instruction of the traced program: the arguments of `Writer::Instruction`. -/
structure Insn where
  addr : Word
  size : Byte
  addresses : List Word
  isBranch : Bool
  taken : Bool
  isPredicate : Bool
  executed : Bool
  deriving DecidableEq, Repr

/-! ### Pages -/

/-- The page of an address. -/
def pageOf (a : Word) : Word := a &&& icachePageMask

/-- The offset of an address in its page. -/
def offsetOf (a : Word) : ℕ := (a &&& icacheOffsetMask).toNat

theorem offsetOf_eq (a : Word) : offsetOf a = a.toNat % 4096 := by
  rw [offsetOf, icacheOffsetMask, BitVec.toNat_and]
  exact Nat.and_two_pow_sub_one_eq_mod a.toNat 12

/-- The mask clears the low bits. -/
theorem pageOf_eq_shift (a : Word) : pageOf a = (a >>> 12) <<< 12 := by
  apply BitVec.eq_of_getLsbD_eq
  intro i hi
  have hmask : icacheOffsetMask.getLsbD i = decide (i < 12) := by
    rw [icacheOffsetMask, show (0xfff : Word) = BitVec.ofNat 64 (2 ^ 12 - 1) from rfl, BitVec.getLsbD_ofNat,
      Nat.testBit_two_pow_sub_one]
    simp [hi]
  simp only [pageOf, icachePageMask, BitVec.getLsbD_and, BitVec.getLsbD_not, hmask, BitVec.getLsbD_shiftLeft,
    BitVec.getLsbD_ushiftRight, hi]
  by_cases h : i < 12
  · simp [h]
  · simp [h, Nat.add_sub_cancel' (Nat.le_of_not_lt h)]

theorem toNat_pageOf (a : Word) : (pageOf a).toNat = a.toNat / 4096 * 4096 := by
  rw [pageOf_eq_shift, BitVec.toNat_shiftLeft, BitVec.toNat_ushiftRight, Nat.shiftRight_eq_div_pow, Nat.shiftLeft_eq]
  have hlt := a.isLt
  rw [Nat.mod_eq_of_lt]
  omega

end LifeSim.Sift
