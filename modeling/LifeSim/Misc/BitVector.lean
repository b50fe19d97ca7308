import Mathlib
import LifeSim.Lib.Search
import LifeSim.Lib.Signed
import LifeSim.Lib.Transducer

/-!
# Bit vectors

`bit_vector.cc`: a set of numbers below a capacity, as the bits of 64-bit words, with the number of its members. A search
for the next member walks through the words, and through the halves of a word down to its bytes.

A position that is found is an `int`. One that does not fit is reduced to 32 bits here; the overflow is undefined in the
source.
-/

namespace LifeSim.Misc

open LifeSim.Lib

/-- Why an operation on a bit vector does not return. -/
inductive BitVectorFault
  | assertion
  | outOfBounds
  deriving DecidableEq

/-- `BitVector`. -/
structure BitVector where
  capacity : ℕ
  size : ℕ
  lastPos : ℤ
  words : ℕ → BitVec 64

/-- One of the two halves of a word. -/
def half {m : ℕ} (n : ℕ) (word : BitVec m) (i : ℕ) : BitVec n :=
  if i = 0 then (word &&& BitVec.ofNat m (2 ^ n - 1)).setWidth n else (word >>> n).setWidth n

/-- `bTestBit`. -/
def bTestBit {n : ℕ} (word : BitVec n) (bit : ℕ) : Bool := decide (word &&& (1#n <<< bit) ≠ 0#n)

/-- The halves of a word that is not zero are searched one after the other. -/
def searchHalves {m : ℕ} (n : ℕ) (word : BitVec m) (search : ℕ → BitVec n → Option ℤ) : Option ℤ :=
  if word = 0#m then none else (List.range 2).findSome? fun i => search i (half n word i)

/-- `return_pos`. -/
def returnPos (position : ℕ) : ℤ := toSInt32 position

namespace BitVector

variable (v : BitVector)

/-- The constructor. -/
def new (bits : ℕ) : BitVector := ⟨bits, 0, -1, fun _ => 0⟩

/-- `VECTOR_SIZE`, which is also computed as `word_count`. -/
def vectorSize : ℕ := (v.capacity + 64 - 1) % 2 ^ 32 / 64

/-- The body of the loop of `find` over the words. -/
def findInWord (lastPos : ℤ) (windex : ℕ) (word64 : BitVec 64) : Option ℤ :=
  searchHalves 32 word64 fun i word32 => searchHalves 16 word32 fun j word16 => searchHalves 8 word16 fun k word8 =>
    if word8 = 0#8 then none
    else (List.range 8).findSome? fun l =>
      if bTestBit word8 l then
        let pos := returnPos (64 * windex + 32 * i + 16 * j + 8 * k + l)
        if lastPos < pos then some pos else none
      else none

/-- `find`. -/
def find : BitVector × ℤ :=
  let windex := if v.lastPos = -1 then 0 else (v.lastPos / 64).toNat
  match (List.range' windex (v.vectorSize - windex)).findSome? fun windex =>
      findInWord v.lastPos windex (v.words windex) with
  | some pos => ({ v with lastPos := pos }, pos)
  | none => ({ v with lastPos := -1 }, -1)

def resetFind : BitVector := { v with lastPos := -1 }

def reset : BitVector := { v with size := 0, lastPos := -1, words := fun _ => 0 }

/-- `at`. -/
def testAt (bit : ℕ) : Except BitVectorFault Bool :=
  if v.capacity ≤ bit then .error .assertion
  else if v.vectorSize ≤ bit / 64 then .error .outOfBounds
  else .ok (bTestBit (v.words (bit / 64)) (bit % 64))

def set (bit : ℕ) : Except BitVectorFault BitVector :=
  match v.testAt bit with
  | .error f => .error f
  | .ok true => .ok v
  | .ok false => .ok { v with
      words := Function.update v.words (bit / 64) (v.words (bit / 64) ||| (1#64 <<< (bit % 64)))
      size := (v.size + 1) % 2 ^ 32 }

def clear (bit : ℕ) : Except BitVectorFault BitVector :=
  match v.testAt bit with
  | .error f => .error f
  | .ok false => .ok v
  | .ok true => .ok { v with
      words := Function.update v.words (bit / 64) (v.words (bit / 64) &&& ~~~(1#64 <<< (bit % 64)))
      size := (v.size + 2 ^ 32 - 1) % 2 ^ 32 }

end BitVector

/-- A call. -/
inductive BitVectorOp
  | set (bit : ℕ)
  | clear (bit : ℕ)
  | reset
  | resetFind
  | find
  deriving DecidableEq

/-- One call. Only `find` has an answer. -/
def BitVector.step (v : BitVector) : BitVectorOp → Except BitVectorFault (BitVector × Option ℤ)
  | .set bit => (v.set bit).map fun w => (w, none)
  | .clear bit => (v.clear bit).map fun w => (w, none)
  | .reset => .ok (v.reset, none)
  | .resetFind => .ok (v.resetFind, none)
  | .find => .ok (v.find.1, some v.find.2)

/-- A bit vector as a machine. -/
def bitVector : Transducer BitVector BitVectorOp (Option ℤ) BitVectorFault := ⟨BitVector.step⟩

/-! ### The set of the numbers -/

/-- What a call does to the set. -/
def BitVectorOp.apply (S : Finset ℕ) : BitVectorOp → Finset ℕ
  | set bit => insert bit S
  | clear bit => S.erase bit
  | reset => ∅
  | resetFind => S
  | find => S

/-- The numbers that are set and not cleared again. -/
def heldBits (ops : List BitVectorOp) : Finset ℕ := ops.foldl BitVectorOp.apply ∅

/-- The calls are for numbers below the capacity. -/
def BitVectorOp.Within (capacity : ℕ) : BitVectorOp → Prop
  | set bit => bit < capacity
  | clear bit => bit < capacity
  | _ => True

instance (capacity : ℕ) (op : BitVectorOp) : Decidable (op.Within capacity) := by
  cases op <;> unfold BitVectorOp.Within <;> infer_instance

/-- The members of a set in ascending order. -/
def ascending (capacity : ℕ) (S : Finset ℕ) : List ℕ := (List.range capacity).filter (· ∈ S)

/-- After every sequence of calls the size is the number of members, and a search from the beginning finds each of them
once, in ascending order, and then none. -/
def BitVectorRight (capacity : ℕ) : Prop :=
  ∀ ops, (∀ op ∈ ops, op.Within capacity) →
    ∃ v answers, bitVector.run (.new capacity) ops = .ok (v, answers) ∧ v.size = (heldBits ops).card ∧
      ∃ w, bitVector.run v (.resetFind :: List.replicate ((heldBits ops).card + 1) .find) =
        .ok (w, none :: ((ascending capacity (heldBits ops)).map (fun bit : ℕ => some (bit : ℤ)) ++ [some (-1)]))

/-! ### Bits of words -/

theorem bTestBit_eq {n bit : ℕ} (hbit : bit < n) (word : BitVec n) : bTestBit word bit = word.getLsbD bit := by
  have hand := BitVec.and_twoPow word bit
  rw [BitVec.twoPow] at hand
  rw [bTestBit, hand]
  cases word.getLsbD bit with
  | false => simp
  | true =>
    have hne : BitVec.twoPow n bit ≠ 0#n := by
      intro heq
      have hself := BitVec.getLsbD_twoPow (w := n) bit bit
      rw [heq, BitVec.getLsbD_zero] at hself
      simp [hbit] at hself
    rw [BitVec.twoPow] at hne
    simp [hne]

theorem getLsbD_half {n : ℕ} (word : BitVec (n + n)) {i l : ℕ} (hi : i < 2) (hl : l < n) :
    (half n word i).getLsbD l = word.getLsbD (n * i + l) := by
  rw [half]
  obtain rfl | rfl : i = 0 ∨ i = 1 := by omega
  · have hmask : (2 ^ n - 1).testBit l = true := by rw [Nat.testBit_two_pow_sub_one, decide_eq_true hl]
    rw [if_pos rfl, BitVec.getLsbD_setWidth, BitVec.getLsbD_and, BitVec.getLsbD_ofNat, hmask, Nat.mul_zero,
      Nat.zero_add]
    have hlt : l < n + n := by omega
    simp [hl, hlt]
  · rw [if_neg (by omega), BitVec.getLsbD_setWidth, BitVec.getLsbD_ushiftRight, Nat.mul_one]
    simp [hl]

/-- The first bit of a word for which a search finds something. -/
def searchBits {n : ℕ} (word : BitVec n) (search : ℕ → Option ℤ) : Option ℤ :=
  (List.range n).findSome? fun l => if word.getLsbD l then search l else none

theorem searchBits_zero {n : ℕ} (search : ℕ → Option ℤ) : searchBits 0#n search = none := by
  simp [searchBits]

/-- The halves together are the word. -/
theorem searchHalves_eq {n : ℕ} (word : BitVec (n + n)) {search : ℕ → BitVec n → Option ℤ} {f : ℕ → Option ℤ}
    (h : ∀ i part, search i part = searchBits part fun l => f (n * i + l)) :
    searchHalves n word search = searchBits word f := by
  rw [searchHalves]
  by_cases hzero : word = 0#(n + n)
  · rw [if_pos hzero, hzero, searchBits_zero]
  · have hsplit := findSome?_range_mul (fun l => if word.getLsbD l then f l else none) 2 n
    rw [Nat.mul_two] at hsplit
    rw [if_neg hzero, searchBits, hsplit]
    apply findSome?_congr_mem
    intro i hi
    rw [h, searchBits]
    apply findSome?_congr_mem
    intro l hl
    rw [getLsbD_half word (List.mem_range.1 hi) (List.mem_range.1 hl)]

namespace BitVector

variable {v : BitVector}

/-- The search through a word tries its bits one after the other. -/
theorem findInWord_eq (lastPos : ℤ) (windex : ℕ) (word : BitVec 64) :
    findInWord lastPos windex word = searchBits word fun b =>
      if lastPos < returnPos (64 * windex + b) then some (returnPos (64 * windex + b)) else none := by
  apply searchHalves_eq (n := 32) word
  intro i word32
  apply searchHalves_eq (n := 16) word32
  intro j word16
  apply searchHalves_eq (n := 8) word16
  intro k word8
  by_cases hzero : word8 = 0#8
  · rw [if_pos hzero, hzero, searchBits_zero]
  · rw [if_neg hzero, searchBits]
    apply findSome?_congr_mem
    intro l hl
    have hpos : 64 * windex + 32 * i + 16 * j + 8 * k + l = 64 * windex + (32 * i + (16 * j + (8 * k + l))) := by omega
    rw [bTestBit_eq (List.mem_range.1 hl), hpos]

/-- A bit of the vector. -/
def bit (v : BitVector) (p : ℕ) : Bool := (v.words (p / 64)).getLsbD (p % 64)

/-- What the search finds at a position. -/
def hit (v : BitVector) (p : ℕ) : Option ℤ :=
  if v.bit p then if v.lastPos < returnPos p then some (returnPos p) else none else none

theorem findInWord_eq_hit (v : BitVector) (windex : ℕ) :
    findInWord v.lastPos windex (v.words windex) = (List.range 64).findSome? fun b => v.hit (64 * windex + b) := by
  rw [findInWord_eq, searchBits]
  apply findSome?_congr_mem
  intro b hb
  have hlt := List.mem_range.1 hb
  have hdiv : (64 * windex + b) / 64 = windex := by omega
  have hmod : (64 * windex + b) % 64 = b := by omega
  rw [hit, bit, hdiv, hmod]

theorem returnPos_of_lt {p : ℕ} (hp : p < 2 ^ 31) : returnPos p = p := toSInt32_of_small (by omega) (by omega)

/-- Nothing that is found is beyond the numbers of an `int`. -/
theorem find_lt (v : BitVector) : v.find.2 < 2 ^ 31 := by
  rw [find]
  split
  · rename_i pos hpos
    obtain ⟨windex, -, hfound⟩ := List.exists_of_findSome?_eq_some hpos
    rw [findInWord_eq_hit] at hfound
    obtain ⟨b, -, hhit⟩ := List.exists_of_findSome?_eq_some hfound
    rw [hit] at hhit
    split_ifs at hhit
    · cases hhit
      exact toSInt32_lt _
  · norm_num

/-- `find` as a search through all positions. -/
theorem find_eq (hcapacity : v.capacity ≤ 2 ^ 31)
    (hlast : v.lastPos = -1 ∨ 0 ≤ v.lastPos ∧ v.lastPos < 64 * v.vectorSize) :
    v.find = match (List.range (64 * v.vectorSize)).find? fun p => v.bit p && decide (v.lastPos < (p : ℤ)) with
      | some p => ({ v with lastPos := p }, (p : ℤ))
      | none => ({ v with lastPos := -1 }, -1) := by
  have hsize : 64 * v.vectorSize ≤ 2 ^ 31 := by
    rw [vectorSize]
    omega
  have hhit : ∀ p < 64 * v.vectorSize,
      v.hit p = if v.bit p && decide (v.lastPos < (p : ℤ)) then some (p : ℤ) else none := by
    intro p hp
    rw [hit, returnPos_of_lt (by omega)]
    by_cases hbit : v.bit p = true <;> by_cases hlt : v.lastPos < (p : ℤ) <;> simp [hbit, hlt]
  -- the words before the first one have no position behind the last one found
  have hsearch : ∀ windex, (windex = if v.lastPos = -1 then 0 else (v.lastPos / 64).toNat) →
      (List.range' windex (v.vectorSize - windex)).findSome? (fun windex =>
        findInWord v.lastPos windex (v.words windex)) =
      Option.map (fun p : ℕ => (p : ℤ))
        ((List.range (64 * v.vectorSize)).find? fun p => v.bit p && decide (v.lastPos < (p : ℤ))) := by
    intro windex hwindex
    have hle : windex ≤ v.vectorSize := by
      rw [hwindex]
      split_ifs with hfirst
      · omega
      · omega
    have hbefore : ∀ i < windex, findInWord v.lastPos i (v.words i) = none := by
      intro i hi
      rw [findInWord_eq_hit, List.findSome?_eq_none_iff]
      intro b hb
      have hlt := List.mem_range.1 hb
      have hnot : ¬ v.lastPos < ((64 * i + b : ℕ) : ℤ) := by
        rw [hwindex] at hi
        split_ifs at hi with hfirst
        · omega
        · push_cast
          omega
      rw [hhit _ (by omega), decide_eq_false hnot, Bool.and_false, if_neg Bool.false_ne_true]
    rw [findSome?_range'_eq _ hle hbefore]
    have hwords : (fun windex => findInWord v.lastPos windex (v.words windex)) =
        fun windex => (List.range 64).findSome? fun b => v.hit (64 * windex + b) := by
      funext windex
      exact v.findInWord_eq_hit windex
    rw [hwords, ← findSome?_range_mul, ← findSome?_ite]
    apply findSome?_congr_mem
    intro p hp
    exact hhit p (List.mem_range.1 hp)
  rw [find]
  rw [hsearch _ rfl]
  cases (List.range (64 * v.vectorSize)).find? fun p => v.bit p && decide (v.lastPos < (p : ℤ)) <;> rfl

/-! ### The vector and the set -/

/-- The bits are those of the members, and the size is their number. -/
structure Holds (capacity : ℕ) (v : BitVector) (S : Finset ℕ) : Prop where
  sameCapacity : v.capacity = capacity
  below : ∀ p ∈ S, p < capacity
  bits : ∀ p, v.bit p = true ↔ p ∈ S
  size : v.size = S.card
  lastPos : v.lastPos = -1 ∨ 0 ≤ v.lastPos ∧ v.lastPos < 64 * v.vectorSize

theorem holds_new (capacity : ℕ) : Holds capacity (new capacity) ∅ where
  sameCapacity := rfl
  below := fun p hp => absurd hp (Finset.notMem_empty p)
  bits := fun p => by simp [bit, new]
  size := rfl
  lastPos := .inl rfl

namespace Holds

variable {capacity p : ℕ} {S : Finset ℕ} (h : Holds capacity v S)
include h

theorem card_le : S.card ≤ capacity := by
  have hsub : S ⊆ Finset.range capacity := fun p hp => Finset.mem_range.2 (h.below p hp)
  exact (Finset.card_le_card hsub).trans (Finset.card_range capacity).le

/-- Every number below the capacity has its bit. -/
theorem vectorSize_eq (hcapacity : capacity ≤ 2 ^ 31) : v.vectorSize = (capacity + 63) / 64 := by
  have hsum : capacity + 64 - 1 = capacity + 63 := by omega
  rw [vectorSize, h.sameCapacity, hsum, Nat.mod_eq_of_lt (by omega)]

theorem testAt (hcapacity : capacity ≤ 2 ^ 31) (hp : p < capacity) : v.testAt p = .ok (v.bit p) := by
  have hindex : ¬ v.vectorSize ≤ p / 64 := by
    rw [h.vectorSize_eq hcapacity]
    omega
  have hbelow : ¬ v.capacity ≤ p := by
    rw [h.sameCapacity]
    omega
  rw [BitVector.testAt, if_neg hbelow, if_neg hindex, bTestBit_eq (Nat.mod_lt _ (by decide)), bit]

omit h in
/-- A word is changed at one of its bits. -/
theorem bit_update {word : BitVec 64} {b : Bool} (p : ℕ)
    (hword : ∀ l < 64, word.getLsbD l = if l = p % 64 then b else (v.words (p / 64)).getLsbD l) (q size : ℕ) :
    bit { v with words := Function.update v.words (p / 64) word, size := size } q = if q = p then b else v.bit q := by
  rw [bit, bit]
  dsimp only
  by_cases hindex : q / 64 = p / 64
  · rw [hindex, Function.update_self, hword _ (Nat.mod_lt _ (by decide))]
    by_cases hq : q = p
    · rw [hq, if_pos rfl, if_pos rfl]
    · rw [if_neg hq, if_neg (by omega)]
  · have hq : q ≠ p := fun hq => hindex (by rw [hq])
    rw [Function.update_of_ne hindex, if_neg hq]

theorem set (hcapacity : capacity ≤ 2 ^ 31) (hp : p < capacity) :
    ∃ w, v.set p = .ok w ∧ Holds capacity w (insert p S) := by
  rw [BitVector.set, h.testAt hcapacity hp]
  cases hbit : v.bit p with
  | true => exact ⟨v, rfl, by rwa [Finset.insert_eq_of_mem ((h.bits p).1 hbit)]⟩
  | false =>
    have hmem : p ∉ S := fun hmem => Bool.false_ne_true (hbit.symm.trans ((h.bits p).2 hmem))
    have hword : ∀ l < 64, (v.words (p / 64) ||| (1#64 <<< (p % 64))).getLsbD l =
        if l = p % 64 then true else (v.words (p / 64)).getLsbD l := by
      intro l hl
      have htwo := BitVec.getLsbD_twoPow (w := 64) (p % 64) l
      rw [BitVec.twoPow] at htwo
      rw [BitVec.getLsbD_or, htwo]
      by_cases heq : l = p % 64
      · simp [heq, Nat.mod_lt]
      · simp [heq, Ne.symm heq]
    refine ⟨_, rfl, h.sameCapacity, fun q hq => ?_, fun q => ?_, ?_, h.lastPos⟩
    · rcases Finset.mem_insert.1 hq with rfl | hq
      · exact hp
      · exact h.below q hq
    · rw [bit_update p hword, Finset.mem_insert, ← h.bits q]
      by_cases hq : q = p <;> simp [hq]
    · have hcard := h.card_le
      change (v.size + 1) % 2 ^ 32 = _
      rw [Finset.card_insert_of_notMem hmem, h.size, Nat.mod_eq_of_lt (by omega)]

theorem clear (hcapacity : capacity ≤ 2 ^ 31) (hp : p < capacity) :
    ∃ w, v.clear p = .ok w ∧ Holds capacity w (S.erase p) := by
  rw [BitVector.clear, h.testAt hcapacity hp]
  cases hbit : v.bit p with
  | false =>
    have hmem : p ∉ S := fun hmem => Bool.false_ne_true (hbit.symm.trans ((h.bits p).2 hmem))
    exact ⟨v, rfl, by rwa [Finset.erase_eq_of_notMem hmem]⟩
  | true =>
    have hmem : p ∈ S := (h.bits p).1 hbit
    have hword : ∀ l < 64, (v.words (p / 64) &&& ~~~(1#64 <<< (p % 64))).getLsbD l =
        if l = p % 64 then false else (v.words (p / 64)).getLsbD l := by
      intro l hl
      have htwo := BitVec.getLsbD_twoPow (w := 64) (p % 64) l
      rw [BitVec.twoPow] at htwo
      rw [BitVec.getLsbD_and, BitVec.getLsbD_not, htwo]
      by_cases heq : l = p % 64
      · simp [heq, Nat.mod_lt]
      · simp [heq, Ne.symm heq, hl]
    have hless : (v.size + 2 ^ 32 - 1) % 2 ^ 32 = (S.erase p).card := by
      have hcard := h.card_le
      have hpos := Finset.card_pos.2 ⟨p, hmem⟩
      have hsize := h.size
      rw [Finset.card_erase_of_mem hmem]
      omega
    refine ⟨_, rfl, h.sameCapacity, fun q hq => h.below q (Finset.mem_of_mem_erase hq), fun q => ?_, hless, ?_⟩
    · rw [bit_update p hword, Finset.mem_erase, ← h.bits q]
      by_cases hq : q = p <;> simp [hq]
    · have hlast := h.lastPos
      rw [vectorSize] at hlast ⊢
      exact hlast

theorem reset : Holds capacity v.reset ∅ where
  sameCapacity := h.sameCapacity
  below := fun p hp => absurd hp (Finset.notMem_empty p)
  bits := fun p => by simp [bit, BitVector.reset]
  size := rfl
  lastPos := .inl rfl

/-- Only the last position matters to a search. -/
theorem moved {last : ℤ} (hlast : last = -1 ∨ 0 ≤ last ∧ last < 64 * v.vectorSize) :
    Holds capacity { v with lastPos := last } S := ⟨h.sameCapacity, h.below, h.bits, h.size, hlast⟩

/-- The members in ascending order, as they are left to a search. -/
theorem ascending_eq (hcapacity : capacity ≤ 2 ^ 31) : ascending capacity S =
    (List.range (64 * v.vectorSize)).filter fun p => v.bit p && decide ((-1 : ℤ) < (p : ℤ)) := by
  have hle : capacity ≤ 64 * v.vectorSize := by
    rw [h.vectorSize_eq hcapacity]
    omega
  obtain ⟨k, hk⟩ := Nat.exists_eq_add_of_le hle
  have hrest : ((List.range k).map (capacity + ·)).filter (fun p => v.bit p && decide ((-1 : ℤ) < (p : ℤ))) = [] := by
    apply List.filter_eq_nil_iff.2
    intro p hp htest
    obtain ⟨i, -, rfl⟩ := List.mem_map.1 hp
    have hbelow := h.below _ ((h.bits _).1 (Bool.and_eq_true _ _ ▸ htest).1)
    omega
  rw [hk, List.range_add, List.filter_append, hrest, List.append_nil, ascending]
  apply List.filter_congr
  intro p _
  have hpos : (-1 : ℤ) < (p : ℤ) := by omega
  rw [decide_eq_true hpos, Bool.and_true, Bool.eq_iff_iff, decide_eq_true_iff, h.bits p]

/-- Searching on finds the members that are left, and then none. -/
theorem run_find (hcapacity : capacity ≤ 2 ^ 31) (l : List ℕ)
    (hl : (List.range (64 * v.vectorSize)).filter (fun p => v.bit p && decide (v.lastPos < (p : ℤ))) = l) :
    ∃ w, bitVector.run v (List.replicate (l.length + 1) .find) =
      .ok (w, l.map (fun p : ℕ => some (p : ℤ)) ++ [some (-1)]) := by
  have hfind := find_eq (v := v) (h.sameCapacity.trans_le hcapacity) h.lastPos
  induction l generalizing v with
  | nil =>
    have hnone := List.head?_filter (p := fun p => v.bit p && decide (v.lastPos < (p : ℤ)))
      (l := List.range (64 * v.vectorSize))
    rw [hl, List.head?_nil] at hnone
    rw [← hnone] at hfind
    refine ⟨{ v with lastPos := -1 }, ?_⟩
    have hstep : bitVector.step v .find = .ok ({ v with lastPos := -1 }, some (-1)) := by
      change Except.ok (v.find.1, some v.find.2) = _
      rw [hfind]
    exact Transducer.run_cons_ok hstep rfl
  | cons a rest ih =>
    obtain ⟨hnext, hrest⟩ := filter_behind hl
    rw [hnext] at hfind
    have hmem : a ∈ List.range (64 * v.vectorSize) := by
      have hmem : a ∈ a :: rest := List.mem_cons_self
      rw [← hl] at hmem
      exact List.mem_of_mem_filter hmem
    have hlt := List.mem_range.1 hmem
    have hmoved : Holds capacity { v with lastPos := (a : ℤ) } S := h.moved (.inr ⟨by omega, by omega⟩)
    obtain ⟨w, hw⟩ := ih hmoved hrest (find_eq (hmoved.sameCapacity.trans_le hcapacity) hmoved.lastPos)
    refine ⟨w, ?_⟩
    apply Transducer.run_cons_ok (a := some (a : ℤ)) (t := { v with lastPos := (a : ℤ) })
    · change Except.ok (v.find.1, some v.find.2) = _
      rw [hfind]
    · exact hw

/-- One call. -/
theorem step (hcapacity : capacity ≤ 2 ^ 31) {op : BitVectorOp} (hop : op.Within capacity) :
    ∃ w a, v.step op = .ok (w, a) ∧ Holds capacity w (op.apply S) := by
  cases op with
  | set p =>
    obtain ⟨w, hw, hholds⟩ := h.set hcapacity hop
    exact ⟨w, none, by rw [BitVector.step, hw]; rfl, hholds⟩
  | clear p =>
    obtain ⟨w, hw, hholds⟩ := h.clear hcapacity hop
    exact ⟨w, none, by rw [BitVector.step, hw]; rfl, hholds⟩
  | reset => exact ⟨_, _, rfl, h.reset⟩
  | resetFind => exact ⟨_, _, rfl, h.moved (.inl rfl)⟩
  | find =>
    refine ⟨_, _, rfl, ?_⟩
    rw [find_eq (h.sameCapacity.trans_le hcapacity) h.lastPos]
    split
    · rename_i p hp
      have hlt := List.mem_range.1 (List.mem_of_find?_eq_some hp)
      exact h.moved (.inr ⟨by omega, by omega⟩)
    · exact h.moved (.inl rfl)

/-- All calls together. -/
theorem run (hcapacity : capacity ≤ 2 ^ 31) (ops : List BitVectorOp) (hops : ∀ op ∈ ops, op.Within capacity) :
    ∃ w answers, bitVector.run v ops = .ok (w, answers) ∧ Holds capacity w (ops.foldl BitVectorOp.apply S) := by
  induction ops generalizing v S with
  | nil => exact ⟨v, [], rfl, h⟩
  | cons op ops ih =>
    obtain ⟨w, a, hw, hholds⟩ := h.step hcapacity (hops op List.mem_cons_self)
    obtain ⟨u, as, hu, hholds'⟩ := ih hholds fun op' hop' => hops op' (List.mem_cons_of_mem _ hop')
    exact ⟨u, a :: as, Transducer.run_cons_ok hw hu, hholds'⟩

/-- The list of the members has as many entries as there are members. -/
theorem length_ascending : (ascending capacity S).length = S.card := by
  rw [ascending, ← List.toFinset_card_of_nodup (List.nodup_range.filter _)]
  congr 1
  ext p
  rw [List.mem_toFinset, List.mem_filter, List.mem_range, decide_eq_true_iff]
  exact ⟨fun hp => hp.2, fun hp => ⟨h.below p hp, hp⟩⟩

end Holds

end BitVector

/-- A member that is no `int` is not found. -/
theorem not_bitVectorRight {capacity : ℕ} (hcapacity : 2 ^ 31 < capacity) : ¬ BitVectorRight capacity := by
  intro h
  obtain ⟨v, answers, -, -, w, hrun⟩ := h [.set (2 ^ 31)] (by simpa [BitVectorOp.Within] using hcapacity)
  have hmem : (2 ^ 31 : ℕ) ∈ ascending capacity (heldBits [.set (2 ^ 31)]) := by
    rw [ascending, List.mem_filter, List.mem_range]
    exact ⟨hcapacity, by simp [heldBits, BitVectorOp.apply]⟩
  have hsmall : ∀ v w : BitVector, ∀ ops answers, bitVector.run v ops = .ok (w, answers) →
      (∀ op ∈ ops, op = .resetFind ∨ op = .find) → ∀ x, some x ∈ answers → x < 2 ^ 31 := by
    intro v w ops
    induction ops generalizing v with
    | nil =>
      intro answers hrun _ x hx
      cases hrun
      cases hx
    | cons op ops ih =>
      intro answers hrun hops x hx
      obtain ⟨u, a, as, hstep, hrest, rfl⟩ := Transducer.exists_of_run_cons hrun
      rcases List.mem_cons.1 hx with hx | hx
      · rcases hops op List.mem_cons_self with rfl | rfl
        · cases hstep
          cases hx
        · cases hstep
          cases hx
          exact v.find_lt
      · exact ih u as hrest (fun op' hop' => hops op' (List.mem_cons_of_mem _ hop')) x hx
  have hlt := hsmall v w _ _ hrun (fun op hop => ?_) ((2 ^ 31 : ℕ) : ℤ) ?_
  · norm_num at hlt
  · rcases List.mem_cons.1 hop with rfl | hop
    · exact .inl rfl
    · exact .inr (List.eq_of_mem_replicate hop)
  · exact List.mem_cons_of_mem _ (List.mem_append_left _ (List.mem_map.2 ⟨_, hmem, rfl⟩))

/-- **The bit vector is a set.** For a capacity of 32 bits, the size is the number of members after all calls and the
searches find all of them in order, exactly if every number below the capacity is an `int`. -/
theorem bitVector_right_iff (capacity : ℕ) : BitVectorRight capacity ↔ capacity ≤ 2 ^ 31 := by
  constructor
  · intro h
    by_contra hlt
    exact not_bitVectorRight (by omega) h
  · intro hcapacity ops hops
    obtain ⟨v, answers, hv, hholds⟩ := (BitVector.holds_new capacity).run hcapacity ops hops
    have hreset : BitVector.Holds capacity { v with lastPos := -1 } (heldBits ops) := hholds.moved (.inl rfl)
    have hlist := hreset.ascending_eq hcapacity
    obtain ⟨w, hw⟩ := hreset.run_find hcapacity _ hlist.symm
    refine ⟨v, answers, hv, hholds.size, w, ?_⟩
    rw [hreset.length_ascending] at hw
    exact Transducer.run_cons_ok (t := { v with lastPos := -1 }) rfl hw

/-- The member 2147483648 of a vector for so many bits and 64 more. -/
theorem bitVector_loses_member : ¬ ∀ capacity < 2 ^ 32, BitVectorRight capacity :=
  fun h => not_bitVectorRight (by decide) (h (2 ^ 31 + 64) (by decide))

end LifeSim.Misc
