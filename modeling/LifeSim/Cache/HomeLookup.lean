import Mathlib
import LifeSim.Cache.Address
import LifeSim.Lib.Interleave
import LifeSim.Lib.Signed

/-!
# The home of an address

`address_home_lookup.cc`: pieces of the address space are dealt out to modules in turn. Within its home an address has a
linear address, by which the sets of a cache are chosen. A cache block is what `CacheBase::splitAddress` takes for one:
the addresses of one tag.

The constructor compares the length of a piece and the size of a block as signed numbers. So it also accepts a block of
at least 2147483648 bytes, which is larger than a piece.
-/

namespace LifeSim.Cache

open LifeSim.Lib

/-- Why a lookup does not return. -/
inductive HomeFault
  /-- A shift by the width of the type. -/
  | undefinedShift
  | assertion
  | divisionByZero
  | outOfBounds
  deriving DecidableEq

/-- `AddressHomeLookup`, with the cores of its modules. -/
structure HomeLookup extends AddressHomeLookup where
  coreList : List (BitVec 32)
  cacheBlockSize : ℕ

namespace HomeLookup

/-- The constructor. -/
def new (ahlParam : ℕ) (coreList : List (BitVec 32)) (cacheBlockSize : ℕ) : Except HomeFault HomeLookup :=
  if 32 ≤ ahlParam then .error .undefinedShift
  else if toSInt32 (2 ^ ahlParam : ℕ) < toSInt32 cacheBlockSize then .error .assertion
  else .ok ⟨⟨ahlParam, coreList.length % 2 ^ 32⟩, coreList, cacheBlockSize⟩

variable (l : HomeLookup)

def getHome (address : Address) : Except HomeFault (BitVec 32) :=
  if l.totalModules = 0 then .error .divisionByZero
  else
    let moduleNum := toSInt32 ((address >>> l.ahlParam).toNat % l.totalModules : ℕ)
    if 0 ≤ moduleNum ∧ moduleNum < toSInt32 l.totalModules then
      match l.coreList[moduleNum.toNat]? with
      | some core => .ok core
      | none => .error .outOfBounds
    else .error .assertion

/-- Two addresses of one cache block. -/
def SameBlock (a b : Address) : Prop := a >>> Nat.log2 l.cacheBlockSize = b >>> Nat.log2 l.cacheBlockSize

instance (a b : Address) : Decidable (l.SameBlock a b) := inferInstanceAs (Decidable (_ = _))

/-- Every address has a home and is known by it and its linear address. A block has one home, and its linear addresses are
in one block. Below a linear address of a home, all are linear addresses of this home. -/
structure Right : Prop where
  total : ∀ a, ∃ core, l.getHome a = .ok core
  injective : ∀ a b, l.getHome a = l.getHome b → l.getLinearAddress a = l.getLinearAddress b → a = b
  block : ∀ a b, l.SameBlock a b →
    l.getHome a = l.getHome b ∧ l.SameBlock (l.getLinearAddress a) (l.getLinearAddress b)
  noGap : ∀ a x, x < l.getLinearAddress a → ∃ b, l.getHome b = l.getHome a ∧ l.getLinearAddress b = x

end HomeLookup

/-- The linear address is the place among the addresses of the home. -/
theorem AddressHomeLookup.toNat_getLinearAddress (l : AddressHomeLookup) (hparam : l.ahlParam < 64)
    (htotal : l.totalModules < 2 ^ 32) (a : Address) :
    (l.getLinearAddress a).toNat = dealtPlace (2 ^ l.ahlParam) l.totalModules a.toNat := by
  have ha := a.isLt
  have hpow : 2 ^ l.ahlParam < 2 ^ 64 := Nat.pow_lt_pow_right (by decide) hparam
  have hunit := Nat.two_pow_pos l.ahlParam
  have hmask : (((1#64) <<< l.ahlParam) - 1).toNat = 2 ^ l.ahlParam - 1 := by
    have hone : ((1#64) <<< l.ahlParam).toNat = 2 ^ l.ahlParam := by
      rw [BitVec.toNat_shiftLeft, BitVec.toNat_ofNat, Nat.shiftLeft_eq, Nat.one_mod, Nat.one_mul, Nat.mod_eq_of_lt hpow]
    rw [BitVec.toNat_sub_of_le, hone]
    · rfl
    · rw [BitVec.le_def, hone]
      exact hunit
  have hquotient : a.toNat / 2 ^ l.ahlParam / l.totalModules * 2 ^ l.ahlParam < 2 ^ 64 := by
    have hle := Nat.mul_le_mul_right (2 ^ l.ahlParam) (Nat.div_le_self (a.toNat / 2 ^ l.ahlParam) l.totalModules)
    have hself := Nat.div_mul_le_self a.toNat (2 ^ l.ahlParam)
    omega
  have hmodules : (BitVec.ofNat 64 l.totalModules).toNat = l.totalModules := by
    rw [BitVec.toNat_ofNat, Nat.mod_eq_of_lt (by omega)]
  rw [getLinearAddress, BitVec.toNat_or, BitVec.toNat_and, hmask, Nat.and_two_pow_sub_one_eq_mod, BitVec.toNat_shiftLeft,
    BitVec.toNat_udiv, BitVec.toNat_ushiftRight, hmodules, Nat.shiftRight_eq_div_pow, Nat.shiftLeft_eq,
    Nat.mod_eq_of_lt hquotient, ← Nat.shiftLeft_eq, ← Nat.shiftLeft_add_eq_or_of_lt (Nat.mod_lt _ hunit),
    Nat.shiftLeft_eq, dealtPlace]

namespace HomeLookup

variable {l : HomeLookup}

/-- What the constructor leaves behind. -/
structure Accepted (ahlParam : ℕ) (coreList : List (BitVec 32)) (cacheBlockSize : ℕ) (l : HomeLookup) : Prop where
  param_lt : ahlParam < 32
  compared : toSInt32 cacheBlockSize ≤ toSInt32 (2 ^ ahlParam : ℕ)
  ahlParam : l.ahlParam = ahlParam
  totalModules : l.totalModules = coreList.length % 2 ^ 32
  coreList : l.coreList = coreList
  cacheBlockSize : l.cacheBlockSize = cacheBlockSize

theorem accepted_of_new {ahlParam cacheBlockSize : ℕ} {coreList : List (BitVec 32)}
    (h : new ahlParam coreList cacheBlockSize = .ok l) : Accepted ahlParam coreList cacheBlockSize l := by
  rw [new] at h
  split_ifs at h with hparam hcompare
  cases h
  exact ⟨by omega, by omega, rfl, rfl, rfl, rfl⟩

/-- Distinct cores are no more than there are numbers for them. -/
theorem length_le_of_nodup {coreList : List (BitVec 32)} (h : coreList.Nodup) : coreList.length ≤ 2 ^ 32 := by
  have hnodup : (coreList.map BitVec.toNat).Nodup := h.map fun _ _ heq => BitVec.eq_of_toNat_eq heq
  have hsub : (coreList.map BitVec.toNat).toFinset ⊆ Finset.range (2 ^ 32) := by
    intro n hn
    obtain ⟨core, -, rfl⟩ := List.mem_map.1 (List.mem_toFinset.1 hn)
    exact Finset.mem_range.2 core.isLt
  have hcard := Finset.card_le_card hsub
  rwa [List.toFinset_card_of_nodup hnodup, List.length_map, Finset.card_range] at hcard

namespace Accepted

variable {ahlParam cacheBlockSize : ℕ} {coreList : List (BitVec 32)}
  (h : Accepted ahlParam coreList cacheBlockSize l)
include h

/-- Unless the comparison sees a negative number, a block fits into a piece. -/
theorem log2_le_iff (hblock : cacheBlockSize < 2 ^ 32) :
    Nat.log2 cacheBlockSize ≤ ahlParam ↔ cacheBlockSize < 2 ^ 31 ∨ ahlParam = 31 := by
  have hparam := h.param_lt
  have hcompare := h.compared
  constructor
  · intro hle
    by_contra hnot
    rw [not_or] at hnot
    have hge : 31 ≤ Nat.log2 cacheBlockSize := (Nat.le_log2 (by omega)).2 (by omega)
    omega
  · rintro (hsmall | rfl)
    · rcases Nat.eq_zero_or_pos cacheBlockSize with rfl | hpos
      · exact Nat.zero_le _
      · by_cases hlast : ahlParam = 31
        · have hlt := (Nat.log2_lt (Nat.ne_of_gt hpos)).2 hblock
          omega
        · have hpow : 2 ^ ahlParam < 2 ^ 31 := Nat.pow_lt_pow_right (by decide) (by omega)
          have hself := Nat.log2_self_le (Nat.ne_of_gt hpos)
          refine (Nat.pow_le_pow_iff_right (by decide)).1 (hself.trans ?_)
          generalize 2 ^ ahlParam = unit at hpow hcompare
          rw [toSInt32_of_small (by omega) (by omega), toSInt32_of_small (by omega) (by omega)] at hcompare
          omega
    · rcases Nat.eq_zero_or_pos cacheBlockSize with rfl | hpos
      · exact Nat.zero_le _
      · have hlt := (Nat.log2_lt (Nat.ne_of_gt hpos)).2 hblock
        omega

/-- The home is the core of the part that gets the address. -/
theorem getHome_eq (hlength : coreList.length < 2 ^ 31) (a : Address)
    (hlt : dealtPart (2 ^ ahlParam) coreList.length a.toNat < coreList.length) :
    l.getHome a = .ok (coreList[dealtPart (2 ^ ahlParam) coreList.length a.toNat]) := by
  have htotal : l.totalModules = coreList.length := by rw [h.totalModules, Nat.mod_eq_of_lt (by omega)]
  have hshift : (a >>> ahlParam).toNat % coreList.length = dealtPart (2 ^ ahlParam) coreList.length a.toNat := by
    rw [BitVec.toNat_ushiftRight, Nat.shiftRight_eq_div_pow, dealtPart]
  rw [getHome, htotal, if_neg (by omega), h.ahlParam, hshift, h.coreList]
  dsimp only
  rw [toSInt32_of_small (by omega) (by omega), toSInt32_of_small (by omega) (by omega), if_pos (by omega),
    Int.toNat_natCast, List.getElem?_eq_getElem hlt]

/-- A home needs a module, and the comparison of its number needs a sign. -/
theorem length_of_getHome (hnodup : coreList.Nodup) {core : BitVec 32} (hhome : l.getHome 0 = .ok core) :
    1 ≤ coreList.length ∧ coreList.length < 2 ^ 31 := by
  have hle := length_le_of_nodup hnodup
  have htotal := h.totalModules
  rw [getHome] at hhome
  split_ifs at hhome with hzero
  dsimp only at hhome
  split_ifs at hhome with hmodule
  have hlt := hmodule.1.trans_lt hmodule.2
  have hsmall : l.totalModules < 2 ^ 31 := by
    by_contra hlarge
    rw [toSInt32_of_large (by omega) (by omega)] at hlt
    omega
  omega

theorem right (hnodup : coreList.Nodup) (hpos : 1 ≤ coreList.length) (hlength : coreList.length < 2 ^ 31)
    (hfits : coreList.length = 1 ∨ Nat.log2 cacheBlockSize ≤ ahlParam) : l.Right := by
  have hparam := h.param_lt
  have hunit := Nat.two_pow_pos ahlParam
  have htotal : l.totalModules = coreList.length := by rw [h.totalModules, Nat.mod_eq_of_lt (by omega)]
  have hpart (a : Address) : dealtPart (2 ^ ahlParam) coreList.length a.toNat < coreList.length := Nat.mod_lt _ hpos
  have hlinear (a : Address) : (l.getLinearAddress a).toNat = dealtPlace (2 ^ ahlParam) coreList.length a.toNat := by
    rw [l.toNat_getLinearAddress (by rw [h.ahlParam]; omega) (by omega), h.ahlParam, htotal]
  have hhome (a b : Address) : l.getHome a = l.getHome b ↔
      dealtPart (2 ^ ahlParam) coreList.length a.toNat = dealtPart (2 ^ ahlParam) coreList.length b.toNat := by
    rw [h.getHome_eq hlength a (hpart a), h.getHome_eq hlength b (hpart b), Except.ok.injEq, hnodup.getElem_inj_iff]
  have hsame (a b : Address) : l.SameBlock a b ↔
      a.toNat / 2 ^ Nat.log2 cacheBlockSize = b.toNat / 2 ^ Nat.log2 cacheBlockSize := by
    rw [SameBlock, h.cacheBlockSize, ← BitVec.toNat_inj, BitVec.toNat_ushiftRight, BitVec.toNat_ushiftRight,
      Nat.shiftRight_eq_div_pow, Nat.shiftRight_eq_div_pow]
  refine ⟨fun a => ⟨_, h.getHome_eq hlength a (hpart a)⟩, fun a b hab hlin => ?_, fun a b hab => ?_, fun a x hx => ?_⟩
  · have hplace := congrArg BitVec.toNat hlin
    rw [hlinear, hlinear] at hplace
    exact BitVec.eq_of_toNat_eq (dealt_injective hunit ((hhome a b).1 hab) hplace)
  · rw [hhome, hsame, hlinear, hlinear]
    rw [hsame] at hab
    rcases hfits with hone | hfits
    · rw [hone, dealtPlace_one, dealtPlace_one]
      exact ⟨by rw [dealtPart, dealtPart, Nat.mod_one, Nat.mod_one], hab⟩
    · exact dealt_block (pow_dvd_pow 2 hfits) hab
  · have hlt : x.toNat < dealtPlace (2 ^ ahlParam) coreList.length a.toNat := by
      rw [← hlinear]
      exact hx
    obtain ⟨b, hle, hb, hplace⟩ := exists_dealt hunit hpos hlt
    have hbound : b % 2 ^ 64 = b := Nat.mod_eq_of_lt (hle.trans_lt a.isLt)
    refine ⟨BitVec.ofNat 64 b, ?_, BitVec.eq_of_toNat_eq ?_⟩
    · rw [hhome, BitVec.toNat_ofNat, hbound, hb]
    · rw [hlinear, BitVec.toNat_ofNat, hbound, hplace]

/-- A block that is larger than a piece has addresses with different homes. -/
theorem fits_of_right (hnodup : coreList.Nodup) (hpos : 1 ≤ coreList.length) (hlength : coreList.length < 2 ^ 31)
    (hright : l.Right) : coreList.length = 1 ∨ Nat.log2 cacheBlockSize ≤ ahlParam := by
  by_contra hnot
  rw [not_or] at hnot
  have hparam := h.param_lt
  have hunit := Nat.two_pow_pos ahlParam
  have hpow : 2 ^ ahlParam < 2 ^ 32 := Nat.pow_lt_pow_right (by decide) hparam
  have hlog : 2 ^ ahlParam < 2 ^ Nat.log2 cacheBlockSize := Nat.pow_lt_pow_right (by decide) (by omega)
  have hnat : (BitVec.ofNat 64 (2 ^ ahlParam)).toNat = 2 ^ ahlParam := by
    rw [BitVec.toNat_ofNat, Nat.mod_eq_of_lt (by omega)]
  have hsame : l.SameBlock 0 (BitVec.ofNat 64 (2 ^ ahlParam)) := by
    rw [SameBlock, h.cacheBlockSize, ← BitVec.toNat_inj, BitVec.toNat_ushiftRight, BitVec.toNat_ushiftRight,
      Nat.shiftRight_eq_div_pow, Nat.shiftRight_eq_div_pow, hnat, Nat.div_eq_of_lt hlog]
    exact Nat.zero_div _
  have hzero : dealtPart (2 ^ ahlParam) coreList.length (0 : Address).toNat = 0 := by
    rw [dealtPart]
    change 0 / _ % _ = 0
    rw [Nat.zero_div, Nat.zero_mod]
  have hone : dealtPart (2 ^ ahlParam) coreList.length (BitVec.ofNat 64 (2 ^ ahlParam)).toNat = 1 := by
    rw [dealtPart, hnat, Nat.div_self hunit, Nat.mod_eq_of_lt (by omega)]
  have hhome := (hright.block _ _ hsame).1
  rw [h.getHome_eq hlength _ (by omega), h.getHome_eq hlength _ (by omega), Except.ok.injEq,
    hnodup.getElem_inj_iff, hzero, hone] at hhome
  exact absurd hhome (by decide)

end Accepted

/-- **Homes and linear addresses.** With distinct cores and what the constructor accepts, the lookup is right exactly if
there is a module, the number of modules has a sign, and a block is no larger than a piece or there is only
one module. A block larger than a piece is one of at least 2147483648 bytes. -/
theorem home_right_iff {ahlParam cacheBlockSize : ℕ} {coreList : List (BitVec 32)} {l : HomeLookup}
    (hnew : new ahlParam coreList cacheBlockSize = .ok l) (hblock : cacheBlockSize < 2 ^ 32) (hnodup : coreList.Nodup) :
    l.Right ↔ 1 ≤ coreList.length ∧ coreList.length < 2 ^ 31 ∧
      (coreList.length = 1 ∨ cacheBlockSize < 2 ^ 31 ∨ ahlParam = 31) := by
  have h := accepted_of_new hnew
  rw [← h.log2_le_iff hblock]
  constructor
  · intro hright
    obtain ⟨core, hcore⟩ := hright.total 0
    obtain ⟨hpos, hlength⟩ := h.length_of_getHome hnodup hcore
    exact ⟨hpos, hlength, h.fits_of_right hnodup hpos hlength hright⟩
  · rintro ⟨hpos, hlength, hfits⟩
    exact h.right hnodup hpos hlength hfits

/-- Three modules, and pieces of the length of a block. -/
theorem home_right_iff_blocks :
    ∃ l, new 6 [0, 4, 8] 64 = .ok l ∧ (l.Right ↔ 1 ≤ [0#32, 4, 8].length ∧ [0#32, 4, 8].length < 2 ^ 31 ∧
      ([0#32, 4, 8].length = 1 ∨ 64 < 2 ^ 31 ∨ 6 = 31)) := by
  have hnew : new 6 [0, 4, 8] 64 = .ok ⟨⟨6, 3⟩, [0, 4, 8], 64⟩ := by
    rw [new, if_neg (by decide), if_neg]
    · rfl
    · rw [toSInt32_of_small (by decide) (by decide), toSInt32_of_small (by decide) (by decide)]
      decide
  exact ⟨_, hnew, home_right_iff hnew (by decide) (by decide)⟩

/-- Two modules, pieces of 64 bytes and blocks of 2147483648 bytes. -/
theorem home_splits_block :
    ∃ l, new 6 [0, 1] 2147483648 = .ok l ∧ l.SameBlock 0 64 ∧ l.getHome 0 = .ok 0 ∧ l.getHome 64 = .ok 1 ∧
      ¬ l.Right := by
  have hnew : new 6 [0, 1] 2147483648 = .ok ⟨⟨6, 2⟩, [0, 1], 2147483648⟩ := by
    rw [new, if_neg (by decide), if_neg]
    · rfl
    · rw [toSInt32_of_small (by decide) (by decide), toSInt32_of_large (by decide) (by decide)]
      decide
  have h := accepted_of_new hnew
  have hsame : SameBlock ⟨⟨6, 2⟩, [0, 1], 2147483648⟩ 0 64 := by decide +kernel
  have hfirst := h.getHome_eq (by decide) 0 (by decide)
  have hsecond := h.getHome_eq (by decide) 64 (by decide)
  refine ⟨_, hnew, hsame, hfirst, hsecond, fun hright => ?_⟩
  have hhome := (hright.block 0 64 hsame).1
  rw [hfirst, hsecond] at hhome
  exact absurd (Except.ok.inj hhome) (by decide)

end HomeLookup

end LifeSim.Cache
