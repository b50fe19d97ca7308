import Mathlib.Algebra.BigOperators.Intervals
import LifeSim.Cheetah.Descend

/-!
# What a search counts

The entries on the way that share at least some number of low bits with the tag stand, in the set of these bits, in front
of it. Their number is the place of the tag in the stack of the set, and an access counts one hit at this place.
-/

namespace LifeSim.Cheetah

open LifeSim.Lib LifeSim.Lib.Levels

variable {p : Params} {x z i : ℕ}

section Bits

theorem mod_two_pow_eq_iff : z % 2 ^ i = x % 2 ^ i ↔ ∀ j < i, x.testBit j = z.testBit j := by
  constructor
  · intro h j hj
    have hbit := congrArg (Nat.testBit · j) h
    simpa [Nat.testBit_mod_two_pow, hj] using hbit.symm
  · intro h
    refine Nat.eq_of_testBit_eq fun j => ?_
    rw [Nat.testBit_mod_two_pow, Nat.testBit_mod_two_pow]
    by_cases hj : j < i
    · rw [h j hj]
    · simp [hj]

theorem and_two_pow_ne_zero (m j : ℕ) : (m &&& 2 ^ j) ≠ 0 ↔ m.testBit j = true := by
  rw [Nat.and_two_pow]
  cases m.testBit j with
  | true => simp
  | false => simp

/-- The table tells how many low bits are zero. -/
theorem le_rmArr_iff {m : ℕ} (hm : m < 2 ^ p.maxDepth) (hi : i ≤ p.maxDepth) :
    i ≤ p.rmArr m ↔ ∀ j < i, m.testBit j = false := by
  unfold Params.rmArr
  split
  · subst m
    simp [hi]
  · rename_i hne
    obtain ⟨k, hk⟩ := Nat.exists_testBit_of_ne_zero hne
    have hlt : k < p.maxDepth := by
      by_contra hge
      have hpow := Nat.pow_le_pow_right (n := 2) (by omega) (Nat.le_of_not_lt hge)
      rw [Nat.testBit_lt_two_pow (Nat.lt_of_lt_of_le hm hpow)] at hk
      exact Bool.noConfusion hk
    have hsome : ((List.range (p.maxDepth + 1)).find? fun j => decide ((m &&& 2 ^ j) ≠ 0)).isSome := by
      rw [List.find?_isSome]
      refine ⟨k, List.mem_range.2 (by omega), ?_⟩
      simpa using (and_two_pow_ne_zero m k).2 hk
    obtain ⟨t, ht⟩ := Option.isSome_iff_exists.1 hsome
    rw [ht, Option.getD_some]
    rw [List.find?_range_eq_some] at ht
    obtain ⟨hset, _, hbelow⟩ := ht
    have hset' : m.testBit t = true := (and_two_pow_ne_zero m t).1 (by simpa using hset)
    constructor
    · intro hle j hj
      have hzero := hbelow j (by omega)
      by_contra hbit
      have hbit' := (and_two_pow_ne_zero m j).2 (by simpa using hbit)
      simp [hbit'] at hzero
    · intro hall
      by_contra hlt
      rw [hall t (by omega)] at hset'
      exact Bool.noConfusion hset'

theorem rmArr_le {m : ℕ} : p.rmArr m ≤ p.maxDepth := by
  unfold Params.rmArr
  split
  · exact Nat.le_refl _
  · cases h : (List.range (p.maxDepth + 1)).find? fun j => decide ((m &&& 2 ^ j) ≠ 0) with
    | none => exact Nat.zero_le _
    | some t => exact Nat.le_of_lt_succ (List.mem_range.1 (List.mem_of_find?_eq_some h))

theorem rightMatch_le : p.rightMatch x z ≤ p.maxDepth := rmArr_le

/-- Two tags that share low bits are of one class. -/
theorem le_rightMatch_iff (hi : i ≤ p.maxDepth) :
    i ≤ p.rightMatch x z ↔ tagLevels.cls i z = tagLevels.cls i x := by
  have hmask : (x ^^^ z) &&& p.diffSetMask = (x ^^^ z) % 2 ^ p.maxDepth := mask_eq_mod _ _
  rw [Params.rightMatch, hmask, le_rmArr_iff (Nat.mod_lt _ (Nat.two_pow_pos _)) hi]
  refine Iff.trans ?_ mod_two_pow_eq_iff.symm
  refine forall_congr' fun j => forall_congr' fun hj => ?_
  rw [Nat.testBit_mod_two_pow, Nat.testBit_xor]
  simp [Nat.lt_of_lt_of_le hj hi]

end Bits

section Sum

variable {depths : ℕ → ℕ} {l stack : List ℕ}

/-- Each level is counted at the sum of the depths from it on, as long as the sums are small. -/
theorem countHits_eq (p : Params) (depths : ℕ → ℕ) (k sum : ℕ) (sacHits : ℕ → ℕ → ℕ) (j i : ℕ) :
    countHits p depths k sum sacHits j i = sacHits j i +
      if i < k ∧ sum + (∑ t ∈ Finset.Ico i k, depths t) < p.twoPwrN ∧ j = sum + ∑ t ∈ Finset.Ico i k, depths t then 1
      else 0 := by
  induction k generalizing sum sacHits with
  | zero => simp [countHits]
  | succ k ih =>
    have hsum (hle : i ≤ k) :
        sum + ∑ t ∈ Finset.Ico i (k + 1), depths t = sum + depths k + ∑ t ∈ Finset.Ico i k, depths t := by
      rw [Finset.sum_Ico_succ_top hle]
      omega
    rw [countHits]
    by_cases hlt : sum + depths k < p.twoPwrN
    · rw [if_pos hlt, ih]
      rcases Nat.lt_trichotomy i k with hik | rfl | hik
      · rw [hsum (Nat.le_of_lt hik)]
        have hkeep : Function.update sacHits (sum + depths k) (Function.update (sacHits (sum + depths k)) k
            (sacHits (sum + depths k) k + 1)) j i = sacHits j i := by
          by_cases hj : j = sum + depths k
          · rw [hj, Function.update_self, Function.update_of_ne (by omega)]
          · rw [Function.update_of_ne hj]
        simp [hkeep, hik, Nat.lt_succ_of_lt hik]
      · rw [hsum (Nat.le_refl _), Finset.Ico_self, Finset.sum_empty, Nat.add_zero]
        by_cases hj : j = sum + depths i
        · rw [hj, Function.update_self, Function.update_self]
          simp [hlt]
        · rw [Function.update_of_ne hj]
          simp [hj]
      · have hkeep : Function.update sacHits (sum + depths k) (Function.update (sacHits (sum + depths k)) k
            (sacHits (sum + depths k) k + 1)) j i = sacHits j i := by
          by_cases hj : j = sum + depths k
          · rw [hj, Function.update_self, Function.update_of_ne (by omega)]
          · rw [Function.update_of_ne hj]
        rw [hkeep, if_neg (by omega), if_neg (by omega)]
    · rw [if_neg hlt, if_neg, Nat.add_zero]
      intro hcount
      obtain ⟨hik, hsmall, _⟩ := hcount
      rw [hsum (by omega)] at hsmall
      omega

/-- The sum over the levels from one on counts the entries of one class. -/
theorem sum_sharedBits (hi : i ≤ p.maxDepth) (l : List ℕ) :
    ∑ t ∈ Finset.Ico i (p.maxDepth + 1), sharedBits p x l t =
      (before x l).countP fun z => tagLevels.cls i z = tagLevels.cls i x := by
  unfold sharedBits
  generalize before x l = m
  induction m with
  | nil => simp
  | cons z m ih =>
    have hone : (∑ t ∈ Finset.Ico i (p.maxDepth + 1), if p.rightMatch x z = t then 1 else 0) =
        if tagLevels.cls i z = tagLevels.cls i x then 1 else 0 := by
      rw [Finset.sum_ite_eq]
      have hle := rightMatch_le (p := p) (x := x) (z := z)
      simp only [Finset.mem_Ico, le_rightMatch_iff hi, Nat.lt_succ_of_le hle, and_true]
    simp only [List.countP_cons, decide_eq_true_eq, Finset.sum_add_distrib, ih, hone]

/-- Where the tag stands in the stack of its set. -/
def place (x i : ℕ) (stack : List ℕ) : ℕ := (tagLevels.members stack i (x % 2 ^ i)).idxOf x

theorem mem_heldBy_iff (hfull : Full p stack) (hi : i ≤ p.maxDepth) :
    x ∈ heldBy p x i stack ↔ place x i stack < p.twoPwrN := by
  have hle := hfull i hi (x % 2 ^ i) (Nat.mod_lt _ (Nat.two_pow_pos i))
  constructor
  · intro h
    exact (List.mem_take_iff_idxOf_lt (List.mem_of_mem_take h)).1 h
  · intro h
    have hmem : x ∈ tagLevels.members stack i (x % 2 ^ i) := by
      rw [← List.idxOf_lt_length_iff]
      exact Nat.lt_of_lt_of_le h hle
    exact (List.mem_take_iff_idxOf_lt hmem).2 h

/-- A search counts a hit at the place of the tag. -/
theorem Found.sacHits_eq {order : ℕ → List ℕ} {set : ℕ} {sacHits : ℕ → ℕ → ℕ} {r : Search × (ℕ → ℕ → ℕ)}
    (h : Found p order set x sacHits r) (hfull : Full p (order set)) (hi : i ≤ p.maxDepth) {j : ℕ} (hj : j < p.twoPwrN) :
    r.2 j i = sacHits j i + if j = place x i (order set) then 1 else 0 := by
  rw [h.sacHits]
  split
  · rw [countHits_eq, Nat.zero_add, sum_sharedBits hi]
    congr 1
    have hlt : i < p.maxDepth + 1 := Nat.lt_succ_of_le hi
    by_cases hx : x ∈ heldBy p x i (order set)
    · have hplace := (mem_heldBy_iff hfull hi).1 hx
      have hway : x ∈ tagLevels.way p.twoPwrN (order set) x i := (mem_way_iff (L := tagLevels) x i).2 hx
      obtain ⟨rest, hrest⟩ : tagLevels.way p.twoPwrN (order set) x i <+: tagLevels.way p.twoPwrN (order set) x p.maxDepth :=
        way_prefix x hi
      have hcount := countP_before_below (L := tagLevels) hx (Nat.le_refl i)
      rw [← before_append_of_mem (m := rest) hway, hrest] at hcount
      have hcount' : ((before x (passed p x (order set) (p.maxDepth + 1))).countP fun z =>
          decide (tagLevels.cls i z = tagLevels.cls i x)) = place x i (order set) := hcount
      rw [hcount']
      simp [hlt, hplace]
    · have hplace : ¬ place x i (order set) < p.twoPwrN := fun h => hx ((mem_heldBy_iff hfull hi).2 h)
      have hcount := le_countP_before_above (L := tagLevels) (h := p.maxDepth) hx hi (length_heldBy hfull hi)
      rw [if_neg, if_neg (by omega)]
      intro hsmall
      exact absurd hsmall.2.1 (Nat.not_lt.2 hcount)
  · rename_i hmiss
    have hplace : ¬ place x i (order set) < p.twoPwrN :=
      fun h => hmiss (heldBy_of_le hi ((mem_heldBy_iff hfull hi).2 h))
    rw [if_neg (by omega), Nat.add_zero]

end Sum

end LifeSim.Cheetah
