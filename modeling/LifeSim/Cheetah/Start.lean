import Mathlib.Tactic.Ring
import LifeSim.Cheetah.Hits

/-!
# The trees at the start

Every set starts full. The root has the first initial value in all its locations, and a row of a further level is filled
with a value of its own if it lies in the second half of the level. The others are empty: the values of their sets are
those of a row above.
-/

namespace LifeSim.Cheetah

open LifeSim.Lib LifeSim.Lib.Levels

variable {p : Params}

section Rows

/-- What the rows hold at the start. -/
def startRow (p : Params) : ℕ → ℕ → List ℕ
  | 0, _ => List.replicate p.twoPwrN firstInitValue
  | d + 1, r => if r < 2 ^ d then [] else List.replicate p.twoPwrN (firstInitValue + r)

variable {arr : ℕ → ℕ} {arrPtr first count j : ℕ}

theorem fillRow_row (ptr value : ℕ) (arr : ℕ → ℕ) :
    RowIs p (fillRow p ptr value arr) ptr (List.replicate p.twoPwrN value) := by
  have hfirst : fillRow p ptr value arr ptr = 1 := if_pos rfl
  refine ⟨?_, ?_, ?_⟩
  · rw [hfirst, List.length_replicate]
    omega
  · rw [hfirst, List.length_replicate, List.eq_replicate_iff]
    refine ⟨by simp [readRow], fun b hb => ?_⟩
    obtain ⟨i, hi, rfl⟩ := List.mem_map.1 hb
    rw [List.mem_range'_1] at hi
    rw [fillRow, if_neg (by omega), if_pos (by omega)]
  · rw [List.length_replicate]

theorem fillRow_apart {ptr value : ℕ} (h : j < ptr ∨ ptr + p.base ≤ j) : fillRow p ptr value arr j = arr j := by
  unfold Params.base at h
  rw [fillRow, if_neg (by omega), if_neg (by omega)]

/-- Locations outside some rows. -/
def Apart (p : Params) (arrPtr first count j : ℕ) : Prop :=
  j < arrPtr + first * p.base ∨ arrPtr + (first + count) * p.base ≤ j

theorem Apart.head (h : Apart p arrPtr first (count + 1) j) :
    j < arrPtr + first * p.base ∨ arrPtr + first * p.base + p.base ≤ j := by
  unfold Apart at h
  have hmul : (first + (count + 1)) * p.base = first * p.base + p.base + count * p.base := by ring
  rw [hmul] at h
  omega

theorem Apart.tail (h : Apart p arrPtr first (count + 1) j) : Apart p arrPtr (first + 1) count j := by
  unfold Apart at h ⊢
  have hmul : (first + (count + 1)) * p.base = (first + 1 + count) * p.base := by ring
  have hle : first * p.base ≤ (first + 1) * p.base := Nat.mul_le_mul_right _ (Nat.le_succ _)
  rw [hmul] at h
  omega

theorem emptyRows_apart (h : Apart p arrPtr first count j) : emptyRows p arrPtr first count arr j = arr j := by
  induction count generalizing first arr with
  | zero => rfl
  | succ count ih =>
    have hpos : 0 < p.base := Nat.succ_pos _
    have hhead := h.head
    have hbase : p.twoPwrN + 1 = p.base := rfl
    rw [emptyRows, ih h.tail, Function.update_of_ne]
    rw [hbase]
    omega

theorem emptyRows_row {k : ℕ} (hk : k < count) :
    RowIs p (emptyRows p arrPtr first count arr) (arrPtr + (first + k) * p.base) [] := by
  induction count generalizing first arr k with
  | zero => exact absurd hk (Nat.not_lt_zero k)
  | succ count ih =>
    rw [emptyRows]
    cases k with
    | zero =>
      have hbase : p.twoPwrN + 1 = p.base := rfl
      have hapart : Apart p arrPtr (first + 1) count (arrPtr + first * p.base) := by
        left
        have hmul : (first + 1) * p.base = first * p.base + p.base := Nat.succ_mul _ _
        have hpos : 0 < p.base := Nat.succ_pos _
        omega
      refine ⟨?_, rfl, Nat.zero_le _⟩
      rw [List.length_nil]
      simp only [Nat.add_zero, emptyRows_apart hapart, hbase, Function.update_self]
    | succ k =>
      have hindex : first + (k + 1) = first + 1 + k := by omega
      rw [hindex]
      exact ih (Nat.lt_of_succ_lt_succ hk)

theorem fillRows_value (s : (ℕ → ℕ) × ℕ) : (fillRows p arrPtr first count s).2 = s.2 + count := by
  induction count generalizing first s with
  | zero => rfl
  | succ count ih =>
    rw [fillRows, ih]
    dsimp only
    omega

theorem fillRows_apart {s : (ℕ → ℕ) × ℕ} (h : Apart p arrPtr first count j) :
    (fillRows p arrPtr first count s).1 j = s.1 j := by
  induction count generalizing first s with
  | zero => rfl
  | succ count ih =>
    rw [fillRows, ih h.tail]
    exact fillRow_apart h.head

theorem fillRows_row {s : (ℕ → ℕ) × ℕ} {k : ℕ} (hk : k < count) :
    RowIs p (fillRows p arrPtr first count s).1 (arrPtr + (first + k) * p.base)
      (List.replicate p.twoPwrN (s.2 + k)) := by
  induction count generalizing first s k with
  | zero => exact absurd hk (Nat.not_lt_zero k)
  | succ count ih =>
    rw [fillRows]
    cases k with
    | zero =>
      refine (fillRow_row _ _ s.1).congr fun i hi => fillRows_apart ?_
      left
      have hmul : (first + 1) * p.base = first * p.base + p.base := Nat.succ_mul _ _
      have hbase : p.base = p.twoPwrN + 1 := rfl
      rw [Nat.add_zero]
      omega
    | succ k =>
      have hindex : first + (k + 1) = first + 1 + k := by omega
      have hvalue : s.2 + (k + 1) = s.2 + 1 + k := by omega
      rw [hindex, hvalue]
      exact ih (Nat.lt_of_succ_lt_succ hk)

/-- The levels of a tree. -/
theorem initLevels_rows (p : Params) (arrPtr count d : ℕ) (s : (ℕ → ℕ) × ℕ) (hvalue : s.2 = firstInitValue + 2 ^ d) :
    (∀ e, d < e → e ≤ d + count → ∀ r < 2 ^ e, RowIs p (initLevels p arrPtr count (d + 1) s).1
      (arrPtr + (2 ^ e + r - 1) * p.base) (startRow p e r)) ∧
    ∀ j, j < arrPtr + (2 ^ (d + 1) - 1) * p.base ∨ arrPtr + (2 ^ (d + count + 1) - 1) * p.base ≤ j →
      (initLevels p arrPtr count (d + 1) s).1 j = s.1 j := by
  induction count generalizing d s with
  | zero =>
    refine ⟨fun e hlt hle => absurd hlt (Nat.not_lt.2 hle), fun _ _ => rfl⟩
  | succ count ih =>
    obtain ⟨arr, value⟩ := s
    have hhalf : 2 ^ (d + 1) = 2 ^ d + 2 ^ d := by rw [pow_succ]; omega
    have hpos : 0 < 2 ^ d := Nat.two_pow_pos d
    rw [initLevels, Nat.add_sub_cancel]
    generalize hs' : fillRows p arrPtr (2 ^ (d + 1) - 1 + 2 ^ d) (2 ^ d)
      (emptyRows p arrPtr (2 ^ (d + 1) - 1) (2 ^ d) arr, value) = s'
    have hvalue' : s'.2 = firstInitValue + 2 ^ (d + 1) := by
      rw [← hs', fillRows_value]
      dsimp only at hvalue ⊢
      omega
    obtain ⟨hrows, hframe⟩ := ih (d + 1) s' hvalue'
    have hmono {a b : ℕ} (h : a ≤ b) : a * p.base ≤ b * p.base := Nat.mul_le_mul_right _ h
    refine ⟨fun e hlt hle r hr => ?_, fun j hj => ?_⟩
    · by_cases he : e = d + 1
      · subst he
        -- the rows of this level stay while the further levels are written
        have hlevel : RowIs p s'.1 (arrPtr + (2 ^ (d + 1) + r - 1) * p.base) (startRow p (d + 1) r) := by
          rw [← hs', startRow]
          split
          · rename_i hrd
            have hempty : RowIs p (emptyRows p arrPtr (2 ^ (d + 1) - 1) (2 ^ d) arr)
                (arrPtr + (2 ^ (d + 1) - 1 + r) * p.base) [] := emptyRows_row hrd
            have hindex : 2 ^ (d + 1) - 1 + r = 2 ^ (d + 1) + r - 1 := by omega
            rw [hindex] at hempty
            refine hempty.congr fun i hi => fillRows_apart (Or.inl ?_)
            have hle := hmono (a := 2 ^ (d + 1) + r - 1 + 1) (b := 2 ^ (d + 1) - 1 + 2 ^ d) (by omega)
            have hsucc : (2 ^ (d + 1) + r - 1 + 1) * p.base = (2 ^ (d + 1) + r - 1) * p.base + p.base := Nat.succ_mul _ _
            have hbase : p.base = p.twoPwrN + 1 := rfl
            omega
          · have hrd : r - 2 ^ d < 2 ^ d := by omega
            have hfill : RowIs p (fillRows p arrPtr (2 ^ (d + 1) - 1 + 2 ^ d) (2 ^ d)
                (emptyRows p arrPtr (2 ^ (d + 1) - 1) (2 ^ d) arr, value)).1
                (arrPtr + (2 ^ (d + 1) - 1 + 2 ^ d + (r - 2 ^ d)) * p.base)
                (List.replicate p.twoPwrN (value + (r - 2 ^ d))) := fillRows_row hrd
            have hindex : 2 ^ (d + 1) - 1 + 2 ^ d + (r - 2 ^ d) = 2 ^ (d + 1) + r - 1 := by omega
            have hnumber : value + (r - 2 ^ d) = firstInitValue + r := by
              dsimp only at hvalue
              omega
            rwa [hindex, hnumber] at hfill
        refine hlevel.congr fun i hi => hframe _ (Or.inl ?_)
        have hnext : 2 ^ (d + 1 + 1) = 2 ^ (d + 1) + 2 ^ (d + 1) := by rw [pow_succ]; omega
        have hle := hmono (a := 2 ^ (d + 1) + r - 1 + 1) (b := 2 ^ (d + 1 + 1) - 1) (by omega)
        have hsucc : (2 ^ (d + 1) + r - 1 + 1) * p.base = (2 ^ (d + 1) + r - 1) * p.base + p.base := Nat.succ_mul _ _
        have hbase : p.base = p.twoPwrN + 1 := rfl
        omega
      · exact hrows e (by omega) (by omega) r hr
    · have hnext : 2 ^ (d + 1 + 1) = 2 ^ (d + 1) + 2 ^ (d + 1) := by rw [pow_succ]; omega
      have hend : d + 1 + count + 1 = d + (count + 1) + 1 := by omega
      have hlast : 2 ^ (d + 1 + 1) ≤ 2 ^ (d + (count + 1) + 1) := Nat.pow_le_pow_right (by omega) (by omega)
      have hup := hmono (a := 2 ^ (d + 1) - 1) (b := 2 ^ (d + 1 + 1) - 1) (by omega)
      have hall := hmono (a := 2 ^ (d + 1 + 1) - 1) (b := 2 ^ (d + (count + 1) + 1) - 1) (by omega)
      have hfilled : Apart p arrPtr (2 ^ (d + 1) - 1 + 2 ^ d) (2 ^ d) j := by
        have hle := hmono (a := 2 ^ (d + 1) - 1) (b := 2 ^ (d + 1) - 1 + 2 ^ d) (by omega)
        have hsum : 2 ^ (d + 1) - 1 + 2 ^ d + 2 ^ d = 2 ^ (d + 1 + 1) - 1 := by omega
        unfold Apart
        rw [hsum]
        omega
      have hemptied : Apart p arrPtr (2 ^ (d + 1) - 1) (2 ^ d) j := by
        have hle := hmono (a := 2 ^ (d + 1) - 1 + 2 ^ d) (b := 2 ^ (d + 1 + 1) - 1) (by omega)
        unfold Apart
        omega
      rw [hframe j (by rw [hend]; omega), ← hs', fillRows_apart hfilled]
      exact emptyRows_apart hemptied

/-- One tree. -/
theorem initTree_rows (arrPtr : ℕ) (arr : ℕ → ℕ) :
    (∀ d ≤ p.maxDepth, ∀ r < 2 ^ d, RowIs p (initTree p arrPtr arr) (arrPtr + (2 ^ d + r - 1) * p.base) (startRow p d r)) ∧
    ∀ j, j < arrPtr ∨ arrPtr + p.sizeOfTree ≤ j → initTree p arrPtr arr j = arr j := by
  obtain ⟨hrows, hframe⟩ := initLevels_rows p arrPtr p.maxDepth 0
    (fillRow p arrPtr firstInitValue arr, firstInitValue + 1) rfl
  have hbase : p.base = p.twoPwrN + 1 := rfl
  refine ⟨fun d hd r hr => ?_, fun j hj => ?_⟩
  · cases d with
    | zero =>
      obtain rfl : r = 0 := by omega
      have hroot : arrPtr + (2 ^ 0 + 0 - 1) * p.base = arrPtr := by simp
      rw [hroot]
      refine (fillRow_row _ _ arr).congr fun i hi => hframe _ (Or.inl ?_)
      simp
      omega
    | succ d => exact hrows (d + 1) (Nat.succ_pos d) (by omega) r hr
  · have hsize : p.sizeOfTree = (2 ^ (p.maxDepth + 1) - 1) * p.base + p.base := by
      have hpos : 0 < 2 ^ (p.maxDepth + 1) := Nat.two_pow_pos _
      rw [Params.sizeOfTree, ← Nat.succ_mul, Nat.succ_eq_add_one, Nat.sub_add_cancel hpos, pow_succ]
    have hone : (2 ^ (0 + 1) - 1) * p.base = p.base := by simp
    have hpow : 2 ^ (0 + 1) ≤ 2 ^ (p.maxDepth + 1) := Nat.pow_le_pow_right (by omega) (by omega)
    have hle : (2 ^ (0 + 1) - 1) * p.base ≤ (2 ^ (p.maxDepth + 1) - 1) * p.base := Nat.mul_le_mul_right _ (by omega)
    simp only [Nat.zero_add] at hframe hone hle
    rw [initTree, hframe j (by omega)]
    exact fillRow_apart (by omega)

/-- All trees. -/
theorem initTrees_rows (p : Params) : Represents p (initTrees p (2 ^ p.A)) fun _ => startRow p := by
  have hall (count : ℕ) : ∀ set < count, ∀ d ≤ p.maxDepth, ∀ r < 2 ^ d,
      RowIs p (initTrees p count) (rowPtr p set d r) (startRow p d r) := by
    induction count with
    | zero => exact fun set hset => absurd hset (Nat.not_lt_zero set)
    | succ count ih =>
      intro set hset d hd r hr
      obtain ⟨hrows, hframe⟩ := initTree_rows (p := p) (p.arrPtr count) (initTrees p count)
      have hptr (t : ℕ) : rowPtr p t d r = p.arrPtr t + (2 ^ d + r - 1) * p.base := by
        rw [rowPtr, Params.entry, mask_eq_mod, Nat.mod_eq_of_lt hr]
      rw [initTrees]
      rcases Nat.lt_succ_iff_lt_or_eq.1 hset with hlt | rfl
      · refine (ih set hlt d hd r hr).congr fun i hi => hframe _ (Or.inl ?_)
        have hlevel := level_lt hd hr
        have hrow : (2 ^ d + r - 1 + 1) * p.base ≤ p.sizeOfTree := Nat.mul_le_mul_right _ hlevel
        have htree : (set + 1) * p.sizeOfTree ≤ count * p.sizeOfTree := Nat.mul_le_mul_right _ hlt
        have hbase : p.base = p.twoPwrN + 1 := rfl
        rw [Nat.succ_mul] at hrow htree
        rw [hptr]
        unfold Params.arrPtr
        omega
      · rw [hptr]
        exact hrows d hd r hr
  exact hall (2 ^ p.A)

end Rows

end LifeSim.Cheetah
