import Mathlib.Data.Nat.Log
import Mathlib.Tactic.Positivity
import LifeSim.Cheetah.Saclru

/-!
# The rows of the flat array

The rows of all trees lie side by side in the array. A row stands for the list of its entries from the first location
that is in use. The loop over a row takes the used tag out of the list, or else its last member, and the row of another
tag gets it in front.
-/

namespace LifeSim.Cheetah

open LifeSim.Lib LifeSim.Lib.Levels

variable {p : Params} {arr arr' : ℕ → ℕ} {ptr : ℕ} {l : List ℕ}

/-- The number of a row. -/
def node (p : Params) (set depth r : ℕ) : ℕ := set * (2 ^ p.maxDepth * 2) + (2 ^ depth + r - 1)

/-- Where a row begins. -/
def rowPtr (p : Params) (set depth r : ℕ) : ℕ := p.arrPtr set + p.entry depth r

theorem mask_eq_mod (tag depth : ℕ) : tag &&& (2 ^ depth - 1) = tag % 2 ^ depth := Nat.and_two_pow_sub_one_eq_mod tag depth

theorem rowPtr_mod (p : Params) (set depth tag : ℕ) :
    p.arrPtr set + p.entry depth tag = rowPtr p set depth (tag % 2 ^ depth) := by
  rw [rowPtr, Params.entry, Params.entry, mask_eq_mod, mask_eq_mod, Nat.mod_mod]

theorem rowPtr_eq {set depth r : ℕ} (hr : r < 2 ^ depth) : rowPtr p set depth r = node p set depth r * p.base := by
  rw [rowPtr, Params.arrPtr, Params.sizeOfTree, Params.entry, mask_eq_mod, Nat.mod_eq_of_lt hr, node, Nat.add_mul,
    Nat.mul_assoc set]

/-- A level and the place in it can be read off their number. -/
theorem eq_of_level {d e r t : ℕ} (hr : r < 2 ^ d) (ht : t < 2 ^ e) (h : 2 ^ d + r = 2 ^ e + t) : d = e ∧ r = t := by
  have hlog {d r : ℕ} (hr : r < 2 ^ d) : Nat.log 2 (2 ^ d + r) = d := by
    refine (Nat.log_eq_iff (Or.inr ⟨by omega, by positivity⟩)).2 ⟨by omega, ?_⟩
    rw [pow_succ]
    omega
  have hd : d = e := by rw [← hlog hr, h, hlog ht]
  subst hd
  exact ⟨rfl, by omega⟩

theorem level_lt {d r : ℕ} (hd : d ≤ p.maxDepth) (hr : r < 2 ^ d) : 2 ^ d + r - 1 < 2 ^ p.maxDepth * 2 := by
  have hpow : 2 ^ d ≤ 2 ^ p.maxDepth := Nat.pow_le_pow_right (by omega) hd
  omega

theorem node_inj {s t d e r q : ℕ} (hd : d ≤ p.maxDepth) (he : e ≤ p.maxDepth) (hr : r < 2 ^ d) (hq : q < 2 ^ e)
    (h : node p s d r = node p t e q) : s = t ∧ d = e ∧ r = q := by
  have hlt := level_lt hd hr
  have hlt' := level_lt he hq
  have hpos : 0 < 2 ^ p.maxDepth * 2 := by positivity
  unfold node at h
  have hs : s = t := by
    have hdiv := congrArg (· / (2 ^ p.maxDepth * 2)) h
    simpa [Nat.mul_add_div hpos, Nat.mul_comm s, Nat.mul_comm t, Nat.div_eq_of_lt hlt, Nat.div_eq_of_lt hlt'] using hdiv
  subst hs
  have hone : 0 < 2 ^ d := by positivity
  have hone' : 0 < 2 ^ e := by positivity
  obtain ⟨hde, hrq⟩ := eq_of_level hr hq (by omega)
  exact ⟨rfl, hde, hrq⟩

/-- Different rows have no location in common. -/
theorem rowPtr_add_ne {s t d e r q i j : ℕ} (hd : d ≤ p.maxDepth) (he : e ≤ p.maxDepth) (hr : r < 2 ^ d) (hq : q < 2 ^ e)
    (hi : i ≤ p.twoPwrN) (hj : j ≤ p.twoPwrN) (hne : ¬ (s = t ∧ d = e ∧ r = q)) :
    rowPtr p s d r + i ≠ rowPtr p t e q + j := by
  intro h
  have hpos : 0 < p.base := Nat.succ_pos _
  rw [rowPtr_eq hr, rowPtr_eq hq] at h
  have hdiv := congrArg (· / p.base) h
  have hi' : i / p.base = 0 := Nat.div_eq_of_lt (Nat.lt_succ_of_le hi)
  have hj' : j / p.base = 0 := Nat.div_eq_of_lt (Nat.lt_succ_of_le hj)
  simp only [Nat.mul_comm _ p.base, Nat.mul_add_div hpos, hi', hj', Nat.add_zero] at hdiv
  exact hne (node_inj hd he hr hq hdiv)

/-- Some locations of a row. -/
def readRow (arr : ℕ → ℕ) (ptr i count : ℕ) : List ℕ := (List.range' i count).map fun j => arr (ptr + j)

theorem readRow_succ (arr : ℕ → ℕ) (ptr i count : ℕ) :
    readRow arr ptr i (count + 1) = arr (ptr + i) :: readRow arr ptr (i + 1) count := rfl

theorem readRow_congr {i count : ℕ} (h : ∀ j, i ≤ j → j < i + count → arr' (ptr + j) = arr (ptr + j)) :
    readRow arr' ptr i count = readRow arr ptr i count := by
  refine List.map_congr_left fun j hj => ?_
  rw [List.mem_range'_1] at hj
  exact h j hj.1 hj.2

/-- A row holds a list. -/
structure RowIs (p : Params) (arr : ℕ → ℕ) (ptr : ℕ) (l : List ℕ) : Prop where
  count : arr ptr + l.length = p.twoPwrN + 1
  slots : readRow arr ptr (arr ptr) l.length = l
  length_le : l.length ≤ p.twoPwrN

namespace RowIs

theorem congr (h : RowIs p arr ptr l) (heq : ∀ j ≤ p.twoPwrN, arr' (ptr + j) = arr (ptr + j)) : RowIs p arr' ptr l := by
  have hcount : arr' ptr = arr ptr := heq 0 (Nat.zero_le _)
  have hc := h.count
  refine ⟨by rw [hcount, hc], ?_, h.length_le⟩
  rw [hcount, readRow_congr fun j _ hj => heq j (by omega), h.slots]

theorem first_pos (h : RowIs p arr ptr l) : 0 < arr ptr := by
  have hc := h.count
  have hle := h.length_le
  omega

/-- The row is empty if its first location lies behind it. -/
theorem empty_iff (h : RowIs p arr ptr l) : p.twoPwrN < arr ptr ↔ l = [] := by
  have hc := h.count
  rw [← List.length_eq_zero_iff]
  omega

/-- A row without its first location. -/
theorem tail {y : ℕ} (hc : arr ptr + (l.length + 1) = p.twoPwrN + 1) (hpos : 0 < arr ptr)
    (hslots : readRow arr ptr (arr ptr) (l.length + 1) = y :: l) :
    RowIs p (Function.update arr ptr (arr ptr + 1)) ptr l := by
  rw [readRow_succ, List.cons.injEq] at hslots
  refine ⟨?_, ?_, by omega⟩
  · rw [Function.update_self]
    omega
  · rw [Function.update_self]
    refine (readRow_congr fun j hj _ => ?_).trans hslots.2
    rw [Function.update_of_ne (by omega)]

/-- A row with a new entry in front. -/
theorem push (h : RowIs p arr ptr l) (y : ℕ) (hroom : l.length < p.twoPwrN) :
    RowIs p (Function.update (Function.update arr ptr (arr ptr - 1)) (ptr + (arr ptr - 1)) y) ptr (y :: l) := by
  have hc := h.count
  have hpos : 1 < arr ptr := by omega
  have hfirst : Function.update (Function.update arr ptr (arr ptr - 1)) (ptr + (arr ptr - 1)) y ptr = arr ptr - 1 := by
    rw [Function.update_of_ne (by omega), Function.update_self]
  refine ⟨?_, ?_, ?_⟩
  · rw [hfirst, List.length_cons]
    omega
  · rw [hfirst, List.length_cons, readRow_succ, Function.update_self]
    congr 1
    rw [Nat.sub_add_cancel (by omega)]
    refine (readRow_congr fun j hj _ => ?_).trans h.slots
    rw [Function.update_of_ne (by omega), Function.update_of_ne (by omega)]
  · rw [List.length_cons]
    omega

end RowIs

theorem dropped_self (x : ℕ) (l : List ℕ) : dropped x (x :: l) = l := by
  rw [dropped, if_pos List.mem_cons_self, List.erase_cons_head]

theorem dropped_cons {x y : ℕ} (hne : y ≠ x) (hl : l ≠ []) : dropped x (y :: l) = y :: dropped x l := by
  unfold dropped
  by_cases hx : x ∈ l
  · rw [if_pos (List.mem_cons_of_mem _ hx), if_pos hx, List.erase_cons_tail (by simpa using hne)]
  · have hx' : x ∉ y :: l := fun h => hx ((List.mem_cons.1 h).resolve_left (Ne.symm hne))
    rw [if_neg hx', if_neg hx, List.dropLast_cons_of_ne_nil hl]

theorem length_dropped {x : ℕ} (hl : l ≠ []) : (dropped x l).length + 1 = l.length := by
  have hpos := List.length_pos_of_ne_nil hl
  unfold dropped
  split
  · rw [List.length_erase_of_mem (by assumption)]
    omega
  · rw [List.length_dropLast]
    omega

/-- What the loop over a row has done. -/
structure Scanned (p : Params) (x slotPtr i count : ℕ) (s s' : Search) (hit : Bool) : Prop where
  hit : hit = true ↔ x ∈ readRow s.arr slotPtr i count
  row : count ≠ 0 → readRow s'.arr slotPtr i count = s.tag :: dropped x (readRow s.arr slotPtr i count)
  last : x ∉ readRow s.arr slotPtr i count → s'.tag = (s.tag :: readRow s.arr slotPtr i count).getLast (List.cons_ne_nil _ _)
  depths : ∀ t, s'.depths t =
    s.depths t + (before x (readRow s.arr slotPtr i count)).countP fun z => p.rightMatch x z = t
  frame : ∀ j, j < slotPtr + i ∨ slotPtr + i + count ≤ j → s'.arr j = s.arr j
  atag : s'.atag = s.atag

theorem scanRow_scanned (p : Params) (x slotPtr count i : ℕ) (s : Search) :
    Scanned p x slotPtr i count s (scanRow p x slotPtr count i s).1 (scanRow p x slotPtr count i s).2 := by
  induction count generalizing i s with
  | zero =>
    refine ⟨?_, fun h => absurd rfl h, fun _ => rfl, fun t => ?_, fun _ _ => rfl, rfl⟩
    · simp [scanRow, readRow]
    · simp [scanRow, readRow, before]
  | succ count ih =>
    rw [scanRow]
    by_cases hx : s.arr (slotPtr + i) = x
    · rw [if_pos hx]
      have hrest : readRow (Function.update s.arr (slotPtr + i) s.tag) slotPtr (i + 1) count =
          readRow s.arr slotPtr (i + 1) count :=
        readRow_congr fun j hj _ => Function.update_of_ne (by omega) _ _
      refine ⟨?_, fun _ => ?_, fun h => ?_, fun t => ?_, fun j hj => ?_, rfl⟩
      · rw [readRow_succ, hx]
        exact iff_of_true rfl List.mem_cons_self
      · dsimp only
        rw [readRow_succ, readRow_succ, hrest, hx, dropped_self, Function.update_self]
      · rw [readRow_succ, hx] at h
        exact absurd List.mem_cons_self h
      · rw [readRow_succ, hx, before_cons_self, List.countP_nil, Nat.add_zero]
      · exact Function.update_of_ne (by omega) _ _
    · rw [if_neg hx]
      obtain ⟨hhit, hrow, hlast, hdepths, hframe, hatag⟩ := ih (i + 1)
        { s with arr := Function.update s.arr (slotPtr + i) s.tag, tag := s.arr (slotPtr + i),
                 depths := Function.update s.depths (p.rightMatch x (s.arr (slotPtr + i)))
                   (s.depths (p.rightMatch x (s.arr (slotPtr + i))) + 1) }
      have hrest : readRow (Function.update s.arr (slotPtr + i) s.tag) slotPtr (i + 1) count =
          readRow s.arr slotPtr (i + 1) count :=
        readRow_congr fun j hj _ => Function.update_of_ne (by omega) _ _
      dsimp only at hhit hrow hlast hdepths hframe hatag
      rw [hrest] at hhit hrow hlast hdepths
      refine ⟨?_, fun _ => ?_, fun h => ?_, fun t => ?_, fun j hj => ?_, hatag⟩
      · rw [hhit, readRow_succ, List.mem_cons, or_iff_right (Ne.symm hx)]
      · rw [readRow_succ, readRow_succ, hframe _ (by omega), Function.update_self]
        congr 1
        by_cases hcount : count = 0
        · subst hcount
          simp [readRow, dropped, Ne.symm hx]
        · have hne : readRow s.arr slotPtr (i + 1) count ≠ [] := by
            rw [readRow, ne_eq, List.map_eq_nil_iff, List.range'_eq_nil_iff]
            exact hcount
          rw [hrow hcount, dropped_cons hx hne]
      · rw [readRow_succ, List.mem_cons, not_or] at h
        rw [hlast h.2]
        simp only [readRow_succ, List.getLast_cons_cons]
      · rw [hdepths, readRow_succ, before_cons_ne hx, List.countP_cons]
        by_cases ht : p.rightMatch x (s.arr (slotPtr + i)) = t
        · subst ht
          rw [Function.update_self, if_pos (by simp)]
          omega
        · rw [Function.update_of_ne (Ne.symm ht), if_neg (by simpa using ht)]
          rfl
      · rw [hframe j (by omega)]
        exact Function.update_of_ne (by omega) _ _

/-- The rows of all trees. -/
def Represents (p : Params) (arr : ℕ → ℕ) (rows : ℕ → ℕ → ℕ → List ℕ) : Prop :=
  ∀ set < 2 ^ p.A, ∀ d ≤ p.maxDepth, ∀ r < 2 ^ d, RowIs p arr (rowPtr p set d r) (rows set d r)

/-- One row is another one. -/
def setRow (rows : ℕ → ℕ → ℕ → List ℕ) (set d r : ℕ) (l : List ℕ) : ℕ → ℕ → ℕ → List ℕ := fun t e q =>
  if t = set ∧ e = d ∧ q = r then l else rows t e q

variable {rows : ℕ → ℕ → ℕ → List ℕ} {set d r : ℕ}

theorem setRow_self : setRow rows set d r l set d r = l := if_pos ⟨rfl, rfl, rfl⟩

/-- Only locations of one row have changed. -/
theorem Represents.setRow (h : Represents p arr rows) (hd : d ≤ p.maxDepth) (hr : r < 2 ^ d)
    (hframe : ∀ j, (∀ i ≤ p.twoPwrN, j ≠ rowPtr p set d r + i) → arr' j = arr j)
    (hrow : RowIs p arr' (rowPtr p set d r) l) : Represents p arr' (setRow rows set d r l) := by
  intro t ht e he q hq
  unfold Cheetah.setRow
  split
  · rename_i heq
    obtain ⟨rfl, rfl, rfl⟩ := heq
    exact hrow
  · rename_i hne
    refine (h t ht e he q hq).congr fun j hj => hframe _ fun i hi => ?_
    exact rowPtr_add_ne he hd hq hr hj hi hne

end LifeSim.Cheetah
