import Mathlib
import LifeSim.Lib.Checked
import LifeSim.Lib.CircularArray
import LifeSim.Queue.SubsecondTime

/-!
# Moving averages

`moving_average.h` and `modulo_num.cc`: the last values are in a ring with one place more than there are values in the
window. The arithmetic mean keeps their sum, from which the oldest value is taken away before the window moves on.

The size of the ring is computed with 32 bits. So a window of the largest size has a ring without places.
-/

namespace LifeSim.Misc

open LifeSim.Lib LifeSim.Queue

/-- Why the average stops. -/
inductive MeanFault
  | assertion
  | divisionByZero
  | outOfBounds
  deriving DecidableEq

/-- `ModuloNum`. -/
structure ModuloNum where
  value : ℕ
  maxValue : ℕ
  deriving DecidableEq

namespace ModuloNum

variable (a num : ModuloNum)

/-- `operator+` of two numbers. -/
def addNum : Except MeanFault ModuloNum :=
  if a.maxValue ≠ num.maxValue then .error .assertion
  else if a.maxValue = 0 then .error .divisionByZero
  else .ok ⟨(a.value + num.value) % 2 ^ 32 % a.maxValue, a.maxValue⟩

/-- `operator-` of two numbers. -/
def subNum : Except MeanFault ModuloNum :=
  if a.maxValue ≠ num.maxValue then .error .assertion
  else if num.value ≤ a.value then .ok ⟨a.value - num.value, a.maxValue⟩
  else .ok ⟨(a.maxValue + (2 ^ 32 - num.value) + a.value) % 2 ^ 32, a.maxValue⟩

/-- `operator+` of a number and a value. -/
def addValue (value : ℕ) : Except MeanFault ModuloNum :=
  if a.maxValue = 0 then .error .divisionByZero else a.addNum ⟨value % a.maxValue, a.maxValue⟩

end ModuloNum

/-- `MovingArithmeticMean`. -/
structure MovingArithmeticMean where
  numList : List SubsecondTime
  maxWindowSize : ℕ
  currWindowFront : ModuloNum
  currWindowBack : ModuloNum
  sum : SubsecondTime

namespace MovingArithmeticMean

variable (m : MovingArithmeticMean)

/-- The constructor. -/
def new (maxWindowSize : ℕ) : MovingArithmeticMean where
  numList := List.replicate ((maxWindowSize + 1) % 2 ^ 32) 0
  maxWindowSize := maxWindowSize
  currWindowFront := ⟨0, (maxWindowSize + 1) % 2 ^ 32⟩
  currWindowBack := ⟨0, (maxWindowSize + 1) % 2 ^ 32⟩
  sum := 0

/-- A value of `m_num_list`. -/
def numAt (index : ℕ) : Except MeanFault SubsecondTime :=
  match m.numList[index]? with
  | some num => .ok num
  | none => .error .outOfBounds

/-- `addToWindow`. -/
def addToWindow (nextNum : SubsecondTime) : Except MeanFault MovingArithmeticMean := do
  if m.currWindowBack.value < m.numList.length then
    let back ← m.currWindowBack.addValue 1
    let front ← if back = m.currWindowFront then m.currWindowFront.addValue 1 else .ok m.currWindowFront
    .ok { m with
      numList := m.numList.set m.currWindowBack.value nextNum
      currWindowFront := front
      currWindowBack := back }
  else .error .outOfBounds

/-- `update`. -/
def update (nextNum : SubsecondTime) : Except MeanFault MovingArithmeticMean := do
  let currWindowSize ← m.currWindowBack.subNum m.currWindowFront
  let sum ← if currWindowSize.value = m.maxWindowSize then
      (m.numAt m.currWindowFront.value).map fun oldest => m.sum - oldest
    else .ok m.sum
  addToWindow { m with sum := sum + nextNum } nextNum

/-- `compute`. -/
def compute : Except MeanFault SubsecondTime := do
  let currWindowSize ← m.currWindowBack.subNum m.currWindowFront
  if currWindowSize.value = 0 then .error .divisionByZero else .ok (m.sum / BitVec.ofNat 64 currWindowSize.value)

/-- Updates with several values. -/
def updates (values : List SubsecondTime) : Except MeanFault MovingArithmeticMean := values.foldlM update m

end MovingArithmeticMean

/-- The last values, at most so many. -/
def lastValues {α : Type*} (n : ℕ) (values : List α) : List α := values.drop (values.length - n)

/-- The sum of times as a number. -/
def total (values : List SubsecondTime) : ℕ := (values.map BitVec.toNat).sum

/-- After every sequence of updates the average is the mean of the last values, rounded down, as long as their sum has
64 bits. Nothing is divided by zero and no value beyond the ring is read or written. -/
def MeanRight (n : ℕ) : Prop :=
  ∀ values, values ≠ [] → total (lastValues n values) < 2 ^ 64 →
    ∃ m mean, (MovingArithmeticMean.new n).updates values = .ok m ∧ m.compute = .ok mean ∧
      mean.toNat = total (lastValues n values) / min n values.length

/-! ### The last values -/

theorem length_lastValues {α : Type*} (n : ℕ) (values : List α) :
    (lastValues n values).length = min n values.length := by
  rw [lastValues, List.length_drop]
  omega

/-- One more value takes the place of the oldest one, once there are enough. -/
theorem lastValues_append {α : Type*} {n : ℕ} (hpos : 1 ≤ n) (values : List α) (x : α) :
    lastValues n (values ++ [x]) =
      (if (lastValues n values).length = n then (lastValues n values).tail else lastValues n values) ++ [x] := by
  rw [length_lastValues, lastValues, List.length_append, List.length_singleton]
  by_cases hfull : n ≤ values.length
  · have hsub : values.length + 1 - n = values.length - n + 1 := by omega
    rw [if_pos (Nat.min_eq_left hfull), hsub, List.drop_append_of_le_length (by omega), lastValues, List.tail_drop]
  · have hsub : values.length + 1 - n = 0 := by omega
    have hsub' : values.length - n = 0 := by omega
    rw [if_neg (by omega), lastValues, hsub, hsub', List.drop_zero, List.drop_zero]

theorem total_cons (x : SubsecondTime) (values : List SubsecondTime) : total (x :: values) = x.toNat + total values := by
  rw [total, List.map_cons, List.sum_cons]
  rfl

theorem toNat_sum (values : List SubsecondTime) : values.sum.toNat = total values % 2 ^ 64 := by
  induction values with
  | nil => rfl
  | cons x values ih =>
    rw [List.sum_cons, BitVec.toNat_add, ih, total_cons, Nat.add_mod_mod]

/-! ### The window -/

/-- The window holds these values, the oldest one first, and the sum is theirs. -/
structure Window (n : ℕ) (m : MovingArithmeticMean) (l : List SubsecondTime) : Prop where
  maxWindowSize : m.maxWindowSize = n
  places : m.numList.length = n + 1
  frontMax : m.currWindowFront.maxValue = n + 1
  backMax : m.currWindowBack.maxValue = n + 1
  front : m.currWindowFront.value < n + 1
  back : m.currWindowBack.value = (m.currWindowFront.value + l.length) % (n + 1)
  length : l.length ≤ n
  values : circularRead (fun i => m.numList.getD i 0) (n + 1) m.currWindowFront.value l.length = l
  sum : m.sum = l.sum

theorem window_new {n : ℕ} (hn : n + 1 < 2 ^ 32) : Window n (.new n) [] := by
  have hmod : (n + 1) % 2 ^ 32 = n + 1 := Nat.mod_eq_of_lt hn
  constructor
  · rfl
  · rw [MovingArithmeticMean.new, hmod, List.length_replicate]
  · exact hmod
  · exact hmod
  · exact Nat.succ_pos n
  · exact (Nat.zero_mod _).symm
  · exact Nat.zero_le n
  · rfl
  · rfl

/-- A value is written into a list. -/
theorem getD_set_eq_update {α : Type*} (l : List α) {i : ℕ} (hi : i < l.length) (a d : α) :
    (fun j => (l.set i a).getD j d) = Function.update (fun j => l.getD j d) i a := by
  funext j
  by_cases hj : j = i
  · subst hj
    rw [Function.update_self, List.getD_eq_getElem?_getD, List.getElem?_set_self hi, Option.getD_some]
  · rw [Function.update_of_ne hj, List.getD_eq_getElem?_getD, List.getElem?_set_ne (Ne.symm hj),
      List.getD_eq_getElem?_getD]

theorem addValue_one {a : ModuloNum} {n : ℕ} (hmax : a.maxValue = n + 1) (hvalue : a.value < n + 1)
    (hpos : 1 ≤ n) (hn : n + 1 < 2 ^ 32) : a.addValue 1 = .ok ⟨(a.value + 1) % (n + 1), n + 1⟩ := by
  have hone : 1 % (n + 1) = 1 := Nat.mod_eq_of_lt (by omega)
  rw [ModuloNum.addValue, hmax, if_neg (Nat.succ_ne_zero n), ModuloNum.addNum, if_neg (not_not.2 hmax), hmax,
    if_neg (Nat.succ_ne_zero n), hone]
  dsimp only
  rw [Nat.mod_eq_of_lt (b := 2 ^ 32) (by omega)]

namespace Window

variable {n : ℕ} {m : MovingArithmeticMean} {l : List SubsecondTime} (h : Window n m l)
include h

/-- The difference of the two places is the number of values. -/
theorem size (hn : n + 1 < 2 ^ 32) : m.currWindowBack.subNum m.currWindowFront = .ok ⟨l.length, n + 1⟩ := by
  have hfront := h.front
  have hlength := h.length
  rw [ModuloNum.subNum, h.backMax, h.frontMax, if_neg (not_not.2 rfl), h.back]
  by_cases hwrap : m.currWindowFront.value + l.length < n + 1
  · have hsub : m.currWindowFront.value + l.length - m.currWindowFront.value = l.length := by omega
    rw [Nat.mod_eq_of_lt hwrap, if_pos (Nat.le_add_right ..), hsub]
  · have hmod : (m.currWindowFront.value + l.length) % (n + 1) = m.currWindowFront.value + l.length - (n + 1) := by
      rw [Nat.mod_eq_sub_mod (by omega), Nat.mod_eq_of_lt (by omega)]
    have hsum : n + 1 + (2 ^ 32 - m.currWindowFront.value) + (m.currWindowFront.value + l.length - (n + 1)) =
        l.length + 2 ^ 32 := by omega
    rw [hmod, if_neg (by omega), hsum, Nat.add_mod_right, Nat.mod_eq_of_lt (by omega)]

/-- The oldest value. -/
theorem numAt_front {a : SubsecondTime} {rest : List SubsecondTime} (hl : l = a :: rest) :
    m.numAt m.currWindowFront.value = .ok a := by
  have hvalues := h.values
  have hfront := h.front
  have hplaces := h.places
  have hlt : m.currWindowFront.value < m.numList.length := by omega
  rw [hl, List.length_cons, circularRead_succ, List.cons.injEq, Nat.mod_eq_of_lt hfront,
    List.getD_eq_getElem?_getD, List.getElem?_eq_getElem hlt, Option.getD_some] at hvalues
  rw [MovingArithmeticMean.numAt, List.getElem?_eq_getElem hlt, hvalues.1]

/-- The place behind the last value, and the one behind that. -/
theorem back_succ : (m.currWindowBack.value + 1) % (n + 1) = (m.currWindowFront.value + (l.length + 1)) % (n + 1) := by
  rw [h.back, Nat.mod_add_mod, Nat.add_assoc]

theorem back_lt : m.currWindowBack.value < n + 1 := by
  rw [h.back]
  exact Nat.mod_lt _ (Nat.succ_pos n)

/-- The values from the front on, once another one is written behind them. -/
theorem written (x : SubsecondTime) : circularRead (fun i => (m.numList.set m.currWindowBack.value x).getD i 0) (n + 1)
    m.currWindowFront.value (l.length + 1) = l ++ [x] := by
  have hlength := h.length
  rw [getD_set_eq_update _ (by rw [h.places]; exact h.back_lt), h.back, circularRead_push (by omega), h.values]

/-- The place behind the new value is the one of the oldest value exactly if the window is full. -/
theorem back_eq_front_iff :
    (⟨(m.currWindowFront.value + (l.length + 1)) % (n + 1), n + 1⟩ : ModuloNum) = m.currWindowFront ↔ l.length = n := by
  have hfront := h.front
  have hlength := h.length
  constructor
  · intro hmeet
    have hvalue := congrArg ModuloNum.value hmeet
    dsimp only at hvalue
    by_contra hne
    have hzero : (m.currWindowFront.value + (l.length + 1)) % (n + 1) = (m.currWindowFront.value + 0) % (n + 1) := by
      rw [hvalue, Nat.add_zero, Nat.mod_eq_of_lt hfront]
    have hinj := add_mod_injective (by omega) (by omega) hzero
    omega
  · intro hfull
    rw [hfull, Nat.add_mod_right, Nat.mod_eq_of_lt hfront, ← h.frontMax]

/-- With room in the window, the value is written behind the others. -/
theorem addToWindow_room (hpos : 1 ≤ n) (hn : n + 1 < 2 ^ 32) (hroom : l.length ≠ n) {x s : SubsecondTime}
    (hs : s = (l ++ [x]).sum) :
    ∃ m', MovingArithmeticMean.addToWindow { m with sum := s } x = .ok m' ∧ Window n m' (l ++ [x]) := by
  have hlength := h.length
  have hlast : (l ++ [x]).length = l.length + 1 := by rw [List.length_append, List.length_singleton]
  rw [MovingArithmeticMean.addToWindow]
  dsimp only
  rw [if_pos (by rw [h.places]; exact h.back_lt), addValue_one h.backMax h.back_lt hpos hn, ok_bind, h.back_succ,
    if_neg (mt h.back_eq_front_iff.1 hroom), ok_bind]
  refine ⟨_, rfl, ?_⟩
  constructor
  · exact h.maxWindowSize
  · exact (List.length_set ..).trans h.places
  · exact h.frontMax
  · rfl
  · exact h.front
  · rw [hlast]
  · omega
  · rw [hlast]
    exact h.written x
  · exact hs

/-- In a full window the value takes the spare place, and the one of the oldest value is the spare one. -/
theorem addToWindow_full (hpos : 1 ≤ n) (hn : n + 1 < 2 ^ 32) (hfull : l.length = n) {x s : SubsecondTime}
    (hs : s = (l.tail ++ [x]).sum) :
    ∃ m', MovingArithmeticMean.addToWindow { m with sum := s } x = .ok m' ∧ Window n m' (l.tail ++ [x]) := by
  have hlast : (l.tail ++ [x]).length = n := by
    rw [List.length_append, List.length_tail, List.length_singleton]
    omega
  have hnil : l ≠ [] := by
    rintro rfl
    rw [List.length_nil] at hfull
    omega
  rw [MovingArithmeticMean.addToWindow]
  dsimp only
  rw [if_pos (by rw [h.places]; exact h.back_lt), addValue_one h.backMax h.back_lt hpos hn, ok_bind, h.back_succ,
    if_pos (h.back_eq_front_iff.2 hfull), addValue_one h.frontMax h.front hpos hn, ok_bind]
  refine ⟨_, rfl, ?_⟩
  constructor
  · exact h.maxWindowSize
  · exact (List.length_set ..).trans h.places
  · rfl
  · rfl
  · exact Nat.mod_lt _ (Nat.succ_pos n)
  · change (m.currWindowFront.value + (l.length + 1)) % (n + 1) = _
    rw [hlast, hfull, Nat.mod_add_mod, Nat.add_right_comm, Nat.add_assoc]
  · exact hlast.le
  · change circularRead _ _ ((m.currWindowFront.value + 1) % (n + 1)) _ = _
    have htail := congrArg List.tail (h.written x)
    rw [circularRead_succ, List.tail_cons, hfull] at htail
    rw [circularRead_mod, hlast, htail, List.tail_append_of_ne_nil hnil]
  · exact hs

/-- The oldest value is taken away from the sum before the window moves on. -/
theorem update (hpos : 1 ≤ n) (hn : n + 1 < 2 ^ 32) (x : SubsecondTime) :
    ∃ m', m.update x = .ok m' ∧ Window n m' ((if l.length = n then l.tail else l) ++ [x]) := by
  have hmax := h.maxWindowSize
  rw [MovingArithmeticMean.update, h.size hn, ok_bind]
  dsimp only
  by_cases hfull : l.length = n
  · cases l with
    | nil =>
      rw [List.length_nil] at hfull
      omega
    | cons a rest =>
      rw [if_pos (hfull.trans hmax.symm), if_pos hfull, h.numAt_front rfl]
      apply h.addToWindow_full hpos hn hfull
      change m.sum - a + x = _
      rw [List.tail_cons, List.sum_append, List.sum_singleton, h.sum, List.sum_cons, add_sub_cancel_left]
  · rw [if_neg fun heq => hfull (heq.trans hmax), if_neg hfull]
    apply h.addToWindow_room hpos hn hfull
    rw [List.sum_append, List.sum_singleton, h.sum]

/-- The mean of the values in the window. -/
theorem compute (hn : n + 1 < 2 ^ 32) (hne : l ≠ []) (htotal : total l < 2 ^ 64) :
    ∃ mean, m.compute = .ok mean ∧ mean.toNat = total l / l.length := by
  have hlength := h.length
  have hzero : l.length ≠ 0 := fun hzero => hne (List.length_eq_zero_iff.1 hzero)
  rw [MovingArithmeticMean.compute, h.size hn, ok_bind]
  dsimp only
  rw [if_neg hzero]
  refine ⟨_, rfl, ?_⟩
  rw [BitVec.toNat_udiv, BitVec.toNat_ofNat, Nat.mod_eq_of_lt (by omega), h.sum, toNat_sum, Nat.mod_eq_of_lt htotal]

end Window

/-- All updates together. -/
theorem window_updates {n : ℕ} (hpos : 1 ≤ n) (hn : n + 1 < 2 ^ 32) (values : List SubsecondTime) :
    ∃ m, (MovingArithmeticMean.new n).updates values = .ok m ∧ Window n m (lastValues n values) := by
  induction values using List.reverseRecOn with
  | nil =>
    rw [lastValues, List.drop_nil]
    exact ⟨_, rfl, window_new hn⟩
  | append_singleton values x ih =>
    obtain ⟨m, hm, hwindow⟩ := ih
    obtain ⟨m', hm', hwindow'⟩ := hwindow.update hpos hn x
    refine ⟨m', ?_, by rwa [lastValues_append hpos]⟩
    rw [MovingArithmeticMean.updates] at hm ⊢
    rw [List.foldlM_append, hm, ok_bind, List.foldlM_cons, hm']
    rfl

/-- With the largest window the ring has no places. -/
theorem not_meanRight_largest : ¬ MeanRight (2 ^ 32 - 1) := by
  intro h
  obtain ⟨m, mean, hm, -⟩ := h [0] (List.cons_ne_nil _ _) (by decide)
  have hfault : (MovingArithmeticMean.new (2 ^ 32 - 1)).updates [0] = .error .outOfBounds := rfl
  rw [hfault] at hm
  cases hm

/-- **The moving mean.** For a window of a 32-bit size the average is, after every sequence of updates, the mean of
the last values, unless the size is the largest one. -/
theorem movingMean_right_iff (n : ℕ) (hpos : 1 ≤ n) (hn : n < 2 ^ 32) : MeanRight n ↔ n ≠ 2 ^ 32 - 1 := by
  constructor
  · rintro h rfl
    exact not_meanRight_largest h
  · intro hne values hvalues htotal
    have hn' : n + 1 < 2 ^ 32 := by omega
    obtain ⟨m, hm, hwindow⟩ := window_updates hpos hn' values
    have hnonempty : lastValues n values ≠ [] := by
      rw [← List.length_pos_iff, length_lastValues]
      have hlength := List.length_pos_iff.2 hvalues
      omega
    obtain ⟨mean, hmean, heq⟩ := hwindow.compute hn' hnonempty htotal
    exact ⟨m, mean, hm, hmean, by rw [heq, length_lastValues]⟩

theorem movingMean_right_iff_three : MeanRight 3 ↔ 3 ≠ 2 ^ 32 - 1 := movingMean_right_iff 3 (by decide) (by decide)

/-- A window of 4294967295 values. -/
theorem movingMean_largest_outOfBounds : ¬ ∀ n, 1 ≤ n → n < 2 ^ 32 → MeanRight n :=
  fun h => not_meanRight_largest (h _ (by decide) (by decide))

end LifeSim.Misc
