import LifeSim.Interval.DoubleWindow
import LifeSim.Lib.Checked

/-!
# Members of the windows

What the searches for a micro-op answer, and when the answers are those about the windows.
-/

namespace LifeSim.Interval

open LifeSim.Lib

namespace DoubleWindow

/-- Consecutive numbers from one on. -/
def consecutive (a n : ℕ) : List (Option ℕ) := (List.range n).map fun i => some ((a + i) % 2 ^ 64)

theorem mem_consecutive {a n x : ℕ} : some x ∈ consecutive a n ↔ ∃ i < n, (a + i) % 2 ^ 64 = x := by
  simp [consecutive]

/-- Numbers that do not wrap around are those between the first one and the last one. -/
theorem between_iff_mem {a n x : ℕ} (hn : 0 < n) (hwrap : a % 2 ^ 64 + n ≤ 2 ^ 64) :
    (decide (a % 2 ^ 64 ≤ x) && decide (x ≤ (a + n - 1) % 2 ^ 64)) = true ↔ some x ∈ consecutive a n := by
  rw [Bool.and_eq_true, decide_eq_true_eq, decide_eq_true_eq, mem_consecutive]
  constructor
  · rintro ⟨hlow, hhigh⟩
    exact ⟨x - a % 2 ^ 64, by omega, by omega⟩
  · rintro ⟨i, hi, rfl⟩
    omega

/-- The lengths and the indices fit, the numbers are consecutive, and no micro-op of the windows is overwritten. As long
as no sum of indices can overflow, a search finds all micro-ops of the windows exactly if there are none or the entry at
the head has been filled. The questions for a micro-op are answered for windows that are not empty, or for an empty old
window behind a micro-op that has been dispatched, and until the numbers wrap around only for these. -/
structure Right (cfg : WindowsConfig) (d : DoubleWindow) : Prop where
  windowLength_le : d.windowLength ≤ cfg.windowSize
  oldWindowLength_le : d.oldWindowLength ≤ cfg.windowSize
  head : d.windowHead = (d.oldWindowHead + d.oldWindowLength) % (2 * cfg.windowSize)
  tail : d.windowTail = (d.windowHead + d.windowLength) % (2 * cfg.windowSize)
  numbers : ∃ a, d.oldWindow cfg ++ d.window cfg = consecutive a (d.oldWindowLength + d.windowLength)
  adds : d.windowLength < cfg.windowSize → ∃ d', d.add cfg = .ok d' ∧ d.windowTail ∉ d.indices cfg ∧
    ∀ i ∈ d.indices cfg, d'.doubleWindow i = d.doubleWindow i
  dispatches : 0 < d.windowLength → ∃ d', d.dispatchInstruction cfg = .ok d'
  headFilled : 0 < d.windowLength → d.doubleWindow d.windowHead ≠ none
  finds : cfg.windowSize ≤ 2 ^ 29 →
    (d.FindsMembers cfg ↔ d.oldWindow cfg ++ d.window cfg = [] ∨ d.doubleWindow d.windowHead ≠ none)
  contains : cfg.windowSize ≤ 2 ^ 29 → 0 < d.windowLength → d.first % 2 ^ 64 + d.windowLength ≤ 2 ^ 64 →
    Decides (d.windowContains cfg) (d.window cfg)
  contains_only : cfg.windowSize ≤ 2 ^ 29 → d.added ≤ 2 ^ 64 → Decides (d.windowContains cfg) (d.window cfg) →
    0 < d.windowLength
  containsOld : cfg.windowSize ≤ 2 ^ 29 → 0 < d.oldWindowLength →
    (d.first - d.oldWindowLength) % 2 ^ 64 + d.oldWindowLength ≤ 2 ^ 64 →
    Decides (d.oldWindowContains cfg) (d.oldWindow cfg)
  containsOld_empty : cfg.windowSize ≤ 2 ^ 29 → d.oldWindowLength = 0 → 0 < d.windowLength → 0 < d.first % 2 ^ 64 →
    Decides (d.oldWindowContains cfg) (d.oldWindow cfg)
  containsOld_only : cfg.windowSize ≤ 2 ^ 29 → d.added ≤ 2 ^ 64 → Decides (d.oldWindowContains cfg) (d.oldWindow cfg) →
    0 < d.oldWindowLength ∨ 0 < d.windowLength ∧ 0 < d.first

namespace Ordered

variable {cfg : WindowsConfig} {d d' : DoubleWindow} {a c k n s : ℕ} (h : Ordered cfg d)
include h

/-! ### What is in the windows -/

theorem read_eq (hn : a + n ≤ d.added) (hnear : d.added ≤ a + 2 * cfg.windowSize) :
    circularRead d.doubleWindow (2 * cfg.windowSize) (a % (2 * cfg.windowSize)) n = consecutive a n := by
  rw [circularRead_mod]
  apply List.map_congr_left
  intro i hi
  have hlt := List.mem_range.1 hi
  exact h.filled (a + i) (by omega) (by omega)

theorem window_eq : d.window cfg = consecutive d.first d.windowLength := by
  have hfirst := h.first_add
  have hlength := h.windowLength_le
  rw [window, h.head]
  exact h.read_eq (by omega) (by omega)

theorem oldWindow_eq : d.oldWindow cfg = consecutive (d.first - d.oldWindowLength) d.oldWindowLength := by
  have hfirst := h.first_add
  have hlength := h.windowLength_le
  have hold := h.oldWindowLength_le
  have hle := h.length_le
  rw [oldWindow, h.oldHead]
  exact h.read_eq (by omega) (by omega)

/-- The window begins where the old window ends. -/
theorem head_eq : d.windowHead = (d.oldWindowHead + d.oldWindowLength) % (2 * cfg.windowSize) := by
  have hfirst := h.first_add
  have hle := h.length_le
  rw [h.oldHead, Nat.mod_add_mod, h.head, Nat.sub_add_cancel (by omega)]

theorem members_eq : d.oldWindow cfg ++ d.window cfg =
    consecutive (d.first - d.oldWindowLength) (d.oldWindowLength + d.windowLength) := by
  have hfirst := h.first_add
  have hle := h.length_le
  have hlength := h.windowLength_le
  have hold := h.oldWindowLength_le
  rw [oldWindow, window, h.head_eq, circularRead_mod, ← circularRead_add, h.oldHead]
  exact h.read_eq (by omega) (by omega)

theorem indices_eq : d.indices cfg =
    circularRead id (2 * cfg.windowSize) d.oldWindowHead (d.oldWindowLength + d.windowLength) := by
  rw [indices, h.head_eq, circularRead_mod, ← circularRead_add]

/-- The place of a number in one of the windows is one of theirs. -/
theorem mem_indices (hlow : d.first ≤ k + d.oldWindowLength) (hk : k < d.added) :
    k % (2 * cfg.windowSize) ∈ d.indices cfg := by
  have hfirst := h.first_add
  have hle := h.length_le
  rw [h.indices_eq, mem_circularRead]
  refine ⟨k - (d.first - d.oldWindowLength), by omega, ?_⟩
  have hsum : d.first - d.oldWindowLength + (k - (d.first - d.oldWindowLength)) = k := by omega
  rw [id_eq, h.oldHead, Nat.mod_add_mod, hsum]

/-- The place behind the window is none of the windows', as long as the window is not full. -/
theorem tail_notMem (hroom : d.windowLength < cfg.windowSize) : d.windowTail ∉ d.indices cfg := by
  have hfirst := h.first_add
  have hle := h.length_le
  have hold := h.oldWindowLength_le
  rw [h.indices_eq, mem_circularRead]
  rintro ⟨i, hi, heq⟩
  have hsum : d.added = d.first - d.oldWindowLength + (d.oldWindowLength + d.windowLength) := by omega
  rw [id_eq, h.oldHead, Nat.mod_add_mod, h.tail, hsum] at heq
  have hinj := add_mod_injective (by omega) (by omega) heq
  omega

theorem add_frame (hroom : d.windowLength < cfg.windowSize) : ∃ d', d.add cfg = .ok d' ∧
    d.windowTail ∉ d.indices cfg ∧ ∀ i ∈ d.indices cfg, d'.doubleWindow i = d.doubleWindow i := by
  have htail := h.tail_notMem hroom
  refine ⟨_, h.add_eq hroom, htail, fun i hi => ?_⟩
  apply Function.update_of_ne
  rintro rfl
  exact htail hi

/-! ### The entry at the head -/

theorem head_filled (hlength : 0 < d.windowLength) : d.doubleWindow d.windowHead = some (d.first % 2 ^ 64) := by
  have hfirst := h.first_add
  have hle := h.windowLength_le
  rw [h.head]
  exact h.filled d.first (by omega) (by omega)

/-- Behind an empty window the ring has been filled once, or not. -/
theorem head_of_empty (hlength : d.windowLength = 0) (hsize : 0 < cfg.windowSize) :
    d.added < 2 * cfg.windowSize ∧ d.doubleWindow d.windowHead = none ∨
      2 * cfg.windowSize ≤ d.added ∧ d.doubleWindow d.windowHead = some ((d.added - 2 * cfg.windowSize) % 2 ^ 64) := by
  have hfirst := h.first_add
  rw [hlength, Nat.add_zero] at hfirst
  rw [h.head, hfirst]
  by_cases hround : 2 * cfg.windowSize ≤ d.added
  · right
    have hsub : d.added % (2 * cfg.windowSize) = (d.added - 2 * cfg.windowSize) % (2 * cfg.windowSize) :=
      Nat.mod_eq_sub_mod hround
    rw [hsub]
    exact ⟨hround, h.filled _ (by omega) (by omega)⟩
  · left
    rw [Nat.mod_eq_of_lt (by omega)]
    exact ⟨by omega, h.unfilled _ le_rfl (by omega)⟩

theorem numberAt_head (hsize : 0 < cfg.windowSize) {number : ℕ} (hhead : d.doubleWindow d.windowHead = some number) :
    d.numberAt cfg d.windowHead = .ok number := by
  have hlt : d.windowHead < 2 * cfg.windowSize := by
    rw [h.head]
    exact Nat.mod_lt _ (by omega)
  rw [numberAt, if_neg (by omega), hhead]

/-! ### The search -/

/-- The search goes as far back or on from the head as the numbers are apart. -/
theorem getInstruction_eq (hsize : 0 < cfg.windowSize) (hmax : cfg.windowSize ≤ 2 ^ 29)
    (hhead : d.doubleWindow d.windowHead = some (c % 2 ^ 64)) (hc : c % (2 * cfg.windowSize) = d.windowHead)
    (hbelow : c ≤ k + cfg.windowSize) (habove : k < c + 2 * cfg.windowSize) (hk : k < d.added)
    (hnear : d.added ≤ k + 2 * cfg.windowSize) :
    d.getInstruction cfg (k % 2 ^ 64) = .ok (k % (2 * cfg.windowSize)) := by
  have hlt := Nat.mod_lt c (show 0 < 2 * cfg.windowSize by omega)
  have hdistance : toSInt32 (((c % 2 ^ 64 : ℕ) : ℤ) - ((k % 2 ^ 64 : ℕ) : ℤ)) = (c : ℤ) - k := by
    rw [← toSInt32_of_small (x := (c : ℤ) - k) (by omega) (by omega)]
    exact toSInt32_congr (by omega)
  have hindex : toSInt32 ((d.windowHead : ℤ) - ((c : ℤ) - k)) = (d.windowHead : ℤ) - ((c : ℤ) - k) :=
    toSInt32_of_small (by omega) (by omega)
  have hplace : Windows.windowIndex cfg ((d.windowHead : ℤ) - ((c : ℤ) - k)) = k % (2 * cfg.windowSize) := by
    rw [← hc]
    exact Windows.windowIndex_mod_sub hsize c _ (by omega)
  have hsum := Int.tmod_lt_of_pos ((d.windowHead : ℤ) - ((c : ℤ) - k)) (show (0 : ℤ) < 2 * cfg.windowSize by omega)
  rw [getInstruction, h.numberAt_head hsize hhead, ok_bind]
  dsimp only
  rw [hdistance, hindex, windowIndex, if_neg (by omega), ok_bind, hplace, h.numberAt_filled hsize hk hnear, ok_bind,
    if_pos rfl]

theorem findsMembers_iff (hmax : cfg.windowSize ≤ 2 ^ 29) :
    d.FindsMembers cfg ↔ d.oldWindow cfg ++ d.window cfg = [] ∨ d.doubleWindow d.windowHead ≠ none := by
  have hfirst := h.first_add
  have hle := h.length_le
  have hlength := h.windowLength_le
  have hold := h.oldWindowLength_le
  constructor
  · intro hfinds
    by_contra hnot
    rw [not_or, not_not] at hnot
    obtain ⟨hmembers, hnull⟩ := hnot
    rw [h.members_eq] at hmembers
    have hpos : 0 < d.oldWindowLength + d.windowLength := by
      by_contra hzero
      rw [Nat.eq_zero_of_not_pos hzero] at hmembers
      exact hmembers rfl
    obtain ⟨index, -, hfound, -⟩ := hfinds ((d.first - d.oldWindowLength + 0) % 2 ^ 64) (by
      rw [h.members_eq, mem_consecutive]
      exact ⟨0, hpos, rfl⟩)
    have hlt : d.windowHead < 2 * cfg.windowSize := by
      rw [h.head]
      exact Nat.mod_lt _ (by omega)
    have hfault : d.numberAt cfg d.windowHead = .error .nullMicroOp := by rw [numberAt, if_neg (by omega), hnull]
    rw [getInstruction, hfault] at hfound
    cases hfound
  · intro hhead number hnumber
    rw [h.members_eq, mem_consecutive] at hnumber
    obtain ⟨i, hi, rfl⟩ := hnumber
    have hsize : 0 < cfg.windowSize := by omega
    have hfilled : d.doubleWindow d.windowHead ≠ none := by
      rcases hhead with hnil | hfilled
      · rw [h.members_eq] at hnil
        have hlen := congrArg List.length hnil
        rw [consecutive, List.length_map, List.length_range, List.length_nil] at hlen
        omega
      · exact hfilled
    refine ⟨_, h.mem_indices (k := d.first - d.oldWindowLength + i) (by omega) (by omega), ?_,
      h.filled _ (by omega) (by omega)⟩
    rcases Nat.eq_zero_or_pos d.windowLength with hempty | hpos
    · -- the entry at the head is stale
      rcases h.head_of_empty hempty hsize with ⟨-, hnull⟩ | ⟨hround, hstale⟩
      · exact absurd hnull hfilled
      · apply h.getInstruction_eq hsize hmax hstale
        · rw [h.head, ← Nat.mod_eq_sub_mod hround, ← hfirst, hempty, Nat.add_zero]
        all_goals omega
    · exact h.getInstruction_eq hsize hmax (h.head_filled hpos) h.head.symm (by omega) (by omega) (by omega) (by omega)

/-! ### The questions -/

omit h in
theorem decrementIndex_eq (hsize : 0 < cfg.windowSize) (hmax : cfg.windowSize ≤ 2 ^ 29) (hs : 0 < s) :
    decrementIndex cfg (s % (2 * cfg.windowSize)) = .ok ((s - 1) % (2 * cfg.windowSize)) := by
  have hlt := Nat.mod_lt s (show 0 < 2 * cfg.windowSize by omega)
  rw [decrementIndex, if_neg (by omega), Windows.decrementIndex_mod hs hsize]

/-- Two ends that are filled. -/
theorem between_eq (hsize : 0 < cfg.windowSize) (hmax : cfg.windowSize ≤ 2 ^ 29) {low x : ℕ}
    (hlow : d.numberAt cfg low = .ok a) (hs : 0 < s) (hle : s ≤ d.added) (hnear : d.added < s + 2 * cfg.windowSize) :
    d.between cfg low (s % (2 * cfg.windowSize)) x =
      .ok (decide (a ≤ x) && decide (x ≤ (s - 1) % 2 ^ 64)) := by
  rw [between, hlow, ok_bind, decrementIndex_eq hsize hmax hs, ok_bind,
    h.numberAt_filled hsize (by omega) (by omega), ok_bind]

theorem windowContains_decides (hmax : cfg.windowSize ≤ 2 ^ 29) (hlength : 0 < d.windowLength)
    (hwrap : d.first % 2 ^ 64 + d.windowLength ≤ 2 ^ 64) : Decides (d.windowContains cfg) (d.window cfg) := by
  have hfirst := h.first_add
  have hle := h.windowLength_le
  intro x _
  have hbetween := h.between_eq (x := x) (by omega) hmax (h.numberAt_head (by omega) (h.head_filled hlength))
    (s := d.added) (by omega) le_rfl (by omega)
  rw [← h.tail] at hbetween
  refine ⟨_, hbetween, ?_⟩
  rw [h.window_eq, ← hfirst]
  exact between_iff_mem hlength hwrap

theorem oldWindowContains_decides (hmax : cfg.windowSize ≤ 2 ^ 29) (hlength : 0 < d.oldWindowLength)
    (hwrap : (d.first - d.oldWindowLength) % 2 ^ 64 + d.oldWindowLength ≤ 2 ^ 64) :
    Decides (d.oldWindowContains cfg) (d.oldWindow cfg) := by
  have hfirst := h.first_add
  have hold := h.oldWindowLength_le
  have hwindow := h.windowLength_le
  have hle := h.length_le
  have hlow := h.numberAt_filled (s := d.first - d.oldWindowLength) (by omega) (by omega) (by omega)
  rw [← h.oldHead] at hlow
  intro x _
  have hbetween := h.between_eq (x := x) (by omega) hmax hlow (s := d.first) (by omega) (by omega) (by omega)
  rw [← h.head] at hbetween
  refine ⟨_, hbetween, ?_⟩
  have hlast : d.first - 1 = d.first - d.oldWindowLength + d.oldWindowLength - 1 := by omega
  rw [h.oldWindow_eq, hlast]
  exact between_iff_mem hlength hwrap

/-- The first micro-op behind an empty old window is no micro-op before the window. -/
theorem oldWindowContains_decides_empty (hmax : cfg.windowSize ≤ 2 ^ 29) (hold : d.oldWindowLength = 0)
    (hlength : 0 < d.windowLength) (hpos : 0 < d.first % 2 ^ 64) :
    Decides (d.oldWindowContains cfg) (d.oldWindow cfg) := by
  have hfirst := h.first_add
  have hwindow := h.windowLength_le
  have hsame : d.oldWindowHead = d.windowHead := by rw [h.oldHead, hold, Nat.sub_zero, h.head]
  have hnonzero : 0 < d.first := by
    by_contra hzero
    rw [Nat.eq_zero_of_not_pos hzero] at hpos
    exact absurd hpos (by decide)
  intro x _
  have hbetween := h.between_eq (x := x) (by omega) hmax (h.numberAt_head (by omega) (h.head_filled hlength)) hnonzero
    (by omega) (by omega)
  rw [← h.head, ← hsame] at hbetween
  nth_rewrite 2 [hsame] at hbetween
  refine ⟨_, hbetween, ?_⟩
  rw [h.oldWindow_eq, hold, Bool.and_eq_true, decide_eq_true_eq, decide_eq_true_eq, mem_consecutive]
  constructor
  · rintro ⟨hlow, hhigh⟩
    omega
  · rintro ⟨i, hi, -⟩
    omega

/-- Behind an empty window a question has no answer, or a stale micro-op is taken for a member. -/
theorem between_of_empty (hmax : cfg.windowSize ≤ 2 ^ 29) (hadded : d.added ≤ 2 ^ 64) (hempty : d.windowLength = 0)
    (hdecides : Decides (d.between cfg d.windowHead d.windowHead) []) : False := by
  have hfirst := h.first_add
  rw [hempty, Nat.add_zero] at hfirst
  rcases Nat.eq_zero_or_pos cfg.windowSize with hzero | hsize
  · obtain ⟨b, hb, -⟩ := hdecides 0 (by decide)
    have hfault : d.numberAt cfg d.windowHead = .error .assertion := by
      rw [numberAt, hzero, if_pos (Nat.zero_le _)]
    rw [between, hfault] at hb
    cases hb
  · rcases h.head_of_empty hempty hsize with ⟨hless, hnull⟩ | ⟨hround, hstale⟩
    · obtain ⟨b, hb, -⟩ := hdecides 0 (by decide)
      have hlt : d.windowHead < 2 * cfg.windowSize := by
        rw [h.head]
        exact Nat.mod_lt _ (by omega)
      have hfault : d.numberAt cfg d.windowHead = .error .nullMicroOp := by rw [numberAt, if_neg (by omega), hnull]
      rw [between, hfault] at hb
      cases hb
    · obtain ⟨b, hb, hmem⟩ := hdecides (d.added - 1) (by omega)
      have hbetween := h.between_eq (x := d.added - 1) hsize hmax (h.numberAt_head hsize hstale) (s := d.added)
        (by omega) le_rfl (by omega)
      rw [← hfirst, ← h.head, hfirst, hb, Except.ok.injEq] at hbetween
      have htrue : b = true := by
        rw [hbetween, Bool.and_eq_true, decide_eq_true_eq, decide_eq_true_eq]
        omega
      exact List.not_mem_nil (hmem.1 htrue)

theorem windowContains_only (hmax : cfg.windowSize ≤ 2 ^ 29) (hadded : d.added ≤ 2 ^ 64)
    (hdecides : Decides (d.windowContains cfg) (d.window cfg)) : 0 < d.windowLength := by
  have hfirst := h.first_add
  by_contra hnot
  have hempty := Nat.eq_zero_of_not_pos hnot
  have htail : d.windowTail = d.windowHead := by rw [h.tail, h.head, ← hfirst, hempty, Nat.add_zero]
  have hwindow : d.window cfg = [] := by rw [h.window_eq, hempty]; rfl
  rw [hwindow] at hdecides
  apply h.between_of_empty hmax hadded hempty
  intro x hx
  have hanswer := hdecides x hx
  rwa [windowContains, htail] at hanswer

theorem oldWindowContains_only (hmax : cfg.windowSize ≤ 2 ^ 29) (hadded : d.added ≤ 2 ^ 64)
    (hdecides : Decides (d.oldWindowContains cfg) (d.oldWindow cfg)) :
    0 < d.oldWindowLength ∨ 0 < d.windowLength ∧ 0 < d.first := by
  have hfirst := h.first_add
  have hwindow := h.windowLength_le
  by_contra hnot
  rw [not_or, not_and_or] at hnot
  obtain ⟨hold, hor⟩ := hnot
  have hold := Nat.eq_zero_of_not_pos hold
  have hsame : d.oldWindowHead = d.windowHead := by rw [h.oldHead, hold, Nat.sub_zero, h.head]
  have hnil : d.oldWindow cfg = [] := by rw [h.oldWindow_eq, hold]; rfl
  rw [hnil] at hdecides
  rcases Nat.eq_zero_or_pos d.windowLength with hempty | hlength
  · apply h.between_of_empty hmax hadded hempty
    intro x hx
    have hanswer := hdecides x hx
    rwa [oldWindowContains, hsame] at hanswer
  · -- nothing has been dispatched, and the entry before the first one is empty
    have hzero : d.first = 0 := by omega
    have hhead : d.windowHead = 0 := by rw [h.head, hzero, Nat.zero_mod]
    obtain ⟨b, hb, -⟩ := hdecides 0 (by decide)
    have hlow := h.numberAt_head (by omega) (h.head_filled hlength)
    have hback : decrementIndex cfg 0 = .ok ((2 * cfg.windowSize - 1) % (2 * cfg.windowSize)) := by
      rw [decrementIndex, if_neg (by omega), Windows.decrementIndex, Nat.zero_add]
    have hnull := h.numberAt_unfilled (s := 2 * cfg.windowSize - 1) (by omega) (by omega)
    rw [oldWindowContains, hsame, between, hlow, ok_bind, hhead, hback, ok_bind, hnull] at hb
    cases hb

theorem right : Right cfg d where
  windowLength_le := h.windowLength_le
  oldWindowLength_le := h.oldWindowLength_le
  head := h.head_eq
  tail := by rw [h.tail, h.head, Nat.mod_add_mod, h.first_add]
  numbers := ⟨_, h.members_eq⟩
  adds := h.add_frame
  dispatches := fun hlength => ⟨_, h.dispatchInstruction_eq hlength⟩
  headFilled := fun hlength => by
    rw [h.head_filled hlength]
    exact Option.some_ne_none _
  finds := h.findsMembers_iff
  contains := h.windowContains_decides
  contains_only := h.windowContains_only
  containsOld := h.oldWindowContains_decides
  containsOld_empty := h.oldWindowContains_decides_empty
  containsOld_only := h.oldWindowContains_only

end Ordered

/-- **The two windows in one ring.** After every sequence of calls. -/
theorem windows_right {cfg : WindowsConfig} {events : List WindowEvent} {d : DoubleWindow}
    (hrun : (windowMachine cfg).run new events = .ok d) : Right cfg d := (ordered_of_run hrun).right

/-- Windows of some size without contention for the ports. -/
def plainWindows (windowSize : ℕ) (h : 2 * windowSize < 2 ^ 31) : WindowsConfig := ⟨windowSize, h, false, 0, by decide⟩

/-- Two micro-ops of a window of two are dispatched, and another two are added. -/
theorem windows_right_pairs :
    Right (plainWindows 2 (by decide)) ((windowMachine (plainWindows 2 (by decide))).final new
      [.add, .add, .dispatchInstruction, .dispatchInstruction, .add, .add]) :=
  windows_right ((windowMachine _).run_final (by decide +kernel))

/-- Micro-ops that are dispatched as soon as they are added. -/
theorem exists_run_added (cfg : WindowsConfig) (hsize : 0 < cfg.windowSize) (n : ℕ) :
    ∃ events d, (windowMachine cfg).run new events = .ok d ∧ d.windowLength = 0 ∧ d.added = n := by
  induction n with
  | zero => exact ⟨[], new, rfl, rfl, rfl⟩
  | succ n ih =>
    obtain ⟨events, d, hrun, hlength, hadded⟩ := ih
    have hordered := ordered_of_run hrun
    have hroom : d.windowLength < cfg.windowSize := by omega
    have hpos : 0 < (d.fillTail cfg).windowLength := Nat.succ_pos _
    have hadd : (windowMachine cfg).step d .add = .ok (d.fillTail cfg) := hordered.add_eq hroom
    have hdispatch : (windowMachine cfg).step (d.fillTail cfg) .dispatchInstruction =
        .ok (((d.fillTail cfg).retireOldest cfg).enterOldWindow cfg) :=
      (hordered.fillTail hroom).dispatchInstruction_eq hpos
    refine ⟨events ++ [.add, .dispatchInstruction], ((d.fillTail cfg).retireOldest cfg).enterOldWindow cfg,
      (windowMachine cfg).run_append hrun ?_, ?_, ?_⟩
    · rw [Machine.run, hadd]
      dsimp only
      rw [Machine.run, hdispatch]
      rfl
    · change ((d.fillTail cfg).retireOldest cfg).windowLength - 1 = 0
      rw [retireOldest_windowLength]
      exact hlength
    · change ((d.fillTail cfg).retireOldest cfg).added = n + 1
      rw [retireOldest_added]
      exact congrArg (· + 1) hadded

/-- In windows that are any larger, there is a state in which the question for a member of the window overflows. -/
theorem exists_windowContains_overflow {cfg : WindowsConfig} (hlarge : 2 ^ 29 < cfg.windowSize) :
    ∃ events d, (windowMachine cfg).run new events = .ok d ∧ 0 < d.windowLength ∧
      d.windowContains cfg 0 = .error .overflow := by
  obtain ⟨events, d, hrun, hlength, hadded⟩ := exists_run_added cfg (by omega) (2 * cfg.windowSize - 2)
  have hroom : d.windowLength < cfg.windowSize := by omega
  have hordered := (ordered_of_run hrun).fillTail hroom
  have hadd : (windowMachine cfg).step d .add = .ok (d.fillTail cfg) := (ordered_of_run hrun).add_eq hroom
  have hpos : 0 < (d.fillTail cfg).windowLength := Nat.succ_pos _
  have htail : (d.fillTail cfg).windowTail = 2 * cfg.windowSize - 1 := by
    rw [hordered.tail]
    change (d.added + 1) % _ = _
    rw [hadded, Nat.mod_eq_of_lt (by omega)]
    omega
  refine ⟨events ++ [.add], d.fillTail cfg, (windowMachine cfg).run_append hrun ?_, hpos, ?_⟩
  · rw [Machine.run, hadd]
    rfl
  · rw [windowContains, between, hordered.numberAt_head (by omega) (hordered.head_filled hpos), ok_bind,
      decrementIndex, if_pos (by omega)]
    rfl

/-- With windows of one place, 0 is taken for a member of an empty window. A search behind an empty window meets an entry
without a micro-op. With windows of 1073741823 places a sum of indices overflows. -/
theorem windows_ask_empty :
    (((windowMachine (plainWindows 1 (by decide))).final new
        [.add, .dispatchInstruction, .add, .dispatchInstruction]).windowLength = 0 ∧
      ((windowMachine (plainWindows 1 (by decide))).final new
        [.add, .dispatchInstruction, .add, .dispatchInstruction]).windowContains (plainWindows 1 (by decide)) 0 =
        .ok true) ∧
    (((windowMachine (plainWindows 1 (by decide))).final new [.add, .dispatchInstruction]).oldWindow
        (plainWindows 1 (by decide)) = [some 0] ∧
      ((windowMachine (plainWindows 1 (by decide))).final new [.add, .dispatchInstruction]).getInstruction
        (plainWindows 1 (by decide)) 0 = .error .nullMicroOp) ∧
    ((windowMachine (plainWindows 1073741823 (by decide))).final new [.add, .add, .add]).windowContains
        (plainWindows 1073741823 (by decide)) 0 = .error .overflow :=
  ⟨⟨rfl, rfl⟩, ⟨rfl, rfl⟩, rfl⟩

end DoubleWindow

end LifeSim.Interval
