import LifeSim.Interval.Dispatch
import LifeSim.Lib.CircularArray
import LifeSim.Lib.Machine
import LifeSim.Lib.Signed

/-!
# Entries that are empty or stale

`windows.cc` once more, reduced to the ring: an entry has the 64-bit number of its micro-op, or no micro-op at all if it
was never filled. Micro-ops that have left the old window stay in the ring until they are overwritten.

The questions whether a micro-op is in a window compare its number with those at the two ends. An empty window has
no ends, and what is found there are stale entries or none. The timer asks only while it dispatches the micro-op at the
head of the window. The sums of indices are `int`s, which overflow if the window has more than 2^29 places.
-/

namespace LifeSim.Interval

open LifeSim.Lib LifeSim.Rob

/-- Why a call on the windows does not return. -/
inductive WindowFault
  | assertion
  /-- The entry has no micro-op. -/
  | nullMicroOp
  /-- `getInstruction`: the micro-op is not in the window. -/
  | notInWindow
  /-- A sum of indices is no `int`. -/
  | overflow
  /-- The timer does not dispatch from an empty window. -/
  | notNow
  deriving DecidableEq

/-- `Windows`, with the sequence numbers of the micro-ops only. -/
structure DoubleWindow where
  doubleWindow : ℕ → Option ℕ
  nextSequenceNumber : ℕ
  windowHead : ℕ
  windowTail : ℕ
  oldWindowHead : ℕ
  windowLength : ℕ
  oldWindowLength : ℕ
  /-- History: the number of micro-ops that have been added. -/
  added : ℕ

namespace DoubleWindow

open Windows (incrementIndex)

/-- The constructor. -/
def new : DoubleWindow := ⟨fun _ => none, 0, 0, 0, 0, 0, 0, 0⟩

variable (cfg : WindowsConfig) (d : DoubleWindow)

/-- `getInstructionByIndex` and `getSequenceNumber`. -/
def numberAt (index : ℕ) : Except WindowFault ℕ :=
  if 2 * cfg.windowSize ≤ index then .error .assertion
  else match d.doubleWindow index with
    | none => .error .nullMicroOp
    | some number => .ok number

/-- A micro-op is put behind the window. -/
def fillTail : DoubleWindow :=
  { d with
    doubleWindow := Function.update d.doubleWindow d.windowTail (some d.nextSequenceNumber)
    windowTail := incrementIndex cfg d.windowTail
    windowLength := d.windowLength + 1
    nextSequenceNumber := (d.nextSequenceNumber + 1) % 2 ^ 64
    added := d.added + 1 }

/-- `add`. It reads the number of the oldest micro-op for the dependencies. -/
def add : Except WindowFault DoubleWindow :=
  if d.windowLength = cfg.windowSize then .error .assertion
  else
    match (d.fillTail cfg).numberAt cfg d.oldWindowHead with
    | .error f => .error f
    | .ok _ => .ok (d.fillTail cfg)

/-- A full old window loses its oldest micro-op. -/
def retireOldest : DoubleWindow :=
  if d.oldWindowLength = cfg.windowSize then
    { d with oldWindowHead := incrementIndex cfg d.oldWindowHead, oldWindowLength := d.oldWindowLength - 1 }
  else d

/-- The micro-op at the head of the window enters the old window. -/
def enterOldWindow : DoubleWindow :=
  { d with
    windowHead := incrementIndex cfg d.windowHead
    windowLength := d.windowLength - 1
    oldWindowLength := d.oldWindowLength + 1 }

/-- `dispatchInstruction`. It reads the micro-op that leaves the old window, and the one that enters it. -/
def dispatchInstruction : Except WindowFault DoubleWindow :=
  if d.windowLength = 0 then .error .notNow
  else
    match if d.oldWindowLength = cfg.windowSize then d.numberAt cfg d.oldWindowHead else .ok 0,
      d.numberAt cfg d.windowHead with
    | .error f, _ => .error f
    | .ok _, .error f => .error f
    | .ok _, .ok _ => .ok ((d.retireOldest cfg).enterOldWindow cfg)

/-- `clearOldWindow`. -/
def clearOldWindow : DoubleWindow := { d with oldWindowLength := 0, oldWindowHead := d.windowHead }

/-- `decrementIndex`. -/
def decrementIndex (index : ℕ) : Except WindowFault ℕ :=
  if 2 ^ 31 ≤ index + 2 * cfg.windowSize then .error .overflow else .ok (Windows.decrementIndex cfg index)

/-- `windowIndex`. -/
def windowIndex (index : ℤ) : Except WindowFault ℕ :=
  if 2 ^ 31 ≤ index.tmod (2 * cfg.windowSize) + 2 * cfg.windowSize then .error .overflow
  else .ok (Windows.windowIndex cfg index)

/-- The number is between that of an entry and that of the entry before another one. -/
def between (low behind number : ℕ) : Except WindowFault Bool := do
  let lowestValid ← d.numberAt cfg low
  let high ← decrementIndex cfg behind
  let highestValid ← d.numberAt cfg high
  .ok (decide (lowestValid ≤ number) && decide (number ≤ highestValid))

def windowContains (sequenceNumber : ℕ) : Except WindowFault Bool :=
  d.between cfg d.windowHead d.windowTail sequenceNumber

def oldWindowContains (sequenceNumber : ℕ) : Except WindowFault Bool :=
  d.between cfg d.oldWindowHead d.windowHead sequenceNumber

/-- `getInstruction`: the index of the micro-op. -/
def getInstruction (sequenceNumber : ℕ) : Except WindowFault ℕ := do
  let headNumber ← d.numberAt cfg d.windowHead
  let distance := toSInt32 ((headNumber : ℤ) - sequenceNumber)
  let index ← windowIndex cfg (toSInt32 ((d.windowHead : ℤ) - distance))
  let number ← d.numberAt cfg index
  if number = sequenceNumber then .ok index else .error .notInWindow

/-- The micro-ops of the window. -/
def window : List (Option ℕ) := circularRead d.doubleWindow (2 * cfg.windowSize) d.windowHead d.windowLength

/-- The micro-ops of the old window. -/
def oldWindow : List (Option ℕ) := circularRead d.doubleWindow (2 * cfg.windowSize) d.oldWindowHead d.oldWindowLength

/-- The indices of the entries of both windows. -/
def indices : List ℕ :=
  circularRead id (2 * cfg.windowSize) d.oldWindowHead d.oldWindowLength ++
    circularRead id (2 * cfg.windowSize) d.windowHead d.windowLength

end DoubleWindow

/-- What the timer does with the windows. -/
inductive WindowEvent
  | add
  | dispatchInstruction
  | clearOldWindow
  deriving DecidableEq

/-- The windows of the timer. -/
def windowMachine (cfg : WindowsConfig) : Machine DoubleWindow WindowEvent WindowFault where
  step d
    | .add => d.add cfg
    | .dispatchInstruction => d.dispatchInstruction cfg
    | .clearOldWindow => .ok d.clearOldWindow

namespace DoubleWindow

open Windows (incrementIndex)

/-! ### Answers -/

/-- The search finds every micro-op of the two windows. -/
def FindsMembers (cfg : WindowsConfig) (d : DoubleWindow) : Prop :=
  ∀ number, some number ∈ d.oldWindow cfg ++ d.window cfg →
    ∃ index ∈ d.indices cfg, d.getInstruction cfg number = .ok index ∧ d.doubleWindow index = some number

/-- The answers are those for a list of micro-ops. -/
def Decides (answer : ℕ → Except WindowFault Bool) (members : List (Option ℕ)) : Prop :=
  ∀ number < 2 ^ 64, ∃ b, answer number = .ok b ∧ (b = true ↔ some number ∈ members)

/-- The number of the micro-op that is dispatched next. -/
def first (d : DoubleWindow) : ℕ := d.added - d.windowLength

/-- The indices fit the numbers, and what has been added last is still in the ring. -/
structure Ordered (cfg : WindowsConfig) (d : DoubleWindow) : Prop where
  windowLength_le : d.windowLength ≤ cfg.windowSize
  oldWindowLength_le : d.oldWindowLength ≤ cfg.windowSize
  length_le : d.windowLength + d.oldWindowLength ≤ d.added
  head : d.windowHead = d.first % (2 * cfg.windowSize)
  tail : d.windowTail = d.added % (2 * cfg.windowSize)
  oldHead : d.oldWindowHead = (d.first - d.oldWindowLength) % (2 * cfg.windowSize)
  next : d.nextSequenceNumber = d.added % 2 ^ 64
  filled : ∀ s < d.added, d.added ≤ s + 2 * cfg.windowSize → d.doubleWindow (s % (2 * cfg.windowSize)) = some (s % 2 ^ 64)
  unfilled : ∀ i, d.added ≤ i → i < 2 * cfg.windowSize → d.doubleWindow i = none

@[simp] theorem retireOldest_windowLength (cfg : WindowsConfig) (d : DoubleWindow) :
    (d.retireOldest cfg).windowLength = d.windowLength := by
  rw [retireOldest]
  split_ifs <;> rfl

@[simp] theorem retireOldest_added (cfg : WindowsConfig) (d : DoubleWindow) :
    (d.retireOldest cfg).added = d.added := by
  rw [retireOldest]
  split_ifs <;> rfl

theorem ordered_new (cfg : WindowsConfig) : Ordered cfg new where
  windowLength_le := Nat.zero_le _
  oldWindowLength_le := Nat.zero_le _
  length_le := Nat.zero_le _
  head := (Nat.zero_mod _).symm
  tail := (Nat.zero_mod _).symm
  oldHead := (Nat.zero_mod _).symm
  next := (Nat.zero_mod _).symm
  filled := fun _ hs => absurd hs (Nat.not_lt_zero _)
  unfilled := fun _ _ _ => rfl

namespace Ordered

variable {cfg : WindowsConfig} {d d' : DoubleWindow} {s : ℕ} (h : Ordered cfg d)
include h

theorem first_add : d.first + d.windowLength = d.added :=
  Nat.sub_add_cancel (Nat.le_of_add_right_le h.length_le)

/-- The entry of one of the last numbers. -/
theorem numberAt_filled (hsize : 0 < cfg.windowSize) (hs : s < d.added) (hnear : d.added ≤ s + 2 * cfg.windowSize) :
    d.numberAt cfg (s % (2 * cfg.windowSize)) = .ok (s % 2 ^ 64) := by
  have hlt := Nat.mod_lt s (show 0 < 2 * cfg.windowSize by omega)
  rw [numberAt, if_neg (by omega), h.filled s hs hnear]

/-- The entry that is filled next, as long as the ring has not been filled once. -/
theorem numberAt_unfilled (hs : d.added ≤ s) (hlt : s < 2 * cfg.windowSize) :
    d.numberAt cfg (s % (2 * cfg.windowSize)) = .error .nullMicroOp := by
  rw [Nat.mod_eq_of_lt hlt, numberAt, if_neg (by omega), h.unfilled s hs hlt]

/-! ### Calls -/

theorem fillTail (hroom : d.windowLength < cfg.windowSize) : Ordered cfg (d.fillTail cfg) := by
  have hfirst := h.first_add
  have hlength := h.length_le
  have hfirst' : d.added + 1 - (d.windowLength + 1) = d.first := Nat.add_sub_add_right ..
  constructor
  · exact hroom
  · exact h.oldWindowLength_le
  · change d.windowLength + 1 + d.oldWindowLength ≤ d.added + 1
    omega
  · rw [first]
    change _ = (d.added + 1 - (d.windowLength + 1)) % _
    rw [hfirst']
    exact h.head
  · change incrementIndex cfg d.windowTail = _
    rw [h.tail, Windows.incrementIndex_mod]
    rfl
  · rw [first]
    change _ = (d.added + 1 - (d.windowLength + 1) - d.oldWindowLength) % _
    rw [hfirst']
    exact h.oldHead
  · change (d.nextSequenceNumber + 1) % 2 ^ 64 = (d.added + 1) % 2 ^ 64
    rw [h.next, Nat.mod_add_mod]
  · intro s hs hnear
    change s < d.added + 1 at hs
    change d.added + 1 ≤ s + 2 * cfg.windowSize at hnear
    change Function.update d.doubleWindow d.windowTail _ _ = _
    rw [h.tail]
    by_cases hlast : s = d.added
    · rw [hlast, Function.update_self, h.next]
    · rw [Function.update_of_ne (Windows.mod_ne (by omega) (by omega))]
      exact h.filled s (by omega) (by omega)
  · intro i hi hlt
    change d.added + 1 ≤ i at hi
    change Function.update d.doubleWindow d.windowTail _ _ = _
    rw [h.tail, Nat.mod_eq_of_lt (by omega), Function.update_of_ne (by omega)]
    exact h.unfilled i (by omega) hlt

theorem add_eq (hroom : d.windowLength < cfg.windowSize) : d.add cfg = .ok (d.fillTail cfg) := by
  have hlength := h.length_le
  have hold := h.oldWindowLength_le
  have hfirst := h.first_add
  have hread := (h.fillTail hroom).numberAt_filled (s := d.first - d.oldWindowLength) (by omega)
    (show _ < d.added + 1 by omega) (show d.added + 1 ≤ _ by omega)
  rw [← h.oldHead] at hread
  rw [DoubleWindow.add, if_neg (by omega), hread]

theorem retireOldest (hsize : 0 < cfg.windowSize) : Ordered cfg (d.retireOldest cfg) ∧
    (d.retireOldest cfg).oldWindowLength < cfg.windowSize := by
  have hlength := h.length_le
  have hold := h.oldWindowLength_le
  have hfirst := h.first_add
  rw [DoubleWindow.retireOldest]
  split_ifs with hfull
  · refine ⟨⟨h.windowLength_le, ?_, ?_, h.head, h.tail, ?_, h.next, h.filled, h.unfilled⟩, ?_⟩
    · change d.oldWindowLength - 1 ≤ _
      omega
    · change d.windowLength + (d.oldWindowLength - 1) ≤ d.added
      omega
    · change incrementIndex cfg d.oldWindowHead = (d.first - (d.oldWindowLength - 1)) % _
      rw [h.oldHead, Windows.incrementIndex_mod]
      congr 1
      omega
    · change d.oldWindowLength - 1 < _
      omega
  · exact ⟨h, by omega⟩

theorem enterOldWindow (hlength : 0 < d.windowLength) (hroom : d.oldWindowLength < cfg.windowSize) :
    Ordered cfg (d.enterOldWindow cfg) := by
  have hle := h.length_le
  have hwindow := h.windowLength_le
  have hfirst := h.first_add
  have hfirst' : d.added - (d.windowLength - 1) = d.first + 1 := by omega
  constructor
  · change d.windowLength - 1 ≤ _
    omega
  · exact hroom
  · change d.windowLength - 1 + (d.oldWindowLength + 1) ≤ d.added
    omega
  · change incrementIndex cfg d.windowHead = (d.added - (d.windowLength - 1)) % _
    rw [hfirst', h.head, Windows.incrementIndex_mod]
  · exact h.tail
  · change d.oldWindowHead = (d.added - (d.windowLength - 1) - (d.oldWindowLength + 1)) % _
    rw [hfirst', Nat.add_sub_add_right, h.oldHead]
  · exact h.next
  · exact h.filled
  · exact h.unfilled

theorem dispatchInstruction_eq (hlength : 0 < d.windowLength) :
    d.dispatchInstruction cfg = .ok ((d.retireOldest cfg).enterOldWindow cfg) := by
  have hle := h.windowLength_le
  have hold := h.oldWindowLength_le
  have hlen := h.length_le
  have hfirst := h.first_add
  have hsize : 0 < cfg.windowSize := by omega
  have hhead : d.numberAt cfg d.windowHead = .ok (d.first % 2 ^ 64) := by
    rw [h.head]
    exact h.numberAt_filled hsize (by omega) (by omega)
  have holdest : ∃ number,
      (if d.oldWindowLength = cfg.windowSize then d.numberAt cfg d.oldWindowHead else .ok 0) = .ok number := by
    split_ifs with hfull
    · rw [h.oldHead]
      exact ⟨_, h.numberAt_filled hsize (by omega) (by omega)⟩
    · exact ⟨0, rfl⟩
  obtain ⟨number, hnumber⟩ := holdest
  rw [DoubleWindow.dispatchInstruction, if_neg (by omega), hnumber, hhead]

theorem dispatchInstruction (hlength : 0 < d.windowLength) :
    Ordered cfg ((d.retireOldest cfg).enterOldWindow cfg) := by
  have hle := h.windowLength_le
  obtain ⟨hring, hroom⟩ := h.retireOldest (by omega)
  apply hring.enterOldWindow _ hroom
  rwa [retireOldest_windowLength]

theorem clearOldWindow : Ordered cfg d.clearOldWindow :=
  ⟨h.windowLength_le, Nat.zero_le _, Nat.le_of_add_right_le h.length_le, h.head, h.tail, h.head, h.next, h.filled,
    h.unfilled⟩

end Ordered

theorem Ordered.step {cfg : WindowsConfig} {d d' : DoubleWindow} (h : Ordered cfg d) {e : WindowEvent}
    (hstep : (windowMachine cfg).step d e = .ok d') : Ordered cfg d' := by
  cases e with
  | add =>
    have hroom : d.windowLength < cfg.windowSize := by
      have hle := h.windowLength_le
      by_contra hfull
      change d.add cfg = .ok d' at hstep
      rw [DoubleWindow.add, if_pos (by omega)] at hstep
      cases hstep
    cases (h.add_eq hroom).symm.trans hstep
    exact h.fillTail hroom
  | dispatchInstruction =>
    have hlength : 0 < d.windowLength := by
      by_contra hempty
      change d.dispatchInstruction cfg = .ok d' at hstep
      rw [DoubleWindow.dispatchInstruction, if_pos (by omega)] at hstep
      cases hstep
    cases (h.dispatchInstruction_eq hlength).symm.trans hstep
    exact h.dispatchInstruction hlength
  | clearOldWindow =>
    cases hstep
    exact h.clearOldWindow

theorem ordered_of_run {cfg : WindowsConfig} {events : List WindowEvent} {d : DoubleWindow}
    (hrun : (windowMachine cfg).run new events = .ok d) : Ordered cfg d :=
  (windowMachine cfg).run_induction (P := Ordered cfg) (fun _ _ _ h hstep => h.step hstep) (ordered_new cfg) hrun

/-! ### The windows with their micro-ops -/

/-- The ring is that of the windows of the interval model, whose numbers are not reduced. -/
structure Tracks (w : Windows) (d : DoubleWindow) : Prop where
  head : d.windowHead = w.windowHead
  tail : d.windowTail = w.windowTail
  oldHead : d.oldWindowHead = w.oldWindowHead
  length : d.windowLength = w.windowLength
  oldLength : d.oldWindowLength = w.oldWindowLength
  added : d.added = w.nextSequenceNumber
  numbers : ∀ i number, d.doubleWindow i = some number → (w.doubleWindow i).uop.sequenceNumber % 2 ^ 64 = number

theorem tracks_new : Tracks .new new := ⟨rfl, rfl, rfl, rfl, rfl, rfl, fun _ _ hnone => by cases hnone⟩

namespace Tracks

variable {cfg : WindowsConfig} {w w' : Windows} {d : DoubleWindow} (h : Tracks w d)
include h

/-- A micro-op is added to both. -/
theorem add (hring : Windows.Ring cfg w) (hordered : Ordered cfg d) {u : IntervalMicroOp}
    (hadd : w.add cfg u = some w') : ∃ d', d.add cfg = .ok d' ∧ Tracks w' d' := by
  obtain ⟨hroom, v, registers, memory, hbare, rfl⟩ := Windows.add_spec hring hadd
  rw [← h.length] at hroom
  refine ⟨_, hordered.add_eq hroom, h.head, ?_, h.oldHead, ?_, h.oldLength, ?_, fun i number hnumber => ?_⟩
  · exact congrArg (incrementIndex cfg) h.tail
  · exact congrArg (· + 1) h.length
  · exact congrArg (· + 1) h.added
  · change Function.update d.doubleWindow d.windowTail _ i = _ at hnumber
    change (Function.update w.doubleWindow w.windowTail _ i).uop.sequenceNumber % 2 ^ 64 = _
    rw [← h.tail]
    by_cases hi : i = d.windowTail
    · rw [hi, Function.update_self, Option.some.injEq] at hnumber
      rw [hi, Function.update_self, ← hnumber, hordered.next, h.added]
      exact congrArg (· % 2 ^ 64) (number_eq_of_bare hbare)
    · rw [Function.update_of_ne hi] at hnumber ⊢
      exact h.numbers i number hnumber

/-- A micro-op is dispatched from both. -/
theorem dispatchInstruction (hordered : Ordered cfg d) (hlength : 0 < w.windowLength) :
    ∃ d', d.dispatchInstruction cfg = .ok d' ∧ Tracks (w.dispatchInstruction cfg) d' := by
  rw [← h.length] at hlength
  refine ⟨_, hordered.dispatchInstruction_eq hlength, ?_⟩
  have hlength' := congrArg (· - 1) h.length
  have holdLength' := congrArg (· - 1 + 1) h.oldLength
  rw [Windows.dispatchInstruction, retireOldest, Windows.retireOldest, h.oldLength]
  split_ifs
  · rw [h.oldLength] at holdLength'
    exact ⟨congrArg (incrementIndex cfg) h.head, h.tail, congrArg (incrementIndex cfg) h.oldHead, hlength', rfl, h.added,
      h.numbers⟩
  · exact ⟨congrArg (incrementIndex cfg) h.head, h.tail, h.oldHead, congrArg (· - 1) h.length,
      congrArg (· + 1) h.oldLength, h.added, h.numbers⟩

/-- What the dispatch of a micro-op does beside keeps the old window or clears it. -/
theorem frame (hframe : Windows.Frame w w') : Tracks w' d ∨ Tracks w' d.clearOldWindow := by
  have hnumbers (i number : ℕ) (hi : d.doubleWindow i = some number) :
      (w'.doubleWindow i).uop.sequenceNumber % 2 ^ 64 = number := by
    rw [hframe.sequenceNumber]
    exact h.numbers i number hi
  have hhead := h.head.trans hframe.head.symm
  have htail := h.tail.trans hframe.tail.symm
  have hlength := h.length.trans hframe.length.symm
  have hadded := h.added.trans hframe.next.symm
  rcases hframe.old with ⟨hold, holdLength⟩ | ⟨hold, holdLength⟩
  · exact .inl ⟨hhead, htail, h.oldHead.trans hold.symm, hlength, h.oldLength.trans holdLength.symm, hadded, hnumbers⟩
  · exact .inr ⟨hhead, htail, h.head.trans hold.symm, hlength, holdLength.symm, hadded, hnumbers⟩

end Tracks

/-- The windows are a ring, and some run of the double window leads to theirs. -/
structure Tracked (cfg : WindowsConfig) (w : Windows) : Prop where
  ring : Windows.Ring cfg w
  run : ∃ events d, (windowMachine cfg).run new events = .ok d ∧ Tracks w d

namespace Tracked

variable {cfg : WindowsConfig} {w w' : Windows}

theorem new (cfg : WindowsConfig) : Tracked cfg .new := ⟨Windows.ring_new cfg, [], _, rfl, tracks_new⟩

/-- One more call. -/
theorem of_step {events : List WindowEvent} {d d' : DoubleWindow} {e : WindowEvent} (hring : Windows.Ring cfg w')
    (hrun : (windowMachine cfg).run DoubleWindow.new events = .ok d) (hstep : (windowMachine cfg).step d e = .ok d')
    (htracks : Tracks w' d') : Tracked cfg w' := by
  refine ⟨hring, events ++ [e], d', (windowMachine cfg).run_append hrun ?_, htracks⟩
  rw [Machine.run, hstep]
  rfl

theorem add (h : Tracked cfg w) {u : IntervalMicroOp} (hadd : w.add cfg u = some w') : Tracked cfg w' := by
  obtain ⟨events, d, hrun, htracks⟩ := h.run
  obtain ⟨d', hstep, htracks'⟩ := htracks.add h.ring (ordered_of_run hrun) hadd
  exact of_step (e := .add) (Windows.ring_add h.ring hadd) hrun hstep htracks'

theorem dispatchInstruction (h : Tracked cfg w) (hlength : 0 < w.windowLength) :
    Tracked cfg (w.dispatchInstruction cfg) := by
  obtain ⟨events, d, hrun, htracks⟩ := h.run
  obtain ⟨d', hstep, htracks'⟩ := htracks.dispatchInstruction (ordered_of_run hrun) hlength
  exact of_step (e := .dispatchInstruction) (Windows.ring_dispatchInstruction h.ring hlength) hrun hstep htracks'

theorem frame (h : Tracked cfg w) (hframe : Windows.Frame w w') : Tracked cfg w' := by
  obtain ⟨events, d, hrun, htracks⟩ := h.run
  rcases htracks.frame hframe with htracks' | htracks'
  · exact ⟨hframe.ring h.ring, events, d, hrun, htracks'⟩
  · exact of_step (e := .clearOldWindow) (hframe.ring h.ring) hrun rfl htracks'

end Tracked

/-- In every run of the timer its windows are those of a run of the double window. -/
theorem timer_tracked {cfg : IntervalConfig} {period : ℕ} {events : List IntervalEvent} {s : IntervalState}
    (hrun : (intervalMachine cfg).run (.start cfg period) events = .ok s) :
    Tracked cfg.toWindowsConfig s.timer.windows := by
  refine (intervalMachine cfg).run_induction (P := fun s => Tracked cfg.toWindowsConfig s.timer.windows)
    (fun s e s' h hstep => ?_) (Tracked.new _) hrun
  cases e with
  | add u =>
    obtain ⟨-, rfl | ⟨w, hadd, rfl⟩⟩ := step_add hstep
    · exact h
    · exact h.add hadd
  | setPeriod period =>
    obtain ⟨-, rfl⟩ := step_setPeriod hstep
    exact h
  | begin =>
    obtain ⟨-, -, rfl⟩ := step_begin hstep
    obtain ⟨remaining, hrest⟩ := s.timer.calculateCurrentDispatchRate_rest cfg
    dsimp only
    rw [hrest]
    exact h
  | dispatch =>
    obtain ⟨c, -, hgoes, rfl⟩ := step_dispatch hstep
    have hframe : Windows.Frame s.timer.windows (s.timer.dispatchInstruction cfg).timer.windows :=
      s.timer.dispatchInstruction_frame
    refine (h.frame hframe).dispatchInstruction ?_
    rw [hframe.length]
    exact goesOn_busy hgoes
  | finish =>
    obtain ⟨c, t, -, -, hfinish, rfl⟩ := step_finish hstep
    rw [finishCycle_ok hfinish]
    dsimp only
    split_ifs <;> exact h

end DoubleWindow

end LifeSim.Interval
