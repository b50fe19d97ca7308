import LifeSim.Interval.Windows
import LifeSim.Rob.Program

/-!
# The ring of entries

The micro-op with a sequence number is at the place of this number modulo the size of the ring. The window holds the
last numbers, and the old window those before them. Each of the two has at most half of the places, so that the places of
different micro-ops are different.
-/

namespace LifeSim.Interval

open LifeSim.Lib LifeSim.Rob

namespace Windows

variable {cfg : WindowsConfig} {w w' : Windows} {s d n i : ℕ}

/-- The number of the micro-op that is dispatched next. -/
def first (w : Windows) : ℕ := w.nextSequenceNumber - w.windowLength

/-- The entry of a number. -/
def slot (cfg : WindowsConfig) (w : Windows) (s : ℕ) : WindowEntry := w.doubleWindow (s % (2 * cfg.windowSize))

/-- The indices fit the numbers of the micro-ops. -/
structure Ring (cfg : WindowsConfig) (w : Windows) : Prop where
  windowLength_le : w.windowLength ≤ cfg.windowSize
  oldWindowLength_le : w.oldWindowLength ≤ cfg.windowSize
  length_le : w.windowLength + w.oldWindowLength ≤ w.nextSequenceNumber
  head : w.windowHead = w.first % (2 * cfg.windowSize)
  tail : w.windowTail = w.nextSequenceNumber % (2 * cfg.windowSize)
  oldHead : w.oldWindowHead = (w.first - w.oldWindowLength) % (2 * cfg.windowSize)
  number : ∀ s < w.nextSequenceNumber, w.first ≤ s + cfg.windowSize → (w.slot cfg s).uop.sequenceNumber = s

/-- The numbers in the old window, the latest one first. -/
def numbersBack : ℕ → ℕ → List ℕ
  | _, 0 => []
  | s, n + 1 => (s - 1) :: numbersBack (s - 1) n

/-- The old window, the oldest micro-op first. -/
def oldWindow (cfg : WindowsConfig) (w : Windows) : List WindowEntry :=
  (List.range' (w.first - w.oldWindowLength) w.oldWindowLength).map (w.slot cfg)

/-! ### Indices -/

/-- Numbers that are less than the size of the ring apart have different places. -/
theorem mod_ne {m : ℕ} (hlt : s < d) (hnear : d < s + m) : s % m ≠ d % m := by
  intro heq
  obtain ⟨k, hk⟩ := (Nat.modEq_iff_dvd' hlt.le).1 heq
  rcases Nat.eq_zero_or_pos k with rfl | hpos
  · omega
  · have hle := Nat.le_mul_of_pos_right m hpos
    omega

theorem windowIndex_eq (hsize : 0 < cfg.windowSize) (x : ℤ) : windowIndex cfg x = (x % (2 * cfg.windowSize)).toNat := by
  have hpos : (0 : ℤ) < 2 * cfg.windowSize := by omega
  have hge := Int.lt_tmod_of_pos x hpos
  have hnonneg : 0 ≤ x.tmod (2 * cfg.windowSize) + 2 * cfg.windowSize := by omega
  rw [windowIndex, Int.tmod_eq_emod_of_nonneg hnonneg, Int.add_emod_right]
  congr 1
  have hdiv := Int.mul_tdiv_add_tmod x (2 * cfg.windowSize)
  have hsub : x.tmod (2 * cfg.windowSize) = x - 2 * cfg.windowSize * x.tdiv (2 * cfg.windowSize) := by omega
  rw [hsub, Int.sub_mul_emod_self_left]

theorem windowIndex_mod_sub (hsize : 0 < cfg.windowSize) (s : ℕ) (k : ℤ) (hd : (s : ℤ) - k = d) :
    windowIndex cfg ((s % (2 * cfg.windowSize) : ℕ) - k) = d % (2 * cfg.windowSize) := by
  rw [windowIndex_eq hsize, Int.natCast_mod, Nat.cast_mul, Nat.cast_ofNat, Int.emod_sub_emod, hd]
  have hcast : (d : ℤ) % (2 * cfg.windowSize) = ((d % (2 * cfg.windowSize) : ℕ) : ℤ) := by push_cast; rfl
  rw [hcast, Int.toNat_natCast]

theorem incrementIndex_mod (s : ℕ) :
    incrementIndex cfg (s % (2 * cfg.windowSize)) = (s + 1) % (2 * cfg.windowSize) := Nat.mod_add_mod ..

theorem decrementIndex_mod (hs : 0 < s) (hsize : 0 < cfg.windowSize) :
    decrementIndex cfg (s % (2 * cfg.windowSize)) = (s - 1) % (2 * cfg.windowSize) := by
  have hsub : s % (2 * cfg.windowSize) + 2 * cfg.windowSize - 1 =
      s % (2 * cfg.windowSize) + (2 * cfg.windowSize - 1) := by omega
  rw [decrementIndex, hsub, Nat.mod_add_mod]
  have hadd : s + (2 * cfg.windowSize - 1) = s - 1 + 2 * cfg.windowSize := by omega
  rw [hadd, Nat.add_mod_right]

namespace Ring

variable (h : Ring cfg w)
include h

theorem first_add : w.first + w.windowLength = w.nextSequenceNumber :=
  Nat.sub_add_cancel (Nat.le_of_add_right_le h.length_le)

theorem oldWindowLength_le_first : w.oldWindowLength ≤ w.first := by
  have hfirst := h.first_add
  have hle := h.length_le
  omega

/-- Entries of different numbers have different places. -/
theorem place_ne (hlow : w.first ≤ s + cfg.windowSize) (hlt : s < d) (hd : d < w.nextSequenceNumber) :
    s % (2 * cfg.windowSize) ≠ d % (2 * cfg.windowSize) := by
  have hfirst := h.first_add
  have hlength := h.windowLength_le
  exact mod_ne hlt (by omega)

/-- Only the pointers and the entries count. -/
theorem of_pointers (hentries : w'.doubleWindow = w.doubleWindow) (hhead : w'.windowHead = w.windowHead)
    (htail : w'.windowTail = w.windowTail) (holdHead : w'.oldWindowHead = w.oldWindowHead)
    (hlength : w'.windowLength = w.windowLength) (hold : w'.oldWindowLength = w.oldWindowLength)
    (hnext : w'.nextSequenceNumber = w.nextSequenceNumber) : Ring cfg w' := by
  have hfirst : w'.first = w.first := by rw [first, first, hnext, hlength]
  obtain ⟨hwindow, holdWindow, hle, hhead', htail', holdHead', hnumber⟩ := h
  refine ⟨by rwa [hlength], by rwa [hold], by rwa [hlength, hold, hnext], by rwa [hhead, hfirst],
    by rwa [htail, hnext], by rwa [holdHead, hfirst, hold], fun s hs hnear => ?_⟩
  rw [hnext] at hs
  rw [hfirst] at hnear
  rw [slot, hentries]
  exact hnumber s hs hnear

/-- The search for a micro-op finds it. -/
theorem getInstruction_eq (hsize : 0 < cfg.windowSize) (hlength : 0 < w.windowLength) (d : ℕ) :
    w.getInstruction cfg d = d % (2 * cfg.windowSize) := by
  have hfirst := h.first_add
  have hnumber : (w.doubleWindow w.windowHead).uop.sequenceNumber = w.first := by
    rw [h.head]
    exact h.number w.first (by omega) (Nat.le_add_right ..)
  rw [getInstruction, hnumber, h.head]
  exact windowIndex_mod_sub hsize w.first _ (by omega)

/-- The old window holds the numbers before the next one. -/
theorem oldWindowContains_iff (hsize : 0 < cfg.windowSize) (hlength : 0 < w.windowLength) (hpos : 0 < w.first) :
    w.oldWindowContains cfg d = true ↔ w.first - w.oldWindowLength ≤ d ∧ d < w.first := by
  have hfirst := h.first_add
  have hold := h.oldWindowLength_le
  have hlowest : (w.doubleWindow w.oldWindowHead).uop.sequenceNumber = w.first - w.oldWindowLength := by
    rw [h.oldHead]
    exact h.number _ (by omega) (by omega)
  have hhighest : (w.doubleWindow (decrementIndex cfg w.windowHead)).uop.sequenceNumber = w.first - 1 := by
    rw [h.head, decrementIndex_mod hpos hsize]
    exact h.number _ (by omega) (by omega)
  rw [oldWindowContains, hlowest, hhighest, Bool.and_eq_true, decide_eq_true_eq, decide_eq_true_eq]
  omega

end Ring

/-! ### Numbers -/

theorem mem_numbersBack (hle : n ≤ s) : d ∈ numbersBack s n ↔ s - n ≤ d ∧ d < s := by
  induction n generalizing s with
  | zero =>
    simp only [numbersBack, List.not_mem_nil, false_iff]
    omega
  | succ n ih =>
    rw [numbersBack, List.mem_cons, ih (by omega)]
    omega

theorem backwards_eq (hsize : 0 < cfg.windowSize) (hle : n ≤ s) (hs : 0 < s) :
    backwards cfg ((s - 1) % (2 * cfg.windowSize)) n = (numbersBack s n).map (· % (2 * cfg.windowSize)) := by
  induction n generalizing s with
  | zero => rfl
  | succ n ih =>
    rw [backwards, numbersBack, List.map_cons]
    congr 1
    rcases Nat.eq_zero_or_pos n with rfl | hn
    · rfl
    · rw [windowIndex_mod_sub hsize (s - 1) 1 (d := s - 2) (by omega)]
      exact ih (s := s - 1) (by omega) (by omega)

/-- Dependencies within the old window on earlier micro-ops lead back. -/
theorem topological_numbersBack {producers : ℕ → List ℕ} {low : ℕ} (hle : n ≤ s) (hlow : s - n = low)
    (hproducers : ∀ e < s, low ≤ e → ∀ d ∈ producers e, low ≤ d ∧ d < e) : Topological producers (numbersBack s n) := by
  induction n generalizing s with
  | zero => exact trivial
  | succ n ih =>
    refine ⟨fun hmem => ?_, fun d hd => ?_, ih (by omega) (by omega) fun e he => hproducers e (by omega)⟩
    · have hlt := ((mem_numbersBack (by omega)).1 hmem).2
      omega
    · obtain ⟨hge, hlt⟩ := hproducers _ (by omega) (by omega) d hd
      exact (mem_numbersBack (by omega)).2 (by omega)

/-! ### Micro-ops come and go -/

theorem ring_new (cfg : WindowsConfig) : Ring cfg new where
  windowLength_le := Nat.zero_le _
  oldWindowLength_le := Nat.zero_le _
  length_le := Nat.zero_le _
  head := (Nat.zero_mod _).symm
  tail := (Nat.zero_mod _).symm
  oldHead := (Nat.zero_mod _).symm
  number := fun _ hs => absurd hs (Nat.not_lt_zero _)

/-- What is left of a micro-op when the results of its memory access are taken away. -/
def static (e : WindowEntry) : IntervalMicroOp := { e.uop with execLatency := 0, dCacheHitWhere := .unknown }

/-- The micro-ops stay where they are, with their static parts, and the old window is kept or cleared. -/
structure Frame (w w' : Windows) : Prop where
  head : w'.windowHead = w.windowHead
  tail : w'.windowTail = w.windowTail
  length : w'.windowLength = w.windowLength
  next : w'.nextSequenceNumber = w.nextSequenceNumber
  static : ∀ i, static (w'.doubleWindow i) = static (w.doubleWindow i)
  old : (w'.oldWindowHead = w.oldWindowHead ∧ w'.oldWindowLength = w.oldWindowLength) ∨
    (w'.oldWindowHead = w.windowHead ∧ w'.oldWindowLength = 0)

namespace Frame

theorem refl (w : Windows) : Frame w w := ⟨rfl, rfl, rfl, rfl, fun _ => rfl, .inl ⟨rfl, rfl⟩⟩

theorem trans {w₁ w₂ w₃ : Windows} (h : Frame w₁ w₂) (h' : Frame w₂ w₃) : Frame w₁ w₃ where
  head := h'.head.trans h.head
  tail := h'.tail.trans h.tail
  length := h'.length.trans h.length
  next := h'.next.trans h.next
  static i := (h'.static i).trans (h.static i)
  old := by
    rcases h'.old with ⟨hhead, hlength⟩ | ⟨hhead, hlength⟩
    · rw [hhead, hlength]
      exact h.old
    · rw [hhead, hlength, h.head]
      exact .inr ⟨rfl, rfl⟩

theorem first (h : Frame w w') : w'.first = w.first := by rw [Windows.first, Windows.first, h.next, h.length]

theorem period (h : Frame w w') (i : ℕ) : (w'.doubleWindow i).uop.period = (w.doubleWindow i).uop.period := by
  have hcongr := congrArg IntervalMicroOp.period (h.static i)
  exact hcongr

theorem sequenceNumber (h : Frame w w') (i : ℕ) :
    (w'.doubleWindow i).uop.sequenceNumber = (w.doubleWindow i).uop.sequenceNumber := by
  have hcongr := congrArg (fun u => u.sequenceNumber) (h.static i)
  exact hcongr

/-- The ring stays one. -/
theorem ring (h : Frame w w') (hring : Ring cfg w) : Ring cfg w' := by
  have hfirst := h.first
  have hlength := hring.length_le
  have hold : w'.oldWindowLength ≤ w.oldWindowLength := by
    rcases h.old with ⟨-, heq⟩ | ⟨-, heq⟩ <;> omega
  constructor
  · rw [h.length]
    exact hring.windowLength_le
  · exact hold.trans hring.oldWindowLength_le
  · rw [h.length, h.next]
    omega
  · rw [h.head, hfirst]
    exact hring.head
  · rw [h.tail, h.next]
    exact hring.tail
  · rw [hfirst]
    rcases h.old with ⟨hhead, hlength⟩ | ⟨hhead, hlength⟩
    · rw [hhead, hlength]
      exact hring.oldHead
    · rw [hhead, hlength]
      exact hring.head
  · intro s hs hnear
    rw [h.next] at hs
    rw [hfirst] at hnear
    exact (h.sequenceNumber _).trans (hring.number s hs hnear)

theorem modify (w : Windows) (i : ℕ) {f : WindowEntry → WindowEntry} (hf : ∀ e, Windows.static (f e) = Windows.static e) :
    Frame w (w.modify i f) where
  head := rfl
  tail := rfl
  length := rfl
  next := rfl
  static j := by
    rw [Windows.modify]
    by_cases hj : j = i
    · subst hj
      exact (congrArg Windows.static (Function.update_self ..)).trans (hf _)
    · exact congrArg Windows.static (Function.update_of_ne hj _ _)
  old := .inl ⟨rfl, rfl⟩

theorem clearOldWindow (w : Windows) (newCpHead : ℕ) : Frame w (w.clearOldWindow newCpHead) :=
  ⟨rfl, rfl, rfl, rfl, fun _ => rfl, .inr ⟨rfl, rfl⟩⟩

theorem updateCriticalPathTail (w : Windows) (i : ℕ) : Frame w (w.updateCriticalPathTail i) := by
  rw [Windows.updateCriticalPathTail]
  split_ifs
  · obtain ⟨hhead, htail, hlength, hnext, hstatic, hold⟩ :=
      modify w i (f := fun e => { e with cpContr := (w.doubleWindow i).execTime - w.criticalPathTail }) fun _ => rfl
    exact ⟨hhead, htail, hlength, hnext, hstatic, hold⟩
  · exact refl w

theorem calculateBranchResolutionLatency (cfg : WindowsConfig) (w : Windows) :
    Frame w (w.calculateBranchResolutionLatency cfg).1 := ⟨rfl, rfl, rfl, rfl, fun _ => rfl, .inl ⟨rfl, rfl⟩⟩

end Frame

/-- The oldest micro-op leaves room for one more. -/
theorem retireOldest_spec (h : Ring cfg w) (hsize : 0 < cfg.windowSize) :
    Ring cfg (w.retireOldest cfg) ∧ (w.retireOldest cfg).oldWindowLength < cfg.windowSize ∧
      (w.retireOldest cfg).doubleWindow = w.doubleWindow ∧ (w.retireOldest cfg).windowLength = w.windowLength ∧
      (w.retireOldest cfg).nextSequenceNumber = w.nextSequenceNumber := by
  have hlength := h.length_le
  have hle := h.oldWindowLength_le
  have hold := h.oldWindowLength_le_first
  rw [retireOldest]
  split_ifs with hfull
  · refine ⟨⟨h.windowLength_le, ?_, ?_, h.head, h.tail, ?_, h.number⟩, ?_, rfl, rfl, rfl⟩
    · change w.oldWindowLength - 1 ≤ _
      omega
    · change w.windowLength + (w.oldWindowLength - 1) ≤ w.nextSequenceNumber
      omega
    · change incrementIndex cfg w.oldWindowHead = (w.first - (w.oldWindowLength - 1)) % _
      rw [h.oldHead, incrementIndex_mod]
      congr 1
      omega
    · change w.oldWindowLength - 1 < _
      omega
  · exact ⟨h, by omega, rfl, rfl, rfl⟩

theorem ring_dispatchInstruction (h : Ring cfg w) (hlength : 0 < w.windowLength) :
    Ring cfg (w.dispatchInstruction cfg) := by
  have hsize : 0 < cfg.windowSize := Nat.lt_of_lt_of_le hlength h.windowLength_le
  obtain ⟨hring, hroom, hentries, hwindow, hnext⟩ := retireOldest_spec h hsize
  rw [← hwindow] at hlength
  rw [dispatchInstruction]
  generalize w.retireOldest cfg = v at hring hroom hlength
  have hfirst := hring.first_add
  have hle := hring.length_le
  have hwindowLength := hring.windowLength_le
  have hfirst' : v.nextSequenceNumber - (v.windowLength - 1) = v.first + 1 := by omega
  constructor
  · change v.windowLength - 1 ≤ _
    omega
  · change v.oldWindowLength + 1 ≤ _
    omega
  · change v.windowLength - 1 + (v.oldWindowLength + 1) ≤ v.nextSequenceNumber
    omega
  · change incrementIndex cfg v.windowHead = (v.nextSequenceNumber - (v.windowLength - 1)) % _
    rw [hring.head, incrementIndex_mod, hfirst']
  · exact hring.tail
  · change v.oldWindowHead = (v.nextSequenceNumber - (v.windowLength - 1) - (v.oldWindowLength + 1)) % _
    rw [hring.oldHead, hfirst']
    congr 1
    omega
  · intro s hs hnear
    change v.nextSequenceNumber - (v.windowLength - 1) ≤ s + cfg.windowSize at hnear
    exact hring.number s hs (by omega)

/-- A new micro-op takes the place after the window. -/
theorem add_spec (h : Ring cfg w) {u : IntervalMicroOp} (hadd : w.add cfg u = some w') :
    w.windowLength < cfg.windowSize ∧ ∃ v registers memory,
      DynamicMicroOp.bare v = DynamicMicroOp.bare { u.toDynamicMicroOp with sequenceNumber := w.nextSequenceNumber } ∧
      w' = { w with
        doubleWindow := Function.update w.doubleWindow w.windowTail (.initializeWith { u with toDynamicMicroOp := v })
        windowTail := incrementIndex cfg w.windowTail
        windowLength := w.windowLength + 1
        nextSequenceNumber := w.nextSequenceNumber + 1
        registerDependencies := registers
        memoryDependencies := memory } := by
  have hle := h.windowLength_le
  rw [add] at hadd
  split_ifs at hadd with hfull
  · cases hadd
  · rw [wIsFull, decide_eq_true_eq] at hfull
    obtain ⟨x, hregisters, hadd⟩ := Option.bind_eq_some_iff.1 hadd
    obtain ⟨y, hmemory, hadd⟩ := Option.bind_eq_some_iff.1 hadd
    cases hadd
    refine ⟨by omega, y.2, x.1, y.1, ?_, ?_⟩
    · exact (MemoryDependencies.setDependencies_bare hmemory).trans (RegisterDependencies.setDependencies_bare hregisters)
    · rw [Function.update_idem]

theorem ring_add (h : Ring cfg w) {u : IntervalMicroOp} (hadd : w.add cfg u = some w') : Ring cfg w' := by
  obtain ⟨hroom, v, registers, memory, hbare, rfl⟩ := add_spec h hadd
  have hfirst := h.first_add
  have hlength := h.length_le
  have hold := h.oldWindowLength_le_first
  have hfirst' : w.nextSequenceNumber + 1 - (w.windowLength + 1) = w.first := by omega
  constructor
  · exact hroom
  · exact h.oldWindowLength_le
  · change w.windowLength + 1 + w.oldWindowLength ≤ w.nextSequenceNumber + 1
    omega
  · rw [first, hfirst']
    exact h.head
  · change incrementIndex cfg w.windowTail = _
    rw [h.tail, incrementIndex_mod]
  · rw [first, hfirst']
    exact h.oldHead
  · intro s hs hnear
    change s < w.nextSequenceNumber + 1 at hs
    rw [first, hfirst'] at hnear
    rw [slot]
    change (Function.update w.doubleWindow w.windowTail _ _).uop.sequenceNumber = s
    rw [h.tail]
    by_cases hlast : s = w.nextSequenceNumber
    · subst hlast
      rw [Function.update_self]
      exact number_eq_of_bare hbare
    · rw [Function.update_of_ne (mod_ne (by omega) (by omega))]
      exact h.number s (by omega) hnear

/-! ### The numbers afterwards -/

theorem retireOldest_entries (w : Windows) : (w.retireOldest cfg).doubleWindow = w.doubleWindow := by
  rw [retireOldest]
  split_ifs <;> rfl

theorem retireOldest_first (w : Windows) : (w.retireOldest cfg).first = w.first := by
  rw [retireOldest]
  split_ifs <;> rfl

@[simp] theorem dispatchInstruction_entries (w : Windows) : (w.dispatchInstruction cfg).doubleWindow = w.doubleWindow :=
  retireOldest_entries w

@[simp] theorem dispatchInstruction_slot (w : Windows) : (w.dispatchInstruction cfg).slot cfg = w.slot cfg :=
  funext fun s => congrFun (retireOldest_entries w) (s % (2 * cfg.windowSize))

@[simp] theorem dispatchInstruction_next (w : Windows) :
    (w.dispatchInstruction cfg).nextSequenceNumber = w.nextSequenceNumber := by
  change (w.retireOldest cfg).nextSequenceNumber = _
  rw [retireOldest]
  split_ifs <;> rfl

theorem dispatchInstruction_windowLength (w : Windows) :
    (w.dispatchInstruction cfg).windowLength = w.windowLength - 1 := by
  change (w.retireOldest cfg).windowLength - 1 = _
  rw [retireOldest]
  split_ifs <;> rfl

theorem dispatchInstruction_first (h : Ring cfg w) (hlength : 0 < w.windowLength) :
    (w.dispatchInstruction cfg).first = w.first + 1 := by
  have hfirst := h.first_add
  rw [first, dispatchInstruction_next, dispatchInstruction_windowLength]
  omega

theorem add_first (h : Ring cfg w) {u : IntervalMicroOp} (hadd : w.add cfg u = some w') : w'.first = w.first := by
  obtain ⟨-, v, registers, memory, -, rfl⟩ := add_spec h hadd
  exact Nat.add_sub_add_right ..

theorem add_next (h : Ring cfg w) {u : IntervalMicroOp} (hadd : w.add cfg u = some w') :
    w'.nextSequenceNumber = w.nextSequenceNumber + 1 := by
  obtain ⟨-, v, registers, memory, -, rfl⟩ := add_spec h hadd
  rfl

/-- The entries that were there before. -/
theorem add_slot (h : Ring cfg w) {u : IntervalMicroOp} (hadd : w.add cfg u = some w') (hs : s < w.nextSequenceNumber)
    (hnear : w.first ≤ s + cfg.windowSize) : w'.slot cfg s = w.slot cfg s := by
  have hfirst := h.first_add
  obtain ⟨hroom, v, registers, memory, -, rfl⟩ := add_spec h hadd
  rw [slot, slot]
  change Function.update w.doubleWindow w.windowTail _ _ = _
  rw [h.tail, Function.update_of_ne (mod_ne hs (by omega))]

/-- The entry of the new micro-op. -/
theorem add_slot_last (h : Ring cfg w) {u : IntervalMicroOp} (hadd : w.add cfg u = some w') :
    ∃ v : DynamicMicroOp, w'.slot cfg w.nextSequenceNumber = .initializeWith { u with toDynamicMicroOp := v } := by
  obtain ⟨-, v, registers, memory, -, rfl⟩ := add_spec h hadd
  refine ⟨v, ?_⟩
  rw [slot]
  change Function.update w.doubleWindow w.windowTail _ _ = _
  rw [h.tail, Function.update_self]

end Windows

end LifeSim.Interval
