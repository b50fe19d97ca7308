import LifeSim.Interval.Ring

/-!
# The branch resolution latency

The sweep of `calculateBranchResolutionLatency` over the old window against the paths of dependencies that end in the
micro-op and stay inside the old window. The paths are those of sequence numbers, and the sweep goes over places of the
ring. The sums are 32-bit words and the result is an `int`.
-/

namespace LifeSim.Interval

open LifeSim.Lib LifeSim.Rob

namespace Windows

variable {cfg : WindowsConfig} {w : Windows}

/-- What a micro-op depends on in the old window. -/
def producers (cfg : WindowsConfig) (w : Windows) (s : ℕ) : List ℕ :=
  (w.slot cfg s).uop.getDependencies.filter fun d => decide (w.first - w.oldWindowLength ≤ d ∧ d < w.first)

/-- The execution latency of a micro-op. -/
def latencyOf (cfg : WindowsConfig) (w : Windows) (s : ℕ) : ℕ := (w.slot cfg s).uop.execLatency

/-- The sums of the execution latencies on the paths of dependencies that end in the next micro-op and stay inside the old
window, and zero. -/
def resolutionLatencies (cfg : WindowsConfig) (w : Windows) : Set ℕ :=
  pathWeights (w.producers cfg) (w.latencyOf cfg) w.first

/-- A micro-op is about to be dispatched. It and those of the old window depend on earlier micro-ops, and those of the old
window take at least one cycle. -/
structure Dispatchable (cfg : WindowsConfig) (w : Windows) : Prop where
  ring : Ring cfg w
  waiting : 0 < w.windowLength
  earlier : ∀ s ≤ w.first, w.first ≤ s + w.oldWindowLength → ∀ d ∈ (w.slot cfg s).uop.getDependencies, d < s
  latency : ∀ s < w.first, w.first ≤ s + w.oldWindowLength → 0 < w.latencyOf cfg s
  unmarked : w.execTimeMap = fun _ => 0

namespace Dispatchable

variable (h : Dispatchable cfg w)
include h

theorem size_pos : 0 < cfg.windowSize := Nat.lt_of_lt_of_le h.waiting h.ring.windowLength_le

/-- A number of the old window or the next one. -/
def Near (w : Windows) (s : ℕ) : Prop := s ≤ w.first ∧ w.first ≤ s + w.oldWindowLength

omit h in
theorem near_of_producer {s d : ℕ} (hd : d ∈ w.producers cfg s) : Near w d ∧ d < w.first := by
  have hmem := (List.mem_filter.1 hd).2
  rw [decide_eq_true_eq] at hmem
  exact ⟨⟨by omega, by omega⟩, hmem.2⟩

/-- The producers that the source finds are those of the sequence numbers. -/
theorem oldProducers_eq {s : ℕ} (hs : Near w s) : w.oldProducers cfg (s % (2 * cfg.windowSize)) =
    (w.producers cfg s).map (· % (2 * cfg.windowSize)) := by
  rw [oldProducers, producers]
  have hfind : w.getInstruction cfg = (· % (2 * cfg.windowSize)) :=
    funext fun d => h.ring.getInstruction_eq h.size_pos h.waiting d
  rw [hfind]
  congr 1
  refine List.filter_congr fun d hd => ?_
  have hlt := h.earlier s hs.1 hs.2 d hd
  rw [Bool.eq_iff_iff, h.ring.oldWindowContains_iff h.size_pos h.waiting (by have hle := hs.1; omega), decide_eq_true_eq]

theorem resolutionLatencies_eq :
    pathWeights (w.oldProducers cfg) w.execLatencyAt w.windowHead = w.resolutionLatencies cfg := by
  rw [h.ring.head]
  exact DepPath.map (p := Near w) ⟨le_refl _, Nat.le_add_right ..⟩ (fun s hs => h.oldProducers_eq hs)
    (fun s _ d hd => (near_of_producer hd).1) fun s _ => rfl

/-- The numbers of the old window have different places. -/
theorem place_injective {a b : ℕ} (ha : a ∈ numbersBack w.first w.oldWindowLength)
    (hb : b ∈ numbersBack w.first w.oldWindowLength)
    (heq : a % (2 * cfg.windowSize) = b % (2 * cfg.windowSize)) : a = b := by
  have hold := h.ring.oldWindowLength_le_first
  have hle := h.ring.oldWindowLength_le
  have hfirst := h.ring.first_add
  have hwaiting := h.waiting
  rw [mem_numbersBack hold] at ha hb
  rcases Nat.lt_trichotomy a b with hlt | rfl | hlt
  · exact absurd heq (h.ring.place_ne (by omega) hlt (by omega))
  · rfl
  · exact absurd heq.symm (h.ring.place_ne (by omega) hlt (by omega))

/-- The places that the sweep visits, when there are any. -/
theorem visited_eq : backwards cfg (windowIndex cfg ((w.windowHead : ℤ) - 1)) w.oldWindowLength =
    (numbersBack w.first w.oldWindowLength).map (· % (2 * cfg.windowSize)) := by
  have hold := h.ring.oldWindowLength_le_first
  rcases Nat.eq_zero_or_pos w.oldWindowLength with hzero | hpos
  · rw [hzero]
    rfl
  · rw [h.ring.head, windowIndex_mod_sub h.size_pos w.first 1 (d := w.first - 1) (by omega)]
    exact backwards_eq h.size_pos hold (by omega)

theorem visited_topological :
    Topological (w.oldProducers cfg) (backwards cfg (windowIndex cfg ((w.windowHead : ℤ) - 1)) w.oldWindowLength) := by
  have hold := h.ring.oldWindowLength_le_first
  rw [h.visited_eq]
  have htop : Topological (w.producers cfg) (numbersBack w.first w.oldWindowLength) :=
    topological_numbersBack hold rfl fun e he hge d hd => by
      have hmem := List.mem_filter.1 hd
      have hlow := hmem.2
      rw [decide_eq_true_eq] at hlow
      exact ⟨hlow.1, h.earlier e he.le (by omega) d hmem.1⟩
  refine htop.map (fun s hs => h.oldProducers_eq ?_) fun a ha b hb => h.place_injective ha hb
  have hnear := (mem_numbersBack hold).1 hs
  exact ⟨by omega, by omega⟩

theorem producers_visited : ∀ i ∈ w.oldProducers cfg w.windowHead,
    i ∈ backwards cfg (windowIndex cfg ((w.windowHead : ℤ) - 1)) w.oldWindowLength := by
  intro i hi
  rw [h.ring.head, h.oldProducers_eq ⟨le_refl _, Nat.le_add_right ..⟩] at hi
  obtain ⟨d, hd, rfl⟩ := List.mem_map.1 hi
  rw [h.visited_eq]
  refine List.mem_map_of_mem ((mem_numbersBack h.ring.oldWindowLength_le_first).2 ?_)
  obtain ⟨hnear, hlt⟩ := near_of_producer hd
  exact ⟨by have hle := hnear.2; omega, hlt⟩

theorem visited_pos : ∀ i ∈ backwards cfg (windowIndex cfg ((w.windowHead : ℤ) - 1)) w.oldWindowLength,
    0 < w.execLatencyAt i := by
  intro i hi
  rw [h.visited_eq] at hi
  obtain ⟨d, hd, rfl⟩ := List.mem_map.1 hi
  obtain ⟨hge, hlt⟩ := (mem_numbersBack h.ring.oldWindowLength_le_first).1 hd
  exact h.latency d hlt (by omega)

/-- The scratch array is all zero again, and nothing else changes. -/
theorem calculateBranchResolutionLatency_unmarked : (w.calculateBranchResolutionLatency cfg).1 = w := by
  have hmark : (sweep (2 ^ 32) (w.oldProducers cfg) w.execLatencyAt w.windowHead
      (backwards cfg (windowIndex cfg ((w.windowHead : ℤ) - 1)) w.oldWindowLength) w.execTimeMap).mark = w.execTimeMap := by
    rw [h.unmarked]
    exact sweep_mark h.producers_visited h.visited_topological
  rw [calculateBranchResolutionLatency_fst, hmark]

end Dispatchable

/-- The scratch array is all zero afterwards, and the result is the greatest sum on a path exactly when the sums fit into
an `int`. -/
theorem branchResolutionLatency_greatest_iff (h : Dispatchable cfg w) :
    (w.calculateBranchResolutionLatency cfg).1.execTimeMap = (fun _ => 0) ∧
      ((∃ longest : ℕ, IsGreatest (w.resolutionLatencies cfg) longest ∧
        (w.calculateBranchResolutionLatency cfg).2 = longest) ↔ ∀ v ∈ w.resolutionLatencies cfg, v < 2 ^ 31) := by
  rw [h.calculateBranchResolutionLatency_unmarked, calculateBranchResolutionLatency_snd, h.unmarked]
  refine ⟨rfl, fun ⟨longest, hgreatest, heq⟩ v hv => ?_, fun hfit => ?_⟩
  · have hlt := toInt_lt (sweep (2 ^ 32) (w.oldProducers cfg) w.execLatencyAt w.windowHead
      (backwards cfg (windowIndex cfg ((w.windowHead : ℤ) - 1)) w.oldWindowLength) fun _ => 0).longest
    have hle := hgreatest.2 hv
    omega
  · have hpaths := h.resolutionLatencies_eq
    have hgreatest : IsGreatest (pathWeights (w.oldProducers cfg) w.execLatencyAt w.windowHead)
        (sweep (2 ^ 32) (w.oldProducers cfg) w.execLatencyAt w.windowHead
          (backwards cfg (windowIndex cfg ((w.windowHead : ℤ) - 1)) w.oldWindowLength) fun _ => 0).longest :=
      sweep_longest h.producers_visited h.visited_topological h.visited_pos fun v hv => by
        have hlt := hfit v (hpaths ▸ hv)
        omega
    rw [hpaths] at hgreatest
    exact ⟨_, hgreatest, toInt_of_lt (hfit _ hgreatest.1)⟩

/-- Two places for the window and two for the old window. -/
def twoPlaces : WindowsConfig := ⟨2, by norm_num, false, 1000, by norm_num⟩

/-- A micro-op that reads one register and writes another one. -/
def registerOp (source destination latency : ℕ) : IntervalMicroOp :=
  { WindowEntry.unfilled.uop with
    sourceRegisters := [source]
    destinationRegisters := [destination]
    execLatency := latency }

/-- Two micro-ops have been dispatched, and each micro-op depends on the one before it. -/
def chainOfThree (latency : ℕ) : Windows :=
  let dispatched := do
    let w ← Windows.new.add twoPlaces (registerOp 1 2 latency)
    let w ← w.add twoPlaces (registerOp 2 3 latency)
    ((w.dispatchInstruction twoPlaces).dispatchInstruction twoPlaces).add twoPlaces (registerOp 3 4 1)
  dispatched.getD Windows.new

theorem chainOfThree_dispatchable {latency : ℕ} (hlatency : 0 < latency) :
    Dispatchable twoPlaces (chainOfThree latency) where
  ring :=
    { windowLength_le := (by decide : 1 ≤ 2)
      oldWindowLength_le := le_refl 2
      length_le := le_refl 3
      head := rfl
      tail := rfl
      oldHead := rfl
      number := by
        intro s hs _
        change s < 3 at hs
        interval_cases s <;> rfl }
  waiting := Nat.one_pos
  earlier := by
    intro s hs _ d hd
    change s ≤ 2 at hs
    interval_cases s
    · change d ∈ [] at hd
      cases hd
    · change d ∈ [0] at hd
      rw [List.mem_singleton.1 hd]
      exact Nat.one_pos
    · change d ∈ [1] at hd
      rw [List.mem_singleton.1 hd]
      exact Nat.lt_succ_self 1
  latency := by
    intro s hs _
    change s < 2 at hs
    interval_cases s
    · exact hlatency
    · exact hlatency
  unmarked := rfl

theorem branchResolutionLatency_greatest_iff_chain :
    ((chainOfThree 3).calculateBranchResolutionLatency twoPlaces).1.execTimeMap = (fun _ => 0) ∧
      ((∃ longest : ℕ, IsGreatest ((chainOfThree 3).resolutionLatencies twoPlaces) longest ∧
          ((chainOfThree 3).calculateBranchResolutionLatency twoPlaces).2 = longest) ↔
        ∀ v ∈ (chainOfThree 3).resolutionLatencies twoPlaces, v < 2 ^ 31) :=
  branchResolutionLatency_greatest_iff (chainOfThree_dispatchable (by norm_num))

/-- A sum that does not fit. -/
theorem branchResolutionLatency_not_greatest : ¬ ∀ (cfg : WindowsConfig) (w : Windows), Dispatchable cfg w →
    ∃ longest : ℕ, IsGreatest (w.resolutionLatencies cfg) longest ∧
      (w.calculateBranchResolutionLatency cfg).2 = longest := by
  intro h
  obtain ⟨longest, -, heq⟩ := h twoPlaces (chainOfThree (2 ^ 31)) (chainOfThree_dispatchable (by norm_num))
  have hresult : ((chainOfThree (2 ^ 31)).calculateBranchResolutionLatency twoPlaces).2 = -2 ^ 31 := by decide +kernel
  omega

end Windows

end LifeSim.Interval
