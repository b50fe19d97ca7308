import LifeSim.Rob.Ports

/-!
# Port contention in the interval model

`interval_contention_nehalem.cc`: the numbers of micro-ops for each class of ports in the window, and the number of
cycles that they need. The least number of cycles is a maximum over groups of classes. The source leaves the micro-ops of
`PORT05` out of the group of ports 0, 1 and 5.

The callers' counts and lengths are `int`s, so that the sums do not overflow in 64 bits. Statistics are left out.
-/

namespace LifeSim.Interval

open LifeSim.Lib LifeSim.Rob

/-- `IntervalContentionNehalem`: `m_count_byport`. -/
structure IntervalContentionNehalem where
  countByPort : Port → ℕ

namespace IntervalContentionNehalem

def clearFunctionalUnitStats : IntervalContentionNehalem := ⟨fun _ => 0⟩

def addFunctionalUnitStats (c : IntervalContentionNehalem) (u : DynamicMicroOp) : IntervalContentionNehalem :=
  ⟨Function.update c.countByPort u.port (c.countByPort u.port + 1)⟩

def removeFunctionalUnitStats (c : IntervalContentionNehalem) (u : DynamicMicroOp) : IntervalContentionNehalem :=
  ⟨Function.update c.countByPort u.port (c.countByPort u.port - 1)⟩

/-- A length with the class that is the reason for it, if it is not the critical path. -/
abbrev Length := ℕ × Option Port

/-- The loop over the standard ports. -/
def checkPort (c : IntervalContentionNehalem) (x : Length) (port : Port) : Length :=
  if x.1 < c.countByPort port then (c.countByPort port, some port) else x

/-- The shared usage of ports 0 and 5. -/
def checkPort05 (c : IntervalContentionNehalem) (x : Length) : Length :=
  let use := c.countByPort .port0 + c.countByPort .port5 + c.countByPort .port05
  if 2 * x.1 < use then ((use + 1) / 2, some .port05) else x

/-- The shared usage of ports 0, 1 and 5. -/
def checkPort015 (c : IntervalContentionNehalem) (x : Length) : Length :=
  let use := c.countByPort .port0 + c.countByPort .port1 + c.countByPort .port5 + c.countByPort .port015
  if 3 * x.1 < use then ((use + 2) / 3, some .port015) else x

/-- `getEffectiveCriticalPathLength`, with the reason. -/
def effectiveLength (c : IntervalContentionNehalem) (criticalPathLength : ℕ) : Length :=
  c.checkPort015 (c.checkPort05 ([.port0, .port1, .port2, .port34, .port5].foldl c.checkPort (criticalPathLength, none)))

def getEffectiveCriticalPathLength (c : IntervalContentionNehalem) (criticalPathLength : ℕ) : ℕ :=
  (c.effectiveLength criticalPathLength).1

end IntervalContentionNehalem

/-! ### The least number of cycles -/

/-- Micro-ops of these numbers can be executed in so many cycles. -/
def Executable (count : Port → ℕ) (cycles : ℕ) : Prop :=
  Assignable Port.executionPorts cycles (Sigma.fst : (Σ c, Fin (count c)) → Port)

/-- The least number of cycles. -/
noncomputable def leastCycles (count : Port → ℕ) : ℕ := sInf {cycles | Executable count cycles}

theorem executable_iff (count : Port → ℕ) (cycles : ℕ) : Executable count cycles ↔ WithinPorts count cycles := by
  rw [Executable, assignable_sigma_iff, withinPorts_iff]

/-- The micro-ops of the largest group decide. -/
theorem leastCycles_le_iff (count : Port → ℕ) (cycles : ℕ) : leastCycles count ≤ cycles ↔ WithinPorts count cycles := by
  have hne : {cycles | Executable count cycles}.Nonempty := by
    refine ⟨use015 count + count .port2 + count .port34, (executable_iff _ _).2 ?_⟩
    constructor <;> simp only [use05, use015] <;> omega
  constructor
  · intro hle
    have hleast : Executable count (leastCycles count) := Nat.sInf_mem hne
    obtain ⟨h0, h1, h2, h34, h5, h05, h015⟩ := (executable_iff _ _).1 hleast
    constructor <;> omega
  · intro hwithin
    exact Nat.sInf_le ((executable_iff _ _).2 hwithin)

/-! ### The source's number of cycles -/

/-- The micro-ops on ports 0, 1 and 5 need no more cycles than the critical path, one of the standard ports, ports 0
and 5, or ports 0, 1 and 5 without `PORT05`. -/
def Covered (count : Port → ℕ) (criticalPathLength : ℕ) : Prop :=
  use015 count ≤ 3 * criticalPathLength ∨
    (∃ port, port ≠ .port05 ∧ port ≠ .port015 ∧ use015 count ≤ 3 * count port) ∨
    use015 count ≤ 3 * ((use05 count + 1) / 2) ∨
    use015 count ≤ 3 * ((use015 count - count .port05 + 2) / 3)

theorem checkPort_le_iff (c : IntervalContentionNehalem) (x : IntervalContentionNehalem.Length) (port : Port) (k : ℕ) :
    (c.checkPort x port).1 ≤ k ↔ x.1 ≤ k ∧ c.countByPort port ≤ k := by
  rw [IntervalContentionNehalem.checkPort]
  split_ifs <;> omega

theorem checkPort05_le_iff (c : IntervalContentionNehalem) (x : IntervalContentionNehalem.Length) (k : ℕ) :
    (c.checkPort05 x).1 ≤ k ↔ x.1 ≤ k ∧ use05 c.countByPort ≤ 2 * k := by
  rw [IntervalContentionNehalem.checkPort05, use05]
  split_ifs <;> omega

theorem checkPort015_le_iff (c : IntervalContentionNehalem) (x : IntervalContentionNehalem.Length) (k : ℕ) :
    (c.checkPort015 x).1 ≤ k ↔ x.1 ≤ k ∧ use015 c.countByPort - c.countByPort .port05 ≤ 3 * k := by
  rw [IntervalContentionNehalem.checkPort015, use015]
  split_ifs <;> omega

/-- What the source computes is the least number that no group of its own exceeds. -/
theorem effective_le_iff (c : IntervalContentionNehalem) (criticalPathLength k : ℕ) :
    c.getEffectiveCriticalPathLength criticalPathLength ≤ k ↔
      criticalPathLength ≤ k ∧ (∀ port, port ≠ .port05 → port ≠ .port015 → c.countByPort port ≤ k) ∧
        use05 c.countByPort ≤ 2 * k ∧ use015 c.countByPort - c.countByPort .port05 ≤ 3 * k := by
  rw [IntervalContentionNehalem.getEffectiveCriticalPathLength, IntervalContentionNehalem.effectiveLength,
    checkPort015_le_iff, checkPort05_le_iff]
  simp only [List.foldl_cons, List.foldl_nil, checkPort_le_iff]
  constructor
  · rintro ⟨⟨⟨⟨⟨⟨⟨hcp, h0⟩, h1⟩, h2⟩, h34⟩, h5⟩, h05⟩, h015⟩
    refine ⟨hcp, fun port hne05 hne015 => ?_, h05, h015⟩
    cases port with
    | port05 => exact absurd rfl hne05
    | port015 => exact absurd rfl hne015
    | port0 => exact h0
    | port1 => exact h1
    | port2 => exact h2
    | port34 => exact h34
    | port5 => exact h5
  · rintro ⟨hcp, hport, h05, h015⟩
    have hport (port : Port) (h : port ≠ .port05 ∧ port ≠ .port015) := hport port h.1 h.2
    exact ⟨⟨⟨⟨⟨⟨⟨hcp, hport _ (by decide)⟩, hport _ (by decide)⟩, hport _ (by decide)⟩, hport _ (by decide)⟩,
      hport _ (by decide)⟩, h05⟩, h015⟩

/-- The group that is left out is covered exactly when one of the other bounds covers it. -/
theorem covered_iff (c : IntervalContentionNehalem) (criticalPathLength : ℕ) :
    Covered c.countByPort criticalPathLength ↔
      use015 c.countByPort ≤ 3 * c.getEffectiveCriticalPathLength criticalPathLength := by
  constructor
  · intro hcovered
    obtain ⟨hcp, hport, h05, h015⟩ := (effective_le_iff c criticalPathLength _).1 (le_refl _)
    rcases hcovered with h | ⟨port, hne05, hne015, h⟩ | h | h
    · omega
    · have hle := hport port hne05 hne015
      omega
    · omega
    · omega
  · intro hle
    by_contra hnot
    rw [Covered, not_or, not_or, not_or, not_exists] at hnot
    obtain ⟨hcp, hport, h05, h015⟩ := hnot
    have hsmaller : c.getEffectiveCriticalPathLength criticalPathLength ≤ (use015 c.countByPort - 1) / 3 := by
      refine (effective_le_iff c criticalPathLength _).2 ⟨by omega, fun port hne05 hne015 => ?_, by omega, by omega⟩
      have hlt := hport port
      rw [not_and, not_and] at hlt
      have hlt := hlt hne05 hne015
      omega
    omega

/-- The source's number of cycles is right exactly when the group that is left out is covered. -/
theorem effective_eq_iff (c : IntervalContentionNehalem) (criticalPathLength : ℕ) :
    c.getEffectiveCriticalPathLength criticalPathLength = max criticalPathLength (leastCycles c.countByPort) ↔
      Covered c.countByPort criticalPathLength := by
  rw [covered_iff]
  constructor
  · intro heq
    have hle := (leastCycles_le_iff c.countByPort _).1 (heq ▸ le_max_right criticalPathLength (leastCycles c.countByPort))
    exact hle.ports015
  · intro h015
    apply le_antisymm
    · have hcp := le_max_left criticalPathLength (leastCycles c.countByPort)
      obtain ⟨h0, h1, h2, h34, h5, h05, h015'⟩ :=
        (leastCycles_le_iff c.countByPort _).1 (le_max_right criticalPathLength (leastCycles c.countByPort))
      refine (effective_le_iff c criticalPathLength _).2 ⟨hcp, fun port hne05 hne015 => ?_, h05, by omega⟩
      cases port with
      | port05 => exact absurd rfl hne05
      | port015 => exact absurd rfl hne015
      | port0 => exact h0
      | port1 => exact h1
      | port2 => exact h2
      | port34 => exact h34
      | port5 => exact h5
    · obtain ⟨hcp, hport, h05, -⟩ := (effective_le_iff c criticalPathLength _).1 (le_refl _)
      have hport (port : Port) (h : port ≠ .port05 ∧ port ≠ .port015) := hport port h.1 h.2
      exact max_le hcp ((leastCycles_le_iff _ _).2 ⟨hport _ (by decide), hport _ (by decide), hport _ (by decide),
        hport _ (by decide), hport _ (by decide), h05, h015⟩)

/-! ### The window -/

/-- A micro-op enters the window, or the one at a place of it leaves it. -/
inductive WindowCall
  | add (u : DynamicMicroOp)
  | remove (place : ℕ)

/-- The counts and the micro-ops of the window. -/
structure Window where
  contention : IntervalContentionNehalem
  uops : List DynamicMicroOp

/-- The statistics follow the window. -/
def Window.step (w : Window) : WindowCall → Window
  | .add u => ⟨w.contention.addFunctionalUnitStats u, w.uops ++ [u]⟩
  | .remove place =>
    match w.uops[place]? with
    | none => w
    | some u => ⟨w.contention.removeFunctionalUnitStats u, w.uops.eraseIdx place⟩

/-- The window after some calls. -/
def Window.after (calls : List WindowCall) : Window := calls.foldl Window.step ⟨.clearFunctionalUnitStats, []⟩

/-- The counts are those of the window. -/
theorem Window.step_counts {w : Window} (h : w.contention.countByPort = countPort w.uops) (call : WindowCall) :
    (w.step call).contention.countByPort = countPort (w.step call).uops := by
  cases call with
  | add u =>
    funext c
    change Function.update w.contention.countByPort u.port _ c = countPort (w.uops ++ [u]) c
    rw [countPort_append, h]
    by_cases hc : c = u.port
    · rw [hc, Function.update_self, if_pos rfl]
    · rw [Function.update_of_ne hc, if_neg (Ne.symm hc), Nat.add_zero]
  | remove place =>
    rw [Window.step]
    cases hu : w.uops[place]? with
    | none => exact h
    | some u =>
      obtain ⟨hlt, hget⟩ := List.getElem?_eq_some_iff.1 hu
      have hperm := List.getElem_cons_eraseIdx_perm hlt
      rw [hget] at hperm
      funext c
      change Function.update w.contention.countByPort u.port _ c = countPort (w.uops.eraseIdx place) c
      have hcount : countPort (u :: w.uops.eraseIdx place) c = countPort w.uops c := hperm.countP_eq _
      rw [countPort_cons] at hcount
      rw [h]
      by_cases hc : c = u.port
      · subst hc
        rw [if_pos rfl] at hcount
        rw [Function.update_self]
        omega
      · rw [Function.update_of_ne hc, ← hcount, if_neg (Ne.symm hc), Nat.add_zero]

theorem Window.after_counts (calls : List WindowCall) :
    (Window.after calls).contention.countByPort = countPort (Window.after calls).uops := by
  have hrun (w : Window) (h : w.contention.countByPort = countPort w.uops) :
      (calls.foldl Window.step w).contention.countByPort = countPort (calls.foldl Window.step w).uops := by
    induction calls generalizing w with
    | nil => exact h
    | cons call calls ih => exact ih _ (Window.step_counts h call)
  exact hrun _ rfl

/-- The source's number of cycles is the least one, and its counts are those of the window, exactly when the group of
ports 0, 1 and 5 is covered. -/
theorem contention_exact (count : Port → ℕ) (criticalPathLength : ℕ) (calls : List WindowCall) :
    (IntervalContentionNehalem.getEffectiveCriticalPathLength ⟨count⟩ criticalPathLength =
          max criticalPathLength (leastCycles count) ∧
        (Window.after calls).contention.countByPort = countPort (Window.after calls).uops) ↔
      Covered count criticalPathLength := by
  rw [and_iff_left (Window.after_counts calls)]
  exact effective_eq_iff ⟨count⟩ criticalPathLength

/-- Two micro-ops for ports 0 and 5 and two for ports 0, 1 and 5. -/
def fourOps : Port → ℕ
  | .port05 => 2
  | .port015 => 2
  | _ => 0

/-- They do not fit in one cycle. -/
theorem fourOps_not_exact : ¬ ∀ (count : Port → ℕ) (criticalPathLength : ℕ),
    IntervalContentionNehalem.getEffectiveCriticalPathLength ⟨count⟩ criticalPathLength =
      max criticalPathLength (leastCycles count) := by
  intro h
  have hone : IntervalContentionNehalem.getEffectiveCriticalPathLength ⟨fourOps⟩ 1 = 1 := by decide
  have hmax := h fourOps 1
  rw [hone] at hmax
  have hle := (leastCycles_le_iff fourOps 1).1 (hmax ▸ le_max_right 1 (leastCycles fourOps))
  exact absurd hle.ports015 (by decide)

end LifeSim.Interval
