import LifeSim.Sched.Bijection

/-!
# Setting and reading the frequency of a core

`MagicServer::setFrequency` converts a frequency in MHz to Hz in 64 bits and to a period in femtoseconds, and
`getFrequency` converts the period back. Both conversions truncate, and the product wraps around.
-/

namespace LifeSim.Sched

open LifeSim.Lib

/-- `ComponentPeriod`, in femtoseconds. -/
structure ComponentPeriod where
  period : ℕ
  deriving DecidableEq

namespace ComponentPeriod

/-- `fromFreqHz`: `SEC() / freq_in_hz`. -/
def fromFreqHz (freqInHz : ℕ) : ComponentPeriod := ⟨10 ^ 15 / freqInHz⟩

/-- `getPeriodInFreqMHz`: `US_1 / m_time`, which divides by zero if the period is zero. -/
def getPeriodInFreqMHz (p : ComponentPeriod) : Option ℕ := if p.period = 0 then none else some (10 ^ 9 / p.period)

end ComponentPeriod

/-- `m_num_proc_domains`: the sockets, the last of which may have fewer cores. -/
def numProcDomains (numAppCores coresPerSocket : ℕ) : ℕ :=
  numAppCores / coresPerSocket + if numAppCores % coresPerSocket ≠ 0 then 1 else 0

theorem domain_lt {n coresPerSocket core : ℕ} (hpos : 0 < coresPerSocket) (hcore : core < n) :
    core / coresPerSocket < numProcDomains n coresPerSocket := by
  rw [numProcDomains, Nat.div_lt_iff_lt_mul hpos, Nat.add_mul]
  have hsplit := Nat.div_add_mod' n coresPerSocket
  have hmod := Nat.mod_lt n hpos
  split_ifs with hrest
  · omega
  · omega

/-- `DvfsManager`, with the delays it has queued for the cores. -/
structure DvfsManager (numAppCores : ℕ) where
  coresPerSocket : ℕ
  coresPerSocket_pos : 0 < coresPerSocket
  transitionLatency : ℕ
  appProcDomains : Fin (numProcDomains numAppCores coresPerSocket) → ComponentPeriod
  /-- The `DelayInstruction`s in the queue of each core's performance model. -/
  queued : Fin numAppCores → List ℕ

namespace DvfsManager

variable {n : ℕ}

/-- `getCoreDomainId`. -/
def getCoreDomainId (d : DvfsManager n) (core : Fin n) : Fin (numProcDomains n d.coresPerSocket) :=
  ⟨core / d.coresPerSocket, domain_lt d.coresPerSocket_pos core.isLt⟩

/-- `getCoreDomain` of an application core. -/
def getCoreDomain (d : DvfsManager n) (core : Fin n) : ComponentPeriod := d.appProcDomains (d.getCoreDomainId core)

/-- `setCoreDomain` of an application core: a new period costs the transition latency. -/
def setCoreDomain (d : DvfsManager n) (core : Fin n) (newFreq : ComponentPeriod) : DvfsManager n :=
  { d with
    queued :=
      if newFreq ≠ d.getCoreDomain core then Function.update d.queued core (d.queued core ++ [d.transitionLatency])
      else d.queued
    appProcDomains := Function.update d.appProcDomains (d.getCoreDomainId core) newFreq }

end DvfsManager

/-- What the magic server changes: the threads and cores, and the clock domains. -/
structure MagicServer (cfg : Config) where
  sim : Sim
  dvfs : DvfsManager cfg.numCores

namespace MagicServer

variable {cfg : Config}

/-- `MagicServer::setFrequency`, with what it returns. -/
def setFrequency (clock : ℕ → ℕ) (m : MagicServer cfg) (core : ℕ) (freqInMhz : BitVec 64) :
    Except Fault (MagicServer cfg × ℕ) :=
  if hcore : core < cfg.numCores then
    if 0 < freqInHz freqInMhz.toNat then
      .ok ({ m with dvfs := m.dvfs.setCoreDomain ⟨core, hcore⟩ (.fromFreqHz (freqInHz freqInMhz.toNat)) }, 0)
    else do
      let sim ← stallThread cfg clock maxTime m.sim core .broken
      return ({ m with sim := sim.setState core .broken }, 0)
  else .ok (m, 1)

/-- `MagicServer::getFrequency`. -/
def getFrequency (m : MagicServer cfg) (core : ℕ) : Option ℕ :=
  if hcore : core < cfg.numCores then (m.dvfs.getCoreDomain ⟨core, hcore⟩).getPeriodInFreqMHz else some (2 ^ 64 - 1)

/-- The call keeps a positive period, computed from the frequency, and a frequency that is not too large is read back. -/
structure Faithful (clock : ℕ → ℕ) (m : MagicServer cfg) (core : Fin cfg.numCores) (freqInMhz : BitVec 64) : Prop where
  safe : 0 < freqInHz freqInMhz.toNat → ∃ m', setFrequency clock m core freqInMhz = .ok (m', 0) ∧
    1 ≤ (m'.dvfs.getCoreDomain core).period ∧ freqInHz freqInMhz.toNat = freqInMhz.toNat * 10 ^ 6
  readBack : 1 ≤ freqInMhz.toNat → freqInMhz.toNat * (freqInMhz.toNat + 1) ≤ 10 ^ 9 →
    ∃ m', setFrequency clock m core freqInMhz = .ok (m', 0) ∧ m'.getFrequency core = some freqInMhz.toNat

/-! ### The DVFS branch -/

variable {clock : ℕ → ℕ} {m m' : MagicServer cfg} {core : Fin cfg.numCores} {freq : BitVec 64}

/-- The state after the branch. -/
def scaled (m : MagicServer cfg) (core : Fin cfg.numCores) (freq : BitVec 64) : MagicServer cfg :=
  { m with dvfs := m.dvfs.setCoreDomain core (.fromFreqHz (freqInHz freq.toNat)) }

theorem setFrequency_of_pos (hpos : 0 < freqInHz freq.toNat) :
    setFrequency clock m core freq = .ok (m.scaled core freq, 0) := by
  rw [setFrequency, dif_pos core.isLt, if_pos hpos]
  rfl

@[simp] theorem scaled_domain : (m.scaled core freq).dvfs.getCoreDomain core = .fromFreqHz (freqInHz freq.toNat) :=
  Function.update_self ..

/-- The product wraps around from 18446744073710 MHz on. -/
theorem freqInHz_eq_iff {f : ℕ} : freqInHz f = f * 10 ^ 6 ↔ 1000000 * f < 2 ^ 64 := by
  rw [freqInHz]
  omega

/-- The other branch is taken for the multiples of `2 ^ 58`. -/
theorem freqInHz_eq_zero_iff {f : ℕ} : freqInHz f = 0 ↔ 2 ^ 58 ∣ f := by
  have hodd : 1000000 * f = 2 ^ 6 * (15625 * f) := by ring
  have hpow : (2 : ℕ) ^ 64 = 2 ^ 6 * 2 ^ 58 := by rw [← Nat.pow_add]
  have hcoprime : Nat.Coprime (2 ^ 58) 15625 := Nat.Coprime.pow_left 58 (by decide)
  rw [freqInHz, ← Nat.dvd_iff_mod_eq_zero, hodd, hpow, Nat.mul_dvd_mul_iff_left (Nat.two_pow_pos 6),
    hcoprime.dvd_mul_left]

theorem period_pos_iff {hz : ℕ} (hpos : 0 < hz) : 1 ≤ (ComponentPeriod.fromFreqHz hz).period ↔ hz ≤ 10 ^ 15 := by
  rw [ComponentPeriod.fromFreqHz, Nat.le_div_iff_mul_le hpos, Nat.one_mul]

/-- Two truncating divisions give a small divisor back. -/
theorem div_div_of_mul_le {n f : ℕ} (hpos : 1 ≤ f) (hle : f * (f + 1) ≤ n) : n / (n / f) = f := by
  have hbelow : f + 1 ≤ n / f := (Nat.le_div_iff_mul_le hpos).2 (Nat.mul_comm f (f + 1) ▸ hle)
  have hfloor : n / f * f ≤ n := Nat.div_mul_le_self n f
  have habove : n < n / f * f + f := Nat.lt_div_mul_add hpos
  apply Nat.div_eq_of_lt_le
  · rw [Nat.mul_comm]
    exact hfloor
  · calc
      n < n / f * f + f := habove
      _ ≤ n / f * f + n / f := by omega
      _ = (f + 1) * (n / f) := by ring

/-- The frequency that is read back after the branch. -/
theorem scaled_getFrequency (hpos : 1 ≤ freq.toNat) (hle : freq.toNat * (freq.toNat + 1) ≤ 10 ^ 9) :
    (m.scaled core freq).getFrequency core = some freq.toNat := by
  have hsmall : freq.toNat ≤ 10 ^ 9 := by nlinarith
  have hhz : freqInHz freq.toNat = freq.toNat * 10 ^ 6 := freqInHz_eq_iff.2 (by omega)
  have hperiod : (ComponentPeriod.fromFreqHz (freqInHz freq.toNat)).period = 10 ^ 9 / freq.toNat := by
    rw [hhz, ComponentPeriod.fromFreqHz]
    exact Nat.mul_div_mul_right (10 ^ 9) freq.toNat (by norm_num : 0 < 10 ^ 6)
  have hne : 10 ^ 9 / freq.toNat ≠ 0 := by
    have hone : 1 ≤ 10 ^ 9 / freq.toNat := (Nat.le_div_iff_mul_le hpos).2 (by omega)
    omega
  rw [getFrequency, dif_pos core.isLt, Fin.eta, scaled_domain, ComponentPeriod.getPeriodInFreqMHz, hperiod, if_neg hne,
    div_div_of_mul_le hpos hle]

/-- The threads and cores change as in the model of the scheduler. -/
theorem setFrequency_sim (clock : ℕ → ℕ) (m : MagicServer cfg) (core : ℕ) (freq : BitVec 64) :
    (setFrequency clock m core freq).map (fun p => p.1.sim) = Sched.setFrequency cfg clock m.sim core freq.toNat := by
  rw [setFrequency, Sched.setFrequency]
  by_cases hcore : core < cfg.numCores
  · rw [dif_pos hcore, if_neg (Nat.not_le.2 hcore)]
    split_ifs
    · rfl
    · cases stallThread cfg clock maxTime m.sim core .broken with
      | ok sim => rfl
      | error f => rfl
  · rw [dif_neg hcore, if_pos (Nat.not_lt.1 hcore)]
    rfl

/-- A call is faithful exactly for the frequencies up to a petahertz, and where the branch is not taken. -/
theorem setFrequency_faithful_iff (clock : ℕ → ℕ) (m : MagicServer cfg) (core : Fin cfg.numCores) (freq : BitVec 64) :
    Faithful clock m core freq ↔ freq.toNat ≤ 10 ^ 9 ∨ 2 ^ 58 ∣ freq.toNat := by
  constructor
  · intro h
    rw [← freqInHz_eq_zero_iff]
    by_cases hpos : 0 < freqInHz freq.toNat
    · obtain ⟨m', hcall, hperiod, hhz⟩ := h.safe hpos
      rw [setFrequency_of_pos hpos] at hcall
      cases hcall
      rw [scaled_domain, period_pos_iff hpos, hhz] at hperiod
      left
      omega
    · right
      omega
  · intro h
    constructor
    · intro hpos
      refine ⟨m.scaled core freq, setFrequency_of_pos hpos, ?_, ?_⟩
      all_goals
        have hsmall : freq.toNat ≤ 10 ^ 9 := by
          apply h.resolve_right
          rw [← freqInHz_eq_zero_iff]
          omega
        have hhz : freqInHz freq.toNat = freq.toNat * 10 ^ 6 := freqInHz_eq_iff.2 (by omega)
      · rw [scaled_domain, period_pos_iff hpos, hhz]
        omega
      · exact hhz
    · intro hone hle
      have hsmall : freq.toNat ≤ 10 ^ 9 := by nlinarith
      have hpos : 0 < freqInHz freq.toNat := by
        rw [freqInHz_eq_iff.2 (by omega)]
        omega
      exact ⟨m.scaled core freq, setFrequency_of_pos hpos, scaled_getFrequency hone hle⟩

/-- Two cores at 2 GHz, each in a domain of its own, before any thread. -/
def twoGigahertz : MagicServer twoCores where
  sim := initial fun _ _ => none
  dvfs :=
    { coresPerSocket := 1
      coresPerSocket_pos := Nat.one_pos
      transitionLatency := 0
      appProcDomains := fun _ => ⟨500000⟩
      queued := fun _ => [] }

theorem twoCores_first : 0 < twoCores.numCores := Nat.two_pos

/-- The product is `2 ^ 64 - 1000000` for a "-1" in the DVFS file, and the period is zero. -/
theorem setFrequency_minusOne :
    ¬ Faithful (fun _ => 0) twoGigahertz ⟨0, twoCores_first⟩ (.ofNat 64 (readUInt64 (-1))) := by
  intro h
  have hpos : 0 < freqInHz (BitVec.ofNat 64 (readUInt64 (-1))).toNat := by decide
  obtain ⟨m', hcall, hperiod, -⟩ := h.safe hpos
  rw [setFrequency_of_pos hpos] at hcall
  cases hcall
  rw [scaled_domain] at hperiod
  revert hperiod
  decide

/-! ### Runs of calls -/

/-- One call of `setFrequency`, with the times of the threads. -/
structure FrequencyCall where
  clock : ℕ → ℕ
  core : ℕ
  freqInMhz : BitVec 64

/-- The calls, as `updateDVFS` and the simulated programs make them. -/
def frequencyMachine (cfg : Config) : Machine (MagicServer cfg) FrequencyCall Fault where
  step m call := (setFrequency call.clock m call.core call.freqInMhz).map Prod.fst

/-- No clock domain has the period zero. -/
def Ticking (m : MagicServer cfg) : Prop := ∀ core, 1 ≤ (m.dvfs.appProcDomains core).period

/-- A faithful call leaves no domain without a period. -/
theorem Ticking.step {call : FrequencyCall} (h : m.Ticking)
    (hfaithful : ∀ hcore : call.core < cfg.numCores, Faithful call.clock m ⟨call.core, hcore⟩ call.freqInMhz)
    (hstep : (frequencyMachine cfg).step m call = .ok m') : m'.Ticking := by
  replace hstep : (setFrequency call.clock m call.core call.freqInMhz).map Prod.fst = .ok m' := hstep
  by_cases hcore : call.core < cfg.numCores
  · by_cases hpos : 0 < freqInHz call.freqInMhz.toNat
    · have hcall := @setFrequency_of_pos cfg call.clock m ⟨call.core, hcore⟩ call.freqInMhz hpos
      obtain ⟨n, hn, hperiod, -⟩ := (hfaithful hcore).safe hpos
      rw [hn] at hcall
      cases hcall
      rw [show setFrequency call.clock m call.core call.freqInMhz = _ from hn] at hstep
      cases hstep
      intro domain
      by_cases hdomain : domain = m.dvfs.getCoreDomainId ⟨call.core, hcore⟩
      · rw [hdomain]
        exact hperiod
      · have hkept : (m.scaled ⟨call.core, hcore⟩ call.freqInMhz).dvfs.appProcDomains domain = m.dvfs.appProcDomains domain :=
          Function.update_of_ne hdomain ..
        rw [hkept]
        exact h domain
    · rw [setFrequency, dif_pos hcore, if_neg hpos] at hstep
      cases hstall : stallThread cfg call.clock maxTime m.sim call.core .broken with
      | ok sim =>
        rw [hstall] at hstep
        cases hstep
        exact h
      | error f =>
        rw [hstall] at hstep
        cases hstep
  · rw [setFrequency, dif_neg hcore] at hstep
    cases hstep
    exact h

/-- After faithful calls every frequency can be read. -/
theorem getFrequency_run {calls : List FrequencyCall} (h : m.Ticking)
    (hcalls : (frequencyMachine cfg).Guarded
      (fun m call => ∀ hcore : call.core < cfg.numCores, Faithful call.clock m ⟨call.core, hcore⟩ call.freqInMhz) m calls)
    (hrun : (frequencyMachine cfg).run m calls = .ok m') (core : ℕ) : m'.getFrequency core ≠ none := by
  have hticking := (frequencyMachine cfg).guarded_induction (P := Ticking)
    (fun _ _ _ hm hguard hstep => hm.step hguard hstep) h hcalls hrun
  rw [getFrequency]
  split_ifs with hcore
  · have hperiod := hticking (m'.dvfs.getCoreDomainId ⟨core, hcore⟩)
    rw [ComponentPeriod.getPeriodInFreqMHz, if_neg]
    · exact Option.some_ne_none _
    · exact Nat.one_le_iff_ne_zero.1 hperiod
  · exact Option.some_ne_none _

end MagicServer

end LifeSim.Sched
