import LifeSim.Lib.Cycle
import LifeSim.Sched.Bijection

/-!
# Where new threads are placed

The cores are handed out in steps of the interleaving. With a step of `k` on `N` cores, the walk goes on from the last
core at zero, and apart from that it is addition modulo `N - 1`. So it meets all cores only if `k` is at most `N` and has
no common divisor with `N - 1`; otherwise a search can go round in a cycle without any core on which a thread may run.
-/

namespace LifeSim.Sched

open LifeSim.Lib

variable {cfg : Config} {c d : ℕ}

/-! ### One step -/

theorem advanceCore_eq (hle : cfg.interleaving ≤ cfg.numCores) (hc : c < cfg.numCores) :
    advanceCore cfg c =
      if c + cfg.interleaving < cfg.numCores then c + cfg.interleaving
      else if c + 1 = cfg.numCores then 0 else c + cfg.interleaving + 1 - cfg.numCores := by
  rw [advanceCore]
  by_cases hlt : c + cfg.interleaving < cfg.numCores
  · rw [if_neg (Nat.not_le.2 hlt), if_pos hlt]
  · have hge := Nat.not_lt.1 hlt
    have hmod : (c + cfg.interleaving) % cfg.numCores = c + cfg.interleaving - cfg.numCores := by
      rw [Nat.mod_eq_sub_mod hge, Nat.mod_eq_of_lt (by omega)]
    rw [if_pos hge, if_neg hlt, hmod]
    split_ifs with hlast
    · have hwrap : c + cfg.interleaving - cfg.numCores + 1 = cfg.interleaving := by omega
      rw [hwrap, Nat.mod_self]
    · rw [Nat.mod_eq_of_lt (by omega)]
      omega

theorem advanceCore_lt (hle : cfg.interleaving ≤ cfg.numCores) (hc : c < cfg.numCores) :
    advanceCore cfg c < cfg.numCores := by
  rw [advanceCore_eq hle hc]
  split_ifs <;> omega

/-- A step keeps the residue modulo every common divisor of the interleaving and the number of the last core. -/
theorem advanceCore_modEq {g : ℕ} (hle : cfg.interleaving ≤ cfg.numCores)
    (hc : c < cfg.numCores) (hstep : g ∣ cfg.interleaving) (hlast : g ∣ cfg.numCores - 1) :
    advanceCore cfg c ≡ c [MOD g] := by
  rw [advanceCore_eq hle hc]
  split_ifs with hlt hend
  · exact (Nat.modEq_zero_iff_dvd.2 hstep).add_left c
  · have hc' : c = cfg.numCores - 1 := by omega
    rw [hc']
    exact (Nat.modEq_zero_iff_dvd.2 hlast).symm
  · have hsum : c + cfg.interleaving = c + cfg.interleaving + 1 - cfg.numCores + (cfg.numCores - 1) := by omega
    have hleft := (Nat.modEq_zero_iff_dvd.2 hlast).add_left (c + cfg.interleaving + 1 - cfg.numCores)
    rw [← hsum, Nat.add_zero] at hleft
    exact hleft.symm.trans ((Nat.modEq_zero_iff_dvd.2 hstep).add_left c)

theorem iterate_advanceCore_lt (hle : cfg.interleaving ≤ cfg.numCores)
    (hc : c < cfg.numCores) (m : ℕ) : (advanceCore cfg)^[m] c < cfg.numCores := by
  induction m generalizing c with
  | zero => exact hc
  | succ m ih => exact ih (advanceCore_lt hle hc)

theorem iterate_advanceCore_modEq {g : ℕ} (hle : cfg.interleaving ≤ cfg.numCores)
    (hc : c < cfg.numCores) (hstep : g ∣ cfg.interleaving) (hlast : g ∣ cfg.numCores - 1) (m : ℕ) :
    (advanceCore cfg)^[m] c ≡ c [MOD g] := by
  induction m generalizing c with
  | zero => exact Nat.ModEq.refl c
  | succ m ih =>
    exact (ih (advanceCore_lt hle hc)).trans (advanceCore_modEq hle hc hstep hlast)

/-! ### When the walk meets all cores -/

/-- A core that is not the first one, in a residue class. -/
structure Lands (cfg : Config) (r c : ℕ) : Prop where
  pos : 1 ≤ c
  lt : c < cfg.numCores
  modEq : c ≡ r [MOD cfg.numCores - 1]

theorem Lands.eq {r : ℕ} (hc : Lands cfg r c) (hd : Lands cfg r d) : c = d := by
  have hmod : c - 1 + 1 ≡ d - 1 + 1 [MOD cfg.numCores - 1] := by
    rw [Nat.sub_add_cancel hc.pos, Nat.sub_add_cancel hd.pos]
    exact hc.modEq.trans hd.modEq.symm
  have hcanc := Nat.ModEq.add_right_cancel' 1 hmod
  have hclt := hc.lt
  have hdlt := hd.lt
  have hcpos := hc.pos
  have hdpos := hd.pos
  rw [Nat.ModEq, Nat.mod_eq_of_lt (by omega), Nat.mod_eq_of_lt (by omega)] at hcanc
  omega

/-- One step, or two over the first core, add the interleaving modulo the number of the last core. -/
theorem Lands.advance {r : ℕ} (hpos : 0 < cfg.interleaving) (hle : cfg.interleaving ≤ cfg.numCores)
    (h : Lands cfg r c) : ∃ i, Lands cfg (r + cfg.interleaving) ((advanceCore cfg)^[i] c) := by
  have hcpos := h.pos
  have hclt := h.lt
  have hsum := h.modEq.add_right cfg.interleaving
  have hround : cfg.numCores - 1 ≡ 0 [MOD cfg.numCores - 1] := Nat.modEq_zero_iff_dvd.2 (dvd_refl _)
  by_cases hend : c + 1 = cfg.numCores
  · -- from the last core over the first one
    have hzero : advanceCore cfg c = 0 := by
      rw [advanceCore_eq hle hclt]
      split_ifs <;> omega
    have hc : c = cfg.numCores - 1 := by omega
    have hfrom : 0 + cfg.interleaving ≡ r + cfg.interleaving [MOD cfg.numCores - 1] := by
      rw [hc] at hsum
      exact (hround.symm.add_right _).trans hsum
    rw [Nat.zero_add] at hfrom
    refine ⟨2, ?_⟩
    change Lands cfg _ (advanceCore cfg (advanceCore cfg c))
    rw [hzero, advanceCore_eq hle (by omega)]
    split_ifs with hlt hone
    · rw [Nat.zero_add]
      exact ⟨hpos, by omega, hfrom⟩
    · omega
    · have hstep : 0 + cfg.interleaving + 1 - cfg.numCores = 1 := by omega
      have hwidth : cfg.interleaving = 1 + (cfg.numCores - 1) := by omega
      rw [hstep]
      refine ⟨le_rfl, by omega, ?_⟩
      have hone' := hround.add_left 1
      rw [← hwidth, Nat.add_zero] at hone'
      exact hone'.symm.trans hfrom
  · refine ⟨1, ?_⟩
    change Lands cfg _ (advanceCore cfg c)
    rw [advanceCore_eq hle hclt, if_neg hend]
    split_ifs with hlt
    · exact ⟨by omega, hlt, hsum⟩
    · refine ⟨by omega, by omega, ?_⟩
      have heq : c + cfg.interleaving = c + cfg.interleaving + 1 - cfg.numCores + (cfg.numCores - 1) := by omega
      have hleft := hround.add_left (c + cfg.interleaving + 1 - cfg.numCores)
      rw [← heq, Nat.add_zero] at hleft
      exact hleft.symm.trans hsum

theorem Lands.advance_many {r : ℕ} (hpos : 0 < cfg.interleaving) (hle : cfg.interleaving ≤ cfg.numCores)
    (h : Lands cfg r c) (j : ℕ) : ∃ i, Lands cfg (r + j * cfg.interleaving) ((advanceCore cfg)^[i] c) := by
  induction j with
  | zero =>
    refine ⟨0, ?_⟩
    rw [Nat.zero_mul, Nat.add_zero]
    exact h
  | succ j ih =>
    obtain ⟨i, hi⟩ := ih
    obtain ⟨i', hi'⟩ := hi.advance hpos hle
    refine ⟨i' + i, ?_⟩
    rw [Function.iterate_add_apply, Nat.succ_mul, ← Nat.add_assoc]
    exact hi'

/-- The walk goes round all cores if the interleaving has no common divisor with the number of the last one. -/
theorem cycle_advanceCore (hcores : 0 < cfg.numCores) (hpos : 0 < cfg.interleaving)
    (hle : cfg.interleaving ≤ cfg.numCores) (hcoprime : Nat.Coprime cfg.interleaving (cfg.numCores - 1)) :
    Cycle (advanceCore cfg) cfg.numCores := by
  refine ⟨fun c hc => advanceCore_lt hle hc, fun c hc d hd => ?_⟩
  rcases Nat.eq_or_lt_of_le hcores with hone | hmany
  · exact ⟨0, by change c = d; omega⟩
  · -- to a core after the first one, and from there to any such core
    obtain ⟨start, hstart⟩ : ∃ i, 1 ≤ (advanceCore cfg)^[i] c := by
      rcases Nat.eq_zero_or_pos c with rfl | hcpos
      · refine ⟨1, ?_⟩
        change 1 ≤ advanceCore cfg 0
        rw [advanceCore_eq hle hc]
        split_ifs <;> omega
      · exact ⟨0, hcpos⟩
    have hlt := iterate_advanceCore_lt hle hc start
    have hreach (e : ℕ) (he : 1 ≤ e) (helt : e < cfg.numCores) : ∃ j, (advanceCore cfg)^[j] c = e := by
      obtain ⟨j, hj⟩ := exists_add_mul_modEq hcoprime (by omega) ((advanceCore cfg)^[start] c) e
      have hlands : Lands cfg ((advanceCore cfg)^[start] c) ((advanceCore cfg)^[start] c) := ⟨hstart, hlt, rfl⟩
      obtain ⟨i, hi⟩ := hlands.advance_many hpos hle j
      refine ⟨i + start, ?_⟩
      rw [Function.iterate_add_apply]
      exact hi.eq ⟨he, helt, hj.symm⟩
    rcases Nat.eq_zero_or_pos d with rfl | hdpos
    · obtain ⟨j, hj⟩ := hreach (cfg.numCores - 1) (by omega) (by omega)
      refine ⟨j + 1, ?_⟩
      rw [Function.iterate_succ_apply', hj, advanceCore_eq hle (by omega)]
      split_ifs <;> omega
    · exact hreach d hdpos hd

/-! ### The next core -/

/-- The search returns the first core that is enabled. -/
theorem getNextCore_of_firstHit {m rounds : ℕ} (hlt : ∀ i, (advanceCore cfg)^[i] c < cfg.numCores)
    (hm : FirstHit (advanceCore cfg) (cfg.coreMask · = true) c m) (hrounds : m ≤ rounds) :
    getNextCore cfg rounds c = .ok ((advanceCore cfg)^[m] c) := by
  induction rounds generalizing c m with
  | zero => exact absurd (hm.pos.trans hrounds) (Nat.not_succ_le_zero 0)
  | succ rounds ih =>
    have hpos := hm.pos
    have hnext : advanceCore cfg c < cfg.numCores := hlt 1
    rw [getNextCore, if_pos hnext]
    rcases Nat.eq_or_lt_of_le hpos with hone | hmore
    · subst hone
      exact if_pos hm.hit
    · obtain ⟨m, rfl⟩ : ∃ l, m = l + 1 := ⟨m - 1, by omega⟩
      have hdisabled : ¬ cfg.coreMask (advanceCore cfg c) = true := hm.before 1 le_rfl hmore
      rw [if_neg hdisabled]
      refine ih (fun i => hlt (i + 1)) ⟨by omega, hm.hit, fun i hi him => ?_⟩ (by omega)
      exact hm.before (i + 1) (by omega) (by omega)

/-- What the search returns is enabled, and some steps away. -/
theorem getNextCore_ok {rounds : ℕ} (h : getNextCore cfg rounds c = .ok d) :
    advanceCore cfg c < cfg.numCores ∧ ∃ m, (advanceCore cfg)^[m] c = d ∧ cfg.coreMask d = true := by
  induction rounds generalizing c with
  | zero => cases h
  | succ rounds ih =>
    rw [getNextCore] at h
    split_ifs at h with hlt hmask
    · cases h
      exact ⟨hlt, 1, rfl, hmask⟩
    · obtain ⟨-, m, hm, hd⟩ := ih h
      exact ⟨hlt, m + 1, hm, hd⟩

/-- The function that the search computes. -/
structure NextCore (cfg : Config) (next : ℕ → ℕ) : Prop where
  search : ∀ c < cfg.numCores, getNextCore cfg (cfg.numCores + 1) c = .ok (next c)
  lt : ∀ c < cfg.numCores, next c < cfg.numCores
  enabled : ∀ c < cfg.numCores, cfg.coreMask (next c) = true
  visits : ∀ c < cfg.numCores, ∀ d < cfg.numCores, cfg.coreMask d = true →
    ∃ j, 1 ≤ j ∧ j ≤ cfg.numCores ∧ next^[j] c = d

/-- If the walk goes round all cores, the search always succeeds, and repeating it meets all cores that are enabled. -/
theorem exists_nextCore (h : Cycle (advanceCore cfg) cfg.numCores)
    (henabled : ∃ d < cfg.numCores, cfg.coreMask d = true) : ∃ next, NextCore cfg next := by
  obtain ⟨e, he, hmask⟩ := henabled
  have hfirst (c : ℕ) : ∃ m, c < cfg.numCores →
      m ≤ cfg.numCores ∧ FirstHit (advanceCore cfg) (cfg.coreMask · = true) c m := by
    by_cases hc : c < cfg.numCores
    · obtain ⟨j, hj, hjle, hje⟩ := h.exists_iterate hc he
      obtain ⟨m, hm, hhit⟩ := exists_firstHit (p := (cfg.coreMask · = true)) hj (by rw [hje]; exact hmask)
      exact ⟨m, fun _ => ⟨hm.trans hjle, hhit⟩⟩
    · exact ⟨0, fun hlt => absurd hlt hc⟩
  choose steps hsteps using hfirst
  refine ⟨fun c => (advanceCore cfg)^[steps c] c, ?_, ?_, ?_, ?_⟩
  · intro c hc
    exact getNextCore_of_firstHit (h.iterate_lt hc) (hsteps c hc).2 ((hsteps c hc).1.trans (Nat.le_succ _))
  · exact fun c hc => h.iterate_lt hc _
  · exact fun c hc => (hsteps c hc).2.hit
  · intro c hc d hd hdmask
    obtain ⟨m, hm, hmle, hmd⟩ := h.exists_iterate hc hd
    have hunique (c : ℕ) (hc : c < cfg.numCores) (m : ℕ)
        (hm : FirstHit (advanceCore cfg) (cfg.coreMask · = true) c m) :
        (advanceCore cfg)^[steps c] c = (advanceCore cfg)^[m] c := by
      have hleft := getNextCore_of_firstHit (h.iterate_lt hc) (hsteps c hc).2 (le_max_left (steps c) m)
      rw [getNextCore_of_firstHit (h.iterate_lt hc) hm (le_max_right _ _)] at hleft
      exact (Except.ok.inj hleft).symm
    obtain ⟨j, hj, hjle, hjd⟩ := exists_iterate_of_firstHit (p := (cfg.coreMask · = true)) h.lt hunique hc hm
      (by rw [hmd]; exact hdmask)
    exact ⟨j, hj, hjle.trans hmle, hjd.trans hmd⟩

theorem NextCore.iterate_lt {next : ℕ → ℕ} (h : NextCore cfg next) (hc : c < cfg.numCores) (j : ℕ) :
    next^[j] c < cfg.numCores := by
  induction j generalizing c with
  | zero => exact hc
  | succ j ih => exact ih (h.lt c hc)

/-! ### The search for a free core -/

/-- A thread may start on the core at once. -/
def IsFree (cfg : Config) (s : Sim) (core : ℕ) : Prop := (s.coreThread core).isNone = true ∧ cfg.coreMask core = true

section Search

variable {s : Sim} {next : ℕ → ℕ} {first : ℕ}

/-- One round of the search at a core that is not free. -/
theorem searchFreeCore_succ (h : NextCore cfg next) (hc : c < cfg.numCores) (hbusy : ¬ IsFree cfg s c) (rounds : ℕ) :
    searchFreeCore cfg s first (rounds + 1) c =
      if next c = first then .ok first else searchFreeCore cfg s first rounds (next c) := by
  rw [IsFree, ← Bool.and_eq_true] at hbusy
  rw [searchFreeCore, if_pos hc, if_neg hbusy, h.search c hc, ok_bind]

/-- The search ends at the first free core, if it does not come back before. -/
theorem searchFreeCore_free (h : NextCore cfg next) {m rounds : ℕ} (hc : c < cfg.numCores)
    (hm : IsFree cfg s (next^[m] c))
    (hbusy : ∀ i < m, ¬ IsFree cfg s (next^[i] c)) (hback : ∀ i, 1 ≤ i → i ≤ m → next^[i] c ≠ first)
    (hrounds : m < rounds) : searchFreeCore cfg s first rounds c = .ok (next^[m] c) := by
  induction rounds generalizing c m with
  | zero => exact absurd hrounds (Nat.not_lt_zero m)
  | succ rounds ih =>
    cases m with
    | zero =>
      rw [searchFreeCore, if_pos hc]
      refine if_pos ?_
      rw [Bool.and_eq_true]
      exact hm
    | succ m =>
      have hne : next c ≠ first := hback 1 le_rfl (Nat.succ_pos m)
      rw [searchFreeCore_succ h hc (hbusy 0 (Nat.succ_pos m)), if_neg hne]
      refine ih (h.lt c hc) hm (fun i hi => hbusy (i + 1) (by omega)) (fun i hi him => ?_) (by omega)
      exact hback (i + 1) (by omega) (by omega)

/-- The search ends where it began, if it finds nothing until then. -/
theorem searchFreeCore_first (h : NextCore cfg next) {m rounds : ℕ} (hc : c < cfg.numCores)
    (hbusy : ∀ i < m, ¬ IsFree cfg s (next^[i] c)) (hm : FirstHit next (· = first) c m) (hrounds : m ≤ rounds) :
    searchFreeCore cfg s first rounds c = .ok first := by
  have hpos := hm.pos
  induction rounds generalizing c m with
  | zero => exact absurd (hpos.trans hrounds) (Nat.not_succ_le_zero 0)
  | succ rounds ih =>
    rw [searchFreeCore_succ h hc (hbusy 0 hpos)]
    split_ifs with hback
    · rfl
    · obtain ⟨m, rfl⟩ : ∃ l, m = l + 1 := ⟨m - 1, by omega⟩
      have hmore : 1 ≤ m := by
        rcases Nat.eq_zero_or_pos m with rfl | hmore
        · exact absurd hm.hit hback
        · exact hmore
      refine ih (h.lt c hc) (fun i hi => hbusy (i + 1) (by omega)) ⟨hmore, hm.hit, fun i hi him => ?_⟩ (by omega) hmore
      exact hm.before (i + 1) (by omega) (by omega)

/-- With no free core, and beginning at a core that is not enabled, the search does not end. -/
theorem searchFreeCore_ne_ok (h : NextCore cfg next) (hfirst : cfg.coreMask first ≠ true)
    (hbusy : ∀ core < cfg.numCores, ¬ IsFree cfg s core) (hc : c < cfg.numCores) (rounds core : ℕ) :
    searchFreeCore cfg s first rounds c ≠ .ok core := by
  induction rounds generalizing c with
  | zero => exact fun heq => by cases heq
  | succ rounds ih =>
    have hne : next c ≠ first := by
      intro heq
      exact hfirst (heq ▸ h.enabled c hc)
    rw [searchFreeCore_succ h hc (hbusy c hc), if_neg hne]
    exact ih (h.lt c hc)

/-- The search from a core ends at a free one if there is one, and otherwise where it began. -/
theorem getFreeCore_ok (h : NextCore cfg next) (hc : first < cfg.numCores)
    (hcond : cfg.coreMask first = true ∨ ∃ core < cfg.numCores, IsFree cfg s core) :
    ∃ core, getFreeCore cfg s first = .ok core ∧ core < cfg.numCores ∧ cfg.coreMask core = true ∧
      ((∃ d < cfg.numCores, IsFree cfg s d) → IsFree cfg s core) := by
  by_cases hfree : ∃ core < cfg.numCores, IsFree cfg s core
  · obtain ⟨e, he, hefree⟩ := hfree
    obtain ⟨j, -, hjle, hje⟩ := h.visits first hc e he hefree.2
    have hex : ∃ j, IsFree cfg s (next^[j] first) := ⟨j, by rw [hje]; exact hefree⟩
    classical
    have hspec := Nat.find_spec hex
    have hbefore (i : ℕ) (hi : i < Nat.find hex) : ¬ IsFree cfg s (next^[i] first) := Nat.find_min hex hi
    have hle : Nat.find hex ≤ j := Nat.find_min' hex (by rw [hje]; exact hefree)
    -- coming back to the first core, the search would have met the free core before
    have hback (i : ℕ) (hi : 1 ≤ i) (him : i ≤ Nat.find hex) : next^[i] first ≠ first := by
      intro heq
      refine hbefore (Nat.find hex - i) (by omega) ?_
      have hsum : next^[Nat.find hex] first = next^[Nat.find hex - i] (next^[i] first) := by
        rw [← Function.iterate_add_apply, Nat.sub_add_cancel him]
      rw [heq] at hsum
      rw [← hsum]
      exact hspec
    refine ⟨_, searchFreeCore_free h hc hspec hbefore hback (by omega), h.iterate_lt hc _, hspec.2, fun _ => hspec⟩
  · have hmask := hcond.resolve_right hfree
    obtain ⟨j, hj, hjle, hjfirst⟩ := h.visits first hc first hc hmask
    obtain ⟨m, hm, hhit⟩ := exists_firstHit (p := (· = first)) hj hjfirst
    have hbusy (i : ℕ) (_ : i < m) : ¬ IsFree cfg s (next^[i] first) :=
      fun hi => hfree ⟨_, h.iterate_lt hc i, hi⟩
    exact ⟨first, searchFreeCore_first h hc hbusy hhit (by omega), hc, hmask, fun hex => absurd hex hfree⟩

end Search

/-! ### When threads are placed right -/

/-- The searches over the cores do what they should, the one for a free core from the core `first`. -/
structure Placement (cfg : Config) (s : Sim) (first : ℕ) : Prop where
  /-- There is a next core behind every core, and it is enabled. -/
  next : ∀ c < cfg.numCores, ∃ rounds d, getNextCore cfg rounds c = .ok d ∧ d < cfg.numCores ∧ cfg.coreMask d = true
  /-- From an enabled core the next ones are all that are enabled. -/
  visits : ∀ c < cfg.numCores, cfg.coreMask c = true → ∃ walk : ℕ → ℕ, walk 0 = c ∧
    (∀ j < cfg.numCores, ∃ rounds, getNextCore cfg rounds (walk j) = .ok (walk (j + 1))) ∧
    ∀ d < cfg.numCores, cfg.coreMask d = true → ∃ j, 1 ≤ j ∧ j ≤ cfg.numCores ∧ walk j = d
  /-- The search for a free core finds one if there is one, and in any case an enabled core. -/
  free : ∃ rounds core, searchFreeCore cfg s first rounds first = .ok core ∧ core < cfg.numCores ∧
    cfg.coreMask core = true ∧ ((∃ d < cfg.numCores, IsFree cfg s d) → IsFree cfg s core)

/-- The cores are all on one walk, and the search for a free core either finds one or gets back to where it began. -/
structure Walkable (cfg : Config) (s : Sim) (first : ℕ) : Prop where
  le : cfg.interleaving ≤ cfg.numCores
  coprime : Nat.Coprime cfg.interleaving (cfg.numCores - 1)
  start : cfg.coreMask first = true ∨ ∃ core < cfg.numCores, IsFree cfg s core

section Exact

variable {s : Sim} {first : ℕ}

theorem Walkable.placement (h : Walkable cfg s first) (hcores : 0 < cfg.numCores) (hpos : 0 < cfg.interleaving)
    (henabled : ∃ d < cfg.numCores, cfg.coreMask d = true) (hfirst : first < cfg.numCores) :
    Placement cfg s first := by
  obtain ⟨next, hnext⟩ := exists_nextCore (cycle_advanceCore hcores hpos h.le h.coprime) henabled
  refine ⟨fun c hc => ?_, fun c hc _ => ?_, ?_⟩
  · exact ⟨_, _, hnext.search c hc, hnext.lt c hc, hnext.enabled c hc⟩
  · refine ⟨fun j => next^[j] c, rfl, fun j _ => ⟨cfg.numCores + 1, ?_⟩, hnext.visits c hc⟩
    exact (hnext.search _ (hnext.iterate_lt hc j)).trans (congrArg Except.ok (Function.iterate_succ_apply' next j c).symm)
  · obtain ⟨core, hcore⟩ := getFreeCore_ok hnext hfirst h.start
    exact ⟨_, core, hcore⟩

/-- With too large an interleaving some step leads past the last core. -/
theorem exists_advanceCore_eq (hcores : 0 < cfg.numCores) (hlt : cfg.numCores < cfg.interleaving) :
    ∃ c < cfg.numCores, advanceCore cfg c = cfg.numCores := by
  have hmod := Nat.mod_lt cfg.interleaving hcores
  obtain ⟨c, hc, hsum⟩ : ∃ c < cfg.numCores, (c + cfg.interleaving) % cfg.numCores = cfg.numCores - 1 := by
    refine ⟨cfg.numCores - 1 - cfg.interleaving % cfg.numCores, by omega, ?_⟩
    rw [Nat.add_mod, Nat.mod_eq_of_lt (a := cfg.numCores - 1 - _) (by omega), Nat.sub_add_cancel (by omega),
      Nat.mod_eq_of_lt (by omega)]
  refine ⟨c, hc, ?_⟩
  rw [advanceCore, if_pos (by omega), hsum, Nat.sub_add_cancel hcores, Nat.mod_eq_of_lt hlt]

theorem Placement.le (h : Placement cfg s first) (hcores : 0 < cfg.numCores) : cfg.interleaving ≤ cfg.numCores := by
  by_contra hlt
  obtain ⟨c, hc, hadvance⟩ := exists_advanceCore_eq hcores (Nat.not_le.1 hlt)
  obtain ⟨rounds, d, hd, -⟩ := h.next c hc
  exact absurd (getNextCore_ok hd).1 (by omega)

/-- Two cores in different residue classes cannot be on one walk. -/
theorem Placement.coprime (h : Placement cfg s first) (hcores : 0 < cfg.numCores) (hpos : 0 < cfg.interleaving) :
    Nat.Coprime cfg.interleaving (cfg.numCores - 1) := by
  have hle := h.le hcores
  by_contra hgcd
  have hstep := Nat.gcd_dvd_left cfg.interleaving (cfg.numCores - 1)
  have hlast := Nat.gcd_dvd_right cfg.interleaving (cfg.numCores - 1)
  have hgpos := Nat.gcd_pos_of_pos_left (cfg.numCores - 1) hpos
  rw [Nat.Coprime] at hgcd
  have hgle : Nat.gcd cfg.interleaving (cfg.numCores - 1) ≤ cfg.interleaving := Nat.le_of_dvd hpos hstep
  generalize Nat.gcd cfg.interleaving (cfg.numCores - 1) = g at hgcd hstep hlast hgpos hgle
  have hclass (c d rounds : ℕ) (hc : c < cfg.numCores) (hd : getNextCore cfg rounds c = .ok d) : d ≡ c [MOD g] := by
    obtain ⟨-, m, hm, -⟩ := getNextCore_ok hd
    rw [← hm]
    exact iterate_advanceCore_modEq hle hc hstep hlast m
  have hone : 1 < cfg.numCores := by omega
  obtain ⟨rounds, d, hd, hdlt, hdmask⟩ := h.next 0 hcores
  obtain ⟨rounds', d', hd', hdlt', hdmask'⟩ := h.next 1 hone
  obtain ⟨walk, hstart, hwalk, hvisits⟩ := h.visits d hdlt hdmask
  obtain ⟨j, -, hj, hjd⟩ := hvisits d' hdlt' hdmask'
  have hall (i : ℕ) (hi : i ≤ cfg.numCores) : walk i < cfg.numCores ∧ walk i ≡ d [MOD g] := by
    induction i with
    | zero =>
      rw [hstart]
      exact ⟨hdlt, Nat.ModEq.refl d⟩
    | succ i ih =>
      obtain ⟨hlt, hmod⟩ := ih (by omega)
      obtain ⟨rounds, hi'⟩ := hwalk i (by omega)
      obtain ⟨-, m, hm, -⟩ := getNextCore_ok hi'
      refine ⟨?_, (hclass _ _ rounds hlt hi').trans hmod⟩
      rw [← hm]
      exact iterate_advanceCore_lt hle hlt m
  have hclasses : 1 ≡ 0 [MOD g] :=
    (hclass 1 d' rounds' hone hd').symm.trans ((hjd ▸ (hall j hj).2).trans (hclass 0 d rounds hcores hd))
  rw [Nat.ModEq, Nat.zero_mod, Nat.mod_eq_of_lt (by omega)] at hclasses
  omega

/-- When the searches over the cores do what they should. -/
theorem placement_exact (cfg : Config) (s : Sim) (first : ℕ) (hcores : 0 < cfg.numCores) (hpos : 0 < cfg.interleaving)
    (henabled : ∃ c < cfg.numCores, cfg.coreMask c = true) (hfirst : first < cfg.numCores) :
    Placement cfg s first ↔ Walkable cfg s first := by
  constructor
  · intro h
    have hle := h.le hcores
    have hcoprime := h.coprime hcores hpos
    refine ⟨hle, hcoprime, ?_⟩
    by_contra hstart
    rw [not_or] at hstart
    obtain ⟨next, hnext⟩ := exists_nextCore (cycle_advanceCore hcores hpos hle hcoprime) henabled
    obtain ⟨rounds, core, hcore, -⟩ := h.free
    exact searchFreeCore_ne_ok hnext hstart.1 (fun core hlt hfree => hstart.2 ⟨core, hlt, hfree⟩) hfirst rounds core hcore
  · intro h
    exact h.placement hcores hpos henabled hfirst

end Exact

/-- Every second core of eight. -/
def everySecond : Config := { twoCores with numCores := 8, interleaving := 2 }

/-- The equivalence for eight cores without threads. -/
theorem placement_exact_everySecond : Placement everySecond (initial fun _ _ => none) 0 ↔
    Walkable everySecond (initial fun _ _ => none) 0 :=
  placement_exact _ _ _ (by decide) (by decide) ⟨0, by decide, rfl⟩ (by decide)

/-- Every second core of five, and threads may run on core 1 only. -/
def oddCore : Config := { twoCores with numCores := 5, interleaving := 2, coreMask := fun core => core = 1 }

/-- From core 0 the walk sees the cores 0, 2 and 4 and never comes to core 1. -/
theorem oddCore_not_placement : ¬ ∀ (cfg : Config) (s : Sim) (first : ℕ), 0 < cfg.numCores → 0 < cfg.interleaving →
    (∃ c < cfg.numCores, cfg.coreMask c = true) → first < cfg.numCores → Placement cfg s first := by
  intro h
  have hplaced := h oddCore (initial fun _ _ => none) 0 (by decide) (by decide) ⟨1, by decide, rfl⟩ (by decide)
  obtain ⟨rounds, d, hd, -, hmask⟩ := hplaced.next 0 (by decide)
  obtain ⟨-, m, hm, -⟩ := getNextCore_ok hd
  have heven : (advanceCore oddCore)^[m] 0 ≡ 0 [MOD 2] :=
    iterate_advanceCore_modEq (by decide) (by decide) (by decide) (by decide) m
  rw [hm, of_decide_eq_true hmask] at heven
  exact absurd heven (by decide)

end LifeSim.Sched
