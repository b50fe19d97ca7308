import Mathlib
import LifeSim.Cache.Policies
import LifeSim.Cache.SrripBound
import LifeSim.Lib.Congruential

/-!
# Victims and upgrades

A block in `SHARED_UPGRADING` may not be replaced, and every policy has its own way to see to that. Most searches only
look at the ways that may be replaced, but round robin tests the way after the one that it returns, the search for the
oldest way falls back to way zero, the pointers have eight bits, and the bits of the tree are not asked about another way.
-/

namespace LifeSim.Cache

open Function LifeSim.Lib

/-- A full set in which some blocks are being upgraded, and others are not. -/
structure PartlyUpgrading (associativity : ℕ) (blocks : Blocks) : Prop where
  full : ∀ i < associativity, (blocks i).isValid = true
  upgrading : ∃ i < associativity, (blocks i).isValidReplacement = false
  rest : ∃ i < associativity, (blocks i).isValidReplacement = true

/-- The search returns a way that is not being upgraded. -/
def Spares {σ : Type} (associativity : ℕ) (blocks : Blocks) (result : Except Fault (ℕ × σ)) : Prop :=
  ∃ i s', result = .ok (i, s') ∧ i < associativity ∧ (blocks i).isValidReplacement = true

theorem spares_map_iff {α σ τ : Type} {associativity : ℕ} {blocks : Blocks} {x : Except Fault (α × σ)} {f : α → ℕ}
    {g : σ → τ} : Spares associativity blocks (Prod.map f g <$> x) ↔
      ∃ a s', x = .ok (a, s') ∧ f a < associativity ∧ (blocks (f a)).isValidReplacement = true := by
  cases x with
  | error e =>
    refine ⟨?_, ?_⟩
    · rintro ⟨i, s', heq, -⟩
      cases heq
    · rintro ⟨a, s', heq, -⟩
      cases heq
  | ok x =>
    obtain ⟨a, s⟩ := x
    refine ⟨?_, ?_⟩
    · rintro ⟨i, s', heq, h⟩
      cases heq
      exact ⟨a, s, rfl, h⟩
    · rintro ⟨a, s', heq, h⟩
      cases heq
      exact ⟨f a, g s, rfl, h⟩

variable {associativity n : ℕ} {blocks : Blocks} {answers : Answers}

/-! ### Round robin -/

namespace CacheSetRoundRobin

variable {s s' : CacheSetRoundRobin} {i calls : ℕ}

/-- From a way that is being upgraded the recursion goes on to the last such way. -/
theorem index_upgrading (hupgrading : (blocks s.replacementIndex).isValidReplacement = false)
    (h : s.getReplacementIndex blocks calls = .ok (i, s')) : (blocks i).isValidReplacement = false := by
  induction calls generalizing s with
  | zero => cases h
  | succ calls ih =>
    rw [getReplacementIndex] at h
    split_ifs at h with hnext
    · cases h
      exact hupgrading
    · exact ih (Bool.eq_false_of_not_eq_true hnext) h

/-- Both the way of the index and the next one may be replaced. -/
theorem spares_iff (hindex : s.replacementIndex < s.associativity) :
    (∃ calls, Spares s.associativity blocks (s.getReplacementIndex blocks calls)) ↔
      (blocks s.replacementIndex).isValidReplacement = true ∧ (blocks s.next.replacementIndex).isValidReplacement = true := by
  constructor
  · rintro ⟨calls, i, s', heq, -, hvalid⟩
    cases calls with
    | zero => cases heq
    | succ calls =>
      rw [getReplacementIndex] at heq
      split_ifs at heq with hnext
      · cases heq
        exact ⟨hvalid, hnext⟩
      · rw [index_upgrading (Bool.eq_false_of_not_eq_true hnext) heq] at hvalid
        cases hvalid
  · rintro ⟨hvalid, hnext⟩
    refine ⟨1, s.replacementIndex, s.next, ?_, hindex, hvalid⟩
    rw [getReplacementIndex, if_pos hnext]

end CacheSetRoundRobin

/-! ### Least recently used -/

namespace CacheSetLRU

variable {s : CacheSetLRU} {attempt left : ℕ}

/-- A way that may be replaced is not the youngest. -/
def Aged (associativity : ℕ) (blocks : Blocks) (bits : ℕ → ℕ) : Prop :=
  ∃ i < associativity, (blocks i).isValidReplacement = true ∧ 0 < bits i

/-- There is one way only that may be replaced. -/
def Sole (associativity : ℕ) (blocks : Blocks) : Prop :=
  ∀ i < associativity, ∀ j < associativity, (blocks i).isValidReplacement = true →
    (blocks j).isValidReplacement = true → i = j

/-- What the search finds after some rejections. If no way that may be replaced is old, it falls back to way zero. A
rejection of the sole way makes it the youngest, and a rejection of way zero makes it older again. -/
def Finds (associativity : ℕ) (blocks : Blocks) (bits : ℕ → ℕ) (rejected : ℕ) : Prop :=
  (blocks 0).isValidReplacement = true ∨
  (Aged associativity blocks bits ∧ (¬Sole associativity blocks ∨ Even rejected)) ∨
  (¬Aged associativity blocks bits ∧ 0 < bits 0 ∧ 0 < rejected ∧ (¬Sole associativity blocks ∨ Odd rejected))

/-- The search falls back to way zero if there is no old way. -/
theorem search_of_not_aged (h : ¬Aged s.associativity blocks s.lruBits) : (s.search blocks s.associativity).1 = 0 := by
  obtain ⟨-, hnone | ⟨hlt, hvalid, hage, hpos⟩⟩ := s.search_spec blocks s.associativity
  · rw [hnone]
  · exact absurd ⟨_, hlt, hvalid, hage ▸ hpos⟩ h

/-- Otherwise it finds one of the oldest. -/
theorem search_of_aged (h : Aged s.associativity blocks s.lruBits) :
    (s.search blocks s.associativity).1 < s.associativity ∧
      (blocks (s.search blocks s.associativity).1).isValidReplacement = true ∧
      0 < s.lruBits (s.search blocks s.associativity).1 ∧
      ∀ i < s.associativity, (blocks i).isValidReplacement = true →
        s.lruBits i ≤ s.lruBits (s.search blocks s.associativity).1 := by
  obtain ⟨i, hi, hvalid, hold⟩ := h
  obtain ⟨hmax, hnone | ⟨hlt, hvalid', hage, hpos⟩⟩ := s.search_spec blocks s.associativity
  · have hle := hmax i hi hvalid
    rw [hnone] at hle
    exact absurd hold (Nat.not_lt_of_le hle)
  · exact ⟨hlt, hvalid', hage ▸ hpos, fun j hj hvalid => hage ▸ hmax j hj hvalid⟩

theorem finds_zero_iff : Finds s.associativity blocks s.lruBits 0 ↔
    (blocks (s.search blocks s.associativity).1).isValidReplacement = true := by
  by_cases haged : Aged s.associativity blocks s.lruBits
  · exact iff_of_true (.inr (.inl ⟨haged, .inr Even.zero⟩)) (search_of_aged haged).2.1
  · rw [search_of_not_aged haged, Finds]
    simp [haged]

/-- One rejection less. -/
theorem finds_succ_iff (hbits : ∀ i, s.lruBits i < 256) (hrest : ∃ i < s.associativity,
    (blocks i).isValidReplacement = true)
    (rejected : ℕ) : Finds s.associativity blocks s.lruBits (rejected + 1) ↔
      Finds s.associativity blocks (s.moveToMRU (s.search blocks s.associativity).1).lruBits rejected := by
  by_cases hzero : (blocks 0).isValidReplacement = true
  · exact iff_of_true (.inl hzero) (.inl hzero)
  obtain ⟨i, hi, hvalid⟩ := hrest
  have hpos : 0 < s.associativity := Nat.zero_lt_of_lt hi
  change _ ↔ Finds s.associativity blocks
    (moveToFrontBits s.associativity s.lruBits (s.search blocks s.associativity).1) rejected
  by_cases haged : Aged s.associativity blocks s.lruBits
  · obtain ⟨hw, hwvalid, hwpos, hwmax⟩ := search_of_aged haged
    generalize (s.search blocks s.associativity).1 = w at hw hwvalid hwpos hwmax ⊢
    have hmoved {j : ℕ} (hj : j < s.associativity) (hne : j ≠ w) : 0 < moveToFrontBits s.associativity s.lruBits w j := by
      rw [moveToFrontBits_of_ne (hbits w) hj hne]
      split_ifs <;> omega
    have hw0 : (0 : ℕ) ≠ w := fun h => hzero (h ▸ hwvalid)
    by_cases hsole : Sole s.associativity blocks
    · have hyoung : ¬Aged s.associativity blocks (moveToFrontBits s.associativity s.lruBits w) := by
        rintro ⟨j, hj, hjvalid, hage⟩
        rw [hsole j hj w hw hjvalid hwvalid, moveToFrontBits_self] at hage
        exact absurd hage (Nat.lt_irrefl 0)
      have hback := hmoved hpos hw0
      simp only [Finds, hzero, haged, hsole, hyoung, hback, Nat.even_add_one, Nat.not_even_iff_odd]
      simpa using fun hodd => hodd.pos
    · obtain ⟨j, hj, hjvalid, hne⟩ : ∃ j < s.associativity, (blocks j).isValidReplacement = true ∧ j ≠ w := by
        by_contra hall
        push Not at hall
        exact hsole fun a ha b hb hav hbv => (hall a ha hav).trans (hall b hb hbv).symm
      exact iff_of_true (.inr (.inl ⟨haged, .inl hsole⟩)) (.inr (.inl ⟨⟨j, hj, hjvalid, hmoved hj hne⟩, .inl hsole⟩))
  · rw [search_of_not_aged haged]
    have hyoung (j : ℕ) (hj : j < s.associativity) (hjvalid : (blocks j).isValidReplacement = true) : s.lruBits j = 0 :=
      Nat.eq_zero_of_not_pos fun hage => haged ⟨j, hj, hjvalid, hage⟩
    have hne {j : ℕ} (hjvalid : (blocks j).isValidReplacement = true) : j ≠ 0 := fun h => hzero (h ▸ hjvalid)
    by_cases hback : 0 < s.lruBits 0
    · have haged' : Aged s.associativity blocks (moveToFrontBits s.associativity s.lruBits 0) := by
        refine ⟨i, hi, hvalid, ?_⟩
        rw [moveToFrontBits_of_ne (hbits 0) hi (hne hvalid), hyoung i hi hvalid, if_pos hback]
        exact Nat.one_pos
      simp [Finds, hzero, haged, haged', hback, Nat.odd_add_one]
    · have hyoung' : ¬Aged s.associativity blocks (moveToFrontBits s.associativity s.lruBits 0) := by
        rintro ⟨j, hj, hjvalid, hage⟩
        rw [moveToFrontBits_of_ne (hbits 0) hj (hne hjvalid), hyoung j hj hjvalid, if_neg hback] at hage
        exact absurd hage (Nat.lt_irrefl 0)
      simp [Finds, hzero, haged, hyoung', hback]

theorem search_lt (hpos : 0 < s.associativity) : (s.search blocks s.associativity).1 < s.associativity := by
  obtain ⟨-, hnone | ⟨hlt, -⟩⟩ := s.search_spec blocks s.associativity
  · rwa [hnone]
  · exact hlt

theorem moveToMRU_lt (hbits : ∀ i, s.lruBits i < 256) (way i : ℕ) : (s.moveToMRU way).lruBits i < 256 := by
  change moveToFrontBits s.associativity s.lruBits way i < 256
  rw [moveToFrontBits]
  split_ifs
  · exact Nat.succ_pos 255
  · exact Nat.mod_lt _ (Nat.succ_pos 255)
  · exact hbits i

/-- The attempts, with the rejections to come. -/
theorem attempts_iff (hbits : ∀ i, s.lruBits i < 256) (hrest : ∃ i < s.associativity,
    (blocks i).isValidReplacement = true)
    (hleft : attempt + left = s.numAttempts) (hpos : 0 < left) :
    (∃ c s', attempts blocks answers left attempt s = .ok (c, s') ∧ c.index < s.associativity ∧
      (blocks c.index).isValidReplacement = true) ↔
      Finds s.associativity blocks s.lruBits (rejections s.numAttempts answers attempt) := by
  induction left generalizing attempt s with
  | zero => exact absurd hpos (Nat.lt_irrefl 0)
  | succ left ih =>
    obtain ⟨i, hi, hvalid⟩ := hrest
    have hlt : (s.search blocks s.associativity).1 < s.associativity := search_lt (Nat.zero_lt_of_lt hi)
    have hstep := finds_succ_iff hbits ⟨i, hi, hvalid⟩
    have hnow : Finds s.associativity blocks s.lruBits 0 ↔ _ := finds_zero_iff
    rw [attempts]
    generalize (s.search blocks s.associativity).1 = index at hlt hstep hnow ⊢
    dsimp only
    rw [require_of hlt, ok_bind]
    by_cases hreject : attempt + 1 < s.numAttempts ∧ answers attempt = true
    · rw [if_pos hreject, rejections_of_yes hreject, hstep]
      have hrest' := ih (s := s.moveToMRU index) (moveToMRU_lt hbits index) ⟨i, hi, hvalid⟩
        (show attempt + 1 + left = s.numAttempts by omega) (by omega)
      rw [moveToMRU_associativity, moveToMRU_numAttempts] at hrest'
      rw [← hrest']
      constructor
      · rintro ⟨c, s', heq, hin, hspared⟩
        obtain ⟨⟨c', t⟩, hattempts, hc⟩ := exists_of_bind_ok heq
        cases hc
        exact ⟨c', t, hattempts, hin, hspared⟩
      · rintro ⟨c, s', heq, hin, hspared⟩
        refine ⟨⟨c.index, index :: c.rejected⟩, s', ?_, hin, hspared⟩
        rw [heq, ok_bind]
    · rw [if_neg hreject, rejections_of_no hreject, hnow, incrementAttempt_of_lt (by omega), ok_bind]
      constructor
      · rintro ⟨c, s', heq, -, hspared⟩
        cases heq
        exact hspared
      · exact fun hspared => ⟨⟨index, []⟩, _, rfl, hlt, hspared⟩

/-- Without a sole way, or with the right number of rejections. -/
theorem spares_iff (hbits : ∀ i, s.lruBits i < 256) (h : PartlyUpgrading s.associativity blocks) :
    (∃ c s', s.getReplacementIndex blocks answers = .ok (c, s') ∧ c.index < s.associativity ∧
      (blocks c.index).isValidReplacement = true) ↔
      0 < s.numAttempts ∧ Finds s.associativity blocks s.lruBits (rejections s.numAttempts answers 0) := by
  rw [getReplacementIndex, firstInvalid_eq_none.2 h.full]
  dsimp only
  rcases Nat.eq_zero_or_pos s.numAttempts with hnone | hpos
  · rw [hnone, attempts]
    refine iff_of_false ?_ fun h => Nat.lt_irrefl 0 h.1
    rintro ⟨c, s', heq, -⟩
    cases heq
  · rw [attempts_iff hbits h.rest (Nat.zero_add _) hpos]
    exact (and_iff_right hpos).symm

end CacheSetLRU

/-! ### Pointers of eight bits -/

/-- A pointer goes round among the ways that eight bits can name. -/
theorem nextPointer_eq {pointer : ℕ} (hptr : pointer < min associativity 256) :
    nextPointer associativity pointer = (pointer + 1) % min associativity 256 := by
  obtain ⟨hassoc, hsmall⟩ := Nat.lt_min.1 hptr
  rw [nextPointer]
  rcases Nat.le_total associativity 256 with hle | hge
  · have hlt := Nat.mod_lt (pointer + 1) (Nat.zero_lt_of_lt hassoc)
    rw [min_eq_left hle, Nat.mod_eq_of_lt (hlt.trans_le hle)]
  · rw [min_eq_right hge]
    rcases Nat.lt_or_ge (pointer + 1) associativity with hlt | hend
    · rw [Nat.mod_eq_of_lt hlt]
    · have hboth : pointer + 1 = associativity := by omega
      have h256 : pointer + 1 = 256 := by omega
      rw [← hboth, h256]

theorem iterate_nextPointer {pointer : ℕ} (hptr : pointer < min associativity 256) (k : ℕ) :
    (nextPointer associativity)^[k] pointer = (pointer + k) % min associativity 256 := by
  have hpos : 0 < min associativity 256 := Nat.zero_lt_of_lt hptr
  induction k with
  | zero => exact (Nat.mod_eq_of_lt hptr).symm
  | succ k ih => rw [iterate_succ_apply', ih, nextPointer_eq (Nat.mod_lt _ hpos), Nat.mod_add_mod, Nat.add_assoc]

/-- Each of these ways is met within as many steps as there are ways. -/
theorem exists_iterate_nextPointer {pointer i : ℕ} (hptr : pointer < min associativity 256)
    (hi : i < min associativity 256) : ∃ k < associativity, (nextPointer associativity)^[k] pointer = i := by
  have hpos : 0 < min associativity 256 := Nat.zero_lt_of_lt hptr
  have hle : min associativity 256 ≤ associativity := min_le_left _ _
  generalize hround : min associativity 256 = round at hpos hle hi hptr
  refine ⟨(i + (round - pointer)) % round, (Nat.mod_lt _ hpos).trans_le hle, ?_⟩
  rw [iterate_nextPointer (hround.symm ▸ hptr), hround, Nat.add_mod_mod]
  have hsum : pointer + (i + (round - pointer)) = i + round := by omega
  rw [hsum, Nat.add_mod_right, Nat.mod_eq_of_lt hi]

theorem iterate_nextPointer_lt {pointer : ℕ} (hptr : pointer < min associativity 256) (k : ℕ) :
    (nextPointer associativity)^[k] pointer < min associativity 256 := by
  rw [iterate_nextPointer hptr]
  exact Nat.mod_lt _ (Nat.zero_lt_of_lt hptr)

/-- The search stops at the first position on its path that passes the test. -/
theorem pointerScan_cases (test : ℕ → Bool) (n pointer : ℕ) :
    (∃ k, pointerScan associativity test n pointer = some ((nextPointer associativity)^[k] pointer) ∧
      test ((nextPointer associativity)^[k] pointer) = true) ∨
    (pointerScan associativity test n pointer = none ∧
      ∀ k < n, test ((nextPointer associativity)^[k] pointer) = false) := by
  induction n generalizing pointer with
  | zero => exact .inr ⟨rfl, fun k hk => absurd hk (Nat.not_lt_zero k)⟩
  | succ n ih =>
    rw [pointerScan]
    by_cases htest : test pointer = true
    · rw [if_pos htest]
      exact .inl ⟨0, rfl, htest⟩
    · rw [if_neg htest]
      rcases ih (nextPointer associativity pointer) with ⟨k, heq, hmeets⟩ | ⟨heq, hnone⟩
      · exact .inl ⟨k + 1, heq, hmeets⟩
      · refine .inr ⟨heq, fun k hk => ?_⟩
        cases k with
        | zero => exact Bool.eq_false_of_not_eq_true htest
        | succ k => exact hnone k (Nat.lt_of_succ_lt_succ hk)

/-- A whole round finds a way that passes the test exactly if the pointer can name one. -/
theorem pointerScan_spec (test : ℕ → Bool) {pointer : ℕ} (hptr : pointer < min associativity 256) :
    (∃ i < min associativity 256, pointerScan associativity test associativity pointer = some i ∧ test i = true) ∨
    (pointerScan associativity test associativity pointer = none ∧ ∀ i < min associativity 256, test i = false) := by
  rcases @pointerScan_cases associativity test associativity pointer with ⟨k, heq, hmeets⟩ | ⟨heq, hnone⟩
  · exact .inl ⟨_, iterate_nextPointer_lt hptr k, heq, hmeets⟩
  · refine .inr ⟨heq, fun i hi => ?_⟩
    obtain ⟨k, hk, rfl⟩ := exists_iterate_nextPointer hptr hi
    exact hnone k hk

theorem pointerScan_lt {test : ℕ → Bool} {pointer i : ℕ} (hptr : pointer < min associativity 256)
    (h : i ∈ pointerScan associativity test associativity pointer) : i < min associativity 256 := by
  rcases pointerScan_spec test hptr with ⟨j, hj, heq, -⟩ | ⟨heq, -⟩
  · rw [heq] at h
    cases h
    exact hj
  · rw [heq] at h
    cases h

theorem spares_chosen {σ : Type} {test : ℕ → Bool} {pointer : ℕ} (f : ℕ → σ)
    (hptr : pointer < min associativity 256) (hvalid : ∀ i, test i = true → (blocks i).isValidReplacement = true) :
    Spares associativity blocks (chosen f (pointerScan associativity test associativity pointer)) ↔
      ∃ i < min associativity 256, test i = true := by
  rcases pointerScan_spec test hptr with ⟨i, hi, heq, htest⟩ | ⟨heq, hnone⟩
  · rw [heq]
    exact iff_of_true ⟨i, f i, rfl, (Nat.lt_min.1 hi).1, hvalid i htest⟩ ⟨i, hi, htest⟩
  · rw [heq]
    refine iff_of_false ?_ ?_
    · rintro ⟨i, s', heq', -⟩
      cases heq'
    · rintro ⟨i, hi, htest⟩
      rw [hnone i hi] at htest
      cases htest

/-! ### The searches over all ways -/

/-- A way that the pointer can name may be replaced and has not been touched, or all of those that may be replaced have.
-/
theorem CacheSetNRU.spares_iff {s : CacheSetNRU} (hptr : s.replacementPointer < min s.associativity 256)
    (hfull : ∀ i < s.associativity, (blocks i).isValid = true) :
    Spares s.associativity blocks (s.getReplacementIndex blocks) ↔
      ∃ i < min s.associativity 256, s.test blocks i = true := by
  rw [getReplacementIndex, firstInvalid_eq_none.2 hfull]
  exact spares_chosen _ hptr fun i htest => ((Bool.and_eq_true _ _).mp htest).2

/-- A way that the pointer can name may be replaced and is not the youngest. -/
theorem CacheSetNMRU.spares_iff {s : CacheSetNMRU} (hptr : s.replacementPointer < min s.associativity 256)
    (hfull : ∀ i < s.associativity, (blocks i).isValid = true) :
    Spares s.associativity blocks (s.getReplacementIndex blocks) ↔
      ∃ i < min s.associativity 256, s.test blocks i = true := by
  rw [getReplacementIndex, firstInvalid_eq_none.2 hfull]
  exact spares_chosen _ hptr fun i htest => ((Bool.and_eq_true _ _).mp htest).2

theorem CacheSetMRU.of_youngest {s : CacheSetMRU} {i : ℕ} (h : s.youngest blocks = some i) :
    i < s.associativity ∧ (blocks i).isValidReplacement = true := by
  obtain ⟨target, -, hfind⟩ := List.exists_of_findSome?_eq_some h
  have htest := @List.find?_some _ _ _ _ hfind
  exact ⟨List.mem_range.1 (List.mem_of_find?_eq_some hfind), ((Bool.and_eq_true _ _).mp htest).2⟩

/-- The youngest way that may be replaced is found, since no age is above the number of ways. -/
theorem CacheSetMRU.spares {s : CacheSetMRU} (hbits : ∀ i < s.associativity, s.lruBits i < s.associativity)
    (h : PartlyUpgrading s.associativity blocks) : Spares s.associativity blocks (s.getReplacementIndex blocks) := by
  rw [getReplacementIndex, firstInvalid_eq_none.2 h.full]
  dsimp only
  cases hfound : s.youngest blocks with
  | some i =>
    exact ⟨i, _, rfl, of_youngest hfound⟩
  | none =>
    obtain ⟨i, hi, hvalid⟩ := h.rest
    have hnone := List.findSome?_eq_none_iff.1 hfound (s.lruBits i) (List.mem_range.2 (hbits i hi))
    have htest := List.find?_eq_none.1 hnone i (List.mem_range.2 hi)
    simp [hvalid] at htest

/-! ### The policies that ask afterwards -/

/-- The way that the bits of the tree point at. -/
theorem CacheSetPLRU.spares_iff {s : CacheSetPLRU} (hassoc : s.associativity = 4 ∨ s.associativity = 8)
    (hfull : ∀ i < s.associativity, (blocks i).isValid = true) :
    Spares s.associativity blocks (s.getReplacementIndex blocks) ↔ (blocks s.victim).isValidReplacement = true := by
  have hlt : s.victim < s.associativity := by
    rw [victim]
    rcases hassoc with h | h <;> simp only [h, if_true, Bool.cond_eq_ite] <;> split_ifs <;> omega
  rw [getReplacementIndex, firstInvalid_eq_none.2 hfull]
  dsimp only
  by_cases hvalid : (blocks s.victim).isValidReplacement = true
  · rw [require_of hvalid, ok_bind]
    exact iff_of_true ⟨_, _, rfl, hlt, hvalid⟩ hvalid
  · refine iff_of_false ?_ hvalid
    rintro ⟨i, s', heq, -⟩
    obtain ⟨u, hvalid', -⟩ := exists_of_bind_ok heq
    exact hvalid (require_eq_ok_iff.1 hvalid')

/-- The candidate after the rejections. -/
theorem CacheSetSRRIP.spares_iff {s : CacheSetSRRIP} (hptr : s.replacementPointer < s.associativity)
    (hfull : ∀ i < s.associativity, (blocks i).isValid = true) :
    Spares s.associativity blocks (s.getReplacementIndex blocks answers) ↔
      ∃ way, s.candidates[rejections s.numAttempts answers 0]? = some way ∧
        (blocks way).isValidReplacement = true := by
  obtain ⟨s', way, hway, hcase⟩ | ⟨hle, hcase⟩ := getReplacementIndex_full answers hfull
  · have hmem := roundsAll_mem (s.rripMax + 1) (Nat.zero_lt_of_lt hptr) hptr way (List.mem_of_getElem? hway)
    rw [hcase, hway]
    by_cases hvalid : (blocks way).isValidReplacement = true
    · rw [require_of hvalid, ok_bind]
      exact iff_of_true ⟨_, _, rfl, hmem, hvalid⟩ ⟨way, rfl, hvalid⟩
    · refine iff_of_false ?_ ?_
      · rintro ⟨i, t, heq, -⟩
        obtain ⟨u, hvalid', -⟩ := exists_of_bind_ok heq
        exact hvalid (require_eq_ok_iff.1 hvalid')
      · rintro ⟨i, heq, hvalid'⟩
        cases heq
        exact hvalid hvalid'
  · rw [hcase, List.getElem?_eq_none hle]
    refine iff_of_false ?_ ?_
    · rintro ⟨i, t, heq, -⟩
      cases heq
    · rintro ⟨i, heq, -⟩
      cases heq

/-! ### Random -/

namespace CacheSetRandom

variable {s : CacheSetRandom}

theorem nextSeed_lt (seed : ℕ) : nextSeed seed < 2 ^ 32 := Nat.mod_lt _ (Nat.two_pow_pos 32)

/-- The generator goes through all seeds. -/
theorem cycle_nextSeed : Cycle nextSeed (2 ^ 32) := cycle_congruential (by decide) (by decide) 32

/-- What the recursion returns is one of the values of the generator. -/
theorem getReplacementIndex_spares {calls : ℕ} (hfull : ∀ i < s.associativity, (blocks i).isValid = true)
    (hpos : 0 < s.associativity) (h : Spares s.associativity blocks (s.getReplacementIndex blocks calls)) :
    ∃ i < min s.associativity 32768, (blocks i).isValidReplacement = true := by
  induction calls generalizing s with
  | zero =>
    obtain ⟨i, s', heq, -⟩ := h
    cases heq
  | succ calls ih =>
    rw [getReplacementIndex, firstInvalid_eq_none.2 hfull] at h
    dsimp only at h
    by_cases hvalid : (blocks (value (nextSeed s.seed) % s.associativity)).isValidReplacement = true
    · refine ⟨_, Nat.lt_min.2 ⟨Nat.mod_lt _ hpos, ?_⟩, hvalid⟩
      exact (Nat.mod_le _ _).trans_lt (Nat.mod_lt _ (by decide))
    · rw [if_neg hvalid] at h
      exact ih (s := { s with seed := nextSeed s.seed }) hfull hpos h

/-- The recursion ends at the latest when the generator has the seed that gives a way that may be replaced. -/
theorem spares_of_iterate {j : ℕ} (hfull : ∀ i < s.associativity, (blocks i).isValid = true) (hpos : 0 < s.associativity)
    (hvalid : (blocks (value (nextSeed^[j + 1] s.seed) % s.associativity)).isValidReplacement = true) :
    Spares s.associativity blocks (s.getReplacementIndex blocks (j + 1)) := by
  induction j generalizing s with
  | zero =>
    rw [getReplacementIndex, firstInvalid_eq_none.2 hfull]
    exact ⟨_, _, if_pos hvalid, Nat.mod_lt _ hpos, hvalid⟩
  | succ j ih =>
    rw [getReplacementIndex, firstInvalid_eq_none.2 hfull]
    dsimp only
    by_cases hnow : (blocks (value (nextSeed s.seed) % s.associativity)).isValidReplacement = true
    · rw [if_pos hnow]
      exact ⟨_, _, rfl, Nat.mod_lt _ hpos, hnow⟩
    · rw [if_neg hnow]
      exact ih (s := { s with seed := nextSeed s.seed }) hfull hpos hvalid

/-- A way that the generator can give may be replaced. -/
theorem spares_iff (hfull : ∀ i < s.associativity, (blocks i).isValid = true) (hpos : 0 < s.associativity) :
    (∃ calls, Spares s.associativity blocks (s.getReplacementIndex blocks calls)) ↔
      ∃ i < min s.associativity 32768, (blocks i).isValidReplacement = true := by
  constructor
  · rintro ⟨calls, h⟩
    exact getReplacementIndex_spares hfull hpos h
  · rintro ⟨i, hi, hvalid⟩
    obtain ⟨hassoc, hsmall⟩ := Nat.lt_min.1 hi
    obtain ⟨j, hj⟩ := cycle_nextSeed.reach _ (nextSeed_lt s.seed) (i * 65536) (by omega)
    have hvalue : value (nextSeed^[j + 1] s.seed) % s.associativity = i := by
      rw [iterate_succ_apply, hj, value, Nat.mul_div_cancel _ (by decide), Nat.mod_eq_of_lt hsmall,
        Nat.mod_eq_of_lt hassoc]
    exact ⟨j + 1, spares_of_iterate hfull hpos (by rw [hvalue]; exact hvalid)⟩

end CacheSetRandom

end LifeSim.Cache
