import Mathlib
import LifeSim.Cache.Srrip

/-!
# When the search succeeds

The answers decide how many of the ways that the search comes to are rejected. It succeeds if there is one more. In the
last round every way that has not been rejected before is a candidate, and each takes two turns of it, so that there are
at least half as many candidates as ways; there are no more if all counters are zero.
-/

namespace LifeSim.Cache

open LifeSim.Lib

variable {s : CacheSetSRRIP} {answers : Answers} {attempt n j : ℕ}

namespace CacheSetSRRIP

/-- The values that do not change. -/
def params (s : CacheSetSRRIP) : ℕ × ℕ × ℕ × ℕ := (s.associativity, s.rripMax, s.rripInsert, s.numAttempts)

theorem scanAll_params (n : ℕ) (s : CacheSetSRRIP) : (scanAll n s).2.params = s.params := by
  induction n generalizing s with
  | zero => rfl
  | succ n ih =>
    rw [scanAll]
    dsimp only
    split_ifs
    · exact ih _
    · exact ih _

theorem scanAll_associativity (n : ℕ) (s : CacheSetSRRIP) : (scanAll n s).2.associativity = s.associativity :=
  congrArg Prod.fst (scanAll_params n s)

theorem scanAll_numAttempts (n : ℕ) (s : CacheSetSRRIP) : (scanAll n s).2.numAttempts = s.numAttempts :=
  congrArg (fun x => x.2.2.2) (scanAll_params n s)

theorem scanAll_rripMax (n : ℕ) (s : CacheSetSRRIP) : (scanAll n s).2.rripMax = s.rripMax :=
  congrArg (fun x => x.2.1) (scanAll_params n s)

/-- The turns of a round end at the first candidate that is not rejected. -/
theorem scan_found {way : ℕ} (h : (scanAll n s).1[rejections s.numAttempts answers attempt]? = some way) :
    ∃ s', scan answers n attempt s = (some way, attempt + rejections s.numAttempts answers attempt, s') := by
  induction n generalizing s attempt with
  | zero => simp [scanAll] at h
  | succ n ih =>
    rw [scanAll] at h
    rw [scan]
    dsimp only at h ⊢
    by_cases hmax : s.rripMax ≤ s.rripBits s.replacementPointer
    · rw [if_pos hmax] at h ⊢
      by_cases hreject : attempt + 1 < s.numAttempts ∧ answers attempt = true
      · rw [rejections_of_yes hreject] at h ⊢
        rw [List.getElem?_cons_succ] at h
        rw [if_pos hreject, Nat.add_comm (rejections _ _ _) 1, ← Nat.add_assoc]
        exact ih h
      · rw [rejections_of_no hreject, List.getElem?_cons_zero] at h
        cases h
        rw [if_neg hreject, rejections_of_no hreject]
        exact ⟨_, rfl⟩
    · rw [if_neg hmax] at h ⊢
      exact ih (s := s.advance) h

/-- If there are only rejections, the turns are those of the search that meets nothing else. -/
theorem scan_none (h : (scanAll n s).1.length ≤ rejections s.numAttempts answers attempt) :
    scan answers n attempt s = (none, attempt + (scanAll n s).1.length, (scanAll n s).2) ∧
      rejections s.numAttempts answers (attempt + (scanAll n s).1.length) + (scanAll n s).1.length =
        rejections s.numAttempts answers attempt := by
  induction n generalizing s attempt with
  | zero => exact ⟨rfl, rfl⟩
  | succ n ih =>
    rw [scanAll] at h ⊢
    rw [scan]
    dsimp only at h ⊢
    by_cases hmax : s.rripMax ≤ s.rripBits s.replacementPointer
    · rw [if_pos hmax] at h ⊢
      rw [if_pos hmax]
      by_cases hreject : attempt + 1 < s.numAttempts ∧ answers attempt = true
      · have hyes := rejections_of_yes hreject
        rw [hyes, List.length_cons] at h
        obtain ⟨hscan, hrest⟩ := ih (s := s.setBits s.replacementPointer 0) (Nat.le_of_succ_le_succ h)
        have hadd : attempt + ((scanAll n (s.setBits s.replacementPointer 0)).1.length + 1) =
            attempt + 1 + (scanAll n (s.setBits s.replacementPointer 0)).1.length := by omega
        rw [if_pos hreject, hyes, List.length_cons, hadd]
        dsimp only
        exact ⟨hscan, congrArg (· + 1) hrest⟩
      · rw [rejections_of_no hreject, List.length_cons] at h
        exact absurd h (Nat.not_succ_le_zero _)
    · rw [if_neg hmax] at h ⊢
      rw [if_neg hmax]
      exact ih (s := s.advance) h

/-- The search finds the first candidate that is not rejected. -/
theorem rounds_found {way : ℕ} (h : (roundsAll j s)[rejections s.numAttempts answers attempt]? = some way) :
    ∃ s', rounds answers j attempt s = (some way, attempt + rejections s.numAttempts answers attempt, s') := by
  induction j generalizing s attempt with
  | zero => simp [roundsAll] at h
  | succ j ih =>
    rw [roundsAll] at h
    rw [rounds]
    dsimp only at h ⊢
    by_cases hlt : rejections s.numAttempts answers attempt < (scanAll s.associativity s).1.length
    · rw [List.getElem?_append_left hlt] at h
      obtain ⟨s', hscan⟩ := scan_found h
      rw [hscan]
      exact ⟨s', rfl⟩
    · have hle := Nat.le_of_not_lt hlt
      obtain ⟨hscan, hrest⟩ := scan_none hle
      rw [List.getElem?_append_right hle, ← hrest, Nat.add_sub_cancel] at h
      rw [hscan]
      dsimp only
      have hnum : (scanAll s.associativity s).2.age.numAttempts = s.numAttempts := scanAll_numAttempts s.associativity s
      rw [← hnum] at h hrest ⊢
      obtain ⟨s', hfound⟩ := ih h
      refine ⟨s', ?_⟩
      rw [hfound, ← hrest]
      congr 2
      omega

/-- The search fails if all candidates are rejected. -/
theorem rounds_none (h : (roundsAll j s).length ≤ rejections s.numAttempts answers attempt) :
    (rounds answers j attempt s).1 = none := by
  induction j generalizing s attempt with
  | zero => rfl
  | succ j ih =>
    rw [roundsAll] at h
    dsimp only at h
    rw [List.length_append] at h
    obtain ⟨hscan, hrest⟩ := scan_none (n := s.associativity) (Nat.le_trans (Nat.le_add_right _ _) h)
    have hnum : (scanAll s.associativity s).2.age.numAttempts = s.numAttempts := scanAll_numAttempts s.associativity s
    rw [rounds, hscan]
    dsimp only
    refine ih ?_
    rw [hnum]
    omega

/-! ### How many candidates there are -/

/-- The ways whose counter is below a bound. -/
def low (s : CacheSetSRRIP) (k : ℕ) : Finset ℕ := (Finset.range s.associativity).filter fun i => s.rripBits i < k

theorem card_low_setBits (s : CacheSetSRRIP) (way value k : ℕ) : ((s.setBits way value).low k).card ≤
    (s.low k).card + 1 := by
  have hsubset : (s.setBits way value).low k ⊆ insert way (s.low k) := by
    intro i hi
    rw [low, Finset.mem_filter] at hi
    rw [Finset.mem_insert, low, Finset.mem_filter]
    by_cases hway : i = way
    · exact .inl hway
    · refine .inr ⟨hi.1, ?_⟩
      have hlow := hi.2
      rwa [setBits_of_ne s hway] at hlow
  exact (Finset.card_le_card hsubset).trans (Finset.card_insert_le _ _)

/-- A round makes no more counters low than it meets candidates. -/
theorem card_low_scanAll (n k : ℕ) (s : CacheSetSRRIP) :
    ((scanAll n s).2.low k).card ≤ (s.low k).card + (scanAll n s).1.length := by
  induction n generalizing s with
  | zero => exact le_rfl
  | succ n ih =>
    rw [scanAll]
    dsimp only
    split_ifs
    · have hrest := ih (s.setBits s.replacementPointer 0)
      have hreset := card_low_setBits s s.replacementPointer 0 k
      dsimp only
      rw [List.length_cons]
      omega
    · exact ih s.advance

/-- Ageing raises every counter that is low. -/
theorem low_age {k : ℕ} (hmax : s.rripMax < 256) (hk : k < s.rripMax) : s.age.low (k + 1) ⊆ s.low k := by
  intro i hi
  obtain ⟨hway, hlow⟩ := Finset.mem_filter.1 hi
  refine Finset.mem_filter.2 ⟨hway, ?_⟩
  rw [age_rripBits s hmax (Finset.mem_range.1 hway)] at hlow
  split_ifs at hlow
  · exact Nat.lt_of_succ_lt_succ hlow
  · omega

/-- How many of the next `n` ways from the pointer on have a counter that is not at the maximum. -/
def waiting (s : CacheSetSRRIP) (n : ℕ) : ℕ :=
  ∑ x ∈ Finset.range n, if s.rripBits ((s.replacementPointer + x) % s.associativity) < s.rripMax then 1 else 0

/-- The pointer's own counter decides about one turn only, as long as the pointer does not come round. -/
theorem waiting_setBits_le (s : CacheSetSRRIP) (value : ℕ) (hptr : s.replacementPointer < s.associativity)
    (hn : n ≤ s.associativity) : (s.setBits s.replacementPointer value).waiting n ≤ s.waiting n + 1 := by
  cases n with
  | zero => exact Nat.zero_le _
  | succ n =>
    have hother : ∀ x ∈ Finset.range n, (if (s.setBits s.replacementPointer value).rripBits
        ((s.replacementPointer + (x + 1)) % s.associativity) < s.rripMax then 1 else 0) =
        if s.rripBits ((s.replacementPointer + (x + 1)) % s.associativity) < s.rripMax then 1 else 0 := by
      intro x hx
      have hne : (s.replacementPointer + (x + 1)) % s.associativity ≠ s.replacementPointer := by
        have hx' := Finset.mem_range.1 hx
        rcases Nat.lt_or_ge (s.replacementPointer + (x + 1)) s.associativity with hlt | hge
        · rw [Nat.mod_eq_of_lt hlt]
          omega
        · rw [Nat.mod_eq_sub_mod hge, Nat.mod_eq_of_lt (by omega)]
          omega
      rw [setBits_of_ne s hne]
    rw [waiting, waiting, Finset.sum_range_succ', Finset.sum_range_succ']
    change (∑ x ∈ Finset.range n, if (s.setBits s.replacementPointer value).rripBits
      ((s.replacementPointer + (x + 1)) % s.associativity) < s.rripMax then 1 else 0) + _ ≤ _
    rw [Finset.sum_congr rfl hother]
    split_ifs <;> omega

/-- A way that waits takes one turn, and a candidate takes two, unless the round is over. -/
theorem turns_le (hpos : 0 < s.associativity) (hmax : s.associativity ≤ 256)
    (hptr : s.replacementPointer < s.associativity)
    (hn : n ≤ s.associativity) : n ≤ 2 * (scanAll n s).1.length + s.waiting n := by
  induction n generalizing s with
  | zero => exact Nat.zero_le _
  | succ n ih =>
    have hmod : s.replacementPointer % s.associativity = s.replacementPointer := Nat.mod_eq_of_lt hptr
    rw [scanAll]
    dsimp only
    by_cases hcand : s.rripMax ≤ s.rripBits s.replacementPointer
    · rw [if_pos hcand]
      have hrest := ih (s := s.setBits s.replacementPointer 0) hpos hmax hptr (Nat.le_of_succ_le hn)
      have hwait := s.waiting_setBits_le 0 hptr (Nat.le_of_succ_le hn)
      have hmono : s.waiting n ≤ s.waiting (n + 1) := Nat.le_trans (Nat.le_add_right _ _) (Finset.sum_range_succ _ n).ge
      dsimp only
      rw [List.length_cons]
      omega
    · rw [if_neg hcand]
      have hadv : s.advance.replacementPointer = (s.replacementPointer + 1) % s.associativity := by
        have hlt := Nat.mod_lt (s.replacementPointer + 1) hpos
        exact Nat.mod_eq_of_lt (hlt.trans_le hmax)
      have hrest := ih (s := s.advance) hpos hmax (hadv ▸ Nat.mod_lt _ hpos) (Nat.le_of_succ_le hn)
      have hwait : s.waiting (n + 1) = s.advance.waiting n + 1 := by
        rw [waiting, Finset.sum_range_succ', Nat.add_zero, hmod, if_pos (Nat.lt_of_not_le hcand), waiting]
        refine congrArg (· + 1) (Finset.sum_congr rfl fun x _ => ?_)
        change _ = if s.rripBits ((s.advance.replacementPointer + x) % s.associativity) < s.rripMax then 1 else 0
        rw [hadv, Nat.mod_add_mod, Nat.add_assoc, Nat.add_comm 1 x]
      omega

/-- A round goes once through all ways. -/
theorem waiting_le_card_low (s : CacheSetSRRIP) (hpos : 0 < s.associativity) :
    s.waiting s.associativity ≤ (s.low s.rripMax).card := by
  rw [waiting, ← Finset.card_filter]
  refine Finset.card_le_card_of_injOn (fun x => (s.replacementPointer + x) % s.associativity) (fun x hx => ?_)
    fun x hx y hy hxy => ?_
  · exact Finset.mem_coe.2 (Finset.mem_filter.2 ⟨Finset.mem_range.2 (Nat.mod_lt _ hpos), (Finset.mem_filter.1 hx).2⟩)
  · have hx' := Finset.mem_range.1 (Finset.mem_filter.1 hx).1
    have hy' := Finset.mem_range.1 (Finset.mem_filter.1 hy).1
    exact Nat.ModEq.eq_of_lt_of_lt (Nat.ModEq.add_left_cancel' s.replacementPointer hxy) hx' hy'

theorem advance_lt (s : CacheSetSRRIP) (hpos : 0 < s.associativity) : s.advance.replacementPointer < s.associativity :=
  (Nat.mod_le _ 256).trans_lt (Nat.mod_lt _ hpos)

theorem scanAll_lt (n : ℕ) (hpos : 0 < s.associativity) (hptr : s.replacementPointer < s.associativity) :
    (scanAll n s).2.replacementPointer < s.associativity := by
  induction n generalizing s with
  | zero => exact hptr
  | succ n ih =>
    rw [scanAll]
    dsimp only
    split_ifs
    · exact ih (s := s.setBits s.replacementPointer 0) hpos hptr
    · exact ih (s := s.advance) hpos (s.advance_lt hpos)

theorem roundsAll_one (s : CacheSetSRRIP) : roundsAll (0 + 1) s = (scanAll s.associativity s).1 := List.append_nil _

/-- With `j` rounds to come before the last one, all counters that are still below the number of rounds so far have been
rejected. -/
theorem le_two_mul_roundsAll (hpos : 0 < s.associativity) (hassoc : s.associativity ≤ 256) (hmax : s.rripMax < 256)
    (hptr : s.replacementPointer < s.associativity) (hj : j ≤ s.rripMax) :
    s.associativity ≤ 2 * (roundsAll (j + 1) s).length + (s.low (s.rripMax - j)).card := by
  induction j generalizing s with
  | zero =>
    have hturns := turns_le hpos hassoc hptr le_rfl
    have hwait := s.waiting_le_card_low hpos
    rw [roundsAll_one, Nat.sub_zero]
    omega
  | succ j ih =>
    have hparams := scanAll_associativity s.associativity s
    have hmax' := scanAll_rripMax s.associativity s
    have hlow := card_low_scanAll s.associativity (s.rripMax - (j + 1)) s
    have hptr' := scanAll_lt s.associativity hpos hptr
    rw [roundsAll]
    dsimp only
    generalize scanAll s.associativity s = x at hparams hmax' hlow hptr'
    obtain ⟨l, t⟩ := x
    dsimp only at hparams hmax' hlow hptr' ⊢
    have hrest := ih (s := t.age) (hparams ▸ hpos) (hparams ▸ hassoc) (hmax' ▸ hmax) (hparams ▸ hptr')
      (hmax'.symm ▸ Nat.le_of_succ_le hj)
    change t.associativity ≤ 2 * (roundsAll (j + 1) t.age).length + (t.age.low (t.rripMax - j)).card at hrest
    have haged := Finset.card_le_card (t.low_age (k := t.rripMax - (j + 1)) (hmax'.symm ▸ hmax) (by omega))
    have hround : t.rripMax - (j + 1) + 1 = t.rripMax - j := by omega
    rw [hround, hmax'] at haged
    rw [hmax', hparams] at hrest
    rw [List.length_append]
    omega

/-- At least half of the ways are candidates. -/
theorem le_two_mul_candidates (hpos : 0 < s.associativity) (hassoc : s.associativity ≤ 256) (hmax : s.rripMax < 256)
    (hptr : s.replacementPointer < s.associativity) : s.associativity ≤ 2 * s.candidates.length := by
  have hrounds := le_two_mul_roundsAll hpos hassoc hmax hptr le_rfl
  have hnone : s.low 0 = ∅ := Finset.filter_false_of_mem fun i _ => Nat.not_lt_zero _
  rwa [Nat.sub_self, hnone, Finset.card_empty, Nat.add_zero] at hrounds

/-- A round meets a candidate in every other turn at most. -/
theorem two_mul_scanAll_le (hmax : 0 < s.rripMax) (n : ℕ) : 2 * (scanAll n s).1.length ≤ n + 1 := by
  induction n using Nat.twoStepInduction generalizing s with
  | zero => exact Nat.zero_le _
  | one =>
    rw [scanAll]
    dsimp only
    split_ifs <;> simp [scanAll]
  | more n ih ih' =>
    rw [scanAll]
    dsimp only
    split_ifs with hcand
    · have hreset : ¬(s.setBits s.replacementPointer 0).rripMax ≤
          (s.setBits s.replacementPointer 0).rripBits (s.setBits s.replacementPointer 0).replacementPointer := by
        change ¬s.rripMax ≤ (s.setBits s.replacementPointer 0).rripBits s.replacementPointer
        rw [setBits_self]
        exact Nat.not_le_of_lt hmax
      have hrest := ih (s := (s.setBits s.replacementPointer 0).advance) hmax
      rw [scanAll, if_neg hreset]
      dsimp only
      rw [List.length_cons]
      omega
    · exact (ih' (s := s.advance) hmax).trans (Nat.le_succ _)

/-- A round without a way at the maximum moves the pointer only. -/
theorem scanAll_eq_nil (hpos : 0 < s.associativity) (hptr : s.replacementPointer < s.associativity)
    (hlow : ∀ i < s.associativity, s.rripBits i < s.rripMax) (n : ℕ) :
    (scanAll n s).1 = [] ∧ (scanAll n s).2.rripBits = s.rripBits := by
  induction n generalizing s with
  | zero => exact ⟨rfl, rfl⟩
  | succ n ih =>
    rw [scanAll, if_neg (Nat.not_le_of_lt (hlow _ hptr))]
    exact ih (s := s.advance) hpos (s.advance_lt hpos) hlow

/-- If no counter reaches the maximum before the last round, at most every other way is a candidate. -/
theorem two_mul_roundsAll_le (hpos : 0 < s.associativity) (hmax : s.rripMax < 256) (hmax' : 0 < s.rripMax)
    (hptr : s.replacementPointer < s.associativity) (hlow : ∀ i < s.associativity, s.rripBits i + j ≤ s.rripMax) :
    2 * (roundsAll (j + 1) s).length ≤ s.associativity + 1 := by
  induction j generalizing s with
  | zero =>
    rw [roundsAll_one]
    exact two_mul_scanAll_le hmax' _
  | succ j ih =>
    have hsmall : ∀ i < s.associativity, s.rripBits i < s.rripMax := fun i hi => by
      have hle := hlow i hi
      omega
    obtain ⟨hnil, hbits⟩ := scanAll_eq_nil hpos hptr hsmall s.associativity
    have hparams := scanAll_associativity s.associativity s
    have hparams' := scanAll_rripMax s.associativity s
    have hptr' := scanAll_lt s.associativity hpos hptr
    rw [roundsAll]
    dsimp only
    generalize scanAll s.associativity s = x at hnil hbits hparams hparams' hptr'
    obtain ⟨l, t⟩ := x
    dsimp only at hnil hbits hparams hparams' hptr' ⊢
    rw [hnil, List.nil_append, ← hparams]
    refine ih (s := t.age) (hparams ▸ hpos) (hparams' ▸ hmax) (hparams' ▸ hmax') (hparams ▸ hptr') fun i hi => ?_
    change i < t.associativity at hi
    have hle := hlow i (hparams ▸ hi)
    rw [age_rripBits t (hparams' ▸ hmax) hi, hbits]
    change _ ≤ t.rripMax
    rw [hparams']
    split_ifs <;> omega

/-- Every candidate is a way. -/
theorem scanAll_mem (n : ℕ) (hpos : 0 < s.associativity) (hptr : s.replacementPointer < s.associativity) :
    ∀ i ∈ (scanAll n s).1, i < s.associativity := by
  induction n generalizing s with
  | zero => exact fun i hi => absurd hi List.not_mem_nil
  | succ n ih =>
    rw [scanAll]
    dsimp only
    split_ifs
    · exact List.forall_mem_cons.2 ⟨hptr, ih (s := s.setBits s.replacementPointer 0) hpos hptr⟩
    · exact ih (s := s.advance) hpos (s.advance_lt hpos)

theorem roundsAll_mem (j : ℕ) (hpos : 0 < s.associativity) (hptr : s.replacementPointer < s.associativity) :
    ∀ i ∈ roundsAll j s, i < s.associativity := by
  induction j generalizing s with
  | zero => exact fun i hi => absurd hi List.not_mem_nil
  | succ j ih =>
    have hassoc := scanAll_associativity s.associativity s
    have hmem := scanAll_mem s.associativity hpos hptr
    have hptr' := scanAll_lt s.associativity hpos hptr
    rw [roundsAll]
    generalize scanAll s.associativity s = x at hassoc hmem hptr'
    obtain ⟨l, t⟩ := x
    dsimp only at hassoc hmem hptr' ⊢
    have hrest := ih (s := t.age) (hassoc ▸ hpos) (hassoc ▸ hptr')
    change ∀ i ∈ roundsAll j t.age, i < t.associativity at hrest
    rw [hassoc] at hrest
    exact List.forall_mem_append.2 ⟨hmem, hrest⟩

/-- What the search for a victim ends with. -/
theorem getReplacementIndex_full {blocks : Blocks} (answers : Answers) (hfull : ∀ i < s.associativity,
    (blocks i).isValid = true) :
    (∃ s' way, s.candidates[rejections s.numAttempts answers 0]? = some way ∧
      s.getReplacementIndex blocks answers =
        (require (blocks way).isValidReplacement .invalidReplacementCandidate >>= fun _ => .ok (way, s'))) ∨
    (s.candidates.length ≤ rejections s.numAttempts answers 0 ∧
      s.getReplacementIndex blocks answers = .error .errorFindingReplacementIndex) := by
  rw [getReplacementIndex, firstInvalid_eq_none.2 hfull]
  dsimp only
  cases hway : s.candidates[rejections s.numAttempts answers 0]? with
  | some way =>
    obtain ⟨s', hfound⟩ := rounds_found hway
    refine .inl ⟨s', way, rfl, ?_⟩
    rw [hfound]
    dsimp only
    rw [incrementAttempt_rejections, ok_bind]
  | none =>
    have hle := List.getElem?_eq_none_iff.1 hway
    refine .inr ⟨hle, ?_⟩
    have hnone := rounds_none (j := s.rripMax + 1) hle
    generalize rounds answers (s.rripMax + 1) 0 s = x at hnone
    obtain ⟨found, rest⟩ := x
    cases hnone
    rfl

end CacheSetSRRIP

/-! ### The exact condition -/

/-- The sets with these parameters: every counter is at most the maximum, and the pointer is at a way. -/
structure SrripState (associativity numbits numAttempts : ℕ) (s : CacheSetSRRIP) : Prop where
  bits : ∀ i < associativity, s.rripBits i ≤ 2 ^ numbits - 1
  pointer : s.replacementPointer < associativity
  associativity : s.associativity = associativity
  rripMax : s.rripMax = 2 ^ numbits - 1
  rripInsert : s.rripInsert = 2 ^ numbits - 2
  numAttempts : s.numAttempts = numAttempts

/-- The calls: a replacement in a full set without a line in `SHARED_UPGRADING`, and an access to a way. -/
inductive SrripCall
  | getReplacementIndex (blocks : Blocks) (answers : Answers)
  | updateReplacementIndex (accessed : ℕ)

/-- The calls that are meant. -/
def SrripCall.Allowed (associativity : ℕ) : SrripCall → Prop
  | .getReplacementIndex blocks _ =>
    ∀ i < associativity, (blocks i).isValid = true ∧ (blocks i).isValidReplacement = true
  | .updateReplacementIndex accessed => accessed < associativity

/-- The call ends without an error, and a replacement gives a way. -/
def SrripCall.Succeeds (s : CacheSetSRRIP) : SrripCall → Prop
  | .getReplacementIndex blocks answers =>
    ∃ index s', s.getReplacementIndex blocks answers = .ok (index, s') ∧ index < s.associativity
  | .updateReplacementIndex accessed => ∃ s', s.updateReplacementIndex accessed = .ok s'

/-- There are more candidates than rejections; the counter of the accessed way is below the associativity. -/
def SrripCall.InTime (s : CacheSetSRRIP) : SrripCall → Prop
  | .getReplacementIndex _ answers => rejections s.numAttempts answers 0 < s.candidates.length
  | .updateReplacementIndex accessed => s.rripBits accessed < s.associativity

section Exact

variable {associativity numbits numAttempts : ℕ} {call : SrripCall}

theorem SrripState.succeeds_iff (h : SrripState associativity numbits numAttempts s) (hpos : 1 ≤ associativity)
    (hcall : call.Allowed associativity) : call.Succeeds s ↔ call.InTime s := by
  obtain ⟨-, hptr, rfl, -, -, rfl⟩ := h
  cases call with
  | getReplacementIndex blocks answers =>
    rw [SrripCall.Succeeds, SrripCall.InTime]
    obtain ⟨s', way, hway, hcase⟩ | ⟨hle, hcase⟩ :=
      CacheSetSRRIP.getReplacementIndex_full answers fun i hi => (hcall i hi).1
    · have hmem := CacheSetSRRIP.roundsAll_mem (s.rripMax + 1) hpos hptr way (List.mem_of_getElem? hway)
      rw [hcase, require_of (hcall way hmem).2, ok_bind]
      exact iff_of_true ⟨way, s', rfl, hmem⟩ (List.getElem?_eq_some_iff.1 hway).1
    · rw [hcase]
      refine iff_of_false ?_ (Nat.not_lt_of_le hle)
      rintro ⟨index, s', heq, -⟩
      cases heq
  | updateReplacementIndex accessed =>
    rw [SrripCall.Succeeds, SrripCall.InTime, CacheSetSRRIP.updateReplacementIndex, increment]
    constructor
    · rintro ⟨s', heq⟩
      obtain ⟨u, hin, -⟩ := exists_of_bind_ok heq
      exact require_eq_ok_iff.1 hin
    · intro hin
      rw [require_of hin, ok_bind]
      exact ⟨_, rfl⟩

/-- All counters are zero. -/
def CacheSetSRRIP.zero (associativity numbits numAttempts : ℕ) : CacheSetSRRIP :=
  ⟨associativity, 2 ^ numbits - 1, 2 ^ numbits - 2, numAttempts, fun _ => 0, 0⟩

theorem SrripState.zero (numbits numAttempts : ℕ) (hpos : 1 ≤ associativity) :
    SrripState associativity numbits numAttempts (CacheSetSRRIP.zero associativity numbits numAttempts) :=
  ⟨fun _ _ => Nat.zero_le _, hpos, rfl, rfl, rfl, rfl⟩

theorem SrripState.candidates_le (h : SrripState associativity numbits numAttempts s) (hpos : 1 ≤ associativity)
    (hmax : associativity ≤ 256) (hwidth : numbits ≤ 7) : associativity ≤ 2 * s.candidates.length := by
  obtain ⟨-, hptr, rfl, hrrip, -, -⟩ := h
  have hpow := Nat.pow_le_pow_right (n := 2) (by decide) hwidth
  have hsmall : s.rripMax < 256 := by
    rw [hrrip]
    omega
  exact CacheSetSRRIP.le_two_mul_candidates hpos hmax hsmall hptr

theorem candidates_zero (numAttempts : ℕ) (hpos : 1 ≤ associativity) (hone : 1 ≤ numbits) (hwidth : numbits ≤ 7) :
    2 * (CacheSetSRRIP.zero associativity numbits numAttempts).candidates.length ≤ associativity + 1 := by
  have hpow := Nat.pow_le_pow_right (n := 2) (by decide) hwidth
  have hpow' := Nat.pow_le_pow_right (n := 2) (by decide) hone
  refine CacheSetSRRIP.two_mul_roundsAll_le hpos ?_ ?_ hpos fun i _ => (Nat.zero_add _).le
  · change 2 ^ numbits - 1 < 256
    omega
  · change 0 < 2 ^ numbits - 1
    omega

/-- A call succeeds exactly if the candidates outnumber the rejections, or the counter is below the associativity. All
calls succeed in all states of a cache exactly if there are at most half as many attempts as ways, rounded up, and the
maximum of the counters is below the associativity. -/
theorem srrip_succeeds_iff (hpos : 1 ≤ associativity) (hmax : associativity ≤ 256) (hone : 1 ≤ numbits)
    (hwidth : numbits ≤ 7) (hnum : 1 ≤ numAttempts) :
    (∀ s, SrripState associativity numbits numAttempts s → ∀ call : SrripCall, call.Allowed associativity →
      (call.Succeeds s ↔ call.InTime s)) ∧
    ((∀ s, SrripState associativity numbits numAttempts s → ∀ call : SrripCall, call.Allowed associativity →
      call.Succeeds s) ↔ 2 * numAttempts ≤ associativity + 1 ∧ 2 ^ numbits - 1 < associativity) := by
  have hiff : ∀ s, SrripState associativity numbits numAttempts s → ∀ call : SrripCall, call.Allowed associativity →
      (call.Succeeds s ↔ call.InTime s) := fun s hs call hcall => hs.succeeds_iff hpos hcall
  refine ⟨hiff, ⟨fun hall => ⟨?_, ?_⟩, fun hfits s hs call hcall => (hiff s hs call hcall).2 ?_⟩⟩
  · have hzero := SrripState.zero numbits numAttempts hpos
    have hblocks : ∀ i < associativity, (taggedBlock 0).isValid = true ∧ (taggedBlock 0).isValidReplacement = true :=
      fun _ _ => ⟨rfl, rfl⟩
    have hlt := (hiff _ hzero (.getReplacementIndex (fun _ => taggedBlock 0) fun _ => true) hblocks).1
      (hall _ hzero _ hblocks)
    rw [SrripCall.InTime, rejections_yes] at hlt
    have hle := candidates_zero numAttempts hpos hone hwidth
    change numAttempts - 1 < _ at hlt
    omega
  · have hfull : SrripState associativity numbits numAttempts
        { CacheSetSRRIP.zero associativity numbits numAttempts with rripBits := fun _ => 2 ^ numbits - 1 } :=
      ⟨fun _ _ => le_rfl, hpos, rfl, rfl, rfl, rfl⟩
    exact (hiff _ hfull (.updateReplacementIndex 0) hpos).1 (hall _ hfull _ hpos)
  · cases call with
    | getReplacementIndex blocks answers =>
      have hcandidates := hs.candidates_le hpos hmax hwidth
      have hrejected : 0 + rejections s.numAttempts answers 0 < s.numAttempts := rejections_lt (hs.numAttempts ▸ hnum)
      have hnum' := hs.numAttempts
      rw [SrripCall.InTime]
      omega
    | updateReplacementIndex accessed =>
      have hbits := hs.bits accessed hcall
      have hassoc := hs.associativity
      rw [SrripCall.InTime]
      omega

theorem srrip_succeeds_iff_fourWays :
    (∀ s, SrripState 4 2 2 s → ∀ call : SrripCall, call.Allowed 4 → (call.Succeeds s ↔ call.InTime s)) ∧
    ((∀ s, SrripState 4 2 2 s → ∀ call : SrripCall, call.Allowed 4 → call.Succeeds s) ↔
      2 * 2 ≤ 4 + 1 ∧ 2 ^ 2 - 1 < 4) :=
  srrip_succeeds_iff (by decide) (by decide) (by decide) (by decide) (by decide)

/-- Two ways, two attempts and a rejection: the last round is over before the second way is looked at. -/
theorem srrip_search_fails : ¬ ∀ s, SrripState 2 2 2 s → ∀ call : SrripCall, call.Allowed 2 → call.Succeeds s := by
  intro h
  have hzero := SrripState.zero 2 2 (by decide : 1 ≤ 2)
  obtain ⟨index, s', heq, -⟩ := h _ hzero (.getReplacementIndex (fun _ => taggedBlock 0) fun _ => true)
    fun _ _ => ⟨rfl, rfl⟩
  cases heq

end Exact

end LifeSim.Cache
