import LifeSim.Cache.Upgrades

/-!
# The bookkeeping of NRU

`m_num_bits_set` stands for the number of used bits, but every access increments it, whether or not it sets a bit, and
it has eight bits itself. So it is right exactly in those runs in which every access sets a clear bit, and in which no
access sets the last of 256 bits.
-/

namespace LifeSim.Cache

open LifeSim.Lib

namespace CacheSetNRU

/-- The number of ways whose used bit is set. -/
def bitsSet (s : CacheSetNRU) : ℕ := ((Finset.range s.associativity).filter fun i => s.lruBits i ≠ 0).card

/-- The access to a way sets the last clear bit. -/
def SetsLast (s : CacheSetNRU) (way : ℕ) : Prop :=
  s.lruBits way = 0 ∧ ∀ i < s.associativity, i ≠ way → s.lruBits i ≠ 0

/-- The next access clears the bits. -/
def Clears (s : CacheSetNRU) : Prop := (s.numBitsSet + 1) % 256 = s.associativity

instance (s : CacheSetNRU) : Decidable s.Clears := inferInstanceAs (Decidable (_ = _))

end CacheSetNRU

/-- The calls of `updateReplacementIndex` and of `getReplacementIndex`. -/
inductive NruEvent
  | access (way : ℕ)
  | replace (blocks : Blocks)

/-- The set, with the ways that have been accessed since the bits were last cleared. -/
structure NruRun where
  set : CacheSetNRU
  since : List ℕ

/-- The way that a call accesses. -/
def NruEvent.way (s : CacheSetNRU) : NruEvent → Option ℕ
  | .access way => some way
  | .replace blocks => (s.getReplacementIndex blocks).toOption.map Prod.fst

/-- The ways that have been accessed after one more access. -/
def NruRun.sinceAfter (r : NruRun) (way : ℕ) : List ℕ := if r.set.Clears then [] else way :: r.since

/-- The calls on a set. -/
def nruMachine (associativity : ℕ) : Machine NruRun NruEvent Fault where
  step r
    | .access way => do
      require (way < associativity) .noSuchWay
      return ⟨r.set.updateReplacementIndex way, r.sinceAfter way⟩
    | .replace blocks => do
      let (way, set) ← r.set.getReplacementIndex blocks
      return ⟨set, r.sinceAfter way⟩

/-- A new set. -/
def NruRun.start (associativity : ℕ) : NruRun := ⟨.new associativity, []⟩

/-- The counter is the number of set bits before and after the call, the bits are cleared exactly if the call sets the
last clear one, and the victim of a full set that is not being upgraded has not been accessed. -/
structure NruRight (associativity : ℕ) (r : NruRun) (e : NruEvent) : Prop where
  counts : r.set.numBitsSet = r.set.bitsSet
  step : ∀ r', (nruMachine associativity).step r e = .ok r' → ∀ way ∈ e.way r.set,
    r'.set.numBitsSet = r'.set.bitsSet ∧ ((∀ i < associativity, r'.set.lruBits i = 0) ↔ r.set.SetsLast way)
  victim : ∀ blocks, e = .replace blocks →
    (∀ i < associativity, (blocks i).isValid = true ∧ (blocks i).isValidReplacement = true) →
    ∃ way set, r.set.getReplacementIndex blocks = .ok (way, set) ∧ way < associativity ∧ way ∉ r.since

/-- The call accesses a way whose bit is clear, which is not the last one of 256. -/
def NruClear (associativity : ℕ) (r : NruRun) (e : NruEvent) : Prop :=
  ∀ way ∈ e.way r.set, way < associativity →
    r.set.lruBits way = 0 ∧ ¬ (associativity = 256 ∧ r.set.SetsLast way)

/-! ### One access -/

namespace CacheSetNRU

variable {s : CacheSetNRU} {way : ℕ}

/-- The number of bits after a way has been marked. -/
theorem bitsSet_update (hway : way < s.associativity) {bits : ℕ} {pointer : ℕ} :
    bitsSet { s with lruBits := Function.update s.lruBits way 1, numBitsSet := bits, replacementPointer := pointer } =
      if s.lruBits way = 0 then s.bitsSet + 1 else s.bitsSet := by
  have hfilter : ((Finset.range s.associativity).filter fun i => Function.update s.lruBits way 1 i ≠ 0) =
      insert way ((Finset.range s.associativity).filter fun i => s.lruBits i ≠ 0) := by
    ext i
    rw [Finset.mem_insert, Finset.mem_filter, Finset.mem_filter, Finset.mem_range]
    by_cases hi : i = way
    · subst hi
      simp [hway]
    · simp [hi]
  change ((Finset.range s.associativity).filter fun i => Function.update s.lruBits way 1 i ≠ 0).card = _
  rw [hfilter]
  split_ifs with hclear
  · exact Finset.card_insert_of_notMem (by simp [hclear])
  · rw [Finset.insert_eq_of_mem (by simp [hway, hclear])]
    rfl

/-- An access sets the last clear bit if all others are set. -/
theorem setsLast_iff (hway : way < s.associativity) :
    s.SetsLast way ↔ s.lruBits way = 0 ∧ s.bitsSet + 1 = s.associativity := by
  rw [SetsLast]
  refine and_congr_right fun hclear => ?_
  have hmem : way ∈ (Finset.range s.associativity).filter fun i => s.lruBits i = 0 := by
    rw [Finset.mem_filter, Finset.mem_range]
    exact ⟨hway, hclear⟩
  have hsplit : s.bitsSet + ((Finset.range s.associativity).filter fun i => s.lruBits i = 0).card = s.associativity := by
    have hcard := Finset.card_filter_add_card_filter_not (s := Finset.range s.associativity) fun i => s.lruBits i = 0
    rw [Finset.card_range, Nat.add_comm] at hcard
    exact hcard
  constructor
  · intro hrest
    have hone : ((Finset.range s.associativity).filter fun i => s.lruBits i = 0) = {way} := by
      apply Finset.eq_singleton_iff_unique_mem.2 ⟨hmem, fun i hi => ?_⟩
      rw [Finset.mem_filter, Finset.mem_range] at hi
      by_contra hne
      exact hrest i hi.1 hne hi.2
    rw [hone, Finset.card_singleton] at hsplit
    exact hsplit
  · intro hcount i hi hne hzero
    have hone : ((Finset.range s.associativity).filter fun i => s.lruBits i = 0).card = 1 := by omega
    obtain ⟨a, ha⟩ := Finset.card_eq_one.1 hone
    have hother : i ∈ (Finset.range s.associativity).filter fun i => s.lruBits i = 0 := by
      rw [Finset.mem_filter, Finset.mem_range]
      exact ⟨hi, hzero⟩
    rw [ha, Finset.mem_singleton] at hmem hother
    exact hne (hother.trans hmem.symm)

end CacheSetNRU

/-! ### Every call is one access -/

/-- What every call keeps as long as the counter is right. -/
structure NruInv (associativity : ℕ) (r : NruRun) : Prop where
  ways : r.set.associativity = associativity
  pointer : r.set.replacementPointer < min associativity 256
  inside : ∀ i, r.set.lruBits i ≠ 0 → i < associativity
  since : ∀ i, i ∈ r.since ↔ r.set.lruBits i ≠ 0
  counts : r.set.numBitsSet = r.set.bitsSet
  room : r.set.bitsSet < associativity

theorem nruInv_start {associativity : ℕ} (hpos : 0 < associativity) : NruInv associativity (.start associativity) where
  ways := rfl
  pointer := Nat.lt_min.2 ⟨hpos, Nat.succ_pos 255⟩
  inside i hi := absurd rfl hi
  since i := iff_of_false (List.not_mem_nil) (not_not_intro rfl)
  counts := by
    change 0 = ((Finset.range associativity).filter fun _ => (0 : ℕ) ≠ 0).card
    simp
  room := by
    change ((Finset.range associativity).filter fun _ => (0 : ℕ) ≠ 0).card < associativity
    simpa using hpos

variable {associativity : ℕ} {r r' : NruRun} {e : NruEvent} {way : ℕ}

/-- A call accesses a way of the set, and moves the pointer. -/
theorem nruMachine_step (h : NruInv associativity r) (hstep : (nruMachine associativity).step r e = .ok r') :
    ∃ way pointer, e.way r.set = some way ∧ way < associativity ∧ pointer < min associativity 256 ∧
      r' = ⟨{ r.set with replacementPointer := pointer }.updateReplacementIndex way, r.sinceAfter way⟩ := by
  cases e with
  | access way =>
    simp only [nruMachine, require] at hstep
    by_cases hway : way < associativity
    · rw [if_pos hway] at hstep
      cases hstep
      exact ⟨way, r.set.replacementPointer, rfl, hway, h.pointer, rfl⟩
    · rw [if_neg hway] at hstep
      cases hstep
  | replace blocks =>
    have hpointer := h.pointer
    simp only [nruMachine] at hstep
    rw [NruEvent.way]
    rw [CacheSetNRU.getReplacementIndex] at hstep ⊢
    cases hfirst : firstInvalid r.set.associativity blocks with
    | some i =>
      rw [hfirst] at hstep
      cases hstep
      refine ⟨i, r.set.replacementPointer, rfl, ?_, h.pointer, rfl⟩
      rw [← h.ways]
      exact (firstInvalid_eq_some.1 hfirst).1
    | none =>
      rw [hfirst] at hstep
      dsimp only at hstep ⊢
      rw [← h.ways] at hpointer
      cases hfound : pointerScan r.set.associativity (r.set.test blocks) r.set.associativity r.set.replacementPointer with
      | none =>
        rw [hfound] at hstep
        cases hstep
      | some i =>
        rw [hfound] at hstep
        cases hstep
        have hlt := pointerScan_lt hpointer hfound
        rw [h.ways] at hlt
        refine ⟨i, nextPointer r.set.associativity i, rfl, (Nat.lt_min.1 hlt).1, ?_, rfl⟩
        rw [h.ways]
        exact nextPointer_lt hlt

/-- When the access clears the bits. -/
theorem update_of_clears (hclears : r.set.Clears) (pointer : ℕ) :
    CacheSetNRU.updateReplacementIndex { r.set with replacementPointer := pointer } way =
      { r.set with replacementPointer := pointer, lruBits := fun _ => 0, numBitsSet := 0 } := if_pos hclears

/-- When it does not. -/
theorem update_of_not_clears (hclears : ¬ r.set.Clears) (pointer : ℕ) :
    CacheSetNRU.updateReplacementIndex { r.set with replacementPointer := pointer } way =
      { r.set with replacementPointer := pointer, lruBits := Function.update r.set.lruBits way 1,
                   numBitsSet := (r.set.numBitsSet + 1) % 256 } := if_neg hclears

theorem bitsSet_cleared (s : CacheSetNRU) : CacheSetNRU.bitsSet { s with lruBits := fun _ => 0 } = 0 := by
  change ((Finset.range s.associativity).filter fun _ => (0 : ℕ) ≠ 0).card = 0
  simp

/-- The counter and the clearing are right after an access exactly if it sets a clear bit, but not the last one of 256. -/
theorem access_right_iff (h : NruInv associativity r) (hle : associativity ≤ 256) (hway : way < associativity)
    (pointer : ℕ) :
    let s := CacheSetNRU.updateReplacementIndex { r.set with replacementPointer := pointer } way
    (s.numBitsSet = s.bitsSet ∧ ((∀ i < associativity, s.lruBits i = 0) ↔ r.set.SetsLast way)) ↔
      r.set.lruBits way = 0 ∧ ¬ (associativity = 256 ∧ r.set.SetsLast way) := by
  have hcounts := h.counts
  have hroom := h.room
  have hways := h.ways
  have hlast := CacheSetNRU.setsLast_iff (hways.symm ▸ hway : way < r.set.associativity)
  rw [hways] at hlast
  rw [hlast]
  by_cases hclears : r.set.Clears
  · rw [update_of_clears hclears]
    have hnum : (r.set.numBitsSet + 1) % 256 = r.set.associativity := hclears
    have hzero : CacheSetNRU.bitsSet
        { r.set with replacementPointer := pointer, lruBits := fun _ => 0, numBitsSet := 0 } = 0 :=
      bitsSet_cleared { r.set with replacementPointer := pointer, numBitsSet := 0 }
    dsimp only
    rw [hzero]
    have hall : (∀ i < associativity, (0 : ℕ) = 0) ↔ True := iff_of_true (fun _ _ => rfl) trivial
    rw [hall]
    have hsum : r.set.bitsSet + 1 = associativity := by omega
    have hsmall : associativity ≠ 256 := by omega
    simp [hsum, hsmall]
  · rw [update_of_not_clears hclears]
    have hnum : (r.set.numBitsSet + 1) % 256 ≠ r.set.associativity := hclears
    dsimp only
    rw [CacheSetNRU.bitsSet_update (hways.symm ▸ hway)]
    have hmarked : ¬ ∀ i < associativity, Function.update r.set.lruBits way 1 i = 0 := by
      intro hall
      have hone := hall way hway
      rw [Function.update_self] at hone
      cases hone
    rw [iff_false_left hmarked]
    split_ifs with hclear
    · constructor
      · rintro ⟨hcount, hnot⟩
        exact ⟨hclear, fun hlast => hnot hlast.2⟩
      · rintro ⟨-, hnot⟩
        have hless : r.set.bitsSet + 1 ≠ associativity := by
          intro hsum
          exact hnot ⟨by omega, hclear, hsum⟩
        refine ⟨by omega, fun hlast => hless hlast.2⟩
    · constructor
      · rintro ⟨hcount, -⟩
        omega
      · rintro ⟨hzero, -⟩
        exact absurd hzero hclear

/-- A right access keeps the counter right. -/
theorem NruInv.step (h : NruInv associativity r) (hle : associativity ≤ 256) (hclear : NruClear associativity r e)
    (hstep : (nruMachine associativity).step r e = .ok r') : NruInv associativity r' := by
  obtain ⟨way, pointer, hevent, hway, hpointer, rfl⟩ := nruMachine_step h hstep
  have hbits := hclear way hevent hway
  have hright := ((access_right_iff h hle hway pointer).2 hbits).1
  have hways := h.ways
  have hlast := CacheSetNRU.setsLast_iff (hways.symm ▸ hway : way < r.set.associativity)
  by_cases hclears : r.set.Clears
  · rw [NruRun.sinceAfter, if_pos hclears]
    rw [update_of_clears hclears] at hright ⊢
    refine ⟨hways, hpointer, fun i hi => absurd rfl hi, fun i => ?_, hright, ?_⟩
    · exact iff_of_false List.not_mem_nil (not_not_intro rfl)
    · rw [← hright]
      change 0 < associativity
      omega
  · rw [NruRun.sinceAfter, if_neg hclears]
    rw [update_of_not_clears hclears] at hright ⊢
    refine ⟨hways, hpointer, fun i hi => ?_, fun i => ?_, hright, ?_⟩
    · change Function.update r.set.lruBits way 1 i ≠ 0 at hi
      by_cases heq : i = way
      · exact heq ▸ hway
      · rw [Function.update_of_ne heq] at hi
        exact h.inside i hi
    · change i ∈ way :: r.since ↔ Function.update r.set.lruBits way 1 i ≠ 0
      rw [List.mem_cons]
      by_cases heq : i = way
      · rw [heq, Function.update_self]
        exact iff_of_true (.inl rfl) Nat.one_ne_zero
      · rw [Function.update_of_ne heq, ← h.since]
        exact or_iff_right heq
    · rw [CacheSetNRU.bitsSet_update (hways.symm ▸ hway), if_pos hbits.1]
      have hroom := h.room
      have hnum : (r.set.numBitsSet + 1) % 256 ≠ r.set.associativity := hclears
      have hcounts := h.counts
      by_contra hfull
      exact hbits.2 ⟨by omega, hlast.2 ⟨hbits.1, by omega⟩⟩

/-- A set whose counter is right has a way that has not been accessed, and the search finds one. -/
theorem NruInv.victim (h : NruInv associativity r) (hle : associativity ≤ 256) {blocks : Blocks}
    (hblocks : ∀ i < associativity, (blocks i).isValid = true ∧ (blocks i).isValidReplacement = true) :
    ∃ way set, r.set.getReplacementIndex blocks = .ok (way, set) ∧ way < associativity ∧ way ∉ r.since := by
  have hways := h.ways
  have hpointer := h.pointer
  have hroom := h.room
  rw [← hways] at hblocks hpointer hroom hle ⊢
  have hfirst : firstInvalid r.set.associativity blocks = none :=
    firstInvalid_eq_none.2 fun i hi => (hblocks i hi).1
  have hclear : ∃ i < r.set.associativity, r.set.lruBits i = 0 := by
    by_contra hnot
    simp only [not_exists, not_and] at hnot
    apply hroom.ne
    rw [CacheSetNRU.bitsSet, Finset.filter_true_of_mem fun i hi => hnot i (Finset.mem_range.1 hi), Finset.card_range]
  obtain ⟨i, hi, hzero⟩ := hclear
  have hhave : r.set.haveZeroBit blocks = true := by
    rw [CacheSetNRU.haveZeroBit, List.any_eq_true]
    exact ⟨i, List.mem_range.2 hi, by simp [hzero, (hblocks i hi).2]⟩
  have htest (j : ℕ) : r.set.test blocks j = (decide (r.set.lruBits j = 0) && (blocks j).isValidReplacement) := by
    rw [CacheSetNRU.test, hhave, Bool.not_true, Bool.or_false]
  rw [CacheSetNRU.getReplacementIndex, hfirst]
  rcases pointerScan_spec (r.set.test blocks) hpointer with ⟨j, hj, hfound, hmeets⟩ | ⟨-, hnone⟩
  · refine ⟨j, _, by rw [hfound]; rfl, (Nat.lt_min.1 hj).1, ?_⟩
    rw [htest, Bool.and_eq_true, decide_eq_true_eq] at hmeets
    rw [h.since]
    exact not_not_intro hmeets.1
  · have hfalse := hnone i (Nat.lt_min.2 ⟨hi, by omega⟩)
    rw [htest] at hfalse
    simp [hzero, (hblocks i hi).2] at hfalse

theorem nruRight_iff (h : NruInv associativity r) (hle : associativity ≤ 256) (e : NruEvent) :
    NruRight associativity r e ↔ NruClear associativity r e := by
  constructor
  · intro hright way hevent hway
    have hok : ∃ pointer, (nruMachine associativity).step r e =
        .ok ⟨CacheSetNRU.updateReplacementIndex { r.set with replacementPointer := pointer } way, r.sinceAfter way⟩ := by
      cases hstep : (nruMachine associativity).step r e with
      | ok r' =>
        obtain ⟨way', pointer, hevent', -, -, heq⟩ := nruMachine_step h hstep
        rw [Option.mem_def, hevent'] at hevent
        cases hevent
        exact ⟨pointer, by rw [heq]⟩
      | error f =>
        exfalso
        cases e with
        | access way' =>
          cases hevent
          simp only [nruMachine, require, if_pos hway] at hstep
          cases hstep
        | replace blocks =>
          simp only [nruMachine] at hstep
          rw [NruEvent.way] at hevent
          cases hget : r.set.getReplacementIndex blocks with
          | ok x =>
            rw [hget] at hstep
            cases hstep
          | error g =>
            rw [hget] at hevent
            cases hevent
    obtain ⟨pointer, hstep⟩ := hok
    exact (access_right_iff h hle hway pointer).1 (hright.step _ hstep way hevent)
  · intro hclear
    refine ⟨h.counts, fun r' hstep way hevent => ?_, fun blocks _ hblocks => h.victim hle hblocks⟩
    obtain ⟨way', pointer, hevent', hway, -, rfl⟩ := nruMachine_step h hstep
    rw [Option.mem_def, hevent'] at hevent
    cases hevent
    exact (access_right_iff h hle hway pointer).2 (hclear way hevent' hway)

/-- The policy is NRU in a run exactly if every access sets a clear bit, which is not the last one of 256. -/
theorem nru_right_iff (associativity : ℕ) (htwo : 2 ≤ associativity) (hle : associativity ≤ 256)
    (events : List NruEvent) :
    (nruMachine associativity).Guarded (NruRight associativity) (.start associativity) events ↔
      (nruMachine associativity).Guarded (NruClear associativity) (.start associativity) events := by
  apply (nruMachine associativity).guarded_congr_of_kept (P := NruInv associativity) _ _
    (nruInv_start (by omega)) ((nruMachine associativity).guarded_true _ _)
  · exact fun _ _ _ h _ hclear hstep => h.step hle hclear hstep
  · exact fun _ e h _ => nruRight_iff h hle e

/-- The first access of a way of a set with fewer than 256 ways. -/
theorem nruClear_access (hsmall : associativity ≠ 256) (hclear : r.set.lruBits way = 0) :
    NruClear associativity r (.access way) := by
  intro accessed haccessed _
  rw [NruEvent.way, Option.mem_some_iff] at haccessed
  rw [← haccessed]
  exact ⟨hclear, fun hlast => hsmall hlast.1⟩

/-- Each of two ways is accessed once. -/
theorem nru_right_twoWays :
    (nruMachine 2).Guarded (NruRight 2) (.start 2) [.access 0, .access 1] := by
  apply (nru_right_iff 2 (by decide) (by decide) _).2
  apply Machine.Guarded.cons_final (by decide +kernel)
  · exact nruClear_access (by decide) (by decide +kernel)
  · apply Machine.Guarded.cons_final (by decide +kernel)
    · exact nruClear_access (by decide) (by decide +kernel)
    · trivial

/-- One of two ways is accessed twice, and the bits are cleared. -/
theorem nru_repeated_access :
    ¬ (nruMachine 2).Guarded (NruRight 2) (.start 2) [.access 0, .access 0] := by
  intro h
  have happend : (nruMachine 2).Guarded (NruRight 2) (.start 2) ([.access 0] ++ [.access 0]) := h
  have hrun := (nruMachine 2).run_final
    (show ((nruMachine 2).run (.start 2) [NruEvent.access 0]).isOk = true by decide +kernel)
  have hinv : NruInv 2 ((nruMachine 2).final (.start 2) [.access 0]) := by
    obtain ⟨r', hr', hnil⟩ := (nruMachine 2).run_cons_ok hrun
    rw [Machine.run_nil] at hnil
    cases hnil
    exact (nruInv_start (by decide)).step (by decide) (nruClear_access (by decide) (by decide +kernel)) hr'
  have hright := happend.at_event hrun
  have hclear := ((nruRight_iff hinv (by decide) _).1 hright 0 rfl (by decide)).1
  revert hclear
  decide +kernel

end LifeSim.Cache
