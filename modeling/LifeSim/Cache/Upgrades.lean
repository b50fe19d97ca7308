import LifeSim.Cache.Victim
import LifeSim.Lib.Machine

/-!
# Replacement states in the course of a run

The states that a policy can reach from its constructor by accesses and replacements, whatever the blocks are at the time
of each call, and what becomes of a block that is being upgraded.
-/

namespace LifeSim.Cache

open LifeSim.Lib

/-- The two calls that change a replacement state. -/
inductive ReplacementEvent
  | access (way : ℕ)
  | replace (calls : ℕ) (blocks : Blocks) (answers : Answers)

/-- One call. An access is to a way that has been found. -/
def replacementMachine (associativity : ℕ) : Machine Replacement ReplacementEvent Fault where
  step s
    | .access way => do
      require (way < associativity) .noSuchWay
      s.updateReplacementIndex way
    | .replace calls blocks answers => Prod.snd <$> s.getReplacementIndex calls blocks answers

namespace Replacement

/-- What every call keeps: indices and pointers name ways, and ages have eight bits. -/
def Inv (associativity : ℕ) : Replacement → Prop
  | roundRobin s => s.associativity = associativity ∧ s.replacementIndex < associativity
  | lru s => s.associativity = associativity ∧ ∀ i, s.lruBits i < 256
  | nru s => s.associativity = associativity ∧ s.replacementPointer < min associativity 256
  | mru s => s.associativity = associativity ∧ ∀ i < associativity, s.lruBits i < associativity
  | nmru s => s.associativity = associativity ∧ s.replacementPointer < min associativity 256
  | plru s => s.associativity = associativity ∧ (associativity = 4 ∨ associativity = 8)
  | srrip s => s.associativity = associativity ∧ s.replacementPointer < associativity
  | random s => s.associativity = associativity

variable {associativity : ℕ} {s : Replacement} {blocks : Blocks} {answers : Answers}

theorem inv_createCacheSet (hpos : 0 < associativity) (cfg : ReplacementConfig) (policy : ReplacementPolicy) :
    Ensures (createCacheSet cfg associativity policy) (Inv associativity) fun _ => True := by
  have hsmall (i : ℕ) : i % 256 < 256 := Nat.mod_lt i (Nat.succ_pos 255)
  cases policy with
  | roundRobin => exact ⟨rfl, Nat.sub_lt hpos Nat.one_pos⟩
  | lru => exact ⟨rfl, hsmall⟩
  | lruQbs => exact ⟨rfl, hsmall⟩
  | nru => exact ⟨rfl, Nat.lt_min.2 ⟨hpos, Nat.succ_pos 255⟩⟩
  | mru => exact ⟨rfl, fun i hi => (Nat.mod_le i 256).trans_lt hi⟩
  | nmru => exact ⟨rfl, Nat.lt_min.2 ⟨hpos, Nat.succ_pos 255⟩⟩
  | plru =>
    refine Ensures.map ?_
    rw [CacheSetPLRU.new]
    split_ifs with h
    · exact ⟨rfl, h⟩
    · exact trivial
  | srrip => exact ⟨rfl, hpos⟩
  | srripQbs => exact ⟨rfl, hpos⟩
  | random => exact rfl

end Replacement

/-! ### What the calls keep -/

theorem CacheSetRoundRobin.next_lt {s : CacheSetRoundRobin} (hindex : s.replacementIndex < s.associativity) :
    s.next.replacementIndex < s.associativity := by
  rw [next]
  dsimp only
  split_ifs <;> omega

theorem CacheSetRoundRobin.getReplacementIndex_keeps {s : CacheSetRoundRobin} {blocks : Blocks} (calls : ℕ)
    (hindex : s.replacementIndex < s.associativity) : Ensures (s.getReplacementIndex blocks calls)
      (fun x => x.2.associativity = s.associativity ∧ x.2.replacementIndex < s.associativity) fun _ => True := by
  induction calls generalizing s with
  | zero => exact trivial
  | succ calls ih =>
    rw [getReplacementIndex]
    split_ifs
    · exact ⟨rfl, next_lt hindex⟩
    · exact ih (s := s.next) (next_lt hindex)

theorem CacheSetLRU.attempts_keeps {s : CacheSetLRU} {blocks : Blocks} {answers : Answers} (left attempt : ℕ)
    (hbits : ∀ i, s.lruBits i < 256) : Ensures (attempts blocks answers left attempt s)
      (fun x => x.2.associativity = s.associativity ∧ ∀ i, x.2.lruBits i < 256) fun _ => True := by
  induction left generalizing attempt s with
  | zero => exact trivial
  | succ left ih =>
    rw [attempts]
    generalize (s.search blocks s.associativity).1 = index
    have hmoved := moveToMRU_lt hbits index
    apply Ensures.bind_any
    intro _
    split_ifs
    · exact (ih (attempt + 1) hmoved).bind fun x hx => hx
    · exact .bind_any fun _ => ⟨rfl, hmoved⟩

theorem moveToFrontBits_lt {associativity accessed : ℕ} {bits : ℕ → ℕ} (hbits : ∀ i < associativity,
    bits i < associativity)
    (haccessed : accessed < associativity) :
    ∀ i < associativity, moveToFrontBits associativity bits accessed i < associativity := by
  intro i hi
  have hold := hbits accessed haccessed
  have hkeep := hbits i hi
  have hmod := Nat.mod_le (bits i + 1) 256
  rw [moveToFrontBits]
  split_ifs <;> omega

namespace CacheSetSRRIP

variable {s : CacheSetSRRIP} {answers : Answers}

/-- The associativity stays, and the pointer is at a way. -/
def Keeps (s t : CacheSetSRRIP) : Prop :=
  t.associativity = s.associativity ∧ t.replacementPointer < s.associativity

theorem scan_keeps (answers : Answers) (n attempt : ℕ) (hptr : s.replacementPointer < s.associativity) :
    s.Keeps (scan answers n attempt s).2.2 := by
  have hpos : 0 < s.associativity := Nat.zero_lt_of_lt hptr
  induction n generalizing attempt s with
  | zero => exact ⟨rfl, hptr⟩
  | succ n ih =>
    rw [scan]
    split_ifs
    · exact ih (s := s.setBits s.replacementPointer 0) (attempt + 1) hptr hpos
    · exact ⟨rfl, s.advance_lt hpos⟩
    · exact ih (s := s.advance) attempt (s.advance_lt hpos) hpos

theorem rounds_keeps (answers : Answers) (j attempt : ℕ) (hptr : s.replacementPointer < s.associativity) :
    s.Keeps (rounds answers j attempt s).2.2 := by
  induction j generalizing attempt s with
  | zero => exact ⟨rfl, hptr⟩
  | succ j ih =>
    have hscan := scan_keeps answers s.associativity attempt hptr
    rw [rounds]
    generalize scan answers s.associativity attempt s = x at hscan
    obtain ⟨found, attempt', t⟩ := x
    obtain ⟨hassoc, hptr'⟩ := hscan
    cases found with
    | some index => exact ⟨hassoc, hptr'⟩
    | none =>
      have hrest := ih (s := t.age) attempt' (hassoc.symm ▸ hptr')
      exact ⟨hrest.1.trans hassoc, hassoc ▸ hrest.2⟩

theorem getReplacementIndex_keeps {blocks : Blocks} (hptr : s.replacementPointer < s.associativity) :
    Ensures (s.getReplacementIndex blocks answers) (fun x => s.Keeps x.2) fun _ => True := by
  rw [getReplacementIndex]
  split
  · exact ⟨rfl, hptr⟩
  · have hrounds := rounds_keeps answers (s.rripMax + 1) 0 hptr
    generalize rounds answers (s.rripMax + 1) 0 s = x at hrounds
    obtain ⟨found, attempt, t⟩ := x
    cases found with
    | none => exact trivial
    | some index =>
      exact .bind_any fun _ => .bind_any fun _ => hrounds

end CacheSetSRRIP

theorem CacheSetRandom.getReplacementIndex_keeps {s : CacheSetRandom} {blocks : Blocks} (calls : ℕ) :
    Ensures (s.getReplacementIndex blocks calls) (fun x => x.2.associativity = s.associativity) fun _ => True := by
  induction calls generalizing s with
  | zero => exact trivial
  | succ calls ih =>
    rw [getReplacementIndex]
    split
    · exact rfl
    · dsimp only
      split_ifs
      · exact rfl
      · exact ih

theorem CacheSetNRU.updateReplacementIndex_keeps (s : CacheSetNRU) (way : ℕ) :
    (s.updateReplacementIndex way).associativity = s.associativity ∧
      (s.updateReplacementIndex way).replacementPointer = s.replacementPointer := by
  rw [updateReplacementIndex]
  split_ifs <;> exact ⟨rfl, rfl⟩

theorem CacheSetPLRU.updateReplacementIndex_associativity (s : CacheSetPLRU) (way : ℕ) :
    (s.updateReplacementIndex way).associativity = s.associativity := by
  unfold updateReplacementIndex
  split_ifs <;> split <;> rfl

theorem nextPointer_lt {associativity pointer : ℕ} (hptr : pointer < min associativity 256) :
    nextPointer associativity pointer < min associativity 256 :=
  iterate_nextPointer_lt hptr 1

theorem ensures_chosen {σ : Type} {f : ℕ → σ} {found : Option ℕ} {Q : ℕ × σ → Prop} (h : ∀ i ∈ found, Q (i, f i)) :
    Ensures (chosen f found) Q fun _ => True := by
  cases found with
  | none => exact trivial
  | some i => exact h i rfl

namespace Replacement

variable {associativity : ℕ} {s : Replacement} {blocks : Blocks} {answers : Answers}

theorem Inv.updateReplacementIndex {way : ℕ} (h : Inv associativity s) (hway : way < associativity) :
    Ensures (s.updateReplacementIndex way) (Inv associativity) fun _ => True := by
  cases s with
  | roundRobin s => exact h
  | lru s => exact .map (.bind_any fun _ => ⟨h.1, CacheSetLRU.moveToMRU_lt h.2 way⟩)
  | nru s =>
    obtain ⟨hassoc, hptr⟩ := s.updateReplacementIndex_keeps way
    exact ⟨hassoc.trans h.1, hptr ▸ h.2⟩
  | mru s =>
    obtain ⟨rfl, hbits⟩ := h
    exact ⟨rfl, moveToFrontBits_lt hbits hway⟩
  | nmru s => exact h
  | plru s => exact ⟨(s.updateReplacementIndex_associativity way).trans h.1, h.2⟩
  | srrip s => exact .map (.bind_any fun _ => h)
  | random s => exact h

theorem Inv.getReplacementIndex (h : Inv associativity s) (calls : ℕ) :
    Ensures (s.getReplacementIndex calls blocks answers) (fun x => Inv associativity x.2) fun _ => True := by
  cases s with
  | roundRobin s =>
    obtain ⟨rfl, hindex⟩ := h
    exact Ensures.map (CacheSetRoundRobin.getReplacementIndex_keeps calls hindex)
  | lru s =>
    obtain ⟨rfl, hbits⟩ := h
    refine Ensures.map ?_
    rw [CacheSetLRU.getReplacementIndex]
    split
    · exact ⟨rfl, CacheSetLRU.moveToMRU_lt hbits _⟩
    · exact CacheSetLRU.attempts_keeps s.numAttempts 0 hbits
  | nru s =>
    obtain ⟨rfl, hptr⟩ := h
    refine Ensures.map ?_
    rw [CacheSetNRU.getReplacementIndex]
    split
    · obtain ⟨hassoc, hptr'⟩ := s.updateReplacementIndex_keeps _
      exact ⟨hassoc, hptr' ▸ hptr⟩
    · refine ensures_chosen fun i hi => ?_
      have hlt := nextPointer_lt (pointerScan_lt hptr hi)
      obtain ⟨hassoc, hptr'⟩ := CacheSetNRU.updateReplacementIndex_keeps _ i
      exact ⟨hassoc, hptr' ▸ hlt⟩
  | mru s =>
    obtain ⟨rfl, hbits⟩ := h
    refine Ensures.map ?_
    rw [CacheSetMRU.getReplacementIndex]
    split
    · rename_i i hfirst
      exact ⟨rfl, moveToFrontBits_lt hbits (firstInvalid_eq_some.1 hfirst).1⟩
    · exact ensures_chosen fun i hi => ⟨rfl, moveToFrontBits_lt hbits (CacheSetMRU.of_youngest hi).1⟩
  | nmru s =>
    obtain ⟨rfl, hptr⟩ := h
    refine Ensures.map ?_
    rw [CacheSetNMRU.getReplacementIndex]
    split
    · exact ⟨rfl, hptr⟩
    · exact ensures_chosen fun i hi => ⟨rfl, nextPointer_lt (pointerScan_lt hptr hi)⟩
  | plru s =>
    refine Ensures.map ?_
    rw [CacheSetPLRU.getReplacementIndex]
    split
    · exact ⟨(s.updateReplacementIndex_associativity _).trans h.1, h.2⟩
    · exact .bind_any fun _ => ⟨(s.updateReplacementIndex_associativity _).trans h.1, h.2⟩
  | srrip s =>
    obtain ⟨rfl, hptr⟩ := h
    exact Ensures.map (CacheSetSRRIP.getReplacementIndex_keeps hptr)
  | random s =>
    refine Ensures.map ((CacheSetRandom.getReplacementIndex_keeps calls).mono (fun x hx => ?_) fun _ h => h)
    exact hx.trans h

theorem Inv.step {s' : Replacement} {e : ReplacementEvent} (h : Inv associativity s)
    (hstep : (replacementMachine associativity).step s e = .ok s') : Inv associativity s' := by
  cases e with
  | access way =>
    obtain ⟨u, hway, hupdate⟩ := exists_of_bind_ok hstep
    exact (h.updateReplacementIndex (require_eq_ok_iff.1 hway)).of_ok hupdate
  | replace calls blocks answers =>
    have hkeeps : Ensures (Prod.snd <$> s.getReplacementIndex calls blocks answers) (Inv associativity) fun _ => True :=
      Ensures.map (h.getReplacementIndex calls)
    exact hkeeps.of_ok hstep

/-- When the policy finds a way that is not being upgraded. -/
def FindsSpare (blocks : Blocks) (answers : Answers) : Replacement → Prop
  | roundRobin s =>
    (blocks s.replacementIndex).isValidReplacement = true ∧ (blocks s.next.replacementIndex).isValidReplacement = true
  | lru s => 0 < s.numAttempts ∧
    CacheSetLRU.Finds s.associativity blocks s.lruBits (rejections s.numAttempts answers 0)
  | nru s => ∃ i < min s.associativity 256, s.test blocks i = true
  | mru _ => True
  | nmru s => ∃ i < min s.associativity 256, s.test blocks i = true
  | plru s => (blocks s.victim).isValidReplacement = true
  | srrip s => ∃ way, s.candidates[rejections s.numAttempts answers 0]? = some way ∧
    (blocks way).isValidReplacement = true
  | random s => ∃ i < min s.associativity 32768, (blocks i).isValidReplacement = true

theorem Inv.spares_iff (h : Inv associativity s) (hblocks : PartlyUpgrading associativity blocks) :
    (∃ calls, Spares associativity blocks (s.getReplacementIndex calls blocks answers)) ↔
      s.FindsSpare blocks answers := by
  obtain ⟨i, hi, -⟩ := hblocks.rest
  cases s with
  | roundRobin s =>
    obtain ⟨rfl, hindex⟩ := h
    simp only [Replacement.getReplacementIndex, spares_map_iff]
    exact CacheSetRoundRobin.spares_iff hindex
  | lru s =>
    obtain ⟨rfl, hbits⟩ := h
    simp only [Replacement.getReplacementIndex, spares_map_iff, exists_const]
    exact CacheSetLRU.spares_iff hbits hblocks
  | nru s =>
    obtain ⟨rfl, hptr⟩ := h
    simp only [Replacement.getReplacementIndex, spares_map_iff, exists_const]
    exact CacheSetNRU.spares_iff hptr hblocks.full
  | mru s =>
    obtain ⟨rfl, hbits⟩ := h
    simp only [Replacement.getReplacementIndex, spares_map_iff, exists_const]
    exact iff_of_true (CacheSetMRU.spares hbits hblocks) trivial
  | nmru s =>
    obtain ⟨rfl, hptr⟩ := h
    simp only [Replacement.getReplacementIndex, spares_map_iff, exists_const]
    exact CacheSetNMRU.spares_iff hptr hblocks.full
  | plru s =>
    obtain ⟨rfl, hassoc⟩ := h
    simp only [Replacement.getReplacementIndex, spares_map_iff, exists_const]
    exact CacheSetPLRU.spares_iff hassoc hblocks.full
  | srrip s =>
    obtain ⟨rfl, hptr⟩ := h
    simp only [Replacement.getReplacementIndex, spares_map_iff, exists_const]
    exact CacheSetSRRIP.spares_iff hptr hblocks.full
  | random s =>
    obtain rfl := h
    simp only [Replacement.getReplacementIndex, spares_map_iff]
    exact CacheSetRandom.spares_iff hblocks.full (Nat.zero_lt_of_lt hi)

end Replacement

/-- In every reachable state of every policy, a replacement in a full set with some blocks in `SHARED_UPGRADING` spares
these exactly under the condition of its policy. -/
theorem victim_spares_iff {associativity : ℕ} {cfg : ReplacementConfig} {policy : ReplacementPolicy} {start s : Replacement}
    (hcreate : Replacement.createCacheSet cfg associativity policy = .ok start)
    (hreach : (replacementMachine associativity).Reachable start s) {blocks : Blocks}
    (hblocks : PartlyUpgrading associativity blocks) (answers : Answers) :
    (∃ calls, Spares associativity blocks (s.getReplacementIndex calls blocks answers)) ↔
      s.FindsSpare blocks answers := by
  obtain ⟨i, hi, -⟩ := hblocks.rest
  have hstart := (Replacement.inv_createCacheSet (Nat.zero_lt_of_lt hi) cfg policy).of_ok hcreate
  exact (hreach.invariant hstart fun s e s' h hstep => h.step hstep).spares_iff hblocks

/-- Two blocks, and the second one is being upgraded. -/
def secondUpgrading : Blocks := fun i => if i = 1 then { taggedBlock 1 with cstate := .sharedUpgrading } else taggedBlock 0

theorem secondUpgrading_partly : PartlyUpgrading 2 secondUpgrading := by
  refine ⟨fun i hi => ?_, ⟨1, by decide, rfl⟩, ⟨0, by decide, rfl⟩⟩
  interval_cases i <;> rfl

theorem victim_spares_iff_mru :
    (∃ calls, Spares 2 secondUpgrading
      ((Replacement.mru (CacheSetMRU.new 2)).getReplacementIndex calls secondUpgrading fun _ => false)) ↔
      (Replacement.mru (CacheSetMRU.new 2)).FindsSpare secondUpgrading fun _ => false :=
  @victim_spares_iff 2 ⟨1, 2, 0⟩ .mru _ _ rfl (Machine.reachable_refl _ _) _ secondUpgrading_partly _

/-- Round robin tests the first way and returns the second one. -/
theorem victim_upgrading_roundRobin : ¬ ∀ (associativity : ℕ) (cfg : ReplacementConfig) (policy : ReplacementPolicy)
    (start s : Replacement), Replacement.createCacheSet cfg associativity policy = .ok start →
    (replacementMachine associativity).Reachable start s → ∀ blocks, PartlyUpgrading associativity blocks →
    ∀ answers, ∃ calls, Spares associativity blocks (s.getReplacementIndex calls blocks answers) := by
  intro h
  obtain ⟨calls, hspares⟩ := h 2 ⟨1, 2, 0⟩ .roundRobin _ _ rfl (Machine.reachable_refl _ _) secondUpgrading
    secondUpgrading_partly fun _ => false
  have hboth := (CacheSetRoundRobin.spares_iff (s := CacheSetRoundRobin.new 2) (by decide)).1
    ⟨calls, spares_map_iff.1 hspares⟩
  exact absurd hboth.1 (by decide)

end LifeSim.Cache
