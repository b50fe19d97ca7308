import LifeSim.Cache.Lru

/-!
# The ages are the order of last use

The ages of a set are the places of its ways in a list that brings every used way to the front. An access, an insertion
and a rejection are uses. So the oldest way is the one whose last use is the longest ago, where ways that have not been
used yet follow in the order of their numbers.
-/

namespace LifeSim.Cache

open LifeSim.Lib

variable {s : CacheSetLRU} {l uses : List ℕ} {blocks : Blocks} {answers : Answers} {i : ℕ}

/-- The age of a way is its place in the list. -/
structure Ordered (s : CacheSetLRU) (l : List ℕ) : Prop where
  perm : l.Perm (List.range s.associativity)
  bits : ∀ i < s.associativity, s.lruBits i = l.idxOf i

namespace Ordered

theorem length (h : Ordered s l) : l.length = s.associativity := by
  rw [h.perm.length_eq, List.length_range]

theorem mem (h : Ordered s l) : i ∈ l ↔ i < s.associativity := by
  rw [h.perm.mem_iff, List.mem_range]

theorem idxOf_lt (h : Ordered s l) (hi : i < s.associativity) : l.idxOf i < s.associativity := by
  rw [← h.length]
  exact List.idxOf_lt_length_of_mem (h.mem.2 hi)

theorem new {associativity numAttempts : ℕ} (hmax : associativity ≤ 256) :
    Ordered (CacheSetLRU.new associativity numAttempts) (List.range associativity) := by
  refine ⟨List.Perm.refl _, fun i hi => ?_⟩
  have hi' : i < (List.range associativity).length := by rwa [List.length_range]
  have hget : (List.range associativity)[i] = i := List.getElem_range hi'
  have hplace := (List.nodup_range (n := associativity)).idxOf_getElem i hi'
  rw [hget] at hplace
  have hsmall : i < 256 := lt_of_lt_of_le hi hmax
  rw [hplace]
  exact Nat.mod_eq_of_lt hsmall

/-- Moving a way to the front of the list. -/
theorem moveToMRU (h : Ordered s l) (hmax : s.associativity ≤ 256) (hi : i < s.associativity) :
    Ordered (s.moveToMRU i) (touch i l) := by
  have hmem := h.mem.2 hi
  refine ⟨(touch_perm hmem).trans h.perm, fun j hj => ?_⟩
  change j < s.associativity at hj
  have hold := h.idxOf_lt hi
  change moveToFrontBits s.associativity s.lruBits i j = _
  rw [idxOf_touch hmem]
  by_cases hji : j = i
  · rw [if_pos hji, hji, moveToFrontBits_self]
  · have hsmall : s.lruBits i < 256 := by
      rw [h.bits i hi]
      exact hold.trans_le hmax
    rw [if_neg hji, moveToFrontBits_of_ne hsmall hj hji, h.bits i hi, h.bits j hj]

/-- The search of an attempt ends at the last member of the list. -/
theorem search (h : Ordered s l) (hpos : 0 < s.associativity)
    (hvalid : ∀ i < s.associativity, (blocks i).isValidReplacement = true) :
    (s.search blocks s.associativity).1 < s.associativity ∧
      l.idxOf (s.search blocks s.associativity).1 + 1 = l.length := by
  obtain ⟨hmax, hfound⟩ := s.search_spec blocks s.associativity
  have hlength := h.length
  have hlast : s.associativity - 1 < l.length := by omega
  have hnodup : l.Nodup := h.perm.nodup_iff.2 List.nodup_range
  have hplace := hnodup.idxOf_getElem (s.associativity - 1) hlast
  have hw : l[s.associativity - 1] < s.associativity := h.mem.1 (List.getElem_mem hlast)
  have hle := hmax _ hw (hvalid _ hw)
  rw [h.bits _ hw, hplace] at hle
  rcases hfound with hnone | ⟨hlt, -, hage, -⟩
  · rw [hnone] at hle ⊢
    have hzero := h.idxOf_lt hpos
    dsimp only at hle ⊢
    omega
  · have hplace' := h.idxOf_lt hlt
    rw [h.bits _ hlt] at hage
    omega

end Ordered

/-! ### The choice of a victim -/

/-- No way has gone longer without a use; the latest use comes first in the history. -/
structure LeastRecent (associativity : ℕ) (uses : List ℕ) (way : ℕ) : Prop where
  lt : way < associativity
  le : ∀ i < associativity, (uses ++ List.range associativity).idxOf i ≤ (uses ++ List.range associativity).idxOf way

/-- Every way that is tried is the least recently used one at its time. All but the last one are rejected, and the last
one is not, or it is the last attempt. -/
structure Chooses (associativity numAttempts : ℕ) (uses : List ℕ) (answers : Answers) (c : Choice) : Prop where
  oldest : ∀ before way after, c.rejected ++ [c.index] = before ++ way :: after →
    LeastRecent associativity (before.reverse ++ uses) way
  rejected : ∀ j < c.rejected.length, answers j = true
  allowed : c.rejected.length < numAttempts
  last : c.rejected.length + 1 = numAttempts ∨ answers c.rejected.length = false

/-- The history after a choice. -/
def Choice.usesAfter (c : Choice) (uses : List ℕ) : List ℕ := c.index :: c.rejected.reverse ++ uses

/-- The set is ordered by the history of its uses. -/
structure Recent (s : CacheSetLRU) (uses : List ℕ) : Prop where
  ways : ∀ i ∈ uses, i ∈ List.range s.associativity
  ordered : Ordered s (recency (List.range s.associativity) uses)

namespace Recent

theorem moveToMRU (h : Recent s uses) (hmax : s.associativity ≤ 256) (hi : i < s.associativity) :
    Recent (s.moveToMRU i) (i :: uses) :=
  ⟨List.forall_mem_cons.2 ⟨List.mem_range.2 hi, h.ways⟩, h.ordered.moveToMRU hmax hi⟩

/-- The last member of the list is the least recently used one. -/
theorem leastRecent (h : Recent s uses) (hi : i < s.associativity)
    (hlast : (recency (List.range s.associativity) uses).idxOf i + 1 =
      (recency (List.range s.associativity) uses).length) : LeastRecent s.associativity uses i := by
  refine ⟨hi, fun j hj => ?_⟩
  have hle := idxOf_le_of_last hlast (h.ordered.mem.2 hj)
  refine Nat.le_of_not_lt fun hlt => ?_
  have hlt' := (idxOf_recency_lt_iff h.ways i j).2 hlt
  omega

/-- The attempts find a victim, since the last one cannot be rejected. -/
theorem attempts {left : ℕ} (h : Recent s uses) (answers : Answers) (attempt : ℕ) (hpos : 0 < s.associativity)
    (hmax : s.associativity ≤ 256)
    (hvalid : ∀ i < s.associativity, (blocks i).isValidReplacement = true) (hleft : 0 < left)
    (hnum : attempt + left = s.numAttempts) :
    ∃ c s', CacheSetLRU.attempts blocks answers left attempt s = .ok (c, s') ∧
      s'.associativity = s.associativity ∧ s'.numAttempts = s.numAttempts ∧ Recent s' (c.usesAfter uses) ∧
      Chooses s.associativity left uses (fun j => answers (attempt + j)) c := by
  induction left generalizing attempt s uses with
  | zero => exact absurd hleft (Nat.lt_irrefl 0)
  | succ left ih =>
    obtain ⟨hlt, hlast⟩ := h.ordered.search hpos hvalid
    have holdest := h.leastRecent hlt hlast
    have hmoved := h.moveToMRU hmax hlt
    rw [CacheSetLRU.attempts]
    generalize (s.search blocks s.associativity).1 = index at hlt holdest hmoved ⊢
    dsimp only
    rw [require_of hlt, ok_bind]
    by_cases hreject : attempt + 1 < s.numAttempts ∧ answers attempt = true
    · have hleft' : 0 < left := by omega
      obtain ⟨c, s', heq, hassoc, hnum', hafter, hchooses⟩ :=
        ih hmoved (attempt + 1) hpos hmax hvalid hleft' (by rw [CacheSetLRU.moveToMRU_numAttempts]; omega)
      rw [if_pos hreject, heq, ok_bind]
      refine ⟨_, _, rfl, hassoc, hnum', ?_, ?_⟩
      · rw [Choice.usesAfter] at hafter ⊢
        simpa using hafter
      · refine ⟨fun before way after hsplit => ?_, fun j hj => ?_, ?_, ?_⟩
        · cases before with
          | nil =>
            obtain ⟨rfl, -⟩ := List.cons.inj hsplit
            exact holdest
          | cons x before =>
            obtain ⟨rfl, hrest⟩ := List.cons.inj hsplit
            have hthen := hchooses.oldest before way after hrest
            simpa using hthen
        · cases j with
          | zero => exact hreject.2
          | succ j =>
            have hasked := hchooses.rejected j (Nat.lt_of_succ_lt_succ hj)
            rwa [Nat.add_right_comm, Nat.add_assoc] at hasked
        · exact Nat.succ_lt_succ hchooses.allowed
        · rcases hchooses.last with hend | hkept
          · exact .inl (congrArg (· + 1) hend)
          · refine .inr ?_
            rwa [Nat.add_right_comm, Nat.add_assoc] at hkept
    · rw [if_neg hreject, incrementAttempt_of_lt (by omega), ok_bind]
      refine ⟨_, _, rfl, rfl, rfl, hmoved, ⟨fun before way after hsplit => ?_, fun j hj => absurd hj (Nat.not_lt_zero j),
        Nat.succ_pos left, ?_⟩⟩
      · obtain ⟨rfl, rfl, rfl⟩ : before = [] ∧ way = index ∧ after = [] := by
          cases before with
          | nil => simpa [eq_comm] using hsplit
          | cons x before => simp at hsplit
        exact holdest
      · by_cases hend : attempt + 1 < s.numAttempts
        · exact .inr (by simpa using fun h => hreject ⟨hend, h⟩)
        · exact .inl (by change 0 + 1 = left + 1; omega)

/-- A victim of a full set, or the first way that is not valid. -/
theorem getReplacementIndex (h : Recent s uses) (answers : Answers) (hpos : 0 < s.associativity)
    (hmax : s.associativity ≤ 256)
    (hnum : 0 < s.numAttempts) (hvalid : ∀ i < s.associativity, (blocks i).isValidReplacement = true) :
    ∃ c s', s.getReplacementIndex blocks answers = .ok (c, s') ∧
      s'.associativity = s.associativity ∧ s'.numAttempts = s.numAttempts ∧ Recent s' (c.usesAfter uses) ∧
      ((∀ i < s.associativity, (blocks i).isValid = true) → Chooses s.associativity s.numAttempts uses answers c) ∧
      ((∃ i < s.associativity, (blocks i).isValid = false) →
        firstInvalid s.associativity blocks = some c.index ∧ c.rejected = []) := by
  rw [CacheSetLRU.getReplacementIndex]
  cases hfirst : firstInvalid s.associativity blocks with
  | some i =>
    obtain ⟨hi, hinvalid, -⟩ := firstInvalid_eq_some.1 hfirst
    refine ⟨_, _, rfl, rfl, rfl, h.moveToMRU hmax hi, fun hfull => ?_, fun _ => ⟨rfl, rfl⟩⟩
    rw [hfull i hi] at hinvalid
    cases hinvalid
  | none =>
    have hfull := firstInvalid_eq_none.1 hfirst
    obtain ⟨c, s', heq, hassoc, hnum', hafter, hchooses⟩ :=
      h.attempts answers 0 hpos hmax hvalid hnum (Nat.zero_add _)
    refine ⟨c, s', heq, hassoc, hnum', hafter, fun _ => by simpa using hchooses, ?_⟩
    rintro ⟨i, hi, hinvalid⟩
    rw [hfull i hi] at hinvalid
    cases hinvalid

end Recent

/-! ### Runs -/

/-- A set with its blocks, and the history of the uses of its ways, the latest first. -/
structure LruRun where
  set : CacheSetLRU
  blocks : Blocks
  uses : List ℕ

/-- What happens to a set. -/
inductive LruEvent
  /-- `updateReplacementIndex`: a hit in this way. -/
  | access (way : ℕ)
  /-- `getReplacementIndex`, and the block goes to the way that it tells. -/
  | replace (answers : Answers) (block : CacheBlockInfo)
  /-- The block of a way is changed: it is invalidated, or its state changes. -/
  | write (way : ℕ) (block : CacheBlockInfo)

/-- The accessed way exists, and no block is in `SHARED_UPGRADING`. -/
def LruEvent.Allowed (associativity : ℕ) : LruEvent → Prop
  | .access way => way < associativity
  | .replace _ block => block.isValidReplacement = true
  | .write _ block => block.isValidReplacement = true

/-- One event. -/
def lruMachine : Machine LruRun LruEvent Fault where
  step r
    | .access way => do
      let set ← r.set.updateReplacementIndex way
      .ok { r with set, uses := way :: r.uses }
    | .replace answers block => do
      let (c, set) ← r.set.getReplacementIndex r.blocks answers
      .ok ⟨set, Function.update r.blocks c.index block, c.usesAfter r.uses⟩
    | .write way block => .ok { r with blocks := Function.update r.blocks way block }

/-- A set without valid blocks. -/
def LruRun.new (associativity numAttempts : ℕ) : LruRun :=
  ⟨CacheSetLRU.new associativity numAttempts, fun _ => CacheBlockInfo.create, []⟩

/-- What every event of a run keeps. -/
structure LruInv (associativity numAttempts : ℕ) (r : LruRun) : Prop where
  associativity : r.set.associativity = associativity
  numAttempts : r.set.numAttempts = numAttempts
  recent : Recent r.set r.uses
  valid : ∀ i, (r.blocks i).isValidReplacement = true

section Runs

variable {associativity numAttempts : ℕ} {r : LruRun} {e : LruEvent}

theorem LruInv.new (hmax : associativity ≤ 256) : LruInv associativity numAttempts
    (LruRun.new associativity numAttempts) :=
  ⟨rfl, rfl, ⟨fun _ h => absurd h List.not_mem_nil, Ordered.new hmax⟩, fun _ => rfl⟩

theorem update_isValidReplacement {b : CacheBlockInfo} (h : ∀ i, (blocks i).isValidReplacement = true)
    (hb : b.isValidReplacement = true) (way i : ℕ) : (Function.update blocks way b i).isValidReplacement = true := by
  by_cases hi : i = way
  · rw [hi, Function.update_self]
    exact hb
  · rw [Function.update_of_ne hi]
    exact h i

/-- No event fails, and the invariant is kept. -/
theorem LruInv.step (h : LruInv associativity numAttempts r) (hpos : 0 < associativity) (hmax : associativity ≤ 256)
    (hnum : 0 < numAttempts) (he : e.Allowed associativity) :
    ∃ r', lruMachine.step r e = .ok r' ∧ LruInv associativity numAttempts r' := by
  obtain ⟨rfl, rfl, hrecent, hvalid⟩ := h
  cases e with
  | access way =>
    have hage : r.set.lruBits way < r.set.associativity := by
      rw [hrecent.ordered.bits way he]
      exact hrecent.ordered.idxOf_lt he
    have hstep : r.set.updateReplacementIndex way = .ok (r.set.moveToMRU way) := by
      rw [CacheSetLRU.updateReplacementIndex, increment, require_of hage, ok_bind]
    refine ⟨{ r with set := r.set.moveToMRU way, uses := way :: r.uses }, ?_, rfl, rfl,
      hrecent.moveToMRU hmax he, hvalid⟩
    change r.set.updateReplacementIndex way >>= _ = _
    rw [hstep, ok_bind]
  | replace answers block =>
    obtain ⟨c, s', heq, hassoc, hnum', hafter, -, -⟩ :=
      hrecent.getReplacementIndex answers hpos hmax hnum fun i _ => hvalid i
    refine ⟨⟨s', Function.update r.blocks c.index block, c.usesAfter r.uses⟩, ?_, hassoc, hnum', hafter,
      update_isValidReplacement hvalid he c.index⟩
    change r.set.getReplacementIndex r.blocks answers >>= _ = _
    rw [heq, ok_bind]
  | write way block =>
    exact ⟨_, rfl, rfl, rfl, hrecent, update_isValidReplacement hvalid he way⟩

theorem LruInv.run {es : List LruEvent} (h : LruInv associativity numAttempts r) (hpos : 0 < associativity)
    (hmax : associativity ≤ 256) (hnum : 0 < numAttempts) (hes : ∀ e ∈ es, e.Allowed associativity) :
    ∃ r', lruMachine.run r es = .ok r' ∧ LruInv associativity numAttempts r' := by
  induction es generalizing r with
  | nil => exact ⟨r, rfl, h⟩
  | cons e es ih =>
    obtain ⟨hhead, hrest⟩ := List.forall_mem_cons.1 hes
    obtain ⟨r', hstep, h'⟩ := h.step hpos hmax hnum hhead
    obtain ⟨r'', hrun, h''⟩ := ih h' hrest
    exact ⟨r'', by rw [Machine.run_cons, hstep, ok_bind, hrun], h''⟩

/-- The ages are a permutation, and every two ways are in the order of their last uses. -/
structure Refines (associativity : ℕ) (bits : ℕ → ℕ) (uses : List ℕ) : Prop where
  perm : ((List.range associativity).map bits).Perm (List.range associativity)
  order : ∀ a < associativity, ∀ b < associativity, bits a < bits b ↔
    (uses ++ List.range associativity).idxOf a < (uses ++ List.range associativity).idxOf b

theorem Ordered.map_bits (h : Ordered s l) :
    ((List.range s.associativity).map s.lruBits).Perm (List.range s.associativity) := by
  have hmap : (List.range s.associativity).map s.lruBits = (List.range s.associativity).map l.idxOf :=
    List.map_congr_left fun i hi => h.bits i (List.mem_range.1 hi)
  have hnodup : l.Nodup := h.perm.nodup_iff.2 List.nodup_range
  have hplaces : l.map l.idxOf = List.range s.associativity := by
    refine List.ext_getElem (by rw [List.length_map, List.length_range, h.length]) fun i hi hi' => ?_
    rw [List.getElem_map, List.getElem_range]
    exact hnodup.idxOf_getElem i _
  rw [hmap]
  exact (h.perm.symm.map l.idxOf).trans (by rw [hplaces])

theorem Recent.refines (h : Recent s uses) : Refines s.associativity s.lruBits uses := by
  refine ⟨h.ordered.map_bits, fun a ha b hb => ?_⟩
  rw [h.ordered.bits a ha, h.ordered.bits b hb]
  exact idxOf_recency_lt_iff h.ways a b

/-- The set refines the list of its ways in the order of last use, in every run. -/
theorem lru_refines_recency (hpos : 1 ≤ associativity) (hmax : associativity ≤ 256) (hnum : 1 ≤ numAttempts)
    (es : List LruEvent) (hes : ∀ e ∈ es, e.Allowed associativity) :
    ∃ r, lruMachine.run (LruRun.new associativity numAttempts) es = .ok r ∧
      Refines associativity r.set.lruBits r.uses ∧
      ∀ answers, ∃ c set, r.set.getReplacementIndex r.blocks answers = .ok (c, set) ∧
        Refines associativity set.lruBits (c.usesAfter r.uses) ∧
        ((∀ i < associativity, (r.blocks i).isValid = true) → Chooses associativity numAttempts r.uses answers c) ∧
        ((∃ i < associativity, (r.blocks i).isValid = false) →
          firstInvalid associativity r.blocks = some c.index ∧ c.rejected = []) := by
  obtain ⟨r, hrun, hinv⟩ := (@LruInv.new associativity numAttempts hmax).run hpos hmax hnum hes
  obtain ⟨rfl, rfl, hrecent, hvalid⟩ := hinv
  refine ⟨r, hrun, hrecent.refines, fun answers => ?_⟩
  obtain ⟨c, set, heq, hassoc, -, hafter, hfull, hinvalid⟩ :=
    hrecent.getReplacementIndex answers hpos hmax hnum fun i _ => hvalid i
  refine ⟨c, set, heq, ?_, hfull, hinvalid⟩
  rw [← hassoc]
  exact hafter.refines

end Runs

/-- A full set of three ways, an access to the oldest one, and a replacement whose first victim is rejected. -/
def threeWays : List LruEvent :=
  [.replace (fun _ => true) (taggedBlock 1), .replace (fun _ => true) (taggedBlock 2),
    .replace (fun _ => true) (taggedBlock 3), .access 0, .replace (fun j => j = 0) (taggedBlock 4)]

theorem lru_refines_recency_threeWays : ∃ r, lruMachine.run (LruRun.new 3 2) threeWays = .ok r ∧
    Refines 3 r.set.lruBits r.uses ∧
    ∀ answers, ∃ c set, r.set.getReplacementIndex r.blocks answers = .ok (c, set) ∧
      Refines 3 set.lruBits (c.usesAfter r.uses) ∧
      ((∀ i < 3, (r.blocks i).isValid = true) → Chooses 3 2 r.uses answers c) ∧
      ((∃ i < 3, (r.blocks i).isValid = false) → firstInvalid 3 r.blocks = some c.index ∧ c.rejected = []) :=
  lru_refines_recency (by decide) (by decide) (by decide) threeWays (by simp [threeWays, LruEvent.Allowed, taggedBlock,
    CacheBlockInfo.isValidReplacement])

end LifeSim.Cache
