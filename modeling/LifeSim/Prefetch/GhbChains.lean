import LifeSim.Prefetch.Ghb
import Mathlib.Data.Nat.ModEq

/-!
# The chains of the GHB prefetcher

A chain starts at the place to which the table or a link points. If the place still has the entry for which the pointer
was written, its delta was recorded right after the current one. The tests of the code do not see all pointers that are
stale: the generation has two bits, and the comparison with the head is wrong for places from the head on. With a buffer
of one place the delta before is not looked up at all.
-/

namespace LifeSim.Prefetch

open LifeSim.Lib LifeSim.Cache

namespace GhbPrefetcher

variable {cfg : GhbConfig} {g g' : GhbPrefetcher cfg} {delta d : Delta} {i t q : ℕ}

/-- No delta is the sentinel. -/
def NoSentinel (g : GhbPrefetcher cfg) (currentAddress : Address) : Prop :=
  g.lastAddress ≠ invalidAddress → currentAddress - g.lastAddress ≠ invalidDelta

/-- The places that are followed from `q` on have the entries for which the pointers to them were written. -/
def ChainsFresh (g : GhbPrefetcher cfg) : ℕ → ℕ → ℕ → Prop
  | 0, _, _ => True
  | left + 1, time, q => q = invalidIndex ∨
    (g.ghb q).recordedAt = time ∧ g.ChainsFresh left (g.ghb q).nextAt (g.following q (g.ghb q).nextIndex)

/-- If the table has an entry for the delta that the code takes to be current, then the buffer has more than one place,
and no stale pointer is followed. -/
def Fresh (g : GhbPrefetcher cfg) (delta : Delta) : Prop :=
  ∀ i entry, g.found delta = .ok (some (i, entry)) → entry.generation = (g.ghb entry.ghbIndex).generation →
    2 ≤ cfg.ghbSize ∧ g.ChainsFresh cfg.prefetchWidth entry.recordedAt entry.ghbIndex

/-- The condition on an access. -/
def PointersFresh (g : GhbPrefetcher cfg) (currentAddress : Address) : Prop :=
  g.lastAddress ≠ invalidAddress →
    ({ g with lastAddress := currentAddress } : GhbPrefetcher cfg).Fresh (currentAddress - g.lastAddress)

/-- The place has one of the last `ghbSize` deltas, and it was recorded right after the given one. -/
def FollowsDelta (g : GhbPrefetcher cfg) (delta : Delta) (q : ℕ) : Prop :=
  ∃ t, (g.ghb q).recordedAt = t + 1 ∧ g.recorded.length ≤ t + 1 + cfg.ghbSize ∧
    g.recorded[t]? = some delta ∧ g.recorded[t + 1]? = some (g.ghb q).delta

/-- All chains start with a delta that was recorded right after the current one. -/
def ChainsFollowDelta (g : GhbPrefetcher cfg) (currentAddress : Address) : Prop :=
  ∀ answer g', g.getNextAddress currentAddress = .ok (answer, g') →
    ∀ q ∈ answer.chains, g.FollowsDelta (currentAddress - g.lastAddress) q

/-- The answer has no address twice, and the loops have at most as many rounds as the width and the depth allow. -/
def AnswerFits (g : GhbPrefetcher cfg) (currentAddress : Address) : Prop :=
  ∃ answer g', g.getNextAddress currentAddress = .ok (answer, g') ∧ Fits cfg cfg.prefetchWidth answer

/-! ### What is stored -/

/-- The place has the entry that was recorded last for it. -/
structure Filled (g : GhbPrefetcher cfg) (i : ℕ) : Prop where
  lt : (g.ghb i).recordedAt < g.recorded.length
  place : (g.ghb i).recordedAt % cfg.ghbSize = i
  last : g.recorded.length ≤ (g.ghb i).recordedAt + cfg.ghbSize
  delta : g.recorded[(g.ghb i).recordedAt]? = some (g.ghb i).delta
  /-- It is linked to an entry that was recorded after the same delta. -/
  next : (g.ghb i).nextIndex = invalidIndex ∨ ∃ s t d, (g.ghb i).nextAt = s + 1 ∧ (g.ghb i).recordedAt = t + 1 ∧
    g.recorded[s]? = some d ∧ g.recorded[t]? = some d

/-- What the buffer and the table say of the deltas that have been recorded. -/
structure History (g : GhbPrefetcher cfg) : Prop where
  head : g.ghbHead = g.recorded.length % cfg.ghbSize
  place : ∀ i < cfg.ghbSize, g.Filled i ∨ g.recorded.length ≤ i ∧ g.ghb i = .new
  entry : ∀ i < cfg.tableSize, (g.ghbTable i).delta ≠ invalidDelta →
    ∃ s, (g.ghbTable i).recordedAt = s + 1 ∧ g.recorded[s]? = some (g.ghbTable i).delta

theorem history_start (cfg : GhbConfig) : History (start cfg) :=
  ⟨(Nat.zero_mod _).symm, fun _ _ => .inr ⟨Nat.zero_le _, rfl⟩, fun _ _ h => absurd rfl h⟩

/-- A place with a time that is not the first has an entry. -/
theorem History.filled (h : History g) (hi : i < cfg.ghbSize) (ht : (g.ghb i).recordedAt = t + 1) : g.Filled i := by
  refine (h.place i hi).resolve_right fun hempty => ?_
  obtain ⟨-, hnew⟩ := hempty
  rw [hnew] at ht
  cases ht

/-- A place to which a pointer points that is not stale. -/
theorem History.followsDelta (h : History g) (hi : i < cfg.ghbSize) (ht : (g.ghb i).recordedAt = t + 1)
    (hd : g.recorded[t]? = some delta) : g.FollowsDelta delta i := by
  have hfilled := h.filled hi ht
  have hlast := hfilled.last
  have hdelta := hfilled.delta
  rw [ht] at hlast hdelta
  exact ⟨t, ht, hlast, hd, hdelta⟩

/-- Its link points to an entry that was recorded after the same delta. -/
theorem History.next (h : History g) (hi : i < cfg.ghbSize) (ht : (g.ghb i).recordedAt = t + 1)
    (hd : g.recorded[t]? = some delta) (hnext : (g.ghb i).nextIndex ≠ invalidIndex) :
    ∃ s, (g.ghb i).nextAt = s + 1 ∧ g.recorded[s]? = some delta := by
  obtain ⟨s, t', d, hs, ht', hds, hdt⟩ := (h.filled hi ht).next.resolve_left hnext
  obtain rfl : t' = t := by omega
  rw [hd] at hdt
  cases hdt
  exact ⟨s, hs, hds⟩

theorem following_ne_invalid (h : g.following q i ≠ invalidIndex) : g.following q i = i := by
  rw [following] at h ⊢
  split_ifs at h ⊢
  · exact absurd rfl h
  · rfl

/-- The chains of a call, as long as no stale pointer is followed. -/
theorem follow_followsDelta (h : History g) (hg : Bounded g) (currentAddress : Address) {left time : ℕ} {answer : Answer}
    (hindex : q = invalidIndex ∨ q < cfg.ghbSize) (hfresh : g.ChainsFresh left time q)
    (htime : q ≠ invalidIndex → ∃ s, time = s + 1 ∧ g.recorded[s]? = some delta)
    (hanswer : ∀ p ∈ answer.chains, g.FollowsDelta delta p) :
    Safe (g.follow currentAddress left q answer) fun answer => ∀ p ∈ answer.chains, g.FollowsDelta delta p := by
  induction left generalizing time q answer with
  | zero => exact .ok hanswer
  | succ left ih =>
    rw [follow]
    by_cases hinvalid : q = invalidIndex
    · rw [if_pos hinvalid]
      exact .ok hanswer
    · rw [if_neg hinvalid]
      have hlt := hindex.resolve_left hinvalid
      obtain ⟨hsame, hrest⟩ := hfresh.resolve_left hinvalid
      obtain ⟨s, rfl, hs⟩ := htime hinvalid
      refine (safe_walk _ _ _ _ _).bind fun l _ => (safe_ghbAt hlt).bind fun e he => ?_
      subst he
      refine ih (following_lt hg hlt) hrest (fun hne => ?_) fun p hp => ?_
      · rw [following_ne_invalid hne] at hne
        exact h.next hlt hsame hs hne
      · rcases List.mem_append.1 hp with hp | hp
        · exact hanswer p hp
        · rw [List.mem_singleton.1 hp]
          exact h.followsDelta hlt hsame hs

theorem predict_followsDelta (h : 2 ≤ cfg.ghbSize → History g) (hg : Bounded g) (currentAddress : Address)
    (hdelta : delta ≠ invalidDelta) (hfresh : g.Fresh delta) :
    Safe (g.predict currentAddress delta) fun answer => ∀ q ∈ answer.chains, g.FollowsDelta delta q := by
  have hnone : ∀ q ∈ ([] : List ℕ), g.FollowsDelta delta q := fun q hq => by cases hq
  obtain ⟨r, hfound, hr⟩ := (safe_found g delta).exists_ok
  rw [predict, hfound, ok_bind]
  cases r with
  | none => exact .ok hnone
  | some x =>
    obtain ⟨i, entry⟩ := x
    obtain ⟨hi, hentry, hsame⟩ := hr i entry rfl
    have hvalid : (g.ghbTable i).delta ≠ invalidDelta := by
      rw [← hentry, hsame]
      exact hdelta
    have hindex : entry.ghbIndex < cfg.ghbSize := hentry ▸ hg.entry i hi hvalid
    refine (safe_ghbAt hindex).bind fun e he => ?_
    subst he
    split
    · rename_i hlive
      obtain ⟨hsize, hchains⟩ := hfresh i entry hfound hlive
      obtain ⟨s, hs, hds⟩ := (h hsize).entry i hi hvalid
      rw [← hentry, hsame] at hds
      rw [← hentry] at hs
      exact follow_followsDelta (h hsize) hg currentAddress (.inr hindex) hchains (fun _ => ⟨s, hs, hds⟩) hnone
    · exact .ok hnone

/-! ### A recording -/

theorem getElem?_append {l : List Delta} (h : l[t]? = some d) (x : Delta) : (l ++ [x])[t]? = some d := by
  obtain ⟨ht, -⟩ := List.getElem?_eq_some_iff.1 h
  rw [List.getElem?_append_left ht]
  exact h

/-- With more than one place, the delta before is the last one that was recorded. -/
theorem History.prevDelta (h : History g) (hsize : 2 ≤ cfg.ghbSize) (hprev : g.prevDelta delta ≠ invalidDelta) :
    ∃ t, g.recorded.length = t + 1 ∧ g.recorded[t]? = some (g.prevDelta delta) := by
  have hhead : g.ghbHead < cfg.ghbSize := by
    rw [h.head]
    exact Nat.mod_lt _ cfg.ghbSize_pos
  have hlt : g.prevHead < cfg.ghbSize := by
    rw [prevHead]
    split_ifs <;> omega
  have hne : g.prevHead ≠ g.ghbHead := by
    rw [prevHead]
    split_ifs <;> omega
  have hmod : (g.prevHead + 1) % cfg.ghbSize = g.ghbHead := by
    rw [prevHead]
    split_ifs
    · rw [Nat.sub_add_cancel (by omega)]
      exact Nat.mod_eq_of_lt hhead
    · rw [Nat.sub_add_cancel (by omega), Nat.mod_self]
      omega
  have hplace : g.prevDelta delta = (g.ghb g.prevHead).delta := by
    rw [GhbPrefetcher.prevDelta, withHead, Function.update_of_ne hne]
  rw [hplace] at hprev ⊢
  rcases h.place _ hlt with hfilled | ⟨-, hnew⟩
  · have hcongr : g.recorded.length ≡ (g.ghb g.prevHead).recordedAt + 1 [MOD cfg.ghbSize] := by
      have hnext := Nat.mod_add_mod (g.ghb g.prevHead).recordedAt cfg.ghbSize 1
      rw [hfilled.place, hmod, h.head] at hnext
      exact hnext
    have hlast := hfilled.last
    have hbefore := hfilled.lt
    have hzero := Nat.sub_mod_eq_zero_of_mod_eq hcongr
    rw [Nat.mod_eq_of_lt (by omega)] at hzero
    exact ⟨_, by omega, hfilled.delta⟩
  · rw [hnew] at hprev
    exact absurd rfl hprev

/-- A place that is not the head keeps its entry. -/
theorem Filled.advance (h : g.Filled i) (hhead : g.ghbHead = g.recorded.length % cfg.ghbSize) (hi : i ≠ g.ghbHead)
    (hghb : g'.ghb i = g.ghb i) (hrecorded : g'.recorded = g.recorded ++ [delta]) : g'.Filled i := by
  have hlength : g'.recorded.length = g.recorded.length + 1 := by rw [hrecorded, List.length_append,
    List.length_singleton]
  refine ⟨?_, ?_, ?_, ?_, ?_⟩
  · rw [hghb, hlength]
    exact Nat.lt_succ_of_lt h.lt
  · rw [hghb]
    exact h.place
  · rw [hghb, hlength]
    refine Nat.lt_of_le_of_ne h.last fun heq => hi ?_
    rw [hhead, heq, Nat.add_mod_right, h.place]
  · rw [hghb, hrecorded]
    exact getElem?_append h.delta delta
  · rw [hghb, hrecorded]
    refine h.next.imp_right fun hlink => ?_
    obtain ⟨s, t, d, hs, ht, hds, hdt⟩ := hlink
    exact ⟨s, t, d, hs, ht, getElem?_append hds delta, getElem?_append hdt delta⟩

/-- The head gets the new delta, linked to one that was recorded after the same delta. -/
theorem NewEntry.filled {e : GHBEntry} (hnew : NewEntry g delta e) (h : History g) (hsize : 2 ≤ cfg.ghbSize)
    (hghb : g'.ghb g.ghbHead = e) (hrecorded : g'.recorded = g.recorded ++ [delta]) : g'.Filled g.ghbHead := by
  have hlength : g'.recorded.length = g.recorded.length + 1 := by rw [hrecorded, List.length_append,
    List.length_singleton]
  refine ⟨?_, ?_, ?_, ?_, ?_⟩ <;> rw [hghb]
  · rw [hnew.time, hlength]
    exact Nat.lt_succ_self _
  · rw [hnew.time, h.head]
  · rw [hnew.time, hlength]
    exact Nat.add_le_add_left cfg.ghbSize_pos _
  · rw [hnew.time, hnew.holds, hrecorded, List.getElem?_concat_length]
  · refine hnew.next.imp_right fun hlink => ?_
    obtain ⟨entry, ⟨hprev, j, hj, hentry, hsame⟩, -, hat⟩ := hlink
    subst hentry
    obtain ⟨s, hs, hds⟩ := h.entry j hj (hsame ▸ hprev)
    obtain ⟨t, ht, hdt⟩ := h.prevDelta hsize hprev
    rw [hsame] at hds
    rw [hnew.time, hat, hrecorded]
    exact ⟨s, t, _, hs, ht, getElem?_append hds delta, getElem?_append hdt delta⟩

theorem Linked.history (hlinked : Linked g delta g') (h : History g) (hsize : 2 ≤ cfg.ghbSize) :
    History (g'.advance delta) := by
  have hrecorded : (g'.advance delta).recorded = g.recorded ++ [delta] := by rw [advance_recorded, hlinked.recorded]
  obtain ⟨e, hnew, hghb⟩ := hlinked.ghb
  refine ⟨?_, fun i hi => ?_, fun i hi hvalid => ?_⟩
  · rw [advance_ghbHead, nextHead, hlinked.ghbHead, hrecorded, List.length_append, List.length_singleton,
      ← Nat.mod_add_mod, ← h.head]
    have hlt := Nat.mod_lt g.recorded.length cfg.ghbSize_pos
    rw [← h.head] at hlt
    split_ifs with hend
    · rw [hend, Nat.mod_self]
    · exact (Nat.mod_eq_of_lt (by omega)).symm
  · by_cases hhead : i = g.ghbHead
    · subst hhead
      refine .inl (hnew.filled h hsize ?_ hrecorded)
      rw [advance_ghb, hghb, Function.update_self]
    · have hkept : (g'.advance delta).ghb i = g.ghb i := by rw [advance_ghb, hghb, Function.update_of_ne hhead]
      rcases h.place i hi with hfilled | ⟨hle, hempty⟩
      · exact .inl (hfilled.advance h.head hhead hkept hrecorded)
      · refine .inr ⟨?_, hkept.trans hempty⟩
        rw [hrecorded, List.length_append, List.length_singleton]
        refine Nat.lt_of_le_of_ne hle fun heq => hhead ?_
        rw [h.head, heq, Nat.mod_eq_of_lt hi]
  · rw [hrecorded]
    rw [advance_ghbTable] at hvalid ⊢
    rcases hlinked.table i with hsame | ⟨hprev, hchanged⟩
    · rw [hsame] at hvalid ⊢
      obtain ⟨s, hs, hds⟩ := h.entry i hi hvalid
      exact ⟨s, hs, getElem?_append hds delta⟩
    · rw [hchanged]
      obtain ⟨t, ht, hdt⟩ := h.prevDelta hsize hprev
      exact ⟨t, ht, getElem?_append hdt delta⟩

/-! ### A run -/

/-- The indices are those of the vectors, and with more than one place the entries say what was recorded. -/
structure GhbInv (g : GhbPrefetcher cfg) : Prop where
  bounded : Bounded g
  history : 2 ≤ cfg.ghbSize → History g

theorem ghbInv_start (cfg : GhbConfig) : GhbInv (start cfg) :=
  ⟨⟨cfg.ghbSize_pos, cfg.tableSize_pos, fun _ _ => .inl rfl, fun _ _ h => absurd rfl h⟩, fun _ => history_start cfg⟩

/-- The address is not stored with the deltas. -/
theorem GhbInv.arrive (h : GhbInv g) (currentAddress : Address) :
    GhbInv ({ g with lastAddress := currentAddress } : GhbPrefetcher cfg) := by
  refine ⟨⟨h.bounded.ghbHead, h.bounded.tableHead, h.bounded.next, h.bounded.entry⟩, fun hsize => ?_⟩
  obtain ⟨hhead, hplace, hentry⟩ := h.history hsize
  exact ⟨hhead, fun i hi => (hplace i hi).imp_left fun f => ⟨f.lt, f.place, f.last, f.delta, f.next⟩, hentry⟩

/-- One access. -/
theorem GhbInv.getNextAddress (h : GhbInv g) {currentAddress : Address} (hsentinel : g.NoSentinel currentAddress) :
    Safe (g.getNextAddress currentAddress) fun r => GhbInv r.2 ∧ Fits cfg cfg.prefetchWidth r.1 ∧
      (g.PointersFresh currentAddress → ∀ q ∈ r.1.chains, g.FollowsDelta (currentAddress - g.lastAddress) q) := by
  have harrive := h.arrive currentAddress
  rw [GhbPrefetcher.getNextAddress]
  by_cases hfirst : g.lastAddress = invalidAddress
  · rw [if_pos hfirst]
    exact .ok ⟨harrive, ⟨List.nodup_nil, Nat.zero_le _, Nat.zero_le _⟩, fun _ q hq => by cases hq⟩
  · rw [if_neg hfirst]
    have hdelta := hsentinel hfirst
    obtain ⟨answer, hpredict, hfits⟩ := (safe_predict harrive.bounded currentAddress hdelta).exists_ok
    dsimp only
    rw [hpredict, ok_bind]
    refine (safe_record harrive.bounded _).bind fun g' hg' => .ok ⟨?_, hfits, fun hfresh => ?_⟩
    · obtain ⟨g₁, hlinked, rfl⟩ := hg'
      exact ⟨hlinked.bounded harrive.bounded, fun hsize => hlinked.history (harrive.history hsize) hsize⟩
    · exact (predict_followsDelta harrive.history harrive.bounded currentAddress hdelta (hfresh hfirst)).of_ok hpredict

theorem GhbInv.step {currentAddress : Address} (h : GhbInv g) (hsentinel : g.NoSentinel currentAddress)
    (hstep : (ghbMachine cfg).step g currentAddress = .ok g') : GhbInv g' := by
  obtain ⟨answer, hcall⟩ : ∃ answer, g.getNextAddress currentAddress = .ok (answer, g') := exists_of_map_snd_ok hstep
  exact ((h.getNextAddress hsentinel).of_ok hcall).1

/-- The facts of all accesses of a run. -/
theorem GhbInv.guarded {addresses : List Address} {guard good : GhbPrefetcher cfg → Address → Prop} (h : GhbInv g)
    (hgood : ∀ g a, GhbInv g → NoSentinel g a → guard g a → good g a)
    (hsentinel : (ghbMachine cfg).Guarded NoSentinel g addresses) (hguard : (ghbMachine cfg).Guarded guard g addresses) :
    (ghbMachine cfg).Guarded good g addresses :=
  (hsentinel.and hguard).mono_of_kept (fun _ _ _ hg ha hstep => hg.step ha.1 hstep)
    (fun g a hg ha => hgood g a hg ha.1 ha.2) h

/-- No access uses an index out of bounds, its loops end, and its answer has no address twice. And if no access follows a
stale pointer, then all chains start with a delta that was recorded right after the current one. -/
theorem getNextAddress_sound (cfg : GhbConfig) (addresses : List Address)
    (hsentinel : (ghbMachine cfg).Guarded NoSentinel (start cfg) addresses) :
    (ghbMachine cfg).Guarded AnswerFits (start cfg) addresses ∧
      ((ghbMachine cfg).Guarded PointersFresh (start cfg) addresses →
        (ghbMachine cfg).Guarded ChainsFollowDelta (start cfg) addresses) := by
  refine ⟨(ghbInv_start cfg).guarded (fun g a h ha _ => ?_) hsentinel ((ghbMachine cfg).guarded_true _ _),
    fun hfresh => ?_⟩
  · obtain ⟨⟨answer, g'⟩, hcall, -, hfits, -⟩ := (h.getNextAddress ha).exists_ok
    exact ⟨answer, g', hcall, hfits⟩
  · refine (ghbInv_start cfg).guarded (fun g a h ha hfresh answer g' hcall => ?_) hsentinel hfresh
    exact ((h.getNextAddress ha).of_ok hcall).2.2 hfresh

/-! ### Two places -/

instance (g : GhbPrefetcher cfg) (a : Address) : Decidable (g.NoSentinel a) := inferInstanceAs (Decidable (_ → _))

instance decidableChainsFresh (g : GhbPrefetcher cfg) : ∀ left time q, Decidable (g.ChainsFresh left time q)
  | 0, _, _ => .isTrue trivial
  | left + 1, _, q =>
    have := g.decidableChainsFresh left (g.ghb q).nextAt (g.following q (g.ghb q).nextIndex)
    inferInstanceAs (Decidable (_ ∨ _ ∧ _))

theorem fresh_of_none (h : g.found delta = .ok none) : g.Fresh delta := by
  intro i entry hfound
  rw [h] at hfound
  cases hfound

theorem fresh_of_some (entry : TableEntry) (h : g.found delta = .ok (some (i, entry))) (hsize : 2 ≤ cfg.ghbSize)
    (hchains : g.ChainsFresh cfg.prefetchWidth entry.recordedAt entry.ghbIndex) : g.Fresh delta := by
  intro j entry' hfound _
  rw [h] at hfound
  cases hfound
  exact ⟨hsize, hchains⟩

theorem invalidIndex_ge_two : 2 ≤ invalidIndex := by decide

/-- Two places and two entries. -/
def smallBuffer : GhbConfig := ⟨2, 1, 2, 2, Nat.two_pos, invalidIndex_ge_two, Nat.two_pos⟩

/-- The same delta three times. -/
def evenly : List Address := [0, 1, 2, 3]

theorem getNextAddress_sound_evenly : (ghbMachine smallBuffer).Guarded AnswerFits (start smallBuffer) evenly ∧
    (ghbMachine smallBuffer).Guarded ChainsFollowDelta (start smallBuffer) evenly := by
  have hsentinel : (ghbMachine smallBuffer).Guarded NoSentinel (start smallBuffer) evenly :=
    Machine.Guarded.cons_final (by decide +kernel) (by decide +kernel)
      (Machine.Guarded.cons_final (by decide +kernel) (by decide +kernel)
        (Machine.Guarded.cons_final (by decide +kernel) (by decide +kernel)
          (Machine.Guarded.cons_final (by decide +kernel) (by decide +kernel) trivial)))
  have hfresh : (ghbMachine smallBuffer).Guarded PointersFresh (start smallBuffer) evenly :=
    Machine.Guarded.cons_final (by decide +kernel) (fun h => absurd rfl h)
      (Machine.Guarded.cons_final (by decide +kernel) (fun _ => fresh_of_none (by decide +kernel))
        (Machine.Guarded.cons_final (by decide +kernel) (fun _ => fresh_of_none (by decide +kernel))
          (Machine.Guarded.cons_final (by decide +kernel)
            (fun _ => fresh_of_some (i := 0) ⟨1, 1, 0, 1⟩ (by decide +kernel) (by decide) (by decide +kernel))
            trivial)))
  have h := getNextAddress_sound smallBuffer evenly hsentinel
  exact ⟨h.1, h.2 hfresh⟩

/-- A delta is repeated after another one. -/
def unevenly : List Address := [0, 1, 2, 4, 5]

/-- The last access follows a link to a place that has been overwritten since. -/
theorem chains_stale_unevenly : ¬ ∀ (cfg : GhbConfig) (addresses : List Address),
    (ghbMachine cfg).Guarded NoSentinel (start cfg) addresses →
      (ghbMachine cfg).Guarded AnswerFits (start cfg) addresses ∧
        (ghbMachine cfg).Guarded ChainsFollowDelta (start cfg) addresses := by
  intro h
  have hsentinel : (ghbMachine smallBuffer).Guarded NoSentinel (start smallBuffer) (unevenly ++ [6]) :=
    Machine.Guarded.cons_final (by decide +kernel) (by decide +kernel)
      (Machine.Guarded.cons_final (by decide +kernel) (by decide +kernel)
        (Machine.Guarded.cons_final (by decide +kernel) (by decide +kernel)
          (Machine.Guarded.cons_final (by decide +kernel) (by decide +kernel)
            (Machine.Guarded.cons_final (by decide +kernel) (by decide +kernel)
              (Machine.Guarded.cons_final (by decide +kernel) (by decide +kernel) trivial)))))
  have happend := (h smallBuffer _ hsentinel).2
  have hrun := (ghbMachine smallBuffer).run_final
    (show ((ghbMachine smallBuffer).run (start smallBuffer) unevenly).isOk = true by decide +kernel)
  generalize hg : (ghbMachine smallBuffer).final (start smallBuffer) unevenly = g at hrun
  have hcall := happend.at_event hrun
  obtain ⟨t, ht, -, hbefore, -⟩ := hcall ⟨[8, 7], [0, 1]⟩ _ (by subst hg; rfl) 1 (by decide)
  have htime : (g.ghb 1).recordedAt = 3 := by subst hg; decide +kernel
  obtain rfl : t = 2 := by omega
  rw [show g.recorded[2]? = some 2 by subst hg; decide +kernel] at hbefore
  rw [show (6 : Address) - g.lastAddress = 1 by subst hg; decide +kernel] at hbefore
  exact absurd hbefore (by decide)

end GhbPrefetcher

end LifeSim.Prefetch
