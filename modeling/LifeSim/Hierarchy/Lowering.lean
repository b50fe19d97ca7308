import Mathlib
import LifeSim.Lib.Checked
import LifeSim.Hierarchy.Controller

/-!
# Lines lowered by the next level

`updateCacheBlock` makes a cache and all caches below it lose a line, or keep it as `SHARED`. The data of a cache goes
to its next level, which must still be `MODIFIED` or be evicting the line. Where it is so for all of these caches, the
whole recursion is one update of the line, and an insertion with its eviction changes the line of the victim in that
way.
-/

namespace LifeSim.Hierarchy

open LifeSim.Lib
open LifeSim.Directory (CacheState)

variable {ι α : Type}

/-! ## The states of one line -/

/-- What a state allows: nothing, to read, to write after a silent upgrade, to write. -/
def strength : CacheState → ℕ
  | .invalid => 0
  | .shared => 1
  | .sharedUpgrading => 1
  | .exclusive => 2
  | .modified => 3

theorem strength_eq_zero {state : CacheState} : strength state = 0 ↔ state = .invalid := by
  cases state <;> simp [strength]

theorem strength_eq_three {state : CacheState} : strength state = 3 ↔ state = .modified := by
  cases state <;> simp [strength]

theorem strength_le_three (state : CacheState) : strength state ≤ 3 := by
  cases state <;> simp [strength]

theorem ne_modified_of_not_permissible {state : CacheState} {op : MemOp}
    (hop : operationPermissible state op = false) : state ≠ .modified := by
  intro h
  cases op <;> simp [h, operationPermissible, readable, writable] at hop

theorem ne_invalid_of_permissible {state : CacheState} {op : MemOp} (hop : operationPermissible state op = true) :
    state ≠ .invalid := by
  intro h
  cases op <;> simp [h, operationPermissible, readable, writable] at hop

theorem permissible_modified (op : MemOp) : operationPermissible .modified op = true := by
  cases op <;> simp [operationPermissible, readable, writable]

/-- What cannot be read is not there, once no upgrade is pending. -/
theorem eq_invalid_of_not_readable {state : CacheState} (hread : operationPermissible state .read = false)
    (hsettled : state ≠ .sharedUpgrading) : state = .invalid := by
  cases state <;> simp [operationPermissible, readable] at hread hsettled ⊢

open Classical in
/-- The caches of a set lose the line, or keep it in the new state. -/
noncomputable def lowered (newState : CacheState) (D : ι → Prop) (f : ι → CacheState) (c : ι) : CacheState :=
  if D c ∧ f c ≠ .invalid then newState else f c

variable {newState : CacheState} {D E : ι → Prop} {f : ι → CacheState} {c d : ι}

theorem lowered_of_not (h : ¬ D c) : lowered newState D f c = f c := if_neg fun h' => h h'.1

theorem lowered_of_mem (h : D c) (hf : f c ≠ .invalid) : lowered newState D f c = newState := if_pos ⟨h, hf⟩

theorem lowered_of_invalid (h : f c = .invalid) : lowered newState D f c = .invalid := by
  rw [lowered, if_neg fun h' => h'.2 h, h]

theorem lowered_invalid_of_mem (h : D c) : lowered .invalid D f c = .invalid := by
  rw [lowered]
  split
  · rfl
  · rename_i hnot
    by_contra hf
    exact hnot ⟨h, hf⟩

theorem lowered_of_forall_invalid (h : ∀ d, D d → f d = .invalid) : lowered newState D f = f := by
  funext d
  by_cases hd : D d
  · rw [lowered_of_invalid (h d hd), h d hd]
  · rw [lowered_of_not hd]

/-- No cache has more of a line that is lowered. -/
theorem strength_lowered_le (hnew : strength newState ≤ 1) (d : ι) :
    strength (lowered newState D f d) ≤ strength (f d) := by
  rw [lowered]
  split
  · rename_i h
    have hpos : strength (f d) ≠ 0 := fun h0 => h.2 (strength_eq_zero.1 h0)
    omega
  · exact le_rfl

/-- A line that is lowered where the stronger copy is leaves the order of two copies. -/
theorem strength_lowered_mono (hnew : strength newState ≤ 1) (hD : D d → D c) (h : strength (f c) ≤ strength (f d)) :
    strength (lowered newState D f c) ≤ strength (lowered newState D f d) := by
  by_cases hd : D d
  · by_cases hc : f c = .invalid
    · rw [lowered_of_invalid hc]
      exact Nat.zero_le _
    · have hpos : strength (f c) ≠ 0 := fun h0 => hc (strength_eq_zero.1 h0)
      have hne : f d ≠ .invalid := fun h0 => by rw [h0, strength] at h; omega
      rw [lowered_of_mem (hD hd) hc, lowered_of_mem hd hne]
  · rw [lowered_of_not hd]
    exact (strength_lowered_le hnew c).trans h

theorem lowered_settled (hnew : newState = .invalid ∨ newState = .shared) (h : f d ≠ .sharedUpgrading) :
    lowered newState D f d ≠ .sharedUpgrading := by
  rw [lowered]
  split
  · rcases hnew with rfl | rfl <;> simp
  · exact h

theorem strength_newState (hnew : newState = .invalid ∨ newState = .shared) : strength newState ≤ 1 := by
  rcases hnew with rfl | rfl <;> simp [strength]

theorem lowered_lowered (D E : ι → Prop) (f : ι → CacheState) :
    lowered newState E (lowered newState D f) = lowered newState (fun d => D d ∨ E d) f := by
  funext d
  by_cases hf : f d = .invalid
  · rw [lowered_of_invalid (lowered_of_invalid hf), lowered_of_invalid hf]
  · by_cases hD : D d
    · rw [lowered_of_mem (D := fun d => D d ∨ E d) (.inl hD) hf, lowered, lowered_of_mem hD hf, ite_self]
    · by_cases hE : E d
      · rw [lowered_of_mem (D := fun d => D d ∨ E d) (.inr hE) hf, lowered_of_mem hE (by rwa [lowered_of_not hD])]
      · rw [lowered_of_not hE, lowered_of_not hD, lowered_of_not (D := fun d => D d ∨ E d) (not_or.2 ⟨hD, hE⟩)]

theorem lowered_singleton [DecidableEq ι] (hc : f c ≠ .invalid) :
    lowered newState (· = c) f = Function.update f c newState := by
  funext d
  by_cases hd : d = c
  · subst hd
    simp [lowered, hc]
  · simp [lowered, hd]

/-- The set matters only as a set. -/
theorem lowered_congr (h : ∀ d, D d ↔ E d) : lowered newState D f = lowered newState E f := by
  have hDE : D = E := funext fun d => propext (h d)
  rw [hDE]

variable [DecidableEq α]

namespace Caches

/-- The states of a line in all caches are new. -/
def setLine (s : Caches ι α) (a : α) (f : ι → CacheState) : Caches ι α :=
  { s with cstate := Function.update s.cstate a f }

variable {s : Caches ι α} {a b : α} {g : ι → CacheState}

@[simp] theorem setLine_self : (s.setLine a f).cstate a = f := Function.update_self ..

theorem setLine_of_ne (h : b ≠ a) : (s.setLine a f).cstate b = s.cstate b := Function.update_of_ne h ..

@[simp] theorem setLine_evicting : (s.setLine a f).evicting = s.evicting := rfl

@[simp] theorem setLine_setLine : (s.setLine a f).setLine a g = s.setLine a g := by
  simp only [setLine, Function.update_idem]

@[simp] theorem setLine_cstate : s.setLine a (s.cstate a) = s := by simp only [setLine, Function.update_eq_self]

theorem setState_eq [DecidableEq ι] (state : CacheState) :
    s.setState a c state = s.setLine a (Function.update (s.cstate a) c state) := rfl

end Caches

namespace CacheTree

/-! ## `updateCacheBlock` -/

section Sinkable

variable {H : CacheTree ι} {s : Caches ι α} {a : α}

/-- The next level of the `MODIFIED` caches of a set can take their data. -/
def Sinkable (H : CacheTree ι) (a : α) (D : ι → Prop) (s : Caches ι α) : Prop :=
  ∀ p n, D p → H.parent p = some n → s.cstate a p = .modified → s.cstate a n = .modified ∨ s.evicting n = some a

omit [DecidableEq α] in
theorem Sinkable.mono (h : H.Sinkable a D s) (hE : ∀ d, E d → D d) : H.Sinkable a E s :=
  fun p n hp => h p n (hE p hp)

/-- A `MODIFIED` copy that is not lowered is below one that is not lowered either. -/
theorem Sinkable.lower (h : H.Sinkable a D s) (hnew : newState = .invalid ∨ newState = .shared)
    (hE : ∀ p n, H.parent p = some n → E n → E p) :
    H.Sinkable a D (s.setLine a (lowered newState E (s.cstate a))) := by
  intro p n hp hparent hmodified
  rw [Caches.setLine_self] at hmodified
  have hpE : ¬ E p := by
    intro hpE
    have hpos : s.cstate a p ≠ .invalid := fun h0 => by rw [lowered_of_invalid h0] at hmodified; cases hmodified
    rw [lowered_of_mem hpE hpos] at hmodified
    rcases hnew with rfl | rfl <;> cases hmodified
  rw [lowered_of_not hpE] at hmodified
  rw [Caches.setLine_self, lowered_of_not fun hn => hpE (hE p n hparent hn)]
  exact h p n hp hparent hmodified

/-- A cache is one of the previous caches of another one but the requester, or below it. -/
def Snooped (H : CacheTree ι) (requester : Option ι) (c d : ι) : Prop :=
  ∃ p, H.parent p = some c ∧ requester ≠ some p ∧ H.Under p d

theorem Snooped.of_parent {requester : Option ι} {p n : ι} (h : H.Snooped requester c n)
    (hparent : H.parent p = some n) : H.Snooped requester c p := by
  obtain ⟨q, hq, hne, hunder⟩ := h
  exact ⟨q, hq, hne, hunder.of_parent hparent⟩

theorem Snooped.under {requester : Option ι} (h : H.Snooped requester c d) : H.Under c d ∧ d ≠ c := by
  obtain ⟨q, hq, -, hunder⟩ := h
  refine ⟨(LevelTree.under_parent hq).trans hunder, fun hdc => ?_⟩
  exact LevelTree.not_under_parent hq (hdc ▸ hunder)

end Sinkable

variable [DecidableEq ι] {H : CacheTree ι} {s : Caches ι α} {a : α} {outBuf : Bool}

theorem writeBack_eq (hsink : H.Sinkable a (· = c) s)
    (hroot : H.parent c = none → s.cstate a c = .modified → outBuf = true) :
    H.writeBack a outBuf c s = .ok (if s.cstate a c = .modified then s.setState a c .shared else s) := by
  rw [writeBack]
  split
  · rename_i hmodified
    cases hparent : H.parent c with
    | none =>
      simp only [hroot hparent hmodified, if_true]
    | some n =>
      have hwrite : s.writeCacheBlock a n = .ok s := by
        rw [Caches.writeCacheBlock]
        split
        · rfl
        · rename_i hevicting
          have hn : s.cstate a n = .modified := (hsink c n rfl hparent hmodified).resolve_right hevicting
          simp [hn]
      simp only [hwrite, ok_bind]
  · rfl

/-- One cache is lowered. -/
theorem updateBlock_eq (hnew : newState = .invalid ∨ newState = .shared) (hsink : H.Sinkable a (· = c) s)
    (hroot : H.parent c = none → s.cstate a c = .modified → outBuf = true)
    (hbuf : outBuf = true → s.cstate a c ≠ .invalid) :
    H.updateBlock a newState outBuf c s = .ok (s.setLine a (lowered newState (· = c) (s.cstate a))) := by
  have hlowered : lowered newState (· = c) (s.cstate a) =
      if s.cstate a c = .invalid then s.cstate a else Function.update (s.cstate a) c newState := by
    split
    · rename_i hc
      exact lowered_of_forall_invalid fun d hd => by rw [hd, hc]
    · rename_i hc
      exact lowered_singleton hc
  rw [hlowered, updateBlock]
  split
  · rename_i hc
    have hout : outBuf = false := by
      by_contra h
      exact hbuf (Bool.eq_true_of_not_eq_false h) hc
    simp [hout]
  · rename_i hc
    split
    · rename_i h
      rw [h.1, Function.update_eq_self, Caches.setLine_cstate]
    · rw [writeBack_eq hsink hroot, ok_bind]
      rcases hnew with rfl | rfl
      · by_cases hmodified : s.cstate a c = .modified
        · simp [hmodified, Caches.invalidateCacheBlock, Caches.setState_eq]
        · simp [hmodified, hc, Caches.invalidateCacheBlock, Caches.setState_eq]
      · by_cases hmodified : s.cstate a c = .modified
        · simp [hmodified, Caches.setState_eq]
        · simp [hmodified, Caches.setState_eq]

omit [DecidableEq ι] in
/-- A loop over several caches, each of which is lowered with all caches below it. -/
theorem foldlM_lowered {F : ι → Caches ι α → Except Fault (Caches ι α)}
    (hnew : newState = .invalid ∨ newState = .shared) (l : List ι)
    (hF : ∀ p ∈ l, ∀ s, H.Sinkable a (H.Under p) s →
      F p s = .ok (s.setLine a (lowered newState (H.Under p) (s.cstate a))))
    (hsink : H.Sinkable a (fun d => ∃ p ∈ l, H.Under p d) s) :
    l.foldlM (fun s p => F p s) s =
      .ok (s.setLine a (lowered newState (fun d => ∃ p ∈ l, H.Under p d) (s.cstate a))) := by
  induction l generalizing s with
  | nil =>
    rw [lowered_of_forall_invalid (by simp), Caches.setLine_cstate]
    rfl
  | cons p l ih =>
    have hp := hF p List.mem_cons_self s (hsink.mono fun d hd => ⟨p, List.mem_cons_self, hd⟩)
    have hrest : H.Sinkable a (fun d => ∃ q ∈ l, H.Under q d) s :=
      hsink.mono fun d ⟨q, hq, hd⟩ => ⟨q, List.mem_cons_of_mem p hq, hd⟩
    rw [List.foldlM_cons, hp, ok_bind, ih (fun q hq => hF q (List.mem_cons_of_mem p hq))
      (hrest.lower hnew fun _ _ hparent hd => hd.of_parent hparent)]
    simp only [Caches.setLine_self, Caches.setLine_setLine, lowered_lowered, List.exists_mem_cons_iff]

/-- `updateCacheBlock` lowers a cache and all caches below it. -/
theorem updateCacheBlock_eq (hnew : newState = .invalid ∨ newState = .shared) {n : ℕ} (hn : H.level c ≤ n)
    (hsink : H.Sinkable a (H.Under c) s) (hroot : H.parent c = none → s.cstate a c = .modified → outBuf = true)
    (hbuf : outBuf = true → s.cstate a c ≠ .invalid) :
    H.updateCacheBlock a newState n outBuf c s = .ok (s.setLine a (lowered newState (H.Under c) (s.cstate a))) := by
  induction n generalizing c s outBuf with
  | zero =>
    have hchildren : ∀ p, H.parent p ≠ some c := fun p hparent => by
      have hlevel := H.level_parent p c hparent
      omega
    have hunder : ∀ d, d = c ↔ H.Under c d := by
      intro d
      rw [LevelTree.under_iff_children]
      simp [H.mem_children, hchildren]
    rw [updateCacheBlock, updateBlock_eq hnew (hsink.mono fun d hd => (hunder d).1 hd) hroot hbuf, lowered_congr hunder]
  | succ n ih =>
    have hbelow : ∀ d, (∃ p ∈ H.children c, H.Under p d) → H.Under c d ∧ d ≠ c := by
      intro d ⟨p, hp, hd⟩
      have hparent := (H.mem_children p c).1 hp
      refine ⟨LevelTree.under_iff_children.2 (.inr ⟨p, hp, hd⟩), fun hdc => ?_⟩
      exact LevelTree.not_under_parent hparent (hdc ▸ hd)
    have hloop := foldlM_lowered (F := updateCacheBlock H a newState n false) hnew (H.children c) (fun p hp s hs => by
      have hparent := (H.mem_children p c).1 hp
      have hlevel := H.level_parent p c hparent
      refine ih (by omega) hs ?_ ?_
      · simp [hparent]
      · simp) (hsink.mono fun d hd => (hbelow d hd).1)
    have hkept : lowered newState (fun d => ∃ p ∈ H.children c, H.Under p d) (s.cstate a) c = s.cstate a c :=
      lowered_of_not fun hc => (hbelow c hc).2 rfl
    have hsink' := hsink.lower hnew (E := fun d => ∃ p ∈ H.children c, H.Under p d)
      fun p n hparent ⟨q, hq, hd⟩ => ⟨q, hq, hd.of_parent hparent⟩
    rw [updateCacheBlock, hloop, ok_bind, updateBlock_eq hnew (hsink'.mono fun d hd => hd ▸ LevelTree.under_refl c)
      (by simpa only [Caches.setLine_self, hkept] using hroot) (by simpa only [Caches.setLine_self, hkept] using hbuf)]
    simp only [Caches.setLine_self, Caches.setLine_setLine, lowered_lowered]
    rw [lowered_congr fun d => ?_]
    rw [LevelTree.under_iff_children, or_comm]

/-- `updateCacheBlock` of several previous caches. -/
theorem updateAll_eq (hnew : newState = .invalid ∨ newState = .shared) {l : List ι} (hl : ∀ p ∈ l, H.parent p ≠ none)
    (hsink : H.Sinkable a (fun d => ∃ p ∈ l, H.Under p d) s) :
    H.updateAll a newState l s =
      .ok (s.setLine a (lowered newState (fun d => ∃ p ∈ l, H.Under p d) (s.cstate a))) :=
  foldlM_lowered (F := fun p => H.updateCacheBlock a newState (H.level p) false p) hnew l
    (fun p hp _ hs => updateCacheBlock_eq hnew le_rfl hs (fun hparent => absurd hparent (hl p hp)) (by simp)) hsink

/-- `updateCacheBlock` of the previous caches of a cache but the requester. -/
theorem updateSiblings_eq (hnew : newState = .invalid ∨ newState = .shared) (requester : Option ι)
    (hsink : H.Sinkable a (H.Snooped requester c) s) :
    H.updateSiblings a newState requester c s =
      .ok (s.setLine a (lowered newState (H.Snooped requester c) (s.cstate a))) := by
  have hmem : ∀ d, (∃ p ∈ (H.children c).filter fun p => requester ≠ some p, H.Under p d) ↔
      H.Snooped requester c d := by
    intro d
    simp only [List.mem_filter, H.mem_children, decide_eq_true_eq, and_assoc, Snooped]
  rw [updateSiblings, updateAll_eq hnew (fun p hp => ?_) (hsink.mono fun d hd => (hmem d).1 hd), lowered_congr hmem]
  rw [(H.mem_children p c).1 (List.mem_filter.1 hp).1]
  exact Option.some_ne_none c

/-! ## Evictions -/

/-- The eviction of a line makes all caches below lose it. -/
theorem evictBlock_eq {v : α} (oldState : CacheState) (hevicting : ∀ d, s.evicting d = none)
    (hv : s.cstate v c = .invalid)
    (hsink : ∀ p n, H.parent p = some n → n ≠ c → s.cstate v p = .modified → s.cstate v n = .modified)
    (hnext : ∀ n, H.parent c = some n → oldState = .modified → s.cstate v n = .modified)
    (hold : oldState = .modified ∨ oldState = .shared ∨ oldState = .exclusive) :
    H.evictBlock v oldState c s = .ok (s.setLine v (lowered .invalid (H.Under c) (s.cstate v))) := by
  have hunder : ∀ d, (∃ p ∈ H.children c, H.Under p d) → H.Under c d := fun d hd =>
    LevelTree.under_iff_children.2 (.inr hd)
  have hset : lowered .invalid (fun d => ∃ p ∈ H.children c, H.Under p d) (s.cstate v) =
      lowered .invalid (H.Under c) (s.cstate v) := by
    funext d
    by_cases hd : ∃ p ∈ H.children c, H.Under p d
    · rw [lowered_invalid_of_mem (D := fun d => ∃ p ∈ H.children c, H.Under p d) hd,
        lowered_invalid_of_mem (hunder d hd)]
    · rw [lowered_of_not (D := fun d => ∃ p ∈ H.children c, H.Under p d) hd]
      by_cases hc : H.Under c d
      · have hdc : d = c := (LevelTree.under_iff_children.1 hc).resolve_right hd
        rw [lowered_invalid_of_mem hc, hdc, hv]
      · rw [lowered_of_not hc]
  have hloop := updateAll_eq (H := H) (a := v) (l := H.children c)
    (s := { s with evicting := Function.update s.evicting c (some v) })
    (show CacheState.invalid = .invalid ∨ CacheState.invalid = .shared from .inl rfl)
    (fun p hp => by rw [(H.mem_children p c).1 hp]; exact Option.some_ne_none c) (by
      intro p n _ hparent hmodified
      by_cases hn : n = c
      · exact .inr (by simp [hn])
      · exact .inl (hsink p n hparent hn hmodified))
  have hreset : Function.update (Function.update s.evicting c (some v)) c none = s.evicting := by
    rw [Function.update_idem, ← hevicting c, Function.update_eq_self]
  have hgone : lowered .invalid (H.Under c) (s.cstate v) c = .invalid :=
    lowered_invalid_of_mem (LevelTree.under_refl c)
  rw [evictBlock, hloop, ok_bind]
  simp only [Caches.setLine, hreset, hset]
  cases hparent : H.parent c with
  | none =>
    rcases hold with hold | hold | hold <;> simp [hold, hgone]
  | some n =>
    have hn : ¬ H.Under c n := LevelTree.not_under_parent hparent
    by_cases hmodified : oldState = .modified
    · have hmod := hnext n hparent hmodified
      simp [hmodified, Caches.writeCacheBlock, hevicting, lowered_of_not hn, hmod, hgone]
    · simp [hmodified, hgone]

end CacheTree

end LifeSim.Hierarchy
