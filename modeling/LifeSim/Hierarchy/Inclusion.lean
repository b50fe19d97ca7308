import Mathlib
import LifeSim.Hierarchy.Lowering

/-!
# Inclusion

Between two accesses a cache has no more of a line than its next level: the states of a line grow along each path to the
last level. During an access the caches at the beginning of its path have let go of the line, and a cache above which
this has happened may still have it, as long as the access is sure to fill the path again.

What is shown of the single writer is shown for runs that keep it, under a proposition that says so.
-/

namespace LifeSim.Hierarchy

open LifeSim.Lib
open LifeSim.Directory (CacheState)

variable {ι α : Type}

namespace CacheTree

/-- Whoever has a line while a cache has it as `MODIFIED` is above or below this cache. -/
def SingleWriter (H : CacheTree ι) (f : ι → CacheState) : Prop :=
  ∀ c d, f c = .modified → f d ≠ .invalid → H.Related c d

/-- A line between two accesses. -/
structure Inclusive (H : CacheTree ι) (f : ι → CacheState) : Prop where
  order : ∀ p n, H.parent p = some n → strength (f p) ≤ strength (f n)
  settled : ∀ c, f c ≠ .sharedUpgrading

/-- A line between two accesses of a run that may keep the single writer. -/
structure Sound (H : CacheTree ι) (K : Prop) (f : ι → CacheState) : Prop extends H.Inclusive f where
  single : K → H.SingleWriter f

/-- A line during an access, when some caches of the path have let go of it and the access is at the next one. -/
structure Ajar (H : CacheTree ι) (K : Prop) (op : MemOp) (gone : ι → Prop) (c : ι) (f : ι → CacheState) : Prop where
  below : ∀ z, gone z → H.Under c z ∧ z ≠ c
  invalid : ∀ z, gone z → f z = .invalid
  order : ∀ p n, H.parent p = some n → ¬ gone n → strength (f p) ≤ strength (f n)
  /-- A cache has the line although its next level has let go of it. -/
  loose : ∀ p n, H.parent p = some n → gone n → f p ≠ .invalid → op ≠ .read ∧ f p ≠ .modified ∧ 2 ≤ strength (f c)
  settled : ∀ d, f d ≠ .sharedUpgrading
  single : K → H.SingleWriter f

variable {H : CacheTree ι} {K : Prop} {op : MemOp} {gone : ι → Prop} {c d n p : ι} {f g : ι → CacheState}

theorem SingleWriter.mono (h : H.SingleWriter f) (hmodified : ∀ c, g c = .modified → f c = .modified)
    (hvalid : ∀ c, g c ≠ .invalid → f c ≠ .invalid) : H.SingleWriter g :=
  fun c d hc hd => h c d (hmodified c hc) (hvalid d hd)

theorem SingleWriter.lower {newState : CacheState} {D : ι → Prop} (h : H.SingleWriter f)
    (hnew : newState = .invalid ∨ newState = .shared) : H.SingleWriter (lowered newState D f) := by
  refine h.mono (fun c hc => ?_) fun c hc hf => hc (lowered_of_invalid hf)
  have hle := strength_lowered_le (f := f) (D := D) (strength_newState hnew) c
  rw [hc] at hle
  exact strength_eq_three.1 (le_antisymm (strength_le_three _) hle)

theorem Sound.lower {newState : CacheState} {D : ι → Prop} (h : H.Sound K f)
    (hnew : newState = .invalid ∨ newState = .shared) (hD : ∀ p n, H.parent p = some n → D n → D p) :
    H.Sound K (lowered newState D f) where
  order p n hparent := strength_lowered_mono (strength_newState hnew) (hD p n hparent) (h.order p n hparent)
  settled c := lowered_settled hnew (h.settled c)
  single hK := (h.single hK).lower hnew

namespace Ajar

/-- An access begins with a line between two accesses. -/
theorem of_sound (op : MemOp) (c : ι) (h : H.Sound K f) : H.Ajar K op (fun _ => False) c f where
  below := fun _ hz => hz.elim
  invalid := fun _ hz => hz.elim
  order := fun p n hparent _ => h.order p n hparent
  loose := fun _ _ _ hn => hn.elim
  settled := h.settled
  single := h.single

/-- An access ends with a line between two accesses. -/
theorem sound (h : H.Ajar K op (fun _ => False) c f) : H.Sound K f where
  order := fun p n hparent => h.order p n hparent not_false
  settled := h.settled
  single := h.single

/-- Only the last level may have the line. -/
theorem of_blank (hbelow : ∀ z, gone z → H.Under c z ∧ z ≠ c) (hblank : ∀ d, d ≠ H.root → f d = .invalid)
    (hroot : f H.root ≠ .sharedUpgrading) : H.Ajar K op gone c f := by
  have hchild : ∀ p n, H.parent p = some n → f p = .invalid := fun p _ hparent => hblank p (LevelTree.ne_root hparent)
  refine ⟨hbelow, fun z hz => ?_, fun p n hparent _ => ?_, fun p n hparent _ hp => ?_, fun d => ?_, fun _ => ?_⟩
  · refine hblank z fun hzroot => ?_
    have hz' := hbelow z hz
    rw [hzroot] at hz'
    exact hz'.2 (LevelTree.under_root_iff.1 hz'.1).symm
  · rw [hchild p n hparent]
    exact Nat.zero_le _
  · exact absurd (hchild p n hparent) hp
  · by_cases hd : d = H.root
    · rwa [hd]
    · rw [hblank d hd]
      simp
  · intro c d hc _
    by_cases hcroot : c = H.root
    · exact .inl (hcroot ▸ LevelTree.root_under d)
    · rw [hblank c hcroot] at hc
      cases hc

/-- The next level of a `MODIFIED` cache has the line as `MODIFIED`, even during an access. -/
theorem modified_parent (h : H.Ajar K op gone c f) (hparent : H.parent p = some n) (hp : f p = .modified) :
    f n = .modified := by
  by_cases hn : gone n
  · exact absurd hp (h.loose p n hparent hn (by simp [hp])).2.1
  · have hle := h.order p n hparent hn
    rw [hp] at hle
    exact strength_eq_three.1 (le_antisymm (strength_le_three _) hle)

theorem sinkable {s : Caches ι α} {a : α} (h : H.Ajar K op gone c (s.cstate a)) (D : ι → Prop) : H.Sinkable a D s :=
  fun _ _ _ hparent hp => .inl (h.modified_parent hparent hp)

/-- Lowering a line below the cache that an access is at. -/
theorem lower {newState : CacheState} {D : ι → Prop} (h : H.Ajar K op gone c f)
    (hnew : newState = .invalid ∨ newState = .shared) (hD : ∀ p n, H.parent p = some n → D n → D p) (hc : ¬ D c) :
    H.Ajar K op gone c (lowered newState D f) where
  below := h.below
  invalid z hz := lowered_of_invalid (h.invalid z hz)
  order p n hparent hn := strength_lowered_mono (strength_newState hnew) (hD p n hparent) (h.order p n hparent hn)
  loose p n hparent hn hp := by
    have hf : f p ≠ .invalid := fun h0 => hp (lowered_of_invalid h0)
    obtain ⟨hop, hmodified, hstrong⟩ := h.loose p n hparent hn hf
    refine ⟨hop, fun hm => hmodified ?_, by rwa [lowered_of_not hc]⟩
    have hle := strength_lowered_le (f := f) (D := D) (strength_newState hnew) p
    rw [hm] at hle
    exact strength_eq_three.1 (le_antisymm (strength_le_three _) hle)
  settled d := lowered_settled hnew (h.settled d)
  single hK := (h.single hK).lower hnew

/-- If the children of all caches that have let go of a line are without it, what is below a cache without it is without
it, too. -/
theorem invalid_under (h : H.Ajar K op gone c f) (hclean : ∀ p n, H.parent p = some n → gone n → f p = .invalid)
    (hp : f p = .invalid) (hd : H.Under p d) : f d = .invalid := by
  refine LevelTree.under_induction (P := fun d => f d = .invalid) hp (fun q n hparent _ ih => ?_) hd
  by_cases hn : gone n
  · exact hclean q n hparent hn
  · have hle := h.order q n hparent hn
    rw [ih] at hle
    exact strength_eq_zero.1 (Nat.le_zero.1 hle)

variable [DecidableEq ι]

/-- The last level becomes `MODIFIED`. -/
theorem raise (h : H.Ajar K op gone H.root f) : H.Ajar K op gone H.root (Function.update f H.root .modified) := by
  have hgone : ∀ z, gone z → z ≠ H.root := fun z hz => (h.below z hz).2
  refine ⟨h.below, fun z hz => ?_, fun p n hparent hn => ?_, fun p n hparent hn hp => ?_, fun d => ?_,
    fun hK c d hc hd => ?_⟩
  · rw [Function.update_of_ne (hgone z hz)]
    exact h.invalid z hz
  · rw [Function.update_of_ne (LevelTree.ne_root hparent)]
    by_cases hroot : n = H.root
    · rw [hroot, Function.update_self]
      exact strength_le_three _
    · rw [Function.update_of_ne hroot]
      exact h.order p n hparent hn
  · rw [Function.update_of_ne (LevelTree.ne_root hparent)] at hp ⊢
    rw [Function.update_self]
    have hloose := h.loose p n hparent hn hp
    exact ⟨hloose.1, hloose.2.1, by simp [strength]⟩
  · by_cases hd : d = H.root
    · simp [hd]
    · rw [Function.update_of_ne hd]
      exact h.settled d
  · by_cases hcroot : c = H.root
    · exact .inl (hcroot ▸ LevelTree.root_under d)
    · by_cases hdroot : d = H.root
      · exact .inr (hdroot ▸ LevelTree.root_under c)
      · rw [Function.update_of_ne hcroot] at hc
        rw [Function.update_of_ne hdroot] at hd
        exact h.single hK c d hc hd

/-- A cache that cannot serve an access lets go of its line, so that the access is at the next one. -/
theorem drop (h : H.Ajar K op gone c f) (hop : operationPermissible (f c) op = false)
    (hshared : f c = .shared → ∀ p, H.parent p = some c → f p = .invalid) (hparent : H.parent c = some n) :
    H.Ajar K op (fun z => gone z ∨ z = c) n (Function.update f c .invalid) := by
  have hc : ¬ gone c := fun hc => (h.below c hc).2 rfl
  have hn : n ≠ c := (LevelTree.ne_parent hparent).symm
  have hne := ne_modified_of_not_permissible hop
  have hupper := h.order c n hparent fun hgone =>
    LevelTree.not_under_parent hparent (h.below n hgone).1
  refine ⟨fun z hz => ?_, fun z hz => ?_, fun p m hpm hm => ?_, fun p m hpm hm hp => ?_, fun d => ?_, fun hK => ?_⟩
  · rcases hz with hz | rfl
    · have hz' := (h.below z hz).1
      refine ⟨(LevelTree.under_parent hparent).trans hz', fun hzn => ?_⟩
      exact LevelTree.not_under_parent hparent (hzn ▸ hz')
    · exact ⟨LevelTree.under_parent hparent, hn.symm⟩
  · rcases hz with hz | rfl
    · rw [Function.update_of_ne (h.below z hz).2]
      exact h.invalid z hz
    · exact Function.update_self ..
  · obtain ⟨hm, hmc⟩ := not_or.1 hm
    rw [Function.update_of_ne hmc]
    by_cases hpc : p = c
    · rw [hpc, Function.update_self]
      exact Nat.zero_le _
    · rw [Function.update_of_ne hpc]
      exact h.order p m hpm hm
  · have hpc : p ≠ c := fun hpc => hp (by rw [hpc, Function.update_self])
    rw [Function.update_of_ne hpc] at hp ⊢
    rw [Function.update_of_ne hn]
    rcases hm with hm | rfl
    · obtain ⟨hwrite, hmodified, hstrong⟩ := h.loose p m hpm hm hp
      exact ⟨hwrite, hmodified, hstrong.trans hupper⟩
    · -- The cache that lets go was `EXCLUSIVE`.
      have hle := h.order p m hpm hc
      have hpos : strength (f p) ≠ 0 := fun h0 => hp (strength_eq_zero.1 h0)
      have hexclusive : f m = .exclusive := by
        cases hfm : f m with
        | invalid => rw [hfm, strength] at hle; omega
        | shared => exact absurd (hshared hfm p hpm) hp
        | sharedUpgrading => exact absurd hfm (h.settled m)
        | exclusive => rfl
        | modified => exact absurd hfm hne
      rw [hexclusive] at hop hupper hle
      refine ⟨fun hread => ?_, fun hm => ?_, hupper⟩
      · rw [hread] at hop
        simp [operationPermissible, readable] at hop
      · rw [hm] at hle
        simp [strength] at hle
  · by_cases hd : d = c
    · simp [hd]
    · rw [Function.update_of_ne hd]
      exact h.settled d
  · refine (h.single hK).mono (fun d hd => ?_) fun d hd => ?_
    · by_cases hdc : d = c
      · simp [hdc] at hd
      · rwa [Function.update_of_ne hdc] at hd
    · by_cases hdc : d = c
      · simp [hdc] at hd
      · rwa [Function.update_of_ne hdc] at hd

end Ajar

end CacheTree

end LifeSim.Hierarchy
