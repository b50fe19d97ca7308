import Mathlib
import LifeSim.Hierarchy.Inclusion

/-!
# One access

What `processShmemReqFromPrevCache` does to the states of a line, from the cache that it is at up to the last level: it
serves the access, so that the caches below can fill their copies, or it leaves nothing below the last level and waits
for the directory. Around it are the fills on the way back, the reply of the directory and the second try.
-/

namespace LifeSim.Hierarchy

open LifeSim.Lib
open LifeSim.Directory (CacheState)

variable {ι α : Type} [DecidableEq ι]

namespace CacheTree

/-! ## What keeps the single writer -/

/-- A read takes the state of the first cache on its path that has the line. If this is `MODIFIED`, no previous cache of
this one has the line. -/
def loadKept (H : CacheTree ι) (f : ι → CacheState) : List ι → Bool
  | [] => true
  | c :: rest =>
    if readable (f c) then f c ≠ .modified || (H.children c).all fun q => f q = .invalid else H.loadKept f rest

/-- A write goes on to the first cache that has the line as `MODIFIED`, or to the last level, whose previous caches lose
the line if they are not the requester. The caches on the way there let go of the line; if one of them had it as
`EXCLUSIVE`, its other previous caches keep it, and it is stale then. -/
def storeKept (H : CacheTree ι) (core : ℕ) (f : ι → CacheState) : Bool → ι → List ι → Bool
  | stale, _, [] => !stale
  | stale, z, c :: rest =>
    if f c = .modified ∨ c = H.root then !stale || !H.isMasterCache core z
    else H.storeKept core f (stale || (f c = .exclusive && (H.children c).any fun q => q ≠ z && f q ≠ .invalid)) c rest

variable {H : CacheTree ι} {K : Prop} {core : ℕ} {op : MemOp} {gone : ι → Prop} {stale : Bool} {c d n p z : ι}
  {f g : ι → CacheState}

/-- What is below a cache has no part in the rest of a write above it. -/
theorem storeKept_congr (hagree : ∀ d, ¬ H.Under c d → f d = g d) (hz : H.Under z c) (hparent : H.parent z = some n) :
    H.storeKept core f stale z (H.path n) = H.storeKept core g stale z (H.path n) := by
  have habove : ∀ m z, H.Under z c → H.parent z = some m → ¬ H.Under c m := by
    intro m z hz hparent hm
    exact LevelTree.not_under_parent hparent (hz.trans hm)
  induction n using LevelTree.root_induction (T := H.toLevelTree) generalizing z stale with
  | hroot => simp [LevelTree.path_root, storeKept]
  | hchild m e hme ih =>
    have hm : f m = g m := hagree m (habove m z hz hparent)
    have hany : ((H.children m).any fun q => q ≠ z && f q ≠ .invalid) =
        (H.children m).any fun q => q ≠ z && g q ≠ .invalid := by
      rw [Bool.eq_iff_iff, List.any_eq_true, List.any_eq_true]
      refine exists_congr fun q => and_congr_right fun hq => ?_
      by_cases hqz : q = z
      · simp [hqz]
      · have hqparent := (H.mem_children q m).1 hq
        have hq' : ¬ H.Under c q := fun hunder =>
          hqz (LevelTree.eq_of_under_children hqparent hparent (LevelTree.under_refl q) (hz.trans hunder))
        rw [hagree q hq']
    rw [LevelTree.path_of_parent hme, storeKept, storeKept, hm, hany,
      ih ((LevelTree.under_parent hparent).trans hz) hme]

omit [DecidableEq ι] in
/-- A line that only the last level may have is kept by a read. -/
theorem loadKept_of_blank (hblank : ∀ d, d ≠ H.root → f d = .invalid) (c : ι) : H.loadKept f (H.path c) = true := by
  induction c using LevelTree.root_induction (T := H.toLevelTree) with
  | hroot =>
    have hchildren : ∀ p ∈ H.children H.root, f p = .invalid :=
      fun p hp => hblank p (LevelTree.ne_root ((H.mem_children p H.root).1 hp))
    rw [LevelTree.path_root, loadKept]
    split
    · simpa using .inr hchildren
    · rfl
  | hchild p d hparent ih =>
    have hp := hblank p (LevelTree.ne_root hparent)
    rw [LevelTree.path_of_parent hparent, loadKept, if_neg (by simp [hp, readable]), ih]

/-- A line that only the last level may have is kept by a write. -/
theorem storeKept_of_blank (hblank : ∀ d, d ≠ H.root → f d = .invalid) (c z : ι) :
    H.storeKept core f false z (H.path c) = true := by
  induction c using LevelTree.root_induction (T := H.toLevelTree) generalizing z with
  | hroot => simp [LevelTree.path_root, storeKept]
  | hchild p d hparent ih =>
    have hproot := LevelTree.ne_root hparent
    have hp := hblank p hproot
    rw [LevelTree.path_of_parent hparent, storeKept, if_neg (by simp [hp, hproot])]
    simpa [hp] using ih p

/-! ## At one cache of the path -/

/-- An access arrives at a cache. -/
structure Ready (H : CacheTree ι) (K : Prop) (core : ℕ) (op : MemOp) (gone : ι → Prop) (stale : Bool) (z c : ι)
    (f : ι → CacheState) : Prop extends H.Ajar K op gone c f where
  prev : H.parent z = some c → f z = .invalid
  load : K → op = .read → H.loadKept f (H.path c) = true
  store : K → op ≠ .read → H.storeKept core f stale z (H.path c) = true
  clean : K → op ≠ .read → stale = false → ∀ p n, H.parent p = some n → gone n → f p = .invalid

/-- An access has been served down to a cache. -/
structure Answered (H : CacheTree ι) (K : Prop) (op : MemOp) (gone : ι → Prop) (c : ι) (f : ι → CacheState) : Prop
    extends H.Ajar K op gone c f where
  served : operationPermissible (f c) op = true
  tight : K → f c = .modified → ∀ d, H.Under c d → d ≠ c → f d = .invalid

/-- What a snoop before the access goes on leaves of a line. -/
noncomputable def snooped (H : CacheTree ι) (requester : Option ι) (c : ι) (f : ι → CacheState) : ι → CacheState :=
  if f c = .shared then lowered .invalid (H.Snooped requester c) f else f

omit [DecidableEq ι] in
theorem snooped_self (requester : Option ι) : H.snooped requester c f c = f c := by
  rw [snooped]
  split
  · exact lowered_of_not fun h => h.under.2 rfl
  · rfl

omit [DecidableEq ι] in
theorem snooped_of_not_under {requester : Option ι} (hd : ¬ H.Under c d) : H.snooped requester c f d = f d := by
  rw [snooped]
  split
  · exact lowered_of_not fun h => hd h.under.1
  · rfl

omit [DecidableEq ι] in
theorem snooped_of_invalid {requester : Option ι} (hd : f d = .invalid) : H.snooped requester c f d = .invalid := by
  rw [snooped]
  split
  · exact lowered_of_invalid hd
  · exact hd

omit [DecidableEq ι] in
theorem requester_eq_some {p : ι} : H.requester core z = some p ↔ H.isMasterCache core z = true ∧ z = p := by
  rw [requester]
  split
  · rename_i h
    simp [h]
  · rename_i h
    simp [h]

namespace Ready

/-- A previous cache that is not snooped is without the line. -/
theorem not_snooped (h : H.Ready K core op gone stale z c f) (hparent : H.parent p = some c)
    (hp : ¬ H.Snooped (H.requester core z) c p) : f p = .invalid := by
  by_contra hne
  refine hp ⟨p, hparent, fun hrequester => ?_, LevelTree.under_refl p⟩
  rw [← (requester_eq_some.1 hrequester).2] at hne hparent
  exact hne (h.prev hparent)

/-- After the snoop the previous caches of a `SHARED` copy are without the line. -/
theorem snooped_shared (h : H.Ready K core op gone stale z c f) (hc : f c = .shared) (hparent : H.parent p = some c) :
    H.snooped (H.requester core z) c f p = .invalid := by
  rw [snooped, if_pos hc]
  by_cases hp : H.Snooped (H.requester core z) c p
  · exact lowered_invalid_of_mem hp
  · exact lowered_of_invalid (h.not_snooped hparent hp)

theorem ajar_snooped (h : H.Ready K core op gone stale z c f) :
    H.Ajar K op gone c (H.snooped (H.requester core z) c f) := by
  rw [snooped]
  split
  · exact h.toAjar.lower (.inl rfl) (fun _ _ hparent hd => hd.of_parent hparent) fun hc => hc.under.2 rfl
  · exact h.toAjar

/-- A read that cannot be served finds nothing. -/
theorem invalid_of_read (h : H.Ready K core op gone stale z c f) (hread : op = .read)
    (hop : operationPermissible (f c) op = false) : f c = .invalid := by
  rw [hread] at hop
  exact eq_invalid_of_not_readable hop (h.settled c)

/-- The access goes on to the next level. -/
theorem next (h : H.Ready K core op gone stale z c f) (hop : operationPermissible (f c) op = false)
    (hparent : H.parent c = some n) :
    ∃ stale', H.Ready K core op (fun d => gone d ∨ d = c) stale' c n
      (Function.update (H.snooped (H.requester core z) c f) c .invalid) := by
  have hroot := LevelTree.ne_root hparent
  have hne := ne_modified_of_not_permissible hop
  have hajar := h.ajar_snooped.drop (by rwa [snooped_self])
    (fun hc p hp => h.snooped_shared (by rwa [snooped_self] at hc) hp) hparent
  refine ⟨stale || (f c = .exclusive && (H.children c).any fun q => q ≠ z && f q ≠ .invalid), hajar,
    fun _ => Function.update_self .., fun hK hread => ?_, fun hK hwrite => ?_, fun hK hwrite hstale p m hpm hm => ?_⟩
  · have hc := h.invalid_of_read hread hop
    have hsame : Function.update (H.snooped (H.requester core z) c f) c .invalid = f := by
      rw [snooped, if_neg (by simp [hc]), ← hc, Function.update_eq_self]
    have hload := h.load hK hread
    rw [LevelTree.path_of_parent hparent, loadKept, hc] at hload
    rw [hsame]
    exact hload
  · have hstore := h.store hK hwrite
    rw [LevelTree.path_of_parent hparent, storeKept, if_neg (not_or.2 ⟨hne, hroot⟩)] at hstore
    rw [← hstore]
    refine storeKept_congr (c := c) (fun d hd => ?_) (LevelTree.under_refl c) hparent
    have hdc : d ≠ c := fun hdc => hd (hdc ▸ LevelTree.under_refl d)
    rw [Function.update_of_ne hdc, snooped_of_not_under hd]
  · obtain ⟨hstale, hnew⟩ := (Bool.or_eq_false_iff ..).1 hstale
    by_cases hpc : p = c
    · rw [hpc, Function.update_self]
    rw [Function.update_of_ne hpc]
    rcases hm with hm | rfl
    · exact snooped_of_invalid (h.clean hK hwrite hstale p m hpm hm)
    · have hgone : ¬ gone m := fun hgone => (h.below m hgone).2 rfl
      cases hm : f m with
      | invalid =>
        have hle := h.order p m hpm hgone
        rw [hm] at hle
        exact snooped_of_invalid (strength_eq_zero.1 (Nat.le_zero.1 hle))
      | shared => exact h.snooped_shared hm hpm
      | sharedUpgrading => exact absurd hm (h.settled m)
      | modified => exact absurd hm hne
      | exclusive =>
        by_cases hpz : p = z
        · exact snooped_of_invalid (hpz ▸ h.prev (hpz ▸ hpm))
        · refine snooped_of_invalid ?_
          by_contra hp
          rw [hm] at hnew
          simp only [decide_true, Bool.true_and, List.any_eq_false, H.mem_children] at hnew
          exact hnew p hpm (by simp [hpz, hp])

/-- Where the access of a run that keeps the single writer is served with a `MODIFIED` copy, it leaves nothing below. -/
theorem tight (h : H.Ready K core op gone stale z c f) (hK : K) (hwrite : op ≠ .read)
    (hend : f c = .modified ∨ c = H.root) (hd : H.Under c d) (hdc : d ≠ c) :
    lowered .invalid (H.Snooped (H.requester core z) c) f d = .invalid := by
  obtain ⟨p, hp, hunder⟩ := (LevelTree.under_iff_children.1 hd).resolve_left hdc
  have hparent := (H.mem_children p c).1 hp
  by_cases hrequester : H.requester core z = some p
  · -- What is below the requester has been dropped, or it would be stale.
    obtain ⟨hmaster, hzp⟩ := requester_eq_some.1 hrequester
    have hstore := h.store hK hwrite
    have hstale : stale = false := by
      obtain ⟨rest, hpath⟩ := LevelTree.exists_path_eq (T := H.toLevelTree) c
      rw [hpath, storeKept, if_pos hend] at hstore
      simpa [hmaster] using hstore
    have hinvalid := h.invalid_under (h.clean hK hwrite hstale) (h.prev (hzp ▸ hparent)) (hzp ▸ hunder)
    exact lowered_of_invalid hinvalid
  · exact lowered_invalid_of_mem (D := H.Snooped (H.requester core z) c) ⟨p, hparent, hrequester, hunder⟩

/-- A write is served after the other copies are gone. -/
theorem answered_write (h : H.Ready K core op gone stale z c f) (hop : operationPermissible (f c) op = true)
    (hwrite : op ≠ .read) :
    H.Answered K op gone c (lowered .invalid (H.Snooped (H.requester core z) c) f) where
  toAjar := h.toAjar.lower (.inl rfl) (fun _ _ hparent hd => hd.of_parent hparent) fun hc => hc.under.2 rfl
  served := by rwa [lowered_of_not fun hc => hc.under.2 rfl]
  tight hK hmodified d hd hdc := by
    rw [lowered_of_not fun hc => hc.under.2 rfl] at hmodified
    exact h.tight hK hwrite (.inl hmodified) hd hdc

/-- A read is served after the other copies are `SHARED`, if this one is not. -/
theorem answered_read {D : ι → Prop} (h : H.Ready K core op gone stale z c f)
    (hop : operationPermissible (f c) op = true) (hread : op = .read) (hD : ∀ p n, H.parent p = some n → D n → D p)
    (hc : ¬ D c) : H.Answered K op gone c (lowered .shared D f) where
  toAjar := h.toAjar.lower (.inr rfl) hD hc
  served := by rwa [lowered_of_not hc]
  tight hK hmodified d hd hdc := by
    rw [lowered_of_not hc] at hmodified
    obtain ⟨rest, hpath⟩ := LevelTree.exists_path_eq (T := H.toLevelTree) c
    have hload := h.load hK hread
    have hall : ∀ p ∈ H.children c, f p = .invalid := by simpa [hpath, loadKept, hmodified, readable] using hload
    obtain ⟨p, hp, hunder⟩ := (LevelTree.under_iff_children.1 hd).resolve_left hdc
    have hclean : ∀ p n, H.parent p = some n → gone n → f p = .invalid := by
      intro p n hparent hn
      by_contra hne
      exact (h.loose p n hparent hn hne).1 hread
    exact lowered_of_invalid (h.toAjar.invalid_under hclean (hall p hp) hunder)

end Ready

end CacheTree

end LifeSim.Hierarchy
