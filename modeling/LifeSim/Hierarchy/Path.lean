import Mathlib
import LifeSim.Hierarchy.Access

/-!
# The path of an access

From what happens at one cache of a path follows what the access does from there to the last level and back, with the
fills and their evictions.
-/

namespace LifeSim.Hierarchy

open LifeSim.Lib
open LifeSim.Directory (CacheState)

variable {ι α : Type} [DecidableEq ι] [DecidableEq α]

namespace CacheTree

/-- Nothing is being evicted, and all lines but one are as between two accesses. -/
structure Quiet (H : CacheTree ι) (K : Prop) (a : α) (s : Caches ι α) : Prop where
  evicting : ∀ c, s.evicting c = none
  others : ∀ b, b ≠ a → H.Sound K (s.cstate b)

/-- An access waits for the directory. -/
structure Waiting (H : CacheTree ι) (op : MemOp) (f₀ : ι → CacheState) (request : Request) (f : ι → CacheState) :
    Prop where
  blank : ∀ d, d ≠ H.root → f d = .invalid
  root : f H.root = if request = .upgradeReq then .sharedUpgrading else .invalid
  read : request = .shReq ↔ op = .read
  /-- The last level could not serve the access. -/
  unserved : f₀ H.root = .invalid ∨ f₀ H.root = .shared ∧ op ≠ .read

/-- What an access leaves of a line that was as given when it arrived. -/
def Result (H : CacheTree ι) (K : Prop) (op : MemOp) (gone : ι → Prop) (c : ι) (f₀ : ι → CacheState) :
    Outcome → (ι → CacheState) → Prop
  | .hit, f => H.Answered K op gone c f
  | .miss request, f => H.Waiting op f₀ request f

variable {H : CacheTree ι} {K : Prop} {core : ℕ} {op : MemOp} {gone : ι → Prop} {stale : Bool} {c d n p z : ι}
  {a : α} {victim : Option α} {victims : ι → Option α} {s : Caches ι α} {f f₀ : ι → CacheState} {state : CacheState}

omit [DecidableEq ι] in
theorem Quiet.setLine (h : H.Quiet K a s) : H.Quiet K a (s.setLine a f) where
  evicting := h.evicting
  others b hb := by
    rw [Caches.setLine_of_ne hb]
    exact h.others b hb

/-! ## Fills -/

/-- The inserted line is in the cache, and the caches below have lost the victim. -/
theorem insertCacheBlock_spec (hquiet : H.Quiet K a s) (hc : s.cstate a c = .invalid) :
    Ensures (H.insertCacheBlock a state victim c s)
      (fun s' => H.Quiet K a s' ∧ s'.cstate a = Function.update (s.cstate a) c state) fun _ => False := by
  rw [insertCacheBlock, if_neg (by simp [hc])]
  cases hvictim : s.evicted victim c with
  | none => exact ⟨hquiet.setLine, Caches.setLine_self⟩
  | some v =>
    have hv : s.cstate v c ≠ .invalid := by simpa using (Option.filter_eq_some_iff.1 hvictim).2
    have hva : v ≠ a := fun h => hv (by rw [h, hc])
    have hsound := hquiet.others v hva
    have hline : ((s.setState v c .invalid).setState a c state).cstate v = Function.update (s.cstate v) c .invalid := by
      rw [Caches.setState_eq, Caches.setLine_of_ne hva, Caches.setState_eq, Caches.setLine_self]
    have hmodified : ∀ p n, H.parent p = some n → s.cstate v p = .modified → s.cstate v n = .modified :=
      fun p n hparent hp => (Ajar.of_sound .read c hsound).modified_parent hparent hp
    have hevict := evictBlock_eq (H := H) (c := c) (v := v)
      (s := (s.setState v c .invalid).setState a c state) (s.cstate v c) hquiet.evicting
      (by rw [hline, Function.update_self])
      (by
        intro p n hparent hn hp
        rw [hline] at hp ⊢
        have hpc : p ≠ c := fun hpc => by simp [hpc] at hp
        rw [Function.update_of_ne hpc] at hp
        rw [Function.update_of_ne hn]
        exact hmodified p n hparent hp)
      (by
        intro n hparent hold
        rw [hline, Function.update_of_ne (LevelTree.ne_parent hparent).symm]
        exact hmodified c n hparent hold)
      (by
        cases hstate : s.cstate v c with
        | invalid => exact absurd hstate hv
        | sharedUpgrading => exact absurd hstate (hsound.settled c)
        | _ => simp)
    dsimp only
    rw [hevict, hline]
    have hlowered : lowered .invalid (H.Under c) (Function.update (s.cstate v) c .invalid) =
        lowered .invalid (H.Under c) (s.cstate v) := by
      funext d
      by_cases hd : H.Under c d
      · rw [lowered_invalid_of_mem hd, lowered_invalid_of_mem hd]
      · have hdc : d ≠ c := fun h => hd (h ▸ LevelTree.under_refl d)
        rw [lowered_of_not hd, lowered_of_not hd, Function.update_of_ne hdc]
    refine ⟨⟨hquiet.evicting, fun b hb => ?_⟩, ?_⟩
    · by_cases hbv : b = v
      · rw [hbv, Caches.setLine_self, hlowered]
        exact hsound.lower (.inl rfl) fun p n hparent hd => hd.of_parent hparent
      · rw [Caches.setLine_of_ne hbv, Caches.setState_eq, Caches.setLine_of_ne hb, Caches.setState_eq,
          Caches.setLine_of_ne hbv]
        exact hquiet.others b hb
    · rw [Caches.setLine_of_ne hva.symm, Caches.setState_eq, Caches.setLine_self, Caches.setState_eq,
        Caches.setLine_of_ne hva.symm]

omit [DecidableEq α] in
/-- The cache below the one that served an access takes the state of it. -/
theorem Answered.fill (h : H.Answered K op (fun d => gone d ∨ d = c) n f) (hparent : H.parent c = some n)
    (hbelow : ∀ z, gone z → H.Under c z ∧ z ≠ c) : H.Answered K op gone c (Function.update f c (f n)) := by
  have hunder := LevelTree.under_parent hparent
  have hnc : n ≠ c := (LevelTree.ne_parent hparent).symm
  have hn : ¬ gone n := fun hn => LevelTree.not_under_parent hparent (hbelow n hn).1
  have hne := ne_invalid_of_permissible h.served
  have hloose : ∀ p m, H.parent p = some m → gone m ∨ m = c → f p ≠ .invalid →
      op ≠ .read ∧ f p ≠ .modified ∧ 2 ≤ strength (f n) := h.loose
  refine ⟨⟨hbelow, fun z hz => ?_, fun p m hpm hm => ?_, fun p m hpm hm hp => ?_, fun d => ?_, fun hK x y hx hy => ?_⟩,
    ?_, fun hK hmodified d hd hdc => ?_⟩
  · rw [Function.update_of_ne (hbelow z hz).2]
    exact h.invalid z (.inl hz)
  · by_cases hpc : p = c
    · have hmn : m = n := Option.some.inj ((hpc ▸ hpm).symm.trans hparent)
      rw [hpc, Function.update_self, hmn, Function.update_of_ne hnc]
    · rw [Function.update_of_ne hpc]
      by_cases hmc : m = c
      · rw [hmc, Function.update_self]
        by_cases hp : f p = .invalid
        · rw [hp]
          exact Nat.zero_le _
        · obtain ⟨-, hmodified, hstrong⟩ := hloose p m hpm (.inr hmc) hp
          have hthree : strength (f p) ≠ 3 := fun h3 => hmodified (strength_eq_three.1 h3)
          have hle := strength_le_three (f p)
          omega
      · rw [Function.update_of_ne hmc]
        exact h.order p m hpm (not_or.2 ⟨hm, hmc⟩)
  · have hpc : p ≠ c := fun hpc => hn (Option.some.inj ((hpc ▸ hpm).symm.trans hparent) ▸ hm)
    rw [Function.update_of_ne hpc] at hp ⊢
    rw [Function.update_self]
    exact hloose p m hpm (.inl hm) hp
  · by_cases hd : d = c
    · rw [hd, Function.update_self]
      exact h.settled n
    · rw [Function.update_of_ne hd]
      exact h.settled d
  · -- The new copy is `MODIFIED` only if nothing else is below the one that it comes from.
    by_cases hyc : y = c
    · by_cases hxc : x = c
      · rw [hxc, hyc]
        exact .inl (LevelTree.under_refl c)
      · rw [Function.update_of_ne hxc] at hx
        rcases h.single hK x n hx hne with hxn | hxn
        · exact .inl (hyc ▸ hxn.trans hunder)
        · by_cases hxn' : x = n
          · exact .inl (hyc ▸ hxn' ▸ hunder)
          · have hmodified : f n = .modified := by
              refine LevelTree.under_induction (P := fun d => f d = .modified → f n = .modified) id
                (fun p m hpm _ ih hp => ih (h.toAjar.modified_parent hpm hp)) hxn hx
            rw [h.tight hK hmodified x hxn hxn'] at hx
            cases hx
    · rw [Function.update_of_ne hyc] at hy
      by_cases hxc : x = c
      · rw [hxc, Function.update_self] at hx
        rcases h.single hK n y hx hy with hny | hyn
        · by_cases hyn : y = n
          · exact .inr (hyn ▸ hxc ▸ hunder)
          · exact absurd (h.tight hK hx y hny hyn) hy
        · exact .inr (hxc ▸ hyn.trans hunder)
      · rw [Function.update_of_ne hxc] at hx
        exact h.single hK x y hx hy
  · rw [Function.update_self]
    exact h.served
  · rw [Function.update_self] at hmodified
    rw [Function.update_of_ne hdc]
    refine h.tight hK hmodified d (hunder.trans hd) fun hdn => ?_
    exact LevelTree.not_under_parent hparent (hdn ▸ hd)

theorem copyDataFromNextLevel_spec (hquiet : H.Quiet K a s)
    (h : H.Answered K op (fun d => gone d ∨ d = c) n (s.cstate a)) (hparent : H.parent c = some n)
    (hbelow : ∀ z, gone z → H.Under c z ∧ z ≠ c) :
    Ensures (H.copyDataFromNextLevel op a victim n c s)
      (fun s' => H.Quiet K a s' ∧ H.Answered K op gone c (s'.cstate a)) fun _ => False := by
  have hc : s.cstate a c = .invalid := h.invalid c (.inr rfl)
  rw [copyDataFromNextLevel, if_neg (by simp [h.served]), if_neg (by simp [hc])]
  refine (insertCacheBlock_spec hquiet hc).mono (fun s' hs' => ⟨hs'.1, ?_⟩) fun _ hf => hf
  rw [hs'.2]
  exact h.fill hparent hbelow

/-! ## The path to the last level -/

/-- A hit, with its snoop. -/
theorem snoopHit_spec (h : H.Ready K core op gone stale z c (s.cstate a))
    (hop : operationPermissible (s.cstate a c) op = true) :
    ∃ f, H.snoopHit op a (H.requester core z) c s = .ok (s.setLine a f) ∧ H.Answered K op gone c f := by
  rw [snoopHit]
  by_cases hread : op = .read
  · rw [if_neg (by simp [hread])]
    split
    · refine ⟨_, updateSiblings_eq (.inr rfl) _ (h.toAjar.sinkable _), ?_⟩
      exact h.answered_read hop hread (fun _ _ hparent hd => hd.of_parent hparent) fun hc => hc.under.2 rfl
    · refine ⟨s.cstate a, by rw [Caches.setLine_cstate], ?_⟩
      have hanswered := h.answered_read (D := fun _ => False) hop hread (by simp) not_false
      rwa [lowered_of_forall_invalid (by simp)] at hanswered
  · rw [if_pos hread]
    exact ⟨_, updateSiblings_eq (.inl rfl) _ (h.toAjar.sinkable _), h.answered_write hop hread⟩

theorem snoopMiss_eq (h : H.Ready K core op gone stale z c (s.cstate a)) :
    H.snoopMiss a (H.requester core z) c s = .ok (s.setLine a (H.snooped (H.requester core z) c (s.cstate a))) := by
  rw [snoopMiss, snooped]
  split
  · exact updateSiblings_eq (.inl rfl) _ (h.toAjar.sinkable _)
  · rw [Caches.setLine_cstate]

theorem dropBlock_eq (hc : s.cstate a c ≠ .modified) :
    s.dropBlock a c = .ok (s.setLine a (Function.update (s.cstate a) c .invalid)) := by
  rw [Caches.dropBlock]
  split
  · rename_i hvalid
    rw [Caches.invalidateCacheBlock, if_neg hc, if_neg hvalid, Caches.setState_eq]
  · rename_i hinvalid
    rw [← not_not.1 hinvalid, Function.update_eq_self, Caches.setLine_cstate]

omit [DecidableEq α] in
/-- A last level that is without the line, or has it as `SHARED`, leaves nothing below it when it cannot serve an
access. -/
theorem Ready.blank (h : H.Ready K core op gone stale z H.root f) (hroot : strength (f H.root) ≤ 1) (hd : d ≠ H.root) :
    H.snooped (H.requester core z) H.root f d = .invalid := by
  obtain ⟨p, hp, hunder⟩ := (LevelTree.under_iff_children.1 (LevelTree.root_under d)).resolve_left hd
  have hparent := (H.mem_children p H.root).1 hp
  refine h.ajar_snooped.invalid_under (fun q n hq hn => ?_) ?_ hunder
  · by_contra hne
    have hstrong := (h.ajar_snooped.loose q n hq hn hne).2.2
    rw [snooped_self] at hstrong
    omega
  · cases hf : f H.root with
    | invalid =>
      have hle := h.order p H.root hparent fun hgone => (h.below H.root hgone).2 rfl
      rw [hf] at hle
      exact snooped_of_invalid (strength_eq_zero.1 (Nat.le_zero.1 hle))
    | shared => exact h.snooped_shared hf hparent
    | sharedUpgrading => exact absurd hf (h.settled H.root)
    | exclusive => rw [hf, strength] at hroot; omega
    | modified => rw [hf, strength] at hroot; omega

omit [DecidableEq α] in
/-- A write that the last level serves by making its copy `MODIFIED`. -/
theorem Ready.answered_raise (h : H.Ready K core op gone stale z H.root f) (hwrite : op ≠ .read) :
    H.Answered K op gone H.root
      (Function.update (lowered .invalid (H.Snooped (H.requester core z) H.root) f) H.root .modified) where
  toAjar := (h.toAjar.lower (.inl rfl) (fun _ _ hparent hd => hd.of_parent hparent) fun hc => hc.under.2 rfl).raise
  served := by
    rw [Function.update_self]
    exact permissible_modified op
  tight hK _ d hd hdc := by
    rw [Function.update_of_ne hdc]
    exact h.tight hK hwrite (.inr rfl) hd hdc

/-- The line is in the last level and nowhere else. -/
theorem insert_root_spec (hquiet : H.Quiet K a s) (hblank : ∀ d, s.cstate a d = .invalid)
    (hstate : state ≠ .sharedUpgrading) (hbelow : ∀ z, gone z → H.Under c z ∧ z ≠ c) :
    Ensures (H.insertCacheBlock a state victim H.root s) (fun s' => H.Quiet K a s' ∧ s'.cstate a H.root = state ∧
      (∀ d, d ≠ H.root → s'.cstate a d = .invalid) ∧ H.Ajar K op gone c (s'.cstate a)) fun _ => False := by
  refine (insertCacheBlock_spec hquiet (hblank H.root)).mono (fun s' hs' => ?_) fun _ hf => hf
  have hother : ∀ d, d ≠ H.root → s'.cstate a d = .invalid := by
    intro d hd
    rw [hs'.2, Function.update_of_ne hd, hblank d]
  have hroot : s'.cstate a H.root = state := by rw [hs'.2, Function.update_self]
  exact ⟨hs'.1, hroot, hother, Ajar.of_blank hbelow hother (by rwa [hroot])⟩

/-- A miss in the last level, after its snoop. -/
theorem lastLevelMiss_spec (hquiet : H.Quiet K a s) (h : H.Ready K core op gone stale z H.root f)
    (hop : operationPermissible (f H.root) op = false)
    (hs : s.cstate a = H.snooped (H.requester core z) H.root f) :
    Ensures (H.lastLevelMiss op a victim (H.requester core z) s)
      (fun r => H.Quiet K a r.1 ∧ H.Result K op gone H.root f r.2 (r.1.cstate a)) fun _ => False := by
  have hroot : s.cstate a H.root = f H.root := by rw [hs, snooped_self]
  rw [lastLevelMiss, hroot]
  by_cases hexclusive : f H.root = .exclusive
  · -- The silent upgrade.
    have hwrite : op ≠ .read := fun hread => by
      rw [hread, hexclusive] at hop
      simp [operationPermissible, readable] at hop
    have hf : s.cstate a = f := by rw [hs, snooped, if_neg (by simp [hexclusive])]
    rw [if_pos hexclusive, updateSiblings_eq (.inl rfl) _ (by rw [← hf] at h; exact h.toAjar.sinkable _), ok_bind,
      Caches.setState_eq, Caches.setLine_setLine, Caches.setLine_self, hf]
    refine ⟨hquiet.setLine, ?_⟩
    rw [Caches.setLine_self]
    exact h.answered_raise hwrite
  have hweak : strength (f H.root) ≤ 1 := by
    cases hf : f H.root with
    | exclusive => exact absurd hf hexclusive
    | modified => exact absurd hf (ne_modified_of_not_permissible hop)
    | _ => simp [strength]
  have hblank : ∀ d, d ≠ H.root → s.cstate a d = .invalid := fun d hd => by rw [hs, h.blank hweak hd]
  have hcases : f H.root = .invalid ∨ f H.root = .shared ∧ op ≠ .read := by
    cases hf : f H.root with
    | invalid => exact .inl rfl
    | shared =>
      refine .inr ⟨rfl, fun hread => ?_⟩
      rw [hread, hf] at hop
      simp [operationPermissible, readable] at hop
    | sharedUpgrading => exact absurd hf (h.settled H.root)
    | exclusive => exact absurd hf hexclusive
    | modified => rw [hf, strength] at hweak; omega
  rw [if_neg hexclusive]
  split
  · -- Memory is accessed without a directory.
    rcases hcases with hinvalid | ⟨hshared, hwrite⟩
    · rw [if_neg (by simp [hinvalid])]
      have hall : ∀ d, s.cstate a d = .invalid := by
        intro d
        by_cases hd : d = H.root
        · rw [hd, hroot, hinvalid]
        · exact hblank d hd
      refine (insert_root_spec hquiet hall ?_ h.below).bind fun s' hs' => ⟨hs'.1, ⟨hs'.2.2.2, ?_, ?_⟩⟩
      · split <;> simp
      · rw [hs'.2.1]
        cases op <;> simp [operationPermissible, readable, writable]
      · exact fun _ _ d _ hd => hs'.2.2.1 d hd
    · rw [if_pos (by simp [hshared])]
      refine ⟨hquiet.setLine, ?_⟩
      rw [Caches.setState_eq, Caches.setLine_self, hs, snooped, if_pos hshared]
      exact h.answered_raise hwrite
  · rw [initiateDirectoryAccess, hroot]
    rcases hcases with hinvalid | ⟨hshared, hwrite⟩
    · by_cases hread : op = .read
      · rw [if_pos hread]
        exact ⟨hquiet, hblank, by simp [hroot, hinvalid], by simp [hread], .inl hinvalid⟩
      · rw [if_neg hread, if_neg (by simp [hinvalid]), if_pos hinvalid]
        exact ⟨hquiet, hblank, by simp [hroot, hinvalid], by simp [hread], .inl hinvalid⟩
    · rw [if_neg hwrite, if_pos hshared]
      refine ⟨hquiet.setLine, fun d hd => ?_, ?_, by simp [hwrite], .inr ⟨hshared, hwrite⟩⟩
      · rw [Caches.setState_eq, Caches.setLine_self, Function.update_of_ne hd]
        exact hblank d hd
      · simp [Caches.setState_eq]

/-- The access from a cache of the path on. -/
theorem processShmemReq_spec (hquiet : H.Quiet K a s) (hready : H.Ready K core op gone stale z c (s.cstate a)) :
    Ensures (H.processShmemReq core op a victims (H.path c) (H.requester core z) s)
      (fun r => H.Quiet K a r.1 ∧ H.Result K op gone c (s.cstate a) r.2 (r.1.cstate a)) fun _ => False := by
  have hhit : ∀ {c z : ι} {gone : ι → Prop} {stale : Bool} {s : Caches ι α}, H.Quiet K a s →
      H.Ready K core op gone stale z c (s.cstate a) → operationPermissible (s.cstate a c) op = true →
      Ensures (do
        let s ← H.snoopHit op a (H.requester core z) c s
        .ok (s, Outcome.hit))
        (fun r => H.Quiet K a r.1 ∧ H.Result K op gone c (s.cstate a) r.2 (r.1.cstate a)) fun _ => False := by
    intro c z gone stale s hquiet hready hop
    obtain ⟨f, heq, hanswered⟩ := snoopHit_spec hready hop
    rw [heq, ok_bind]
    refine ⟨hquiet.setLine, ?_⟩
    rw [Caches.setLine_self]
    exact hanswered
  induction c using LevelTree.root_induction (T := H.toLevelTree) generalizing gone stale z s with
  | hroot =>
    rw [LevelTree.path_root, processShmemReq]
    split
    · rename_i hop
      exact hhit hquiet hready hop
    · rename_i hop
      rw [snoopMiss_eq hready, ok_bind, LevelTree.parent_root]
      exact lastLevelMiss_spec hquiet.setLine hready (Bool.eq_false_of_not_eq_true hop) Caches.setLine_self
  | hchild c n hparent ih =>
    rw [LevelTree.path_of_parent hparent, processShmemReq]
    split
    · rename_i hop
      exact hhit hquiet hready hop
    · rename_i hop
      have hop' := Bool.eq_false_of_not_eq_true hop
      have hne : H.snooped (H.requester core z) c (s.cstate a) c ≠ .modified := by
        rw [snooped_self]
        exact ne_modified_of_not_permissible hop'
      obtain ⟨stale', hnext⟩ := hready.next hop' hparent
      have hdrop := dropBlock_eq (s := s.setLine a (H.snooped (H.requester core z) c (s.cstate a))) (a := a) (c := c)
        (by rwa [Caches.setLine_self])
      rw [Caches.setLine_self, Caches.setLine_setLine] at hdrop
      rw [snoopMiss_eq hready, ok_bind, hparent]
      dsimp only
      rw [hdrop, ok_bind]
      refine (ih hquiet.setLine (by rwa [Caches.setLine_self])).bind fun r hr => ?_
      cases hout : r.2 with
      | hit =>
        rw [hout] at hr
        exact (copyDataFromNextLevel_spec hr.1 hr.2 hparent hready.below).bind fun s' hs' => hs'
      | miss request =>
        rw [hout] at hr
        obtain ⟨hquiet', hwaiting⟩ := hr
        refine ⟨hquiet', hwaiting.blank, hwaiting.root, hwaiting.read, ?_⟩
        have hroot := (LevelTree.ne_root hparent).symm
        have hunder : ¬ H.Under c H.root := fun h => hroot (LevelTree.under_root_iff.1 h).symm
        have hunserved := hwaiting.unserved
        rwa [Caches.setLine_self, Function.update_of_ne hroot, snooped_of_not_under hunder] at hunserved

end CacheTree

end LifeSim.Hierarchy
