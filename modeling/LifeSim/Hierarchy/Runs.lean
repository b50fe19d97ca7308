import Mathlib
import LifeSim.Lib.Machine
import LifeSim.Hierarchy.Path

/-!
# Runs of a hierarchy

A whole access, with the reply of the directory and the second try, and the requests of the directory. Between the
events of a run all lines are inclusive, and no assertion fails in it.
-/

namespace LifeSim.Hierarchy

open LifeSim.Lib
open LifeSim.Directory (CacheState)

variable {ι α : Type} [DecidableEq ι] [DecidableEq α]

namespace CacheTree

/-- The state between two accesses. -/
structure AtRest (H : CacheTree ι) (K : Prop) (s : Caches ι α) : Prop where
  evicting : ∀ c, s.evicting c = none
  lines : ∀ a, H.Sound K (s.cstate a)

variable {H : CacheTree ι} {K : Prop} {core : ℕ} {op : MemOp} {gone : ι → Prop} {stale : Bool} {c z : ι}
  {a : α} {victim : Option α} {victims : ι → Option α} {s : Caches ι α} {f f₀ : ι → CacheState} {state : CacheState}

omit [DecidableEq ι] [DecidableEq α] in
theorem AtRest.quiet (h : H.AtRest K s) : H.Quiet K a s := ⟨h.evicting, fun b _ => h.lines b⟩

omit [DecidableEq ι] in
theorem Quiet.atRest (h : H.Quiet K a s) (ha : H.Sound K (s.cstate a)) : H.AtRest K s where
  evicting := h.evicting
  lines b := by
    by_cases hb : b = a
    · rwa [hb]
    · exact h.others b hb

/-! ## The reply of the directory -/

/-- In a cache below which nobody has a line, `updateCacheBlock` changes this cache only. -/
theorem updateCacheBlock_of_blank {l : ℕ} (hblank : ∀ d, H.Under c d → d ≠ c → s.cstate a d = .invalid) :
    H.updateCacheBlock a state l false c s = H.updateBlock a state false c s := by
  induction l generalizing c with
  | zero => rfl
  | succ l ih =>
    have hloop : ∀ cs : List ι, (∀ p ∈ cs, H.parent p = some c) →
        cs.foldlM (fun s p => H.updateCacheBlock a state l false p s) s = .ok s := by
      intro cs hcs
      induction cs with
      | nil => rfl
      | cons p cs ihcs =>
        have hparent := hcs p List.mem_cons_self
        have hbelow : ∀ d, H.Under p d → s.cstate a d = .invalid := fun d hd =>
          hblank d ((LevelTree.under_parent hparent).trans hd) fun hdc => LevelTree.not_under_parent hparent (hdc ▸ hd)
        have hp : H.updateCacheBlock a state l false p s = .ok s := by
          rw [ih fun d hd _ => hbelow d hd, updateBlock, if_pos (hbelow p (LevelTree.under_refl p))]
          rfl
        rw [List.foldlM_cons, hp, ok_bind, ihcs fun q hq => hcs q (List.mem_cons_of_mem p hq)]
    rw [updateCacheBlock, hloop _ fun p hp => (H.mem_children p c).1 hp, ok_bind]

/-- The last level can serve the access with the reply. -/
theorem processReply_spec {request : Request} {grant : Bool} (hquiet : H.Quiet K a s)
    (h : H.Waiting op f₀ request (s.cstate a)) :
    Ensures (H.processReply request grant a victim s) (fun s' => H.Quiet K a s' ∧
      (∀ d, d ≠ H.root → s'.cstate a d = .invalid) ∧ s'.cstate a H.root ≠ .sharedUpgrading ∧
      s'.cstate a H.root ≠ .invalid ∧ (op ≠ .read → s'.cstate a H.root ≠ .shared)) fun _ => False := by
  have hinsert : ∀ {state}, s.cstate a H.root = .invalid → state ≠ .sharedUpgrading → state ≠ .invalid →
      (op ≠ .read → state ≠ .shared) → Ensures (H.insertCacheBlock a state victim H.root s) (fun s' => H.Quiet K a s' ∧
        (∀ d, d ≠ H.root → s'.cstate a d = .invalid) ∧ s'.cstate a H.root ≠ .sharedUpgrading ∧
        s'.cstate a H.root ≠ .invalid ∧ (op ≠ .read → s'.cstate a H.root ≠ .shared)) fun _ => False := by
    intro state hroot hsettled hvalid hshared
    refine (insertCacheBlock_spec hquiet hroot).mono (fun s' hs' => ?_) fun _ hf => hf
    rw [hs'.2, Function.update_self]
    refine ⟨hs'.1, fun d hd => ?_, hsettled, hvalid, hshared⟩
    rw [Function.update_of_ne hd]
    exact h.blank d hd
  cases request with
  | shReq =>
    have hroot : s.cstate a H.root = .invalid := by simpa using h.root
    refine hinsert hroot ?_ ?_ fun hwrite => absurd (h.read.1 rfl) hwrite
    · split <;> simp
    · split <;> simp
  | exReq =>
    have hroot : s.cstate a H.root = .invalid := by simpa using h.root
    exact hinsert hroot (by simp) (by simp) (by simp)
  | upgradeReq =>
    have hroot : s.cstate a H.root = .sharedUpgrading := by simpa using h.root
    have hblock : H.updateBlock a .modified false H.root s =
        .ok (s.setLine a (Function.update (s.cstate a) H.root .modified)) := by
      simp [updateBlock, hroot, writeBack, Caches.setState_eq]
    rw [processReply, if_neg (by simp [hroot]), if_pos hroot, updateCacheBlock_of_blank fun d _ hd => h.blank d hd,
      hblock]
    refine ⟨hquiet.setLine, fun d hd => ?_, ?_⟩
    · rw [Caches.setLine_self, Function.update_of_ne hd]
      exact h.blank d hd
    · simp

omit [DecidableEq α] in
/-- The second try begins with a line that only the last level has. -/
theorem Ready.of_blank (hbelow : ∀ z, gone z → H.Under c z ∧ z ≠ c) (hblank : ∀ d, d ≠ H.root → f d = .invalid)
    (hroot : f H.root ≠ .sharedUpgrading) : H.Ready K core op gone false z c f where
  toAjar := Ajar.of_blank hbelow hblank hroot
  prev hparent := hblank z (LevelTree.ne_root hparent)
  load _ _ := loadKept_of_blank hblank c
  store _ _ := storeKept_of_blank hblank c z
  clean _ _ _ p _ hparent _ := hblank p (LevelTree.ne_root hparent)

/-- A request is answered, at the first or the second try. -/
theorem request_spec {grant : Bool} {fault : Fault} (hquiet : H.Quiet K a s)
    (hready : H.Ready K core op gone stale z c (s.cstate a)) :
    Ensures (H.request core op a grant victims fault c (H.requester core z) s)
      (fun s' => H.Quiet K a s' ∧ H.Answered K op gone c (s'.cstate a)) fun _ => False := by
  rw [request]
  refine (processShmemReq_spec hquiet hready).bind fun r hr => ?_
  cases hout : r.2 with
  | hit =>
    rw [hout] at hr
    exact hr
  | miss request =>
    rw [hout] at hr
    refine (processReply_spec hr.1 hr.2).bind fun s' hs' => ?_
    obtain ⟨hquiet', hblank, hsettled, hvalid, hshared⟩ := hs'
    have hready' : H.Ready K core op gone false z c (s'.cstate a) := .of_blank hready.below hblank hsettled
    refine (processShmemReq_spec hquiet' hready').bind fun r' hr' => ?_
    cases hout' : r'.2 with
    | hit =>
      rw [hout'] at hr'
      exact hr'
    | miss request' =>
      rw [hout'] at hr'
      rcases hr'.2.unserved with hinvalid | ⟨hs, hwrite⟩
      · exact absurd hinvalid hvalid
      · exact absurd hs (hshared hwrite)

/-! ## Runs -/

/-- What the single writer asks of an event. -/
def Kept (H : CacheTree ι) (s : Caches ι α) : Event ι α → Prop
  | .memOp core l op a _ _ =>
    if op = .read then H.loadKept (s.cstate a) (H.path l) = true
    else H.storeKept core (s.cstate a) false l (H.path l) = true
  | .prefetch _ c a _ _ => readable (s.cstate a c) = true ∨ H.loadKept (s.cstate a) (H.path c) = true
  | _ => True

theorem processMemOpFromCore_spec {grant : Bool} {l : ι} (hrest : H.AtRest K s) (hleaf : H.children l = [])
    (hl : l ≠ H.root) (hkept : K → H.Kept s (.memOp core l op a grant victims)) :
    Ensures (H.processMemOpFromCore core op a grant victims l s) (H.AtRest K) fun _ => False := by
  rw [processMemOpFromCore]
  split
  · exact hrest
  · rename_i hop
    have hop' := Bool.eq_false_of_not_eq_true hop
    cases hparent : H.parent l with
    | none => exact absurd ((H.parent_eq_none l).1 hparent) hl
    | some n =>
      have hready : H.Ready K core op (fun _ => False) false l l (s.cstate a) := by
        refine ⟨.of_sound _ _ (hrest.lines a), fun hself => ?_, fun hK hread => ?_, fun hK hwrite => ?_,
          fun _ _ _ _ _ _ hn => hn.elim⟩
        · exact absurd rfl (LevelTree.ne_parent hself)
        · simpa [Kept, hread] using hkept hK
        · simpa [Kept, hwrite] using hkept hK
      have hsame : H.snooped (H.requester core l) l (s.cstate a) = s.cstate a := by
        rw [snooped]
        split
        · refine lowered_of_forall_invalid fun d hd => ?_
          obtain ⟨p, hp, -⟩ := hd
          rw [← H.mem_children, hleaf] at hp
          cases hp
        · rfl
      obtain ⟨stale, hnext⟩ := hready.next hop' hparent
      rw [hsame] at hnext
      rw [dropBlock_eq (ne_modified_of_not_permissible hop'), ok_bind]
      dsimp only
      refine (request_spec (hrest.quiet (a := a)).setLine (by rwa [Caches.setLine_self])).bind fun s' hs' => ?_
      refine (copyDataFromNextLevel_spec hs'.1 hs'.2 hparent (fun _ hz => hz.elim)).bind fun s'' hs'' => ?_
      rw [if_pos hs''.2.served]
      exact hs''.1.atRest hs''.2.toAjar.sound

theorem doPrefetch_spec {grant : Bool} (hrest : H.AtRest K s)
    (hkept : K → H.Kept s (.prefetch core c a grant victims)) :
    Ensures (H.doPrefetch core a grant victims c s) (H.AtRest K) fun _ => False := by
  rw [doPrefetch]
  split
  · exact hrest
  · rename_i hread
    have hready : H.Ready K core .read (fun _ => False) false c c (s.cstate a) := by
      refine ⟨.of_sound _ _ (hrest.lines a), fun hself => ?_, fun hK _ => ?_, fun _ hwrite => ?_,
        fun _ _ _ _ _ _ hn => hn.elim⟩
      · exact absurd rfl (LevelTree.ne_parent hself)
      · exact (hkept hK).resolve_left hread
      · exact absurd rfl hwrite
    refine (request_spec hrest.quiet hready).mono (fun s' hs' => ?_) fun _ hf => hf
    exact hs'.1.atRest hs'.2.toAjar.sound

/-- A request of the directory that lowers the line in the whole hierarchy. -/
theorem updateCacheBlock_root_spec {newState : CacheState} {outBuf : Bool} (hrest : H.AtRest K s)
    (hnew : newState = .invalid ∨ newState = .shared) (hroot : s.cstate a H.root = .modified → outBuf = true)
    (hvalid : s.cstate a H.root ≠ .invalid) :
    Ensures (H.updateCacheBlock a newState (H.level H.root) outBuf H.root s) (H.AtRest K) fun _ => False := by
  have hsink : H.Sinkable a (H.Under H.root) s := (Ajar.of_sound .read H.root (hrest.lines a)).sinkable _
  rw [updateCacheBlock_eq hnew le_rfl hsink (fun _ => hroot) fun _ => hvalid]
  refine hrest.quiet.setLine.atRest ?_
  rw [Caches.setLine_self]
  exact (hrest.lines a).lower hnew fun p n hparent hd => hd.of_parent hparent

/-- One event. -/
theorem step_spec {e : Event ι α} (hrest : H.AtRest K s) (hissued : H.Issued s e) (hkept : K → H.Kept s e) :
    Ensures (H.step s e) (H.AtRest K) fun _ => False := by
  cases e with
  | memOp core l op a grant victims => exact processMemOpFromCore_spec hrest hissued.1 hissued.2 hkept
  | prefetch core c a grant victims => exact doPrefetch_spec hrest hkept
  | invReq a =>
    rw [step, processInvReq]
    split
    · exact hrest
    · rename_i hvalid
      exact updateCacheBlock_root_spec hrest (.inl rfl) (fun hm => absurd hm hissued) hvalid
  | flushReq a =>
    rw [step, processFlushReq]
    split
    · exact hrest
    · rename_i hvalid
      exact updateCacheBlock_root_spec hrest (.inl rfl) (fun _ => rfl) hvalid
  | wbReq a =>
    rw [step, processWbReq]
    split
    · exact hrest
    · rename_i hvalid
      exact updateCacheBlock_root_spec hrest (.inr rfl) (fun _ => rfl) (not_or.1 hvalid).1

omit [DecidableEq ι] [DecidableEq α] in
theorem atRest_empty : H.AtRest K (Caches.empty : Caches ι α) where
  evicting _ := rfl
  lines a :=
    { order := fun _ _ _ => le_rfl
      settled := fun _ => by simp [Caches.empty]
      single := fun _ _ _ hc => by simp [Caches.empty] at hc }

/-- In every run of accesses, prefetches and requests of the directory, with their evictions, no assertion fails, and a
cache has a line, or has it as `MODIFIED`, only if its next level does. -/
theorem inclusion (H : CacheTree ι) (es : List (Event ι α)) (h : (hierarchyMachine H).Guarded H.Issued .empty es) :
    ∃ s, (hierarchyMachine H).run .empty es = .ok s ∧ ∀ a p n, H.parent p = some n →
      (s.cstate a p ≠ .invalid → s.cstate a n ≠ .invalid) ∧ (s.cstate a p = .modified → s.cstate a n = .modified) := by
  obtain ⟨s, hrun, hrest⟩ := (hierarchyMachine H).guarded_run_ok (P := H.AtRest False)
    (fun s e hrest hissued => (step_spec hrest hissued False.elim).exists_ok) atRest_empty h
  refine ⟨s, hrun, fun a p n hparent => ⟨fun hp hn => hp ?_, fun hp => ?_⟩⟩
  · have hle := (hrest.lines a).order p n hparent
    rw [hn] at hle
    exact strength_eq_zero.1 (Nat.le_zero.1 hle)
  · exact (Ajar.of_sound .read n (hrest.lines a)).modified_parent hparent hp

end CacheTree

/-- The caches of a small hierarchy: two cores with an L1 each, a shared L2 and a shared L3. -/
inductive SmallCache
  | l1a
  | l1b
  | l2
  | l3
  deriving DecidableEq

/-- `m_next_cache_cntlr` in the small hierarchy. -/
def smallParent : SmallCache → Option SmallCache
  | .l1a => some .l2
  | .l1b => some .l2
  | .l2 => some .l3
  | .l3 => none

/-- `m_prev_cache_cntlrs` in the small hierarchy. -/
def smallChildren : SmallCache → List SmallCache
  | .l2 => [.l1a, .l1b]
  | .l3 => [.l2]
  | _ => []

/-- The levels of the small hierarchy. -/
def smallLevel : SmallCache → ℕ
  | .l2 => 1
  | .l3 => 2
  | _ => 0

/-- The small hierarchy. The controllers of the first core are the masters of the shared caches. -/
def smallTree : CacheTree SmallCache where
  parent := smallParent
  children := smallChildren
  level := smallLevel
  root := .l3
  mem_children p c := by cases p <;> cases c <;> decide
  level_parent p c h := by cases p <;> cases c <;> simp [smallParent, smallLevel] at h ⊢
  parent_eq_none c := by cases c <;> decide
  level_le c := by cases c <;> decide
  isMasterCache core c := core = 0 ∨ c = .l1b
  dram := false

/-- One core writes two lines, the second of which takes the place of the first one in the L2, and the other core reads
the first one. -/
def smallRun : List (Event SmallCache ℕ) :=
  [.memOp 0 .l1a .write 0 false fun _ => none, .memOp 0 .l1a .write 1 false fun c => if c = .l2 then some 0 else none,
    .memOp 1 .l1b .read 0 true fun _ => none, .wbReq 0]

theorem inclusion_smallRun : ∃ s, (hierarchyMachine smallTree).run .empty smallRun = .ok s ∧
    ∀ a p n, smallTree.parent p = some n →
      (s.cstate a p ≠ .invalid → s.cstate a n ≠ .invalid) ∧ (s.cstate a p = .modified → s.cstate a n = .modified) := by
  refine CacheTree.inclusion smallTree smallRun ⟨⟨rfl, by decide⟩, fun s _ => ⟨⟨rfl, by decide⟩,
    fun s _ => ⟨⟨rfl, by decide⟩, fun s _ => ⟨trivial, fun s _ => trivial⟩⟩⟩⟩

end LifeSim.Hierarchy
