import LifeSim.Directory.Service

/-!
# The protocol never fails and never gets stuck

What the messages of the caches and of memory do, with nothing left to fail, and along
every run: no assertion of either controller fails, and whenever nothing is on its way any more, no request is
left in the queue and no cache waits.
-/

namespace LifeSim.Directory

open LifeSim.Lib DirMsg LlcMsg State

variable {n : ℕ} {V : Type}

section

variable {s s' : State n V} {f : ShmemReq n} {rest : List (ShmemReq n)} {cfg : Config n} {env : Env}
  {x : Fin n}

/-- The requests behind one that is done are worked on without a fault. -/
theorem processNextReq_served (hcfg : cfg.HasPlace) (k : ℕ)
    (hq : ∃ f rest, s.queue = f :: rest ∧ rest.length < k ∧ ∀ s', s'.entry = s.entry →
      s'.llc = s.llc → s'.reads = s.reads → s'.queue = rest → Ready s')
    (hp : ∀ s', s'.entry = s.entry → s'.llc = s.llc → s'.queue = s.queue.tail →
      Prompts (fun _ => false) (fun _ => false) s') (he : EntryInv cfg s) :
    Ensures (processNextReqFromL2Cache cfg env k s) (Alive cfg) fun _ => False := by
  induction k generalizing s with
  | zero =>
    obtain ⟨f, rest, -, hlen, -⟩ := hq
    omega
  | succ k ih =>
    obtain ⟨f, rest, hqueue, hlen, hready⟩ := hq
    have hprompts := hp { s with queue := rest } rfl rfl (by rw [hqueue]; rfl)
    unfold processNextReqFromL2Cache
    rw [hqueue]
    cases rest with
    | nil => exact Ensures.ok (.inl ⟨rfl, hprompts⟩)
    | cons g rest =>
      have hg := hready { s with queue := g :: rest } rfl rfl rfl rfl
      have hturn := hg.turn rfl
      have hgf : g.Fresh := hg.fresh g (List.mem_cons_self ..)
      have he' : EntryInv cfg { s with queue := g :: rest } := fun e hse => he e hse
      refine (((hturn.processReq_served hprompts hcfg he' hgf).and hturn.processReq).and
        (processReq_safe he')).bind fun r hr => ?_
      obtain ⟨⟨hserved, hhandled⟩, hsafe⟩ := hr
      obtain ⟨t, completed⟩ := r
      dsimp only
      cases completed with
      | true =>
        obtain ⟨⟨f', hf'⟩, hready'⟩ := hhandled
        exact ih ⟨f', rest, hf', by simp only [List.length_cons] at hlen; omega, hready'⟩ hserved hsafe.1
      | false => exact Ensures.ok hserved

/-- The end of a handler. -/
theorem finish_served (hcfg : cfg.HasPlace) {r : Outcome n V}
    (hh : Handled rest r) (hs : Served cfg r) (he : EntryInv cfg r.1) :
    Ensures (finish cfg env r) (Alive cfg) fun _ => False := by
  unfold finish
  unfold Handled at hh
  unfold Served at hs
  split
  · rename_i hc
    rw [if_pos hc] at hh hs
    obtain ⟨⟨f', hf'⟩, hready'⟩ := hh
    exact processNextReq_served hcfg _ ⟨f', rest, hf', by simp [hf'], hready'⟩ hs he
  · rename_i hc
    rw [if_neg hc] at hs
    exact Ensures.ok hs

/-- What the request at the front waits for. -/
theorem Alive.pending (h : Alive cfg s) (hq : s.queue = f :: rest) : Pending cfg f s := by
  rcases h with ⟨hq', -⟩ | ⟨f', rest', hq', hp⟩
  · rw [hq] at hq'
    cases hq'
  · rw [hq] at hq'
    cases hq'
    exact hp

/-- Without requests nothing is asked for. -/
theorem Alive.prompts (h : Alive cfg s) (hq : s.queue = []) :
    Prompts (fun _ => false) (fun _ => false) s := by
  rcases h with ⟨-, hp⟩ | ⟨f', rest', hq', -⟩
  · exact hp
  · rw [hq] at hq'
    cases hq'

/-- Whatever the caches are asked for, they owe nothing else. -/
theorem Alive.exists_prompts (h : Alive cfg s) : ∃ leave wb, Prompts leave wb s := by
  rcases h with ⟨-, hp⟩ | ⟨f, rest, -, hp⟩
  · exact ⟨_, _, hp⟩
  · exact ⟨_, _, hp.prompts⟩

/-- A step of one cache. -/
theorem Alive.setLlc (h : Alive cfg s) {r : Llc V × V}
    (hr : ∀ leave wb, Prompt s.dstate (queuedBy s.queue x) leave wb (s.llc x) →
      Prompt s.dstate (queuedBy s.queue x) leave wb r.1) : Alive cfg (s.setLlc x r) := by
  rcases h with ⟨hq, hp⟩ | ⟨f, rest, hq, hp⟩
  · exact .inl ⟨hq, hp.setLlc (hr _ _ (hp x))⟩
  · exact .inr ⟨f, rest, hq, hp.prompts.setLlc (hr _ _ (hp.prompts x)), hp.waits, hp.sharer, hp.refused, hp.unasked⟩

/-- A step that only moves data in memory. -/
theorem Alive.congr (h : Alive cfg s) (he : s'.entry = s.entry) (hq : s'.queue = s.queue)
    (hl : s'.llc = s.llc) : Alive cfg s' := by
  have hd : s'.dstate = s.dstate := by simp only [dstate, he]
  have hs : s'.sharer = s.sharer := by funext y; simp only [sharer, he]
  rcases h with ⟨hq', hp⟩ | ⟨f, rest, hq', hp⟩
  · exact .inl ⟨by rw [hq, hq'], hp.congr hd (fun _ => by rw [hq]) hl⟩
  · have href : s'.refused f = s.refused f := by simp only [refused, hd]
    have hdem : s'.demands f = s.demands f := by
      funext y
      simp only [demands, hs, href]
    have hwb : s'.waitsForWb f = s.waitsForWb f := waitsForWb_congr hd hs
    refine .inr ⟨f, rest, by rw [hq, hq'], ?_, ?_, ?_, ?_, ?_⟩
    · rw [hdem, hwb]
      exact hp.prompts.congr hd (fun _ => by rw [hq]) hl
    · rw [hdem, hwb]
      exact hp.waits
    · rw [hwb, hs]
      exact hp.sharer
    · rw [href]
      exact hp.refused
    · rw [hd]
      exact hp.unasked

/-- A cache that gives up a copy is a sharer. -/
theorem Coherent.sharer_of_leave {p : Option (Fin n)} {wb : Fin n → Bool} {fl : Bool}
    (h : Coherent p wb fl s) (hl : 0 < (s.llc x).tx.countP isLeave) : s.sharer x = true := by
  have := (h.node x).copies
  by_contra hne
  have hz : (s.view p wb fl x).sharer.toNat = 0 := by simpa [view] using hne
  unfold Llc.copies at this
  omega

/-- A line with a sharer has an entry. -/
theorem entry_of_sharer (h : s.sharer x = true) : ∃ e, s.entry = some e ∧ e.sharers x = true := by
  unfold State.sharer at h
  split at h
  · rename_i e he
    exact ⟨e, he, h⟩
  · cases h

/-- After a copy has come back, what was waited for of the other sharers still is. -/
def Remaining (f : ShmemReq n) (s s' : State n V) : Prop :=
  Prompts (fun y => s.demands f y && s'.sharer y) (fun y => s.waitsForWb f y && s'.sharer y) s'

namespace Arrived

variable {e : DirectoryEntry n}

/-- The copies that are still waited for are those of the other sharers. -/
theorem demands (h : Arrived f rest x s s' e) :
    (fun y => s.demands f y && s'.sharer y) = s'.demands f := by
  funext y
  cases hs : s'.sharer y with
  | false => simp [State.demands, hs]
  | true =>
    have href : s'.refused f = s.refused f := by simp only [refused, h.left.dstate_of_sharer hs]
    simp [State.demands, hs, h.left.sharer_of hs, href]

/-- The request goes on waiting for something that is under way. -/
theorem goOn_served (h : Arrived f rest x s s' e) (hp : Remaining f s s')
    (hk : f.msgType = .shReq → f.forwardingFrom.isSome = true)
    (hwb : ∀ y, (s.waitsForWb f y && s'.sharer y) = s'.waitsForWb f y)
    (hex : f.waitForData = false → ∃ y, s'.demands f y = true ∨ s'.waitsForWb f y = true) :
    Served cfg (s', false) := by
  have hwb' : (fun y => s.waitsForWb f y && s'.sharer y) = s'.waitsForWb f := funext hwb
  unfold Remaining at hp
  rw [h.demands, hwb'] at hp
  have hno : s'.refused f = false := by
    by_cases hsh : f.msgType = .shReq
    · exact refused_of_forwarding (hk hsh)
    · exact refused_of_ne hsh
  refine .inr ⟨f, rest, h.queue, hp, hex, fun y hy => ?_, fun hr => ?_, fun hsh _ hnone => ?_⟩
  · rw [← hwb y] at hy
    exact (Bool.and_eq_true_iff.mp hy).2
  · rw [hno] at hr
    cases hr
  · have hsome := hk hsh
    rw [hnone] at hsome
    cases hsome

/-- Nothing is asked for any more. -/
theorem turn_served (h : Arrived f rest x s s' e) (hp : Remaining f s s')
    (hdem : ∀ y, s'.demands f y = false) (hwb : ∀ y, (s.waitsForWb f y && s'.sharer y) = false) :
    Prompts (fun _ => false) (fun _ => false) s' := by
  have hwb' : (fun y => s.waitsForWb f y && s'.sharer y) = fun _ => false := funext hwb
  have hdem' : s'.demands f = fun _ => false := funext hdem
  unfold Remaining at hp
  rwa [h.demands, hwb', hdem'] at hp

/-- Nobody has the line. -/
theorem uncached_served (h : Arrived f rest x s s' e) (hp : Remaining f s s')
    (hd : s'.dstate = .uncached) : Prompts (fun _ => false) (fun _ => false) s' := by
  have hs := h.coherent.uncached.mp hd
  exact h.turn_served hp (fun y => by simp [State.demands, hs]) fun y => by simp [hs]

/-- A line that is not `UNCACHED` has a sharer. -/
theorem exists_sharer (h : Arrived f rest x s s' e) (hd : s'.dstate ≠ .uncached) :
    ∃ y, s'.sharer y = true := by
  by_contra hne
  refine hd (h.coherent.uncached.mpr fun y => ?_)
  by_contra hy
  exact hne ⟨y, by simpa using hy⟩

/-- While a request for the line itself waits, no write-back does. -/
theorem wb_of_ne (hk : f.msgType ≠ .shReq) (y : Fin n) :
    (s.waitsForWb f y && s'.sharer y) = s'.waitsForWb f y := by
  rw [waitsForWb_of_ne hk, waitsForWb_of_ne hk]
  rfl

/-- An `INV_REP` while an `EX_REQ` waits. -/
theorem invExReq_served (h : Arrived f rest x s s' e) (hp : Remaining f s s')
    (hcfg : cfg.HasPlace) (hk : f.msgType = .exReq)
    (hd : s.dstate = .shared ∨ s.dstate = .exclusive) :
    Ensures (s'.resumeAfterInv cfg env x e) (fun r => Served cfg r ∧ Onward s' r) fun _ => False := by
  have hsr : f.msgType ≠ .shReq := by simp [hk]
  have hw : f.waitForData = false := by
    by_contra hw
    have := h.waiting.front.exReq hk (by simpa using hw)
    rcases hd with hd | hd <;> simp [hd] at this
  have hf := h.waiting.forwardingFrom hsr
  simp only [State.resumeAfterInv, h.queue, hk]
  split
  · rename_i hu
    rw [← h.dstate] at hu
    exact served_onward ((h.turn hw hf (.inl hu)).processExReq_served (h.uncached_served hp hu) hcfg hk (by simp))
      (processExReq_forth h.queue hw hu none)
  · rename_i hu
    rw [← h.dstate] at hu
    obtain ⟨y, hy⟩ := h.exists_sharer hu
    exact Ensures.ok ⟨h.goOn_served hp (fun hk' => absurd hk' hsr) (wb_of_ne hsr) fun _ => ⟨y, .inl (by simp [State.demands, hw, hk, hy])⟩,
      onward_refl⟩

/-- An upgrade still waits for a sharer other than the requester. -/
theorem upgrade_waits (hk : f.msgType = .upgradeReq) (hw : f.waitForData = false)
    (hne : ¬ ∀ y, s'.sharer y = true → y = f.requester) :
    ∃ y, s'.demands f y = true ∨ s'.waitsForWb f y = true := by
  push Not at hne
  obtain ⟨y, hy, hyr⟩ := hne
  have hyr' : ¬ f.requester = y := fun heq => hyr heq.symm
  exact ⟨y, .inl (by simp [State.demands, hw, hk, hy, hyr'])⟩

/-- An `INV_REP` while an `UPGRADE_REQ` waits. -/
theorem invUpgradeReq_served (h : Arrived f rest x s s' e) (hp : Remaining f s s')
    (hcfg : cfg.HasPlace) (hk : f.msgType = .upgradeReq)
    (hd : s.dstate = .shared ∨ s.dstate = .exclusive) :
    Ensures (s'.resumeAfterInv cfg env x e) (fun r => Served cfg r ∧ Onward s' r) fun _ => False := by
  have hsr : f.msgType ≠ .shReq := by simp [hk]
  have hw : f.waitForData = false := by
    by_contra hw
    have := h.waiting.front.upgradeReq hk (by simpa using hw)
    rcases hd with hd | hd <;> simp [hd] at this
  have hf := h.waiting.forwardingFrom hsr
  have hgo : (¬ ∀ y, s'.sharer y = true → y = f.requester) → Served cfg (s', false) := fun hne =>
    h.goOn_served hp (fun hk' => absurd hk' hsr) (wb_of_ne hsr) fun _ => upgrade_waits hk hw hne
  simp only [State.resumeAfterInv, h.queue, hk]
  split
  · rename_i hone
    obtain ⟨z, hz⟩ := List.length_eq_one_iff.mp hone
    have hall : ∀ y, s'.sharer y = true ↔ y = z := fun y => by
      rw [h.sharer, ← DirectoryEntry.mem_getSharersList, hz, List.mem_singleton]
    split
    · rename_i hreq
      rw [← h.sharer] at hreq
      have hzr := (hall _).mp hreq
      have hno : s.dstate.isOwned = false := (h.dstate_of_sharers (by omega)).2
      refine served_onward ((h.turn hw hf (.inr ?_)).processUpgradeReq_served
        (h.turn_served hp (fun y => ?_) fun y => ?_) hcfg hk none) (processUpgradeReq_forth h.queue hw (.inr ?_) none)
      · simp [waitsForFlush, hno, h.left.sharer_of hreq]
      · by_contra hdem
        simp only [State.demands, hk, Bool.not_eq_false, Bool.and_eq_true, Bool.not_eq_true'] at hdem
        have hy := (hall y).mp hdem.1.2
        simp [hy, hzr] at hdem
      · rw [waitsForWb_of_ne hsr]
        rfl
      · rw [State.getDirectoryEntry, h.entry, Option.getD_some, hz, hzr]
    · rename_i hreq
      rw [← h.sharer] at hreq
      exact Ensures.ok ⟨hgo fun hne => hreq ((hne z ((hall z).mpr rfl)) ▸ (hall z).mpr rfl), onward_refl⟩
  · rename_i hone
    split
    · rename_i hzero
      have hall := DirectoryEntry.getNumSharers_eq_zero.mp hzero
      have hu : s'.dstate = .uncached := h.coherent.uncached.mpr (by rw [h.sharer]; exact hall)
      have hsame : s'.setEntry { e with dstate := .uncached } = s' := by
        have he : e.dstate = .uncached := by rw [← h.dstate, hu]
        rw [State.setEntry, ← he, ← h.entry]
      rw [hsame]
      exact served_onward
        ((h.turn hw hf (.inl hu)).processUpgradeReq_served (h.uncached_served hp hu) hcfg hk none)
        (processUpgradeReq_forth h.queue hw (.inl hu) none)
    · rename_i hzero
      refine Ensures.ok ⟨hgo fun hne => ?_, onward_refl⟩
      -- with the requester as the only sharer there is one
      rw [h.sharer] at hne
      by_cases hr : e.sharers f.requester = true
      · refine hone ?_
        rw [DirectoryEntry.getNumSharers,
          getSharersList_eq_singleton fun y => ⟨hne y, fun hy => hy ▸ hr⟩, List.length_singleton]
      · refine hzero (DirectoryEntry.getNumSharers_eq_zero.mpr fun y => ?_)
        by_contra hy
        exact hr (hne y (by simpa using hy) ▸ by simpa using hy)

/-- The sharer that was asked to make room for a read has left. -/
theorem refused_served (h : Arrived f rest x s s' e) (hp : Remaining f s s') (hcfg : cfg.HasPlace)
    (he : EntryInv cfg s') (hroom : e.refusesSharer cfg = false) (href : s.refused f = true) (hv : f.victim = some x) :
    Ensures (s'.processShReqFromL2Cache cfg env f none) (fun r => Served cfg r ∧ Onward s' r) fun _ => False := by
  obtain ⟨⟨⟨hk, hw⟩, hf⟩, hds⟩ : ((f.msgType = .shReq ∧ f.waitForData = false) ∧ f.forwardingFrom = none) ∧
      s.dstate = .shared := by simpa [refused] using href
  have hno : s.waitsForFlush f = false := by simp [waitsForFlush, hk, hds]
  have hown : s'.dstate.isOwned = false := by
    rw [h.left.dstate, hds]
    split <;> rfl
  have hdem : ∀ y, s'.demands f y = false := by
    intro y
    by_contra hy
    simp only [State.demands, hk, hv, if_true, Bool.not_eq_false, Bool.and_eq_true, decide_eq_true_eq,
      Option.some.injEq] at hy
    have hout := hy.1.2
    rw [← hy.2.2, h.left.sharer, Function.update_self] at hout
    cases hout
  have hprompts := h.turn_served hp hdem fun y => by rw [waitsForWb_of_refused href]; rfl
  refine served_onward ((h.turn hw hf (.inr hno)).processShReq_served hprompts hcfg hk (fun ho => ?_)
    fun _ _ => forwarder_of_entryInv he) (processShReq_forth h.queue hw hown (fun _ _ => .inl ?_) none)
  · rw [hown] at ho
    cases ho
  · rwa [State.getDirectoryEntry, h.entry, Option.getD_some]

/-- An `INV_REP` while an `SH_REQ` waits. If the read was refused, it comes from the sharer that was asked. -/
theorem invShReq_served (h : Arrived f rest x s s' e) (hp : Remaining f s s') (hpend : Pending cfg f s)
    (hcfg : cfg.HasPlace) (hk : f.msgType = .shReq) (he : EntryInv cfg s') (hroom : e.refusesSharer cfg = false)
    (hasked : s.refused f = true → f.victim = some x) :
    Ensures (s'.resumeAfterInv cfg env x e) (fun r => Served cfg r ∧ Onward s' r) fun _ => False := by
  simp only [State.resumeAfterInv, h.queue, hk]
  split
  · rename_i hw
    exact Ensures.ok ⟨.inr ⟨f, rest, h.queue, pending_read hw (h.turn_served hp
      (fun y => by rw [demands_of_waitForData hw]) fun y => by rw [waitsForWb_of_waitForData hw]; rfl)⟩, onward_refl⟩
  · rename_i hw
    have hw' : f.waitForData = false := by simpa using hw
    split
    · rename_i hfwd
      have hsame := h.dstate_of_granted (by simp [ShmemReq.granted, hfwd.1])
      have hds := (h.waiting.front.forwarding hfwd.1).2 hw'
      -- the one that was asked for the data is another one
      have hstay : ∀ y, s.waitsForWb f y = true → s'.sharer y = true := by
        intro y hy
        have hne : y ≠ x := by
          rintro rfl
          simp only [waitsForWb, hds, DirectoryState.isOwned, Bool.false_and, Bool.false_or] at hy
          exact hfwd.2 (by simpa using (Bool.and_eq_true_iff.mp hy).2)
        rw [h.left.sharer, Function.update_of_ne hne]
        exact hpend.sharer y hy
      have hwb : ∀ y, s'.waitsForWb f y = s.waitsForWb f y := fun y => by
        simp only [waitsForWb, hds, hsame, DirectoryState.isOwned, Bool.false_and, Bool.false_or]
      refine Ensures.ok ⟨h.goOn_served hp (fun _ => hfwd.1) (fun y => ?_) fun _ => ?_, onward_refl⟩
      · rw [hwb]
        cases hy : s.waitsForWb f y with
        | false => rfl
        | true => simp [hstay y hy]
      · obtain ⟨y, hy | hy⟩ := hpend.waits hw'
        · rw [demands_of_not_refused hk (refused_of_forwarding hfwd.1)] at hy
          cases hy
        · exact ⟨y, .inr ((hwb y).trans hy)⟩
    · rename_i hfwd
      by_cases hf : f.forwardingFrom.isSome = true
      · have hx : f.forwardingFrom = some x := by
          by_contra hne
          exact hfwd ⟨hf, hne⟩
        obtain ⟨hgranted, hds, hupd⟩ := h.granted hk hw' hx
        have hdem : ∀ y, s'.demands f y = false := fun y => by
          rw [demands_of_not_refused hk (refused_of_forwarding hf)]
        refine served_onward (hgranted.processShReq_served (h.turn_served hp hdem fun y => ?_) hds hf none)
          (processShReq_forth h.queue hw' (by rw [hds]; rfl) (fun _ hnot => ?_) none)
        · by_contra hne
          simp only [Bool.not_eq_false, Bool.and_eq_true] at hne
          have hyx : y ≠ x := by
            rintro rfl
            simp [h.left.sharer] at hne
          have := congrFun hupd y
          rw [Function.update_of_ne hyx, hne.1] at this
          cases this
        · -- the requester is a sharer already
          have hpending := ((hgranted.coherent.node f.requester).copies_of_pending (by simp [view])).2
          rw [show s'.sharer f.requester = true by simpa [view] using hpending] at hnot
          cases hnot
      · have hf' : f.forwardingFrom = none := by simpa using hf
        by_cases href : s.refused f = true
        · exact h.refused_served hp hcfg he hroom href (hasked href)
        · obtain ⟨y, hy | hy⟩ := hpend.waits hw'
          · rw [demands_of_not_refused hk (by simpa using href)] at hy
            cases hy
          have hown : s.dstate.isOwned = true := by
            simp only [waitsForWb, hf', reduceCtorEq, decide_false, Bool.or_false, Bool.and_eq_true] at hy
            exact hy.2.1
          have hu := h.left.uncached_of_owned h.waiting.coherent hown
          have hno : s'.dstate.isOwned = false := by rw [hu]; rfl
          refine served_onward ((h.turn hw' hf' (.inl hu)).processShReq_served (h.uncached_served hp hu) hcfg hk
            (fun ho => ?_) fun _ z hz => ?_) (processShReq_forth h.queue hw' hno (fun hs => ?_) none)
          · rw [hno] at ho
            cases ho
          · unfold forwardCandidate at hz
            rw [getDirectoryEntry_dstate, hu] at hz
            simp at hz
          · rw [hu] at hs
            cases hs

/-- An `INV_REP` while a nullification waits. -/
theorem invNullifyReq_served (h : Arrived f rest x s s' e) (hp : Remaining f s s')
    (hk : f.msgType = .nullifyReq) : Ensures (s'.resumeAfterInv cfg env x e) (fun r => Served cfg r ∧ Onward s' r) fun _ => False := by
  have hsr : f.msgType ≠ .shReq := by simp [hk]
  have hw := h.waiting.front.nullifyReq hk
  have hf := h.waiting.forwardingFrom hsr
  simp only [State.resumeAfterInv, h.queue, hk]
  split
  · rename_i hu
    rw [← h.dstate] at hu
    exact served_onward ((h.turn hw hf (.inl hu)).processNullifyReq_served (h.uncached_served hp hu) hk h.entry)
      (processNullifyReq_forth hu)
  · rename_i hu
    rw [← h.dstate] at hu
    obtain ⟨y, hy⟩ := h.exists_sharer hu
    exact Ensures.ok ⟨h.goOn_served hp (fun hk' => absurd hk' hsr) (wb_of_ne hsr) fun _ => ⟨y, .inl (by simp [State.demands, hw, hk, hy])⟩,
      onward_refl⟩

/-- A `FLUSH_REP` and the request at the front. -/
theorem resumeAfterFlush_served (h : Arrived f rest x s s' e) (hp : Remaining f s s') (hcfg : cfg.HasPlace)
    (hfl : s.waitsForFlush f = true ∨ s.dstate.isOwned = true) (d : Option V) :
    Ensures (s'.resumeAfterFlush cfg env d e) (fun r => Served cfg r ∧ Onward s' r) fun _ => False := by
  obtain ⟨hw, hf⟩ := h.flush_cases hfl
  obtain ⟨hme, hmq, hml, hmr⟩ := sendDataToDram_same cfg env d s'
  have hmd : (s'.sendDataToDram cfg env d).dstate = s'.dstate := by simp only [State.dstate, hme]
  -- only an upgrade waits for a flush of a line that is `SHARED`
  have hu : f.msgType ≠ .upgradeReq → s'.dstate = .uncached := fun hk => by
    refine h.left.uncached_of_owned h.waiting.coherent ?_
    by_contra hown
    exact hown (hfl.resolve_left (by simp [waitsForFlush, hk, hown]))
  have hpd : s'.dstate = .uncached →
      Prompts (fun _ => false) (fun _ => false) (s'.sendDataToDram cfg env d) := fun hd =>
    (h.uncached_served hp hd).congr hmd (fun _ => by rw [hmq]) hml
  have hforth : ∀ r, Forth (s'.sendDataToDram cfg env d) r → Forth s' r := by
    intro r hr
    have hstage : (s'.sendDataToDram cfg env d).stage = s'.stage := by simp only [State.stage, hmq]
    rwa [Forth, hstage] at hr
  unfold State.resumeAfterFlush
  rw [h.queue]
  dsimp only
  split
  · rename_i hk
    have hd := hu (by simp [hk])
    exact served_onward
      ((h.flushTurn hfl (by simp [hk])).processExReq_served (h.uncached_served hp hd) hcfg hk fun _ => hd)
      (processExReq_forth h.queue hw hd (some d))
  · rename_i hk
    have hd := hu (by simp [hk])
    refine served_onward (((h.flushTurn hfl (by simp [hk])).congr hme hmq hml hmr).processShReq_served (hpd hd)
      hcfg hk (fun hown => ?_) (by simp)) ((processShReq_forth (hmq.trans h.queue) hw
        (by rw [hmd, hd]; rfl) (fun hs => ?_) (some d)).mono (fun r hr => hforth r hr) fun _ => id)
    · rw [hmd, hd] at hown
      cases hown
    · rw [hmd, hd] at hs
      cases hs
  · rename_i hk
    split
    · rename_i hzero
      have hall := DirectoryEntry.getNumSharers_eq_zero.mp hzero
      have hd : s'.dstate = .uncached := h.coherent.uncached.mpr (by rw [h.sharer]; exact hall)
      exact served_onward
        ((h.turn hw hf (.inl hd)).processUpgradeReq_served (h.uncached_served hp hd) hcfg hk (some d))
        (processUpgradeReq_forth h.queue hw (.inl hd) (some d))
    · rename_i hne
      have hsr : f.msgType ≠ .shReq := by simp [hk]
      generalize ht : ({ s' with queue := { f with dataBuf := true } :: rest } : State n V) = t
      have hte : t.entry = s'.entry := by rw [← ht]
      have htd : t.dstate = s'.dstate := by simp only [State.dstate, hte]
      have hts : t.sharer = s'.sharer := by funext y; simp only [State.sharer, hte]
      have hdem : t.demands { f with dataBuf := true } = s'.demands f := by
        funext y
        simp only [State.demands, hts, if_neg hsr]
      have hwb : ∀ u : State n V, u.waitsForWb { f with dataBuf := true } = fun _ => false :=
        fun u => waitsForWb_of_ne (f := { f with dataBuf := true }) hsr
      have hno : s'.sharer f.requester = false := by
        have hown := (h.dstate_of_sharers hne).2
        have := hfl.resolve_right (by simp [hown])
        by_contra hs
        simp [waitsForFlush, hk, hown, h.left.sharer_of (y := f.requester) (by simpa using hs)] at this
      obtain ⟨y, hy⟩ : ∃ y, s'.sharer y = true := by
        by_contra hnone
        refine hne (DirectoryEntry.getNumSharers_eq_zero.mpr fun y => ?_)
        by_contra hy
        exact hnone ⟨y, by rw [h.sharer]; simpa using hy⟩
      refine Ensures.ok ⟨.inr ⟨{ f with dataBuf := true }, rest, by rw [← ht], ?_, fun _ => ⟨y, .inl ?_⟩, ?_,
        fun hr => ?_, fun hk' => absurd hk' hsr⟩, ?_⟩
      · have hp' : Prompts (fun y => s.demands f y && s'.sharer y) (fun y => s.waitsForWb f y && s'.sharer y)
            t := by
          refine Prompts.congr hp htd (fun z => ?_) (by rw [← ht])
          rw [← ht, h.queue]
          exact queuedBy_front (f := f) (g := { f with dataBuf := true }) rfl rfl z
        rw [h.demands, ← hdem, waitsForWb_of_ne hsr] at hp'
        rw [hwb]
        simpa using hp'
      · have hyr : ¬ f.requester = y := by
          rintro rfl
          rw [hno] at hy
          cases hy
        rw [hdem]
        simp [State.demands, hw, hk, hy, hyr]
      · intro z hz
        rw [hwb] at hz
        cases hz
      · rw [refused_of_ne (f := { f with dataBuf := true }) hsr] at hr
        cases hr
      · rw [← ht]
        refine .inr ⟨rfl, ?_, rfl, Nat.le_succ _⟩
        simp only [State.stage, h.queue, ShmemReq.stage]
  · rename_i hk
    have hd := hu (by simp [hk])
    have hme' : (s'.sendDataToDram cfg env d).entry = some e := hme.trans h.entry
    exact served_onward
      (((h.flushTurn hfl (by simp [hk])).congr hme hmq hml hmr).processNullifyReq_served (hpd hd) hk hme')
      ((processNullifyReq_forth (hmd.trans hd)).mono (fun r hr => hforth r hr) fun _ => id)

end Arrived

section Messages

variable {tx : List (LlcMsg V)}

/-- `processInvRepFromL2Cache`. -/
theorem Stable.invRep_served (h : Stable s) (hp : Alive cfg s) (hcfg : cfg.HasPlace) (hent : EntryInv cfg s)
    (hasked : ∀ f rest, s.queue = f :: rest → s.refused f = true → f.victim = some x)
    (htx : (s.llc x).tx = .invRep :: tx) :
    Ensures ((s.popTx x tx).processInvRepFromL2Cache cfg env x)
      (fun r => Served cfg r ∧ Onward (s.popTx x tx) r) fun _ => False := by
  obtain ⟨p, wb, fl, hc⟩ := h.coherent
  obtain ⟨e, hse, hsx⟩ := entry_of_sharer (hc.sharer_of_leave (x := x) (by simp [htx, isLeave, isInvRep]))
  have hds : s.dstate = e.dstate := by simp only [State.dstate, hse]
  -- a `MODIFIED` line is written back before it is invalidated
  have hd : e.dstate = .shared ∨ e.dstate = .exclusive := by
    cases hed : e.dstate with
    | shared => exact .inl rfl
    | exclusive => exact .inr rfl
    | uncached =>
      have := hc.uncached.mp (hds.trans hed) x
      simp [State.sharer, hse, hsx] at this
    | modified =>
      obtain ⟨lv, wb', hprompts⟩ := hp.exists_prompts
      have hwb := (hprompts x).invRep (hds.trans hed) (by simp [htx, isInvRep])
      have horder := (hc.node x).order
      rw [htx, List.pairwise_cons] at horder
      rw [htx, List.countP_cons_of_neg (by simp [isWbRep])] at hwb
      obtain ⟨m, hm, hmw⟩ := List.countP_pos_iff.mp hwb
      rw [(horder.1 m hm).2 rfl] at hmw
      cases hmw
  unfold processInvRepFromL2Cache
  have he : (s.popTx x tx).entry = s.entry := rfl
  rw [he, hse]
  dsimp only
  rw [if_pos hd]
  refine ensures_of_ok (a := { e with sharers := Function.update e.sharers x false })
    (by simp [DirectoryEntry.removeSharer, hsx]) ?_
  dsimp only
  rw [← hds] at hd
  rcases h with ⟨hq, hr⟩ | ⟨f, rest, hw⟩
  · obtain ⟨hl, hc'⟩ := left_of_pop ({ e with
      sharers := Function.update e.sharers x false
      forwarder := if e.forwarder = some x then none else e.forwarder }) hr.coherent htx rfl hse hsx rfl rfl
    obtain ⟨hq', -⟩ := hr.left hq hl hc'
    unfold State.resumeAfterInv
    rw [hq']
    exact Ensures.ok ⟨.inl ⟨hq', by simpa using (hp.prompts hq).left htx rfl hl hc' rfl⟩, onward_refl⟩
  · obtain ⟨hl, hc'⟩ := left_of_pop ({ e with
      sharers := Function.update e.sharers x false
      forwarder := if e.forwarder = some x then none else e.forwarder }) hw.coherent htx rfl hse hsx rfl rfl
    have harr : Arrived f rest x s _ _ := ⟨hw, hl, hc', rfl⟩
    have hpend := hp.pending hw.queue
    have hrem : Remaining f s _ := hpend.prompts.left htx rfl hl hc' rfl
    cases hk : f.msgType with
    | exReq => exact harr.invExReq_served hrem hcfg hk hd
    | upgradeReq => exact harr.invUpgradeReq_served hrem hcfg hk hd
    | shReq =>
      have hpop : EntryInv cfg (s.popTx x tx) := fun e hse => hent e hse
      have hroom : (uncacheIfEmpty { e with
          sharers := Function.update e.sharers x false
          forwarder := if e.forwarder = some x then none else e.forwarder }).refusesSharer cfg = false :=
        (hent e hse).1.not_refused_left hsx (uncacheIfEmpty_sharers _)
      exact harr.invShReq_served hrem hpend hcfg hk (hpop.remove hse hsx) hroom (hasked f rest hw.queue)
    | nullifyReq => exact harr.invNullifyReq_served hrem hk

/-- `processFlushRepFromL2Cache`. -/
theorem Stable.flushRep_served {d : Option V} (h : Stable s) (hp : Alive cfg s)
    (hcfg : cfg.HasPlace) (htx : (s.llc x).tx = .flushRep d :: tx) :
    Ensures ((s.popTx x tx).processFlushRepFromL2Cache cfg env x d)
      (fun r => Served cfg r ∧ Onward (s.popTx x tx) r) fun _ => False := by
  obtain ⟨p, wb, fl, hc⟩ := h.coherent
  obtain ⟨e, hse, hsx⟩ := entry_of_sharer (hc.sharer_of_leave (x := x) (by simp [htx, isLeave, isFlushRep]))
  have hds : s.dstate = e.dstate := by simp only [State.dstate, hse]
  unfold processFlushRepFromL2Cache
  have he : (s.popTx x tx).entry = s.entry := rfl
  rw [he, hse]
  dsimp only
  rw [if_pos hsx]
  refine ensures_of_ok (a := { e with sharers := Function.update e.sharers x false })
    (by simp [DirectoryEntry.removeSharer, hsx]) ?_
  dsimp only
  obtain ⟨hl, hc'⟩ := left_of_pop ({ e with
    sharers := Function.update e.sharers x false, owner := none, forwarder := none }) hc htx rfl hse hsx rfl rfl
  -- with other sharers the line is `SHARED`
  rw [if_neg]
  · rcases h with ⟨hq, hr⟩ | ⟨f, rest, hw⟩
    · obtain ⟨hl, hc'⟩ := left_of_pop ({ e with
        sharers := Function.update e.sharers x false, owner := none, forwarder := none })
          hr.coherent htx rfl hse hsx rfl rfl
      obtain ⟨hq', -⟩ := hr.left hq hl hc'
      have hal : Alive cfg _ := .inl ⟨hq', by simpa using (hp.prompts hq).left htx rfl hl hc' rfl⟩
      unfold State.resumeAfterFlush
      rw [hq']
      obtain ⟨hme, hmq, hml, -⟩ := sendDataToDram_same cfg env d ((s.popTx x tx).setEntry
        (uncacheIfEmpty { e with sharers := Function.update e.sharers x false, owner := none,
                                 forwarder := none }))
      obtain ⟨hmf, hmt⟩ := sendDataToDram_length cfg env d ((s.popTx x tx).setEntry
        (uncacheIfEmpty { e with sharers := Function.update e.sharers x false, owner := none,
                                 forwarder := none }))
      have hstage : ∀ u : State n V, u.queue = s.queue → u.stage = s.stage := fun u hu => by
        simp only [State.stage, hu]
      exact Ensures.ok ⟨hal.congr hme hmq hml, .inr ⟨hml, hstage _ hmq, hmf, hmt⟩⟩
    · obtain ⟨hl, hc'⟩ := left_of_pop ({ e with
        sharers := Function.update e.sharers x false, owner := none, forwarder := none })
          hw.coherent htx rfl hse hsx rfl rfl
      have harr : Arrived f rest x s _ _ := ⟨hw, hl, hc', rfl⟩
      have hpend := hp.pending hw.queue
      have hrem : Remaining f s _ := hpend.prompts.left htx rfl hl hc' rfl
      have hfl := (hw.coherent.node x).flushRep (by simp [htx, isFlushRep])
      exact harr.resumeAfterFlush_served hrem hcfg hfl d
  · rintro ⟨hnum, hne⟩
    have hex : ∃ y, ((s.popTx x tx).setEntry (uncacheIfEmpty { e with
        sharers := Function.update e.sharers x false, owner := none, forwarder := none })).sharer y = true := by
      by_contra hnone
      refine hnum (DirectoryEntry.getNumSharers_eq_zero.mpr fun y => ?_)
      by_contra hy
      have hsh : s.sharer = e.sharers := by funext z; simp only [State.sharer, hse]
      exact hnone ⟨y, by rw [hl.sharer, hsh]; simpa using hy⟩
    obtain ⟨y, hy⟩ := hex
    have hsame := hl.dstate_of_sharer hy
    have hdst : (uncacheIfEmpty { e with
        sharers := Function.update e.sharers x false, owner := none, forwarder := none }).dstate = s.dstate := hsame
    rw [hdst] at hne
    cases hd : s.dstate with
    | shared => exact hne hd
    | uncached =>
      have := hc.uncached.mp hd x
      simp [State.sharer, hse, hsx] at this
    | exclusive =>
      have hu := hl.uncached_of_owned hc (by rw [hd]; rfl)
      rw [hsame, hd] at hu
      cases hu
    | modified =>
      have hu := hl.uncached_of_owned hc (by rw [hd]; rfl)
      rw [hsame, hd] at hu
      cases hu

/-- `processWbRepFromL2Cache`. -/
theorem Stable.wbRep_served {d : Option V} (h : Stable s) (hp : Alive cfg s)
    (hcfg : cfg.HasPlace) (htx : (s.llc x).tx = .wbRep d :: tx) :
    Ensures ((s.popTx x tx).processWbRepFromL2Cache cfg env x d)
      (fun r => Served cfg r ∧ Onward (s.popTx x tx) r) fun _ => False := by
  rcases h with ⟨hq, hr⟩ | ⟨f, rest, hw⟩
  · have := ((hr.coherent.node x).quiet rfl).2
    rw [htx, List.countP_cons_of_pos rfl] at this
    omega
  have hpend := hp.pending hw.queue
  have hwait := hw.of_wbRep htx
  have hsx' := hpend.sharer x hwait
  obtain ⟨e, hse, hsx⟩ := entry_of_sharer hsx'
  have hk : f.msgType = .shReq := by
    by_contra hk
    rw [waitsForWb_of_ne hk] at hwait
    cases hwait
  have hwf : f.waitForData = false := by
    by_contra hne
    simp [waitsForWb, hne] at hwait
  unfold processWbRepFromL2Cache
  have he : (s.popTx x tx).entry = s.entry := rfl
  rw [he, hse]
  dsimp only
  rw [if_pos hsx]
  have hq : ∀ e', ((s.popTx x tx).setEntry e').queue = s.queue := fun _ => rfl
  rw [hq, hw.queue]
  dsimp only
  rw [if_pos hk]
  have hc : Coherent _ _ _ ((s.popTx x tx).setEntry { e with owner := none, dstate := .shared }) :=
    hw.coherent.downgrade htx hsx' rfl (by funext y; simp only [State.sharer, hse]) rfl rfl rfl
  -- nobody else has been asked
  have hupd : Function.update (s.waitsForWb f) x false = fun _ => false := by
    by_cases hf : f.forwardingFrom.isSome = true
    · have hds := (hw.front.forwarding hf).2 hwf
      funext y
      by_contra hne
      obtain ⟨hy, hwb⟩ := update_waitsForWb (by simpa using hne)
      simp only [waitsForWb, hds, DirectoryState.isOwned, Bool.false_and, Bool.false_or, Bool.and_eq_true,
        decide_eq_true_eq] at hwb hwait
      have := hwb.2.symm.trans hwait.2
      exact hy (Option.some.inj this)
    · exact hw.update_of_owned hsx' (by simpa using hf)
  have hone : ∀ y, s.waitsForWb f y = true → y = x := by
    intro y hy
    by_contra hyx
    have := congrFun hupd y
    rw [Function.update_of_ne hyx, hy] at this
    cases this
  have hprompts : Prompts (fun _ => false) (fun _ => false)
      ((s.popTx x tx).setEntry { e with owner := none, dstate := .shared }) := by
    have hpr := hpend.prompts
    rw [demands_of_waitsForWb hk hwait] at hpr
    refine hpr.downgrade htx hone (fun y hy => ?_) rfl rfl rfl
    cases hd : s.dstate with
    | shared => exact .inl rfl
    | uncached =>
      have := hw.coherent.uncached.mp hd x
      rw [hsx'] at this
      cases this
    | exclusive => exact .inr (hw.coherent.copies_of_owned (by rw [hd]; rfl) hsx' hy)
    | modified => exact .inr (hw.coherent.copies_of_owned (by rw [hd]; rfl) hsx' hy)
  rw [hupd] at hc
  have hforth : ∀ u : State n V, u.queue = s.queue → u.dstate = .shared →
      (u.sharer f.requester = false → f.forwardingFrom = none ∧ f.victim = none) →
      Ensures (u.processShReqFromL2Cache cfg env f (some d)) (Forth u) fun _ => True :=
    fun u hu hd hnew =>
      processShReq_forth (hu.trans hw.queue) hwf (by rw [hd]; rfl) (fun _ hnot => .inr (hnew hnot)) (some d)
  by_cases hf : f.forwardingFrom.isSome = true
  · have hgr : f.granted = some f.requester := by simp [ShmemReq.granted, hf]
    rw [hgr] at hc
    have hgranted : Granted f rest ((s.popTx x tx).setEntry { e with owner := none, dstate := .shared }) :=
      { queue := hw.queue
        coherent := hc
        fresh := hw.fresh
        reads := by
          have := hw.reads
          rw [hwf] at this
          exact this
        waitForData := hwf
        kind := .inl ⟨hk, .inl rfl⟩
        forwarding := fun _ => ⟨hk, rfl⟩ }
    refine served_onward (hgranted.processShReq_served hprompts rfl hf (some d)) (hforth _ rfl rfl fun hnot => ?_)
    have hpending := ((hgranted.coherent.node f.requester).copies_of_pending (by simp [view])).2
    have hsr : State.sharer ((s.popTx x tx).setEntry { e with owner := none, dstate := .shared }) f.requester = true := by
      simpa [view] using hpending
    rw [hsr] at hnot
    cases hnot
  · have hf' : f.forwardingFrom = none := by simpa using hf
    rw [ShmemReq.granted_eq_none hwf hf'] at hc
    have hown : s.dstate.isOwned = true := by
      simp only [waitsForWb, hf', reduceCtorEq, decide_false, Bool.or_false, Bool.and_eq_true] at hwait
      exact hwait.2.1
    exact served_onward ((hw.turn hc rfl rfl hwf hf').processShReq_served hprompts hcfg hk
      (fun hown => by cases hown) (by simp)) (hforth _ rfl rfl fun _ => ⟨hf', hpend.unasked hk hwf hf' hown⟩)

/-- A request of a cache arrives. -/
theorem Stable.enqueueReq_served {m : LlcMsg V} {k : ReqType} (h : Stable s) (hp : Alive cfg s)
    (hcfg : cfg.HasPlace) (he : EntryInv cfg s)
    (htx : (s.llc x).tx = m :: tx) (hk : m.reqType = some k) :
    Ensures ((s.popTx x tx).enqueueReq cfg env k x) (Served cfg) fun _ => False := by
  have hnull : k ≠ .nullifyReq := by cases m <;> simp_all [reqType] <;> rintro rfl <;> simp at hk
  have hm : (m.isMissReq = true ∧ k ≠ .upgradeReq) ∨ (m.isUpgradeReq = true ∧ k = .upgradeReq) := by
    cases m <;> simp [reqType] at hk <;> subst hk <;> simp [isMissReq, isUpgradeReq]
  have hfresh : (ShmemReq.new k x).Fresh := ⟨hnull, rfl, rfl, rfl, rfl⟩
  unfold State.enqueueReq
  dsimp only
  rcases h with ⟨hq, hr⟩ | ⟨f, rest, hw⟩
  · have hq' : (s.popTx x tx).queue = [] := hq
    simp only [hq', List.nil_append, List.length_singleton, if_true]
    have hturn : Turn (ShmemReq.new k x) [] { s.popTx x tx with
        queue := [ShmemReq.new k x], arrived := (s.popTx x tx).arrived ++ [x] } :=
      { queue := rfl
        coherent := hr.coherent.enqueue htx hnull hm rfl (by rw [hq]; rfl) rfl
        fresh := by simp
        reads := hr.reads
        waitForData := rfl
        forwardingFrom := rfl }
    exact hturn.processReq_served ((hp.prompts hq).enqueue htx hk hnull rfl (by rw [hq]; rfl) rfl) hcfg
      (fun e hse => he e hse) hfresh
  · have hq' : (s.popTx x tx).queue = f :: rest := hw.queue
    have hpend := hp.pending hw.queue
    have hlen : ¬ ((s.popTx x tx).queue ++ [ShmemReq.new k x]).length = 1 := by simp [hq']
    rw [if_neg hlen]
    refine Ensures.ok (.inr ⟨f, rest ++ [ShmemReq.new k x], by rw [hq']; rfl, ?_, hpend.waits, hpend.sharer,
      hpend.refused, hpend.unasked⟩)
    exact hpend.prompts.enqueue htx hk hnull rfl rfl rfl

/-- `handleMsgFromL2Cache`. -/
theorem Stable.handleMsg_served {m : LlcMsg V} (h : Stable s) (hp : Alive cfg s)
    (hcfg : cfg.HasPlace) (he : EntryInv cfg s) (htx : (s.llc x).tx = m :: tx)
    (hasked : ∀ f rest, s.queue = f :: rest → m = .invRep → s.refused f = true → f.victim = some x) :
    Ensures ((s.popTx x tx).handleMsgFromL2Cache cfg env x m)
      (fun r => Served cfg r ∧ (m.isReq = false → Onward (s.popTx x tx) r)) fun _ => False := by
  have hreq : ∀ {y : Except Fault (Outcome n V)}, m.isReq = true → (Ensures y (Served cfg) fun _ => False) →
      Ensures y (fun r => Served cfg r ∧ (m.isReq = false → Onward (s.popTx x tx) r)) fun _ => False :=
    fun hm hy => hy.mono (fun _ hr => ⟨hr, fun hm' => by rw [hm] at hm'; cases hm'⟩) fun _ => id
  have hrep : ∀ {y : Except Fault (Outcome n V)},
      (Ensures y (fun r => Served cfg r ∧ Onward (s.popTx x tx) r) fun _ => False) →
      Ensures y (fun r => Served cfg r ∧ (m.isReq = false → Onward (s.popTx x tx) r)) fun _ => False :=
    fun hy => hy.mono (fun _ hr => ⟨hr.1, fun _ => hr.2⟩) fun _ => id
  unfold handleMsgFromL2Cache
  cases m with
  | exReq => exact hreq rfl (h.enqueueReq_served hp hcfg he htx rfl)
  | shReq => exact hreq rfl (h.enqueueReq_served hp hcfg he htx rfl)
  | upgradeReq => exact hreq rfl (h.enqueueReq_served hp hcfg he htx rfl)
  | invRep => exact hrep (h.invRep_served hp hcfg he (fun f rest hq => hasked f rest hq rfl) htx)
  | flushRep d => exact hrep (h.flushRep_served hp hcfg htx)
  | wbRep d => exact hrep (h.wbRep_served hp hcfg htx)

/-- Data from memory is an answer to the request at the front. -/
theorem Stable.processDRAMReply_served {d : Option V} {ds : List (Option V)} (h : Stable s) (hp : Alive cfg s)
    (hd : s.fromDram = d :: ds) :
    Ensures ({ s with fromDram := ds }.processDRAMReply cfg env d) (Served cfg) fun _ => False := by
  have hpos : 0 < s.reads := by simp [reads, hd]
  rcases h with ⟨-, hr⟩ | ⟨f, rest, hw⟩
  · rw [hr.reads] at hpos
    cases hpos
  have hwait : f.waitForData = true := by
    by_contra hne
    have := hw.reads
    simp only [Bool.not_eq_true] at hne
    rw [hne] at this
    rw [this] at hpos
    cases hpos
  have hgr : f.granted = some f.requester := by simp [ShmemReq.granted, hwait]
  have hc := hw.coherent
  rw [hgr, waitsForWb_of_waitForData hwait, show s.waitsForFlush f = false by simp [waitsForFlush, hwait]] at hc
  have hsr : s.sharer f.requester = true := by
    have := ((hc.node f.requester).copies_of_pending (by simp [view])).2
    simpa [view] using this
  obtain ⟨e, hse, -⟩ := entry_of_sharer hsr
  have hds : s.dstate = e.dstate := by simp only [State.dstate, hse]
  have hprompts : Prompts (fun _ => false) (fun _ => false) s := by
    have := (hp.pending hw.queue).prompts
    rwa [demands_of_waitForData hwait, waitsForWb_of_waitForData hwait] at this
  generalize ht : ({ s with fromDram := ds } : State n V) = t
  have htq : t.queue = f :: rest := by rw [← ht]; exact hw.queue
  have hte : t.entry = s.entry := by rw [← ht]
  have htl : t.llc = s.llc := by rw [← ht]
  unfold State.processDRAMReply
  rw [htq, hte, hse]
  dsimp only
  have hrep : Ensures (dramReplyType f.msgType e.dstate : Except Fault (Option V → DirMsg V))
      (fun rep => f.msgType ≠ .nullifyReq ∧ (∀ d, (rep d).isDataRep = true) ∧
        (∀ d, s.dstate = .modified → (rep d).isExRep = true ∧ (f.msgType = .exReq ∨ f.msgType = .upgradeReq)) ∧
        ∀ d, (rep d).isShRep = true → f.msgType = .shReq) fun _ => False := by
    obtain ⟨hsh, -, hex, hup, hnull⟩ := hw.front
    rw [hds] at hsh hex hup ⊢
    cases hk : f.msgType <;> cases hd : e.dstate <;> simp [hk, hd, hwait] at hsh hex hup hnull <;>
      simp [dramReplyType, Ensures, isDataRep, isExRep, isShRep]
  refine hrep.bind fun rep hr => Ensures.ok ?_
  obtain ⟨hnull, hdata, hmod, hsh⟩ := hr
  obtain ⟨hme, hmq, hml, -⟩ := sendDataToNUCA_same cfg env d (t.sendReply f.requester (rep d))
  intro s' he' hl' hq'
  have hrest : s'.queue = rest := by
    rw [hq', hmq]
    exact congrArg List.tail htq
  refine hprompts.reply hc hw.queue hnull rfl (hdata d) (hmod d) (hsh d) ((he'.trans hme).trans hte) hrest fun y => ?_
  rw [hl', hml, ← htl]
  exact sendMsg_llc f.requester y (rep d) t

/-- The line is nullified while there is no request. -/
theorem Stable.nullify_served (h : Stable s) (hp : Alive cfg s) (hq : s.queue = []) (he : s.entry.isSome = true)
    (requester : Fin n) : Ensures (s.nullify requester) (Served cfg) fun _ => False := by
  have hr : Ready s := by
    rcases h with ⟨-, hr⟩ | ⟨f, rest, hw⟩
    · exact hr
    · rw [hw.queue] at hq
      cases hq
  obtain ⟨e, hse⟩ := Option.isSome_iff_exists.mp he
  unfold State.nullify
  have hqueued : ∀ y, queuedBy (s.queue ++ [ShmemReq.new .nullifyReq requester]) y = queuedBy s.queue y :=
    fun y => by
      rw [hq]
      exact queuedBy_nullify rfl y
  have hturn : Turn (ShmemReq.new .nullifyReq requester) []
      { s with queue := s.queue ++ [ShmemReq.new .nullifyReq requester] } :=
    { queue := by rw [hq]; rfl
      coherent := hr.coherent.congr_entry rfl rfl rfl hqueued rfl
      fresh := by simp
      reads := hr.reads
      waitForData := rfl
      forwardingFrom := rfl }
  exact hturn.processNullifyReq_served ((hp.prompts hq).congr rfl hqueued rfl) rfl hse

end Messages

/-- Nothing has happened yet. -/
theorem alive_initial (v : V) : Alive cfg (initial v : State n V) :=
  .inl ⟨rfl, fun _ => Prompt.empty⟩

/-- The next message of the cache is no `INV_REP`, or no refused read waits, or the cache was asked to make room for it. -/
def State.expects (s : State n V) (x : Fin n) : Bool :=
  match s.queue, (s.llc x).tx with
  | f :: _, .invRep :: _ => !s.refused f || f.victim = some x
  | _, _ => true

/-- An `INV_REP` that arrives while a refused read waits comes from the sharer that was asked. -/
def Event.Expected (s : State n V) : Event n V → Prop
  | .toDir x _ => s.expects x = true
  | _ => True

instance (s : State n V) : (ev : Event n V) → Decidable (ev.Expected s)
  | .toDir x _ => inferInstanceAs (Decidable (s.expects x = true))
  | .access .. | .evict _ | .toLlc _ | .dram | .fromDram _ | .nullify .. | .evictNuca => isTrue trivial

theorem victim_of_expects {tx : List (LlcMsg V)} (h : s.expects x = true) (hq : s.queue = f :: rest)
    (htx : (s.llc x).tx = .invRep :: tx) (hr : s.refused f = true) : f.victim = some x := by
  simpa [expects, hq, htx, hr] using h

/-- A handler and what follows it. -/
theorem finish_of_served (hcfg : cfg.HasPlace) {y : Except Fault (Outcome n V)}
    (hs : Ensures y (Served cfg) fun _ => False) (hh : Ensures y (fun r => ∃ rest, Handled rest r) fun _ => True)
    (he : Ensures y (fun r => EntryInv cfg r.1) fun _ => True) :
    Ensures (y >>= finish cfg env) (Alive cfg) fun _ => False := by
  refine ((hs.and hh).and he).bind fun r hr => ?_
  obtain ⟨⟨hs, rest, hh⟩, he⟩ := hr
  exact finish_served hcfg hh hs he

/-- No step fails that spares the lines in an upgrade and brings no unexpected `INV_REP`, and what the request at the
front waits for stays under way. -/
theorem alive_step (hcfg : cfg.HasPlace) (hset : cfg.SetsForwarder) (h : Stable s) (he : EntryInv cfg s)
    (hp : Alive cfg s) {ev : Event n V} (hev : ev.Spares s) (hexp : ev.Expected s) :
    Ensures (step cfg s ev) (Alive cfg) fun _ => False := by
  obtain ⟨p, wb, fl, hc⟩ := h.coherent
  have hmap : ∀ {x : Fin n} {y : Except Fault (Llc V × V)},
      (∀ leave wb', Prompt s.dstate (queuedBy s.queue x) leave wb' (s.llc x) →
        Ensures y (fun r => Prompt s.dstate (queuedBy s.queue x) leave wb' r.1) fun _ => False) →
      Ensures (y.map fun r => s.setLlc x r) (Alive cfg) fun _ => False := by
    intro x y hy
    obtain ⟨leave, wb', hpr⟩ := hp.exists_prompts
    obtain ⟨r, hr, -⟩ := (hy _ _ (hpr x)).exists_ok
    rw [hr]
    exact hp.setLlc fun leave wb' hx => (hy leave wb' hx).of_ok hr
  cases ev with
  | access x a => exact hmap fun leave wb' hx => hx.access (v := s.view p wb fl x) (hc.node x) a s.lastWrite
  | evict x =>
    have hy : ∀ leave wb', Prompt s.dstate (queuedBy s.queue x) leave wb' (s.llc x) →
        Ensures (s.llc x).evict (Prompt s.dstate (queuedBy s.queue x) leave wb') fun _ => False :=
      fun leave wb' hx => hx.evict (v := s.view p wb fl x) (hc.node x) hev
    obtain ⟨leave, wb', hpr⟩ := hp.exists_prompts
    obtain ⟨l, hl, -⟩ := (hy _ _ (hpr x)).exists_ok
    dsimp only [step]
    rw [hl]
    exact hp.setLlc fun leave wb' hx => (hy leave wb' hx).of_ok hl
  | toLlc x =>
    dsimp only [step]
    split
    · exact hp
    · rename_i m rx hrx
      exact hmap fun leave wb' hx => hx.handleMsg (v := s.view p wb fl x) (hc.node x) hrx s.lastWrite
  | toDir x env =>
    dsimp only [step]
    split
    · exact hp
    · rename_i m tx htx
      have hpop : EntryInv cfg (s.popTx x tx) := fun e hse => he e hse
      have hasked : ∀ f rest, s.queue = f :: rest → m = .invRep → s.refused f = true → f.victim = some x :=
        fun f rest hq hm hr => victim_of_expects hexp hq (hm ▸ htx) hr
      exact finish_of_served hcfg
        ((h.handleMsg_served hp hcfg he htx hasked).mono (fun _ hr => hr.1) fun _ => id) (h.handleMsg htx)
        ((handleMsg_safe hset hpop).mono (fun _ hr => hr.1) fun _ => id)
  | dram =>
    dsimp only [step]
    split
    · exact hp
    · rename_i m rest _
      refine Ensures.ok (hp.congr ?_ ?_ ?_) <;> cases m <;> rfl
  | fromDram env =>
    dsimp only [step]
    split
    · exact hp
    · rename_i d rest hfd
      have hpop : EntryInv cfg { s with fromDram := rest } := fun e hse => he e hse
      exact finish_of_served hcfg (h.processDRAMReply_served hp hfd) (h.processDRAMReply hfd)
        ((processDRAMReply_safe hpop).mono (fun _ hr => hr.1) fun _ => id)
  | nullify x env =>
    dsimp only [step]
    split
    · rename_i hcond
      have hq : EntryInv cfg { s with queue := s.queue ++ [ShmemReq.new .nullifyReq x] } :=
        fun e hse => he e hse
      exact finish_of_served hcfg (h.nullify_served hp hcond.2 hcond.1 x) (h.nullify hcond.2 x)
        ((processNullifyReq_safe hq).mono (fun _ hr => hr.1) fun _ => id)
    · exact hp
  | evictNuca =>
    refine Ensures.ok (hp.congr ?_ ?_ ?_) <;> unfold State.evictNuca <;> split <;> rfl

/-- All that a run keeps. -/
structure Sound (cfg : Config n) (s : State n V) : Prop where
  stable : Stable s
  entry : EntryInv cfg s
  alive : Alive cfg s

/-- Nothing has happened yet. -/
theorem sound_initial (cfg : Config n) (v : V) : Sound cfg (initial v : State n V) where
  stable := stable_initial v
  entry := fun e he => by cases he
  alive := alive_initial v

theorem Sound.step (hcfg : cfg.HasPlace) (hset : cfg.SetsForwarder) (h : Sound cfg s) {ev : Event n V}
    (hev : ev.Spares s) (hexp : ev.Expected s) : Ensures (step cfg s ev) (Sound cfg) fun _ => False := by
  obtain ⟨hst, hen, hal⟩ := h
  have hsafe := safeStep hset hen ev
  exact (((alive_step hcfg hset hst hen hal hev hexp).and (stable_step cfg hst ev)).and hsafe).mono
    (fun _ hr => ⟨hr.1.2, hr.2.1, hr.1.1⟩) fun _ => id

/-- A directory with room for all caches refuses no read. -/
theorem Sound.expected (h : Sound cfg s) (hcfg : cfg.HasRoom) (ev : Event n V) : ev.Expected s := by
  cases ev with
  | toDir x env =>
    change s.expects x = true
    unfold State.expects
    split
    · rename_i f rest tx hq htx
      by_contra hne
      have href : s.refused f = true := by
        by_contra hr
        simp [hr] at hne
      exact (h.alive.pending hq).refused href hcfg
    · rfl
  | access x a => exact trivial
  | evict x => exact trivial
  | toLlc x => exact trivial
  | dram => exact trivial
  | fromDram env => exact trivial
  | nullify x env => exact trivial
  | evictNuca => exact trivial

theorem sound_step (hcfg : cfg.HasRoom) (h : Sound cfg s) {ev : Event n V} (hev : ev.Spares s) :
    Ensures (step cfg s ev) (Sound cfg) fun _ => False :=
  h.step hcfg.hasPlace hcfg.setsForwarder hev (h.expected hcfg ev)

/-- An eviction that does not spare the line stops the simulation. -/
theorem step_of_not_spares {ev : Event n V} (hev : ¬ ev.Spares s) : step cfg s ev = .error .evictState := by
  cases ev with
  | evict x =>
    have hup : (s.llc x).cstate = .sharedUpgrading := not_not.mp hev
    dsimp only [step]
    rw [Llc.evict_eq_error.mpr ⟨hup, rfl⟩]
    rfl
  | access x a => exact absurd trivial hev
  | toLlc x => exact absurd trivial hev
  | toDir x env => exact absurd trivial hev
  | dram => exact absurd trivial hev
  | fromDram env => exact absurd trivial hev
  | nullify x env => exact absurd trivial hev
  | evictNuca => exact absurd trivial hev

/-- A step that succeeds spares the lines in an upgrade. -/
theorem spares_of_ok {ev : Event n V} (hok : step cfg s ev = .ok s') : ev.Spares s := by
  by_contra hev
  rw [step_of_not_spares hev] at hok
  cases hok

theorem sound_of_reachable {v : V} (hcfg : cfg.HasRoom)
    (h : (machine n V cfg).Reachable (initial v) s) : Sound cfg s :=
  h.invariant (sound_initial cfg v) fun _ _ _ ht hstep => (sound_step hcfg ht (spares_of_ok hstep)).of_ok hstep

end

end LifeSim.Directory
