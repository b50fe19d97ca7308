import LifeSim.Directory.Handlers

/-!
# Single writer, multiple readers, in every run

What the messages of the caches and of memory do to a line whose request at the front waits,
and the invariant along every run of the protocol.
-/

namespace LifeSim.Directory

open LifeSim.Lib DirMsg LlcMsg State

variable {n : ℕ} {V : Type}

namespace State

variable (cfg : Config n) (env : Env) (d : Option V) (s : State n V)

theorem sendDataToNUCA_same : (s.sendDataToNUCA cfg env d).entry = s.entry ∧
    (s.sendDataToNUCA cfg env d).queue = s.queue ∧ (s.sendDataToNUCA cfg env d).llc = s.llc ∧
    (s.sendDataToNUCA cfg env d).reads = s.reads := by
  unfold sendDataToNUCA
  split
  · split
    · refine ⟨rfl, rfl, rfl, ?_⟩
      cases env.stray <;> simp [reads, DramMsg.isRead]
    · exact ⟨rfl, rfl, rfl, rfl⟩
  · exact ⟨rfl, rfl, rfl, rfl⟩

theorem sendDataToDram_same : (s.sendDataToDram cfg env d).entry = s.entry ∧
    (s.sendDataToDram cfg env d).queue = s.queue ∧ (s.sendDataToDram cfg env d).llc = s.llc ∧
    (s.sendDataToDram cfg env d).reads = s.reads := by
  unfold sendDataToDram
  split
  · exact sendDataToNUCA_same cfg env d s
  · exact ⟨rfl, rfl, rfl, by simp [reads, DramMsg.isRead]⟩

end State

section

variable {s s' : State n V} {f : ShmemReq n} {rest : List (ShmemReq n)} {cfg : Config n} {env : Env}
  {x : Fin n}

/-- A request in turn stays in turn when only memory changes. -/
theorem Turn.congr (h : Turn f rest s) (he : s'.entry = s.entry) (hq : s'.queue = s.queue)
    (hl : s'.llc = s.llc) (hr : s'.reads = s.reads) : Turn f rest s' :=
  { h with
    queue := by rw [hq, h.queue]
    coherent := h.coherent.congr he hq hl
    reads := by rw [hr, h.reads] }

/-- A line without requests stays so when only memory changes. -/
theorem Ready.congr (h : Ready s) (he : s'.entry = s.entry) (hq : s'.queue = s.queue)
    (hl : s'.llc = s.llc) (hr : s'.reads = s.reads) : Ready s' where
  coherent := h.coherent.congr he hq hl
  fresh := by rw [hq]; exact h.fresh
  reads := by rw [hr, h.reads]

theorem waitsForWb_congr (hd : s'.dstate = s.dstate) (hs : s'.sharer = s.sharer) :
    s'.waitsForWb f = s.waitsForWb f := by
  funext y
  simp only [waitsForWb, hd, hs]

theorem waitsForFlush_congr (hd : s'.dstate = s.dstate) (hs : s'.sharer = s.sharer) :
    s'.waitsForFlush f = s.waitsForFlush f := by
  simp only [waitsForFlush, hd, hs]

/-- A request that waits keeps waiting when only memory changes. -/
theorem Waiting.congr (h : Waiting f rest s) (he : s'.entry = s.entry) (hq : s'.queue = s.queue)
    (hl : s'.llc = s.llc) (hr : s'.reads = s.reads) : Waiting f rest s' := by
  have hd : s'.dstate = s.dstate := by simp only [dstate, he]
  have hs : s'.sharer = s.sharer := by funext y; simp only [sharer, he]
  exact
    { queue := by rw [hq, h.queue]
      coherent := by
        rw [waitsForWb_congr hd hs, waitsForFlush_congr hd hs]
        exact h.coherent.congr he hq hl
      front := by rw [hd]; exact h.front
      fresh := h.fresh
      reads := by rw [hr, h.reads] }

/-- The two waits exclude each other. -/
theorem waitsForWb_of_flush (h : s.waitsForFlush f = true) (y : Fin n) : s.waitsForWb f y = false := by
  by_cases hk : f.msgType = .shReq
  · simp [waitsForFlush, hk] at h
  · simp [waitsForWb, hk]

/-- The request at the front goes on waiting. -/
theorem Waiting.wait (h : Waiting f rest s) {wb : Fin n → Bool} {fl : Bool} {g : ShmemReq n}
    (hg : g.msgType = f.msgType ∧ g.requester = f.requester ∧ g.waitForData = f.waitForData ∧
      g.forwardingFrom = f.forwardingFrom)
    (hc : Coherent f.granted wb fl s') (hq : s'.queue = g :: rest) (hr : s'.reads = s.reads)
    (hfront : FrontOk f s'.dstate) (hwb : ∀ y, wb y = true → s'.waitsForWb f y = true)
    (hfl : fl = true → s'.waitsForFlush f = true) : Waiting g rest s' := by
  obtain ⟨hk, hreq, hw, hf⟩ := hg
  have hgr : g.granted = f.granted := by simp only [ShmemReq.granted, hreq, hw, hf]
  have hwb' : s'.waitsForWb g = s'.waitsForWb f := by
    funext y
    simp only [waitsForWb, hk, hreq, hw, hf]
  have hfl' : s'.waitsForFlush g = s'.waitsForFlush f := by simp only [waitsForFlush, hk, hreq, hw]
  exact
    { queue := hq
      coherent := by
        rw [hgr, hwb', hfl']
        exact hc.weaken hwb hfl fun h y => waitsForWb_of_flush h y
      front := ⟨by rw [hk, hw]; exact hfront.shReq, by rw [hk, hw, hf]; exact hfront.forwarding,
        by rw [hk, hw]; exact hfront.exReq, by rw [hk, hw]; exact hfront.upgradeReq,
        by rw [hk, hw]; exact hfront.nullifyReq⟩
      fresh := h.fresh
      reads := by rw [hr, h.reads, hw] }

/-- The request at the front is in turn again. -/
theorem Waiting.turn (h : Waiting f rest s) (hc : Coherent none (fun _ => false) false s')
    (hq : s'.queue = s.queue) (hr : s'.reads = s.reads) (hw : f.waitForData = false)
    (hf : f.forwardingFrom = none) : Turn f rest s' where
  queue := by rw [hq, h.queue]
  coherent := hc
  fresh := h.fresh
  reads := by rw [hr, h.reads, hw]; rfl
  waitForData := hw
  forwardingFrom := hf

/-- The line after a copy has come back. -/
structure Left (x : Fin n) (s s' : State n V) : Prop where
  queue : s'.queue = s.queue
  reads : s'.reads = s.reads
  sharer : s'.sharer = Function.update s.sharer x false
  was : s.sharer x = true
  dstate : s'.dstate = if ∀ y, s'.sharer y = false then .uncached else s.dstate

namespace Left

/-- While there are sharers the state is the same. -/
theorem dstate_of_sharer (h : Left x s s') {y : Fin n} (hy : s'.sharer y = true) :
    s'.dstate = s.dstate := by
  rw [h.dstate, if_neg]
  intro hall
  rw [hall y] at hy
  cases hy

theorem dstate_of_ne (h : Left x s s') (hne : s'.dstate ≠ .uncached) : s'.dstate = s.dstate := by
  have := h.dstate
  split at this
  · exact absurd this hne
  · exact this

/-- The owner was the only sharer. -/
theorem uncached_of_owned (h : Left x s s') {p : Option (Fin n)} {wb : Fin n → Bool} {fl : Bool}
    (hc : Coherent p wb fl s) (hd : s.dstate.isOwned = true) : s'.dstate = .uncached := by
  rw [h.dstate, if_pos]
  intro y
  obtain ⟨o, -, -, hall⟩ := hc.owned hd
  rw [h.sharer]
  by_cases hy : y = x
  · simp [hy]
  · rw [Function.update_of_ne hy]
    by_contra hs
    exact hy ((hall y (by simpa using hs)).trans (hall x h.was).symm)

theorem sharer_of (h : Left x s s') {y : Fin n} (hy : s'.sharer y = true) : s.sharer y = true := by
  rw [h.sharer] at hy
  by_cases hyx : y = x
  · simp [hyx] at hy
  · rwa [Function.update_of_ne hyx] at hy

end Left

@[simp] theorem uncacheIfEmpty_sharers (e : DirectoryEntry n) : (uncacheIfEmpty e).sharers = e.sharers := by
  unfold uncacheIfEmpty
  split <;> rfl

theorem uncacheIfEmpty_dstate (e : DirectoryEntry n) :
    (uncacheIfEmpty e).dstate = if ∀ y, e.sharers y = false then .uncached else e.dstate := by
  unfold uncacheIfEmpty
  by_cases h : ∀ y, e.sharers y = false
  · rw [if_pos (DirectoryEntry.getNumSharers_eq_zero.mpr h), if_pos h]
  · rw [if_neg fun hn => h (DirectoryEntry.getNumSharers_eq_zero.mp hn), if_neg h]

/-- A message that gives up a copy is taken and the sharer removed. -/
theorem left_of_pop {p : Option (Fin n)} {wb : Fin n → Bool} {fl : Bool} {m : LlcMsg V}
    {tx : List (LlcMsg V)} {e : DirectoryEntry n} (e' : DirectoryEntry n) (h : Coherent p wb fl s)
    (htx : (s.llc x).tx = m :: tx) (hm : m.isLeave = true) (he : s.entry = some e)
    (hsx : e.sharers x = true) (hs : e'.sharers = Function.update e.sharers x false)
    (hd : e'.dstate = e.dstate) :
    Left x s ((s.popTx x tx).setEntry (uncacheIfEmpty e')) ∧
      Coherent p (Function.update wb x false) fl ((s.popTx x tx).setEntry (uncacheIfEmpty e')) := by
  have hsh : s.sharer = e.sharers := by funext y; simp only [State.sharer, he]
  have hds : s.dstate = e.dstate := by simp only [State.dstate, he]
  have hs' : (uncacheIfEmpty e').sharers = Function.update s.sharer x false := by
    rw [uncacheIfEmpty_sharers, hs, hsh]
  have hd' : (uncacheIfEmpty e').dstate =
      if ∀ y, (uncacheIfEmpty e').sharers y = false then .uncached else s.dstate := by
    rw [uncacheIfEmpty_dstate, uncacheIfEmpty_sharers, hd, hds]
  exact ⟨⟨rfl, rfl, hs', by rw [hsh]; exact hsx, hd'⟩, h.leave htx hm rfl hs' hd' rfl rfl⟩

/-- What is left to wait for when one cache has answered. -/
theorem update_waitsForWb {y : Fin n} (h : Function.update (s.waitsForWb f) x false y = true) :
    y ≠ x ∧ s.waitsForWb f y = true := by
  by_cases hy : y = x
  · simp [hy] at h
  · exact ⟨hy, by rwa [Function.update_of_ne hy] at h⟩

/-- A request for the line itself waits for no `WB_REP`. -/
theorem waitsForWb_of_ne (hk : f.msgType ≠ .shReq) : s.waitsForWb f = fun _ => false := by
  funext y
  simp [waitsForWb, hk]

/-- Only a read is forwarded. -/
theorem Waiting.forwardingFrom (h : Waiting f rest s) (hk : f.msgType ≠ .shReq) :
    f.forwardingFrom = none := by
  by_contra hne
  exact hk (h.front.forwarding (by rwa [Option.isSome_iff_ne_none])).1

/-- A request that waits for no data and is not a read has not been granted. -/
theorem Waiting.granted (h : Waiting f rest s) (hk : f.msgType ≠ .shReq) (hw : f.waitForData = false) :
    f.granted = none :=
  ShmemReq.granted_eq_none hw (h.forwardingFrom hk)

/-- The only sharer of an owned line has answered. -/
theorem Waiting.update_of_owned (h : Waiting f rest s) (hsx : s.sharer x = true)
    (hf : f.forwardingFrom = none) : Function.update (s.waitsForWb f) x false = fun _ => false := by
  funext y
  by_contra hne
  obtain ⟨hy, hwb⟩ := update_waitsForWb (by simpa using hne)
  have hown : s.dstate.isOwned = true ∧ s.sharer y = true := by
    simp only [waitsForWb, hf, Bool.and_eq_true, Bool.or_eq_true] at hwb
    simpa using hwb.2
  obtain ⟨o, -, -, hall⟩ := h.coherent.owned hown.1
  exact hy ((hall y hown.2).trans (hall x hsx).symm)

/-- The request at the front waits, and a cache has just given up its copy. -/
structure Arrived (f : ShmemReq n) (rest : List (ShmemReq n)) (x : Fin n) (s s' : State n V)
    (e : DirectoryEntry n) : Prop where
  waiting : Waiting f rest s
  left : Left x s s'
  coherent : Coherent f.granted (Function.update (s.waitsForWb f) x false) (s.waitsForFlush f) s'
  entry : s'.entry = some e

namespace Arrived

variable {e : DirectoryEntry n}

theorem queue (h : Arrived f rest x s s' e) : s'.queue = f :: rest := by
  rw [h.left.queue, h.waiting.queue]

theorem dstate (h : Arrived f rest x s s' e) : s'.dstate = e.dstate := by
  simp only [State.dstate, h.entry]

theorem sharer (h : Arrived f rest x s s' e) : s'.sharer = e.sharers := by
  funext y
  simp only [State.sharer, h.entry]

/-- A request to which the line has been granted keeps it from becoming `UNCACHED`. -/
theorem dstate_of_granted (h : Arrived f rest x s s' e) (hg : f.granted = some f.requester) :
    s'.dstate = s.dstate := by
  have hc := h.coherent
  rw [hg] at hc
  have := ((hc.node f.requester).copies_of_pending (by simp [view])).2
  exact h.left.dstate_of_sharer (y := f.requester) (by simpa [view] using this)

/-- The request goes on waiting. -/
theorem goOn (h : Arrived f rest x s s' e) (hfront : FrontOk f s'.dstate)
    (hwb : ∀ y, Function.update (s.waitsForWb f) x false y = true → s'.waitsForWb f y = true)
    (hfl : s.waitsForFlush f = true → s'.waitsForFlush f = true) : Handled rest (s', false) :=
  .inr ⟨f, rest, h.waiting.wait ⟨rfl, rfl, rfl, rfl⟩ h.coherent h.queue h.left.reads hfront hwb hfl⟩

/-- A request that has not been granted is in turn. -/
theorem turn (h : Arrived f rest x s s' e) (hw : f.waitForData = false) (hf : f.forwardingFrom = none)
    (hfl : s'.dstate = .uncached ∨ s.waitsForFlush f = false) : Turn f rest s' := by
  have hc := h.coherent
  rw [ShmemReq.granted_eq_none hw hf, h.waiting.update_of_owned h.left.was hf] at hc
  refine h.waiting.turn ?_ h.left.queue h.left.reads hw hf
  rcases hfl with hd | hfl
  · exact hc.relax hd
  · rwa [hfl] at hc

/-- An `INV_REP` while an `EX_REQ` waits. -/
theorem invExReq (h : Arrived f rest x s s' e) (hk : f.msgType = .exReq)
    (hd : s.dstate = .shared ∨ s.dstate = .exclusive) :
    Ensures (s'.resumeAfterInv cfg env x e) (Handled rest) fun _ => True := by
  have hsr : f.msgType ≠ .shReq := by simp [hk]
  have hw : f.waitForData = false := by
    by_contra hw
    have := h.waiting.front.exReq hk (by simpa using hw)
    rcases hd with hd | hd <;> simp [hd] at this
  have hf := h.waiting.forwardingFrom hsr
  simp only [State.resumeAfterInv, h.queue, hk]
  split
  · rename_i hu
    exact (h.turn hw hf (.inl (by rw [h.dstate, hu]))).processExReq hk none
  · rename_i hu
    have hsame := h.left.dstate_of_ne (by rw [h.dstate]; exact hu)
    refine Ensures.ok (h.goOn (by rw [hsame]; exact h.waiting.front) ?_ fun hfl => ?_)
    · simp [waitsForWb_of_ne hsr]
    · simpa [waitsForFlush, hk, hsame] using hfl

/-- A line that still has sharers was shared before. -/
theorem dstate_of_sharers (h : Arrived f rest x s s' e) (hne : e.getNumSharers ≠ 0) :
    s'.dstate = s.dstate ∧ s.dstate.isOwned = false := by
  have hu : s'.dstate ≠ .uncached := fun hu => hne <| DirectoryEntry.getNumSharers_eq_zero.mpr <| by
    rw [← h.sharer]
    exact h.coherent.uncached.mp hu
  refine ⟨h.left.dstate_of_ne hu, ?_⟩
  by_contra hown
  exact hu (h.left.uncached_of_owned h.waiting.coherent (by simpa using hown))

/-- An upgrade waits for a flush as long as the requester is no sharer, and sharers only get fewer. -/
theorem waitsForFlush_upgrade (h : Arrived f rest x s s' e) (hk : f.msgType = .upgradeReq)
    (hne : e.getNumSharers ≠ 0) (hfl : s.waitsForFlush f = true) : s'.waitsForFlush f = true := by
  obtain ⟨hsame, hno⟩ := h.dstate_of_sharers hne
  have hw : f.waitForData = false := by
    by_contra hw
    simp [waitsForFlush, hw] at hfl
  simp only [waitsForFlush, hk, hw, hno, hsame] at hfl ⊢
  have hs : s.dstate = .shared ∧ s.sharer f.requester = false := by simpa using hfl
  have hs' : s'.sharer f.requester = false := by
    by_contra hne
    have := h.left.sharer_of (y := f.requester) (by simpa using hne)
    rw [hs.2] at this
    cases this
  simp [hs', hs.1]

/-- An `INV_REP` while an `UPGRADE_REQ` waits. -/
theorem invUpgradeReq (h : Arrived f rest x s s' e) (hk : f.msgType = .upgradeReq)
    (hd : s.dstate = .shared ∨ s.dstate = .exclusive) :
    Ensures (s'.resumeAfterInv cfg env x e) (Handled rest) fun _ => True := by
  have hsr : f.msgType ≠ .shReq := by simp [hk]
  have hw : f.waitForData = false := by
    by_contra hw
    have := h.waiting.front.upgradeReq hk (by simpa using hw)
    rcases hd with hd | hd <;> simp [hd] at this
  have hf := h.waiting.forwardingFrom hsr
  have hgo : e.getNumSharers ≠ 0 → Handled rest (s', false) := by
    intro hne
    refine h.goOn ?_ (by simp [waitsForWb_of_ne hsr]) (h.waitsForFlush_upgrade hk hne)
    rw [(h.dstate_of_sharers hne).1]
    exact h.waiting.front
  simp only [State.resumeAfterInv, h.queue, hk]
  split
  · rename_i hone
    split
    · rename_i hreq
      refine (h.turn hw hf (.inr ?_)).processUpgradeReq hk none
      have hr : s'.sharer f.requester = true := by rw [h.sharer]; exact hreq
      have hno : s.dstate.isOwned = false := by
        by_contra hown
        have hu := h.left.uncached_of_owned h.waiting.coherent (by simpa using hown)
        have := h.coherent.uncached.mp hu f.requester
        rw [hr] at this
        cases this
      simp [waitsForFlush, hno, h.left.sharer_of hr]
    · exact Ensures.ok (hgo (by omega))
  · split
    · rename_i hzero
      have hall := DirectoryEntry.getNumSharers_eq_zero.mp hzero
      have hu : s'.dstate = .uncached := h.coherent.uncached.mpr (by rw [h.sharer]; exact hall)
      have hturn := h.turn hw hf (.inl hu)
      have hsame : s'.setEntry { e with dstate := .uncached } = s' := by
        have he : e.dstate = .uncached := by rw [← h.dstate, hu]
        rw [State.setEntry, ← he, ← h.entry]
      rw [hsame]
      exact hturn.processUpgradeReq hk none
    · rename_i hone hzero
      exact Ensures.ok (hgo hzero)

/-- A read that has been granted and has asked a sharer, which has answered. -/
theorem granted (h : Arrived f rest x s s' e) (hk : f.msgType = .shReq) (hw : f.waitForData = false)
    (hx : f.forwardingFrom = some x) : Granted f rest s' ∧ s'.dstate = .shared ∧
      Function.update (s.waitsForWb f) x false = fun _ => false := by
  have hf : f.forwardingFrom.isSome = true := by simp [hx]
  have hno : s.waitsForFlush f = false := by simp [waitsForFlush, hk]
  have hgr : f.granted = some f.requester := by simp [ShmemReq.granted, hf]
  have hsame := h.dstate_of_granted hgr
  have hds := (h.waiting.front.forwarding hf).2 hw
  have hwb : Function.update (s.waitsForWb f) x false = fun _ => false := by
    funext y
    by_contra hne
    obtain ⟨hy, hwb⟩ := update_waitsForWb (by simpa using hne)
    simp only [waitsForWb, hds, hx, DirectoryState.isOwned, Bool.false_and, Bool.false_or] at hwb
    have : x = y := by simpa using (Bool.and_eq_true_iff.mp hwb).2
    exact hy this.symm
  have hc := h.coherent
  rw [hgr, hwb, hno] at hc
  have hgranted : Granted f rest s' :=
    { queue := h.queue
      coherent := hc
      fresh := h.waiting.fresh
      reads := by rw [h.left.reads, h.waiting.reads, hw]; rfl
      waitForData := hw
      kind := .inl ⟨hk, .inl (by rw [hsame, hds])⟩
      forwarding := fun _ => ⟨hk, by rw [hsame, hds]⟩ }
  exact ⟨hgranted, by rw [hsame, hds], hwb⟩

/-- An `INV_REP` while an `SH_REQ` waits. -/
theorem invShReq (h : Arrived f rest x s s' e) (hk : f.msgType = .shReq) :
    Ensures (s'.resumeAfterInv cfg env x e) (Handled rest) fun _ => True := by
  have hfl : s.waitsForFlush f = true → s'.waitsForFlush f = true := by simp [waitsForFlush, hk]
  have hno : s.waitsForFlush f = false := by simp [waitsForFlush, hk]
  simp only [State.resumeAfterInv, h.queue, hk]
  split
  · rename_i hw
    have hsame := h.dstate_of_granted (by simp [ShmemReq.granted, hw])
    refine Ensures.ok (h.goOn (by rw [hsame]; exact h.waiting.front) (fun y hy => ?_) hfl)
    have := (update_waitsForWb hy).2
    simp [waitsForWb, hw] at this
  · rename_i hw
    have hw' : f.waitForData = false := by simpa using hw
    split
    · rename_i hfwd
      have hsame := h.dstate_of_granted (by simp [ShmemReq.granted, hfwd.1])
      have hds := (h.waiting.front.forwarding hfwd.1).2 hw'
      refine Ensures.ok (h.goOn (by rw [hsame]; exact h.waiting.front) (fun y hy => ?_) hfl)
      have := (update_waitsForWb hy).2
      simp only [waitsForWb, hds, hsame, DirectoryState.isOwned, Bool.false_and, Bool.false_or] at this ⊢
      exact this
    · rename_i hfwd
      by_cases hf : f.forwardingFrom.isSome = true
      · have hx : f.forwardingFrom = some x := by
          by_contra hne
          exact hfwd ⟨hf, hne⟩
        obtain ⟨hgranted, hds, -⟩ := h.granted hk hw' hx
        exact hgranted.processShReq hds none
      · have hf' : f.forwardingFrom = none := by simpa using hf
        exact (h.turn hw' hf' (.inr hno)).processShReq hk none

/-- An `INV_REP` while a nullification waits. -/
theorem invNullifyReq (h : Arrived f rest x s s' e) (hk : f.msgType = .nullifyReq) :
    Ensures (s'.resumeAfterInv cfg env x e) (Handled rest) fun _ => True := by
  have hsr : f.msgType ≠ .shReq := by simp [hk]
  have hw := h.waiting.front.nullifyReq hk
  have hf := h.waiting.forwardingFrom hsr
  simp only [State.resumeAfterInv, h.queue, hk]
  split
  · rename_i hu
    exact (h.turn hw hf (.inl (by rw [h.dstate, hu]))).processNullifyReq hk
  · rename_i hu
    have hsame := h.left.dstate_of_ne (by rw [h.dstate]; exact hu)
    refine Ensures.ok (h.goOn (by rw [hsame]; exact h.waiting.front) ?_ fun hfl => ?_)
    · simp [waitsForWb_of_ne hsr]
    · simpa [waitsForFlush, hk, hsame] using hfl

/-- A flush comes when one is waited for, or from the owner. -/
theorem flush_cases (h : Arrived f rest x s s' e)
    (hfl : s.waitsForFlush f = true ∨ s.dstate.isOwned = true) :
    f.waitForData = false ∧ f.forwardingFrom = none := by
  have hgr : f.granted ≠ some f.requester := by
    intro hgr
    -- the line has been granted to the requester, which therefore is its only sharer
    have hc := h.coherent
    rw [hgr] at hc
    have hpend := ((hc.node f.requester).copies_of_pending (by simp [view])).2
    have hs' : s'.sharer f.requester = true := by simpa [view] using hpend
    have hown : s.dstate.isOwned = true := by
      refine hfl.resolve_left fun hfl => ?_
      have hk : f.msgType ≠ .shReq := fun hk => by simp [waitsForFlush, hk] at hfl
      have hw : f.waitForData = false := by
        by_contra hw
        simp [waitsForFlush, hw] at hfl
      rw [h.waiting.granted hk hw] at hgr
      cases hgr
    have := hc.uncached.mp (h.left.uncached_of_owned h.waiting.coherent hown) f.requester
    rw [hs'] at this
    cases this
  unfold ShmemReq.granted at hgr
  split at hgr
  · exact absurd rfl hgr
  · rename_i hnot
    simpa using hnot

/-- A flush leaves the request in turn, unless it is an upgrade that waits for other sharers. -/
theorem flushTurn (h : Arrived f rest x s s' e)
    (hfl : s.waitsForFlush f = true ∨ s.dstate.isOwned = true) (hk : f.msgType ≠ .upgradeReq) :
    Turn f rest s' := by
  obtain ⟨hw, hf⟩ := h.flush_cases hfl
  refine h.turn hw hf ?_
  by_cases hown : s.dstate.isOwned = true
  · exact .inl (h.left.uncached_of_owned h.waiting.coherent hown)
  · exact .inr (by simp [waitsForFlush, hk, hown])

/-- A `FLUSH_REP` and the request at the front. -/
theorem resumeAfterFlush (h : Arrived f rest x s s' e)
    (hfl : s.waitsForFlush f = true ∨ s.dstate.isOwned = true) (d : Option V) :
    Ensures (s'.resumeAfterFlush cfg env d e) (Handled rest) fun _ => True := by
  obtain ⟨hw, hf⟩ := h.flush_cases hfl
  obtain ⟨hme, hmq, hml, hmr⟩ := sendDataToDram_same cfg env d s'
  unfold State.resumeAfterFlush
  rw [h.queue]
  dsimp only
  split
  · rename_i hk
    exact (h.flushTurn hfl (by simp [hk])).processExReq hk (some d)
  · rename_i hk
    exact ((h.flushTurn hfl (by simp [hk])).congr hme hmq hml hmr).processShReq hk (some d)
  · rename_i hk
    split
    · rename_i hzero
      have hall := DirectoryEntry.getNumSharers_eq_zero.mp hzero
      have hu : s'.dstate = .uncached := h.coherent.uncached.mpr (by rw [h.sharer]; exact hall)
      exact (h.turn hw hf (.inl hu)).processUpgradeReq hk (some d)
    · rename_i hne
      have hc : Coherent f.granted (Function.update (s.waitsForWb f) x false) (s.waitsForFlush f)
          { s' with queue := { f with dataBuf := true } :: rest } :=
        h.coherent.congr_entry rfl rfl rfl (fun y => by
          rw [h.queue]
          exact queuedBy_front (f := f) (g := { f with dataBuf := true }) rfl rfl y) rfl
      have hsr : f.msgType ≠ .shReq := by simp [hk]
      refine Ensures.ok (.inr ⟨_, rest, h.waiting.wait (g := { f with dataBuf := true })
        ⟨rfl, rfl, rfl, rfl⟩ hc rfl h.left.reads ?_ ?_ (h.waitsForFlush_upgrade hk hne)⟩)
      · have hd : ({ s' with queue := { f with dataBuf := true } :: rest } : State n V).dstate = s.dstate :=
          (h.dstate_of_sharers hne).1
        rw [hd]
        exact h.waiting.front
      · simp [waitsForWb_of_ne hsr]
  · rename_i hk
    exact ((h.flushTurn hfl (by simp [hk])).congr hme hmq hml hmr).processNullifyReq hk

end Arrived

section Messages

variable {tx : List (LlcMsg V)}

/-- The sharer of a message that gives up a copy. -/
theorem removeSharer_ensures {e : DirectoryEntry n} : Ensures (e.removeSharer x)
    (fun e' => e.sharers x = true ∧ e' = { e with sharers := Function.update e.sharers x false })
    fun _ => True := by
  unfold DirectoryEntry.removeSharer
  split
  · rename_i hx
    exact Ensures.ok ⟨hx, rfl⟩
  · exact Ensures.error trivial

/-- An outcome that leaves the line stable, or answers the request at the front. -/
theorem finish_of_handled {y : Except Fault (Outcome n V)}
    (h : Ensures y (fun r => ∃ rest, Handled rest r) fun _ => True) :
    Ensures (y >>= finish cfg env) Stable fun _ => True :=
  h.bind fun _ hr => finish_ensures hr.choose_spec

/-- A copy comes back while there is no request. -/
theorem Ready.left (h : Ready s) (hq : s.queue = []) (hl : Left x s s')
    (hc : Coherent none (Function.update (fun _ => false) x false) false s') :
    s'.queue = [] ∧ Ready s' := by
  rw [Function.update_eq_self_iff.mpr rfl] at hc
  have hq' : s'.queue = [] := by rw [hl.queue, hq]
  exact ⟨hq', hc, by simp [hq'], by rw [hl.reads, h.reads]⟩

/-- `processInvRepFromL2Cache`. -/
theorem Stable.invRep (h : Stable s) (htx : (s.llc x).tx = .invRep :: tx) :
    Ensures ((s.popTx x tx).processInvRepFromL2Cache cfg env x) (fun r => ∃ rest, Handled rest r)
      fun _ => True := by
  unfold processInvRepFromL2Cache
  have he : (s.popTx x tx).entry = s.entry := rfl
  rw [he]
  cases hse : s.entry with
  | none => exact Ensures.error trivial
  | some e =>
    dsimp only
    split
    · rename_i hd
      refine removeSharer_ensures.bind fun e' he' => ?_
      obtain ⟨hsx, rfl⟩ := he'
      dsimp only
      have hds : s.dstate = .shared ∨ s.dstate = .exclusive := by simpa only [dstate, hse] using hd
      rcases h with ⟨hq, hr⟩ | ⟨f, rest, hw⟩
      · obtain ⟨hl, hc⟩ := left_of_pop ({ e with
          sharers := Function.update e.sharers x false
          forwarder := if e.forwarder = some x then none else e.forwarder }) hr.coherent htx rfl hse hsx rfl rfl
        obtain ⟨hq', hr'⟩ := hr.left hq hl hc
        unfold State.resumeAfterInv
        rw [hq']
        exact Ensures.ok ⟨[], .inl ⟨hq', hr'⟩⟩
      · obtain ⟨hl, hc⟩ := left_of_pop ({ e with
          sharers := Function.update e.sharers x false
          forwarder := if e.forwarder = some x then none else e.forwarder }) hw.coherent htx rfl hse hsx rfl rfl
        have harr : Arrived f rest x s _ _ := ⟨hw, hl, hc, rfl⟩
        refine Ensures.mono (Q := Handled rest) ?_ (fun r hr => ⟨rest, hr⟩) fun _ => id
        cases hk : f.msgType with
        | exReq => exact harr.invExReq hk hds
        | upgradeReq => exact harr.invUpgradeReq hk hds
        | shReq => exact harr.invShReq hk
        | nullifyReq => exact harr.invNullifyReq hk
    · exact Ensures.error trivial

/-- `processFlushRepFromL2Cache`. -/
theorem Stable.flushRep {d : Option V} (h : Stable s) (htx : (s.llc x).tx = .flushRep d :: tx) :
    Ensures ((s.popTx x tx).processFlushRepFromL2Cache cfg env x d) (fun r => ∃ rest, Handled rest r)
      fun _ => True := by
  unfold processFlushRepFromL2Cache
  have he : (s.popTx x tx).entry = s.entry := rfl
  rw [he]
  cases hse : s.entry with
  | none => exact Ensures.error trivial
  | some e =>
    dsimp only
    split
    · refine removeSharer_ensures.bind fun e' he' => ?_
      obtain ⟨hsx, rfl⟩ := he'
      dsimp only
      split
      · exact Ensures.error trivial
      rcases h with ⟨hq, hr⟩ | ⟨f, rest, hw⟩
      · obtain ⟨hl, hc⟩ := left_of_pop ({ e with
          sharers := Function.update e.sharers x false, owner := none, forwarder := none })
            hr.coherent htx rfl hse hsx rfl rfl
        obtain ⟨hq', hr'⟩ := hr.left hq hl hc
        unfold State.resumeAfterFlush
        rw [hq']
        obtain ⟨hme, hmq, hml, hmr⟩ := sendDataToDram_same cfg env d ((s.popTx x tx).setEntry
          (uncacheIfEmpty { e with sharers := Function.update e.sharers x false, owner := none,
                                   forwarder := none }))
        exact Ensures.ok ⟨[], .inl ⟨by rw [hmq, hq'], hr'.congr hme hmq hml hmr⟩⟩
      · obtain ⟨hl, hc⟩ := left_of_pop ({ e with
          sharers := Function.update e.sharers x false, owner := none, forwarder := none })
            hw.coherent htx rfl hse hsx rfl rfl
        have harr : Arrived f rest x s _ _ := ⟨hw, hl, hc, rfl⟩
        have hfl := (hw.coherent.node x).flushRep (by simp [htx, isFlushRep])
        exact (harr.resumeAfterFlush hfl d).mono (fun r hr => ⟨rest, hr⟩) fun _ => id
    · exact Ensures.error trivial

/-- A `WB_REP` is waited for. -/
theorem Waiting.of_wbRep {d : Option V} (h : Waiting f rest s) (htx : (s.llc x).tx = .wbRep d :: tx) :
    s.waitsForWb f x = true := by
  have := (h.coherent.node x).writeBacks
  rw [htx, List.countP_cons_of_pos rfl] at this
  by_contra hne
  have hz : (s.view f.granted (s.waitsForWb f) (s.waitsForFlush f) x).writeBack.toNat = 0 := by
    simpa [view] using hne
  omega

/-- `processWbRepFromL2Cache`. -/
theorem Stable.wbRep {d : Option V} (h : Stable s) (htx : (s.llc x).tx = .wbRep d :: tx) :
    Ensures ((s.popTx x tx).processWbRepFromL2Cache cfg env x d) (fun r => ∃ rest, Handled rest r)
      fun _ => True := by
  unfold processWbRepFromL2Cache
  have he : (s.popTx x tx).entry = s.entry := rfl
  rw [he]
  cases hse : s.entry with
  | none => exact Ensures.error trivial
  | some e =>
    dsimp only
    split
    · rename_i hsx
      have hq : ∀ e', ((s.popTx x tx).setEntry e').queue = s.queue := fun _ => rfl
      rw [hq]
      rcases h with ⟨hqe, -⟩ | ⟨f, rest, hw⟩
      · rw [hqe]
        exact Ensures.error trivial
      · rw [hw.queue]
        dsimp only
        split
        · rename_i hk
          refine Ensures.mono (Q := Handled rest) ?_ (fun r hr => ⟨rest, hr⟩) fun _ => id
          have hsx' : s.sharer x = true := by simpa only [sharer, hse] using hsx
          have hc : Coherent _ _ _ ((s.popTx x tx).setEntry { e with owner := none, dstate := .shared }) :=
            hw.coherent.downgrade htx hsx' rfl (by funext y; simp only [sharer, hse]) rfl rfl rfl
          have hwait := hw.of_wbRep htx
          have hwf : f.waitForData = false := by
            by_contra hne
            simp [waitsForWb, hne] at hwait
          by_cases hf : f.forwardingFrom.isSome = true
          · -- the data was asked for from this cache alone
            have hds := (hw.front.forwarding hf).2 hwf
            have hx : f.forwardingFrom = some x := by
              simp only [waitsForWb, hds, DirectoryState.isOwned, Bool.false_and, Bool.false_or] at hwait
              simpa using (Bool.and_eq_true_iff.mp hwait).2
            have hwb : Function.update (s.waitsForWb f) x false = fun _ => false := by
              funext y
              by_contra hne
              obtain ⟨hy, hwb⟩ := update_waitsForWb (by simpa using hne)
              simp only [waitsForWb, hds, hx, DirectoryState.isOwned, Bool.false_and, Bool.false_or] at hwb
              have : x = y := by simpa using (Bool.and_eq_true_iff.mp hwb).2
              exact hy this.symm
            have hgr : f.granted = some f.requester := by simp [ShmemReq.granted, hf]
            rw [hgr, hwb] at hc
            have hgranted : Granted f rest ((s.popTx x tx).setEntry
                { e with owner := none, dstate := .shared }) :=
              { queue := hw.queue
                coherent := hc
                fresh := hw.fresh
                reads := by
                  have := hw.reads
                  rw [hwf] at this
                  exact this
                waitForData := hwf
                kind := .inl ⟨hk, .inl rfl⟩
                forwarding := fun _ => ⟨hk, rfl⟩ }
            exact hgranted.processShReq rfl (some d)
          · have hf' : f.forwardingFrom = none := by simpa using hf
            rw [ShmemReq.granted_eq_none hwf hf', hw.update_of_owned hsx' hf'] at hc
            exact (hw.turn hc rfl rfl hwf hf').processShReq hk (some d)
        · exact Ensures.error trivial
    · exact Ensures.error trivial

/-- A request of a cache arrives. -/
theorem Stable.enqueueReq {m : LlcMsg V} {k : ReqType} (h : Stable s) (htx : (s.llc x).tx = m :: tx)
    (hk : k ≠ .nullifyReq)
    (hm : (m.isMissReq = true ∧ k ≠ .upgradeReq) ∨ (m.isUpgradeReq = true ∧ k = .upgradeReq)) :
    Ensures ((s.popTx x tx).enqueueReq cfg env k x) (fun r => ∃ rest, Handled rest r) fun _ => True := by
  unfold State.enqueueReq
  dsimp only
  have hfresh : (ShmemReq.new k x).Fresh := ⟨hk, rfl, rfl, rfl, rfl⟩
  rcases h with ⟨hq, hr⟩ | ⟨f, rest, hw⟩
  · have hq' : (s.popTx x tx).queue = [] := hq
    simp only [hq', List.nil_append, List.length_singleton, if_true]
    have hturn : Turn (ShmemReq.new k x) [] { s.popTx x tx with
        queue := [ShmemReq.new k x], arrived := (s.popTx x tx).arrived ++ [x] } :=
      { queue := rfl
        coherent := hr.coherent.enqueue htx hk hm rfl (by rw [hq]; rfl) rfl
        fresh := by simp
        reads := hr.reads
        waitForData := rfl
        forwardingFrom := rfl }
    exact hturn.processReq.mono (fun r hr => ⟨[], hr⟩) fun _ => id
  · have hq' : (s.popTx x tx).queue = f :: rest := hw.queue
    have hlen : ¬ ((s.popTx x tx).queue ++ [ShmemReq.new k x]).length = 1 := by simp [hq']
    rw [if_neg hlen]
    refine Ensures.ok ⟨rest, .inr ⟨f, rest ++ [ShmemReq.new k x], ?_⟩⟩
    exact
      { queue := by rw [hq']; rfl
        coherent := hw.coherent.enqueue htx hk hm rfl rfl rfl
        front := hw.front
        fresh := fun g hg => by
          rcases List.mem_append.mp hg with hg | hg
          · exact hw.fresh g hg
          · rw [List.mem_singleton] at hg
            rw [hg]
            exact hfresh
        reads := hw.reads }

/-- `handleMsgFromL2Cache`. -/
theorem Stable.handleMsg {m : LlcMsg V} (h : Stable s) (htx : (s.llc x).tx = m :: tx) :
    Ensures ((s.popTx x tx).handleMsgFromL2Cache cfg env x m) (fun r => ∃ rest, Handled rest r)
      fun _ => True := by
  unfold handleMsgFromL2Cache
  cases m with
  | exReq => exact h.enqueueReq htx (by simp) (.inl ⟨rfl, by simp⟩)
  | shReq => exact h.enqueueReq htx (by simp) (.inl ⟨rfl, by simp⟩)
  | upgradeReq => exact h.enqueueReq htx (by simp) (.inr ⟨rfl, rfl⟩)
  | invRep => exact h.invRep htx
  | flushRep d => exact h.flushRep htx
  | wbRep d => exact h.wbRep htx

/-- Data from memory is only on its way for a request that waits for it. -/
theorem Stable.processDRAMReply {d : Option V} {ds : List (Option V)} (h : Stable s)
    (hd : s.fromDram = d :: ds) :
    Ensures ({ s with fromDram := ds }.processDRAMReply cfg env d) (fun r => ∃ rest, Handled rest r)
      fun _ => True := by
  have hpos : 0 < s.reads := by simp [reads, hd]
  rcases h with ⟨-, hr⟩ | ⟨f, rest, hw⟩
  · rw [hr.reads] at hpos
    cases hpos
  · have hwait : f.waitForData = true := by
      by_contra hne
      have := hw.reads
      simp only [Bool.not_eq_true] at hne
      rw [hne] at this
      rw [this] at hpos
      cases hpos
    have hreads : ({ s with fromDram := ds } : State n V).reads = 0 := by
      have := hw.reads
      rw [hwait] at this
      simp only [reads, hd, List.length_cons, Bool.toNat_true] at this ⊢
      omega
    have hgr : f.granted = some f.requester := by simp [ShmemReq.granted, hwait]
    have hwb : s.waitsForWb f = fun _ => false := by
      funext y
      simp [waitsForWb, hwait]
    have hfl : s.waitsForFlush f = false := by simp [waitsForFlush, hwait]
    have hc := hw.coherent
    rw [hgr, hwb, hfl] at hc
    generalize ht : ({ s with fromDram := ds } : State n V) = t at hreads ⊢
    have htq : t.queue = f :: rest := by rw [← ht]; exact hw.queue
    have hte : t.entry = s.entry := by rw [← ht]
    have htl : t.llc = s.llc := by rw [← ht]
    unfold State.processDRAMReply
    rw [htq]
    cases hse : t.entry with
    | none => exact Ensures.error trivial
    | some e =>
      dsimp only
      have hds : s.dstate = e.dstate := by
        rw [hte] at hse
        simp only [dstate, hse]
      have hrep : Ensures (dramReplyType f.msgType e.dstate : Except Fault (Option V → DirMsg V))
          (fun rep => f.msgType ≠ .nullifyReq ∧ (∀ d, (rep d).isDataRep = true) ∧
            ∀ d, (rep d).isExRep = true → s.dstate.isOwned = true) fun _ => True := by
        have hup := hw.front.upgradeReq
        rw [hds] at hup
        rw [hds]
        cases hk : f.msgType <;> cases he : e.dstate <;>
          simp [dramReplyType, Ensures, isDataRep, isExRep, DirectoryState.isOwned] <;>
          simp [hk, he, hwait] at hup
      refine hrep.bind fun rep hr => Ensures.ok ⟨rest, ?_⟩
      obtain ⟨hnull, hdata, hex⟩ := hr
      obtain ⟨hme, hmq, hml, hmr⟩ := sendDataToNUCA_same cfg env d (t.sendReply f.requester (rep d))
      refine ⟨⟨f, hmq.trans htq⟩, fun s' he' hl' hr' hq' => ⟨?_, ?_, ?_⟩⟩
      · refine hc.reply hw.queue hnull rfl (hdata d) (hex d) ((he'.trans hme).trans hte) hq' fun y => ?_
        rw [hl', hml, ← htl]
        exact sendMsg_llc f.requester y (rep d) t
      · rw [hq']
        exact hw.fresh
      · rw [hr', hmr]
        exact hreads

/-- The line is nullified while there is no request. -/
theorem Stable.nullify (h : Stable s) (hq : s.queue = []) (requester : Fin n) :
    Ensures (s.nullify requester) (fun r => ∃ rest, Handled rest r) fun _ => True := by
  have hr : Ready s := by
    rcases h with ⟨-, hr⟩ | ⟨f, rest, hw⟩
    · exact hr
    · rw [hw.queue] at hq
      cases hq
  unfold State.nullify
  have hturn : Turn (ShmemReq.new .nullifyReq requester) []
      { s with queue := s.queue ++ [ShmemReq.new .nullifyReq requester] } :=
    { queue := by rw [hq]; rfl
      coherent := hr.coherent.congr_entry rfl rfl rfl (fun y => by
        rw [hq]
        exact queuedBy_nullify rfl y) rfl
      fresh := by simp
      reads := hr.reads
      waitForData := rfl
      forwardingFrom := rfl }
  exact (hturn.processNullifyReq rfl).mono (fun r hr => ⟨[], hr⟩) fun _ => id

/-- A step of one cache. -/
theorem Stable.setLlc (h : Stable s) {r : Llc V × V}
    (hr : ∀ v, NodeInv v (s.llc x) → NodeInv v r.1) : Stable (s.setLlc x r) := by
  rcases h with ⟨hq, hrd⟩ | ⟨f, rest, hw⟩
  · exact .inl ⟨hq, hrd.coherent.setLlc (hr _ (hrd.coherent.node x)), hrd.fresh, hrd.reads⟩
  · exact .inr ⟨f, rest, hw.queue, hw.coherent.setLlc (hr _ (hw.coherent.node x)), hw.front, hw.fresh,
      hw.reads⟩

/-- A step that only moves data in memory. -/
theorem Stable.congr (h : Stable s) (he : s'.entry = s.entry) (hq : s'.queue = s.queue)
    (hl : s'.llc = s.llc) (hr : s'.reads = s.reads) : Stable s' := by
  rcases h with ⟨hq', hrd⟩ | ⟨f, rest, hw⟩
  · exact .inl ⟨by rw [hq, hq'], hrd.congr he hq hl hr⟩
  · exact .inr ⟨f, rest, hw.congr he hq hl hr⟩

end Messages

end

/-- A read that DRAM serves is still not answered. -/
theorem reads_serveDram {s : State n V} {m : DramMsg V} {rest : List (DramMsg V)} (h : s.toDram = m :: rest) :
    ({ s with toDram := rest }.serveDram m).reads = s.reads := by
  cases m with
  | readReq =>
    simp only [serveDram, reads, h, List.length_append, List.length_singleton, List.countP_cons,
      DramMsg.isRead, if_true]
    omega
  | writeReq d => simp [serveDram, reads, h, DramMsg.isRead]

/-- Nothing has happened yet. -/
theorem stable_initial (v : V) : Stable (initial v : State n V) := by
  refine .inl ⟨rfl, ⟨⟨?_, ?_, fun x => ?_⟩, by simp [initial], rfl⟩⟩
  · simp [dstate, sharer, initial]
  · simp [dstate, initial, DirectoryState.isOwned]
  · exact NodeInv.empty

/-- Every step keeps the line stable. -/
theorem stable_step (cfg : Config n) {s : State n V} (h : Stable s) (e : Event n V) :
    Ensures (step cfg s e) Stable fun _ => True := by
  -- what a cache does is the same for every view of the directory
  have hmap : ∀ {x : Fin n} {y : Except Fault (Llc V × V)},
      (∀ v, NodeInv v (s.llc x) → Ensures y (fun r => NodeInv v r.1) fun _ => True) →
      Ensures (y.map fun r => s.setLlc x r) Stable fun _ => True := by
    intro x y hy
    cases y with
    | ok r => exact h.setLlc hy
    | error f => exact trivial
  cases e with
  | access x a => exact hmap fun v hv => hv.access a s.lastWrite
  | evict x =>
    dsimp only [step]
    cases hr : (s.llc x).evict with
    | ok l => exact h.setLlc fun v hv => hv.evict.of_ok hr
    | error f => exact trivial
  | toLlc x =>
    dsimp only [step]
    split
    · exact h
    · rename_i m rx hrx
      exact hmap fun v hv => hv.handleMsg hrx s.lastWrite
  | toDir x env =>
    dsimp only [step]
    split
    · exact h
    · rename_i m tx htx
      exact finish_of_handled (h.handleMsg htx)
  | dram =>
    dsimp only [step]
    split
    · exact h
    · rename_i m rest htd
      refine Ensures.ok (h.congr ?_ ?_ ?_ (reads_serveDram htd)) <;> cases m <;> rfl
  | fromDram env =>
    dsimp only [step]
    split
    · exact h
    · rename_i d rest hfd
      exact finish_of_handled (h.processDRAMReply hfd)
  | nullify x env =>
    dsimp only [step]
    split
    · rename_i hc
      exact finish_of_handled (h.nullify hc.2 x)
    · exact h
  | evictNuca =>
    refine Ensures.ok ?_
    unfold State.evictNuca
    split
    · rename_i block _
      refine h.congr rfl rfl rfl ?_
      cases block.modified <;> simp [reads, DramMsg.isRead]
    · exact h

/-- In every reachable state the request at the front waits, or there is none. -/
theorem stable_of_reachable {cfg : Config n} {v : V} {s : State n V}
    (h : (machine n V cfg).Reachable (initial v) s) : Stable s :=
  h.invariant (stable_initial v) fun _ e _ hs he => (stable_step cfg hs e).of_ok he

/-- Whatever is waited for, the line is coherent. -/
theorem Stable.coherent {s : State n V} (h : Stable s) : ∃ p wb fl, Coherent p wb fl s := by
  rcases h with ⟨-, hr⟩ | ⟨f, rest, hw⟩
  · exact ⟨_, _, _, hr.coherent⟩
  · exact ⟨_, _, _, hw.coherent⟩

namespace Coherent

variable {s : State n V} {p : Option (Fin n)} {wb : Fin n → Bool} {fl : Bool} {x : Fin n}

/-- A cache with a valid copy is a sharer. -/
theorem sharer_of_valid (h : Coherent p wb fl s) (hx : (s.llc x).cstate ≠ .invalid) :
    s.sharer x = true := by
  have := (h.node x).of_held hx
  simpa [view] using this.2.2.2

/-- A cache that may write is the only one with a valid copy. -/
theorem invalid_of_excl (h : Coherent p wb fl s)
    (hx : (s.llc x).cstate = .modified ∨ (s.llc x).cstate = .exclusive) {y : Fin n} (hy : y ≠ x) :
    (s.llc y).cstate = .invalid := by
  have hex : (s.llc x).Excl := by
    rcases hx with hx | hx
    · exact .inr (.inl hx)
    · exact .inl hx
  have hown : s.dstate.isOwned = true := (h.node x).excl hex
  have hsx := h.sharer_of_valid (x := x) (by rcases hx with hx | hx <;> simp [hx])
  by_contra hne
  have hc := h.copies_of_owned hown hsx hy
  simp [Llc.copies, Llc.held, hne] at hc

end Coherent

/-- **Single writer, multiple readers.** In every state that the protocol can reach, a cache that
has the line in `MODIFIED` or `EXCLUSIVE` is the only one with a valid copy, and every
cache with a valid copy is in the sharer set of the directory entry. -/
theorem singleWriter (cfg : Config n) (v : V) (s : State n V)
    (h : (machine n V cfg).Reachable (initial v) s) :
    (∀ x y, y ≠ x → (s.llc x).cstate = .modified ∨ (s.llc x).cstate = .exclusive →
      (s.llc y).cstate = .invalid) ∧
    ∀ x, (s.llc x).cstate ≠ .invalid → ∃ e, s.entry = some e ∧ e.sharers x = true := by
  obtain ⟨p, wb, fl, hc⟩ := (stable_of_reachable h).coherent
  refine ⟨fun x y hy hx => hc.invalid_of_excl hx hy, fun x hx => ?_⟩
  have hsx := hc.sharer_of_valid hx
  unfold sharer at hsx
  split at hsx
  · rename_i e he
    exact ⟨e, he, hsx⟩
  · cases hsx

/-- Two caches share the line, one of them writes, and the other has lost its copy. -/
def upgradeRun : List (Event 2 ℕ) :=
  [.access 0 .read, .toDir 0 ⟨0, false⟩, .dram, .fromDram ⟨0, false⟩, .toLlc 0,
   .access 1 .read, .toDir 1 ⟨0, false⟩, .toLlc 0, .toDir 0 ⟨0, false⟩, .toLlc 1,
   .access 0 (.write 1), .toDir 0 ⟨0, false⟩, .toLlc 1, .toDir 1 ⟨0, false⟩, .toLlc 0]

theorem singleWriter_upgrade :
    (((machine 2 ℕ ⟨.mesif, .fullMap, 2, false, none⟩).final (initial 0) upgradeRun).llc 0).cstate = .modified ∧
    (((machine 2 ℕ ⟨.mesif, .fullMap, 2, false, none⟩).final (initial 0) upgradeRun).llc 1).cstate = .invalid := by
  have hrun : (machine 2 ℕ ⟨.mesif, .fullMap, 2, false, none⟩).Reachable (initial 0)
      ((machine 2 ℕ ⟨.mesif, .fullMap, 2, false, none⟩).final (initial 0) upgradeRun) :=
    ⟨upgradeRun, Machine.run_final _ (by decide +kernel)⟩
  have hmod : (((machine 2 ℕ ⟨.mesif, .fullMap, 2, false, none⟩).final (initial 0) upgradeRun).llc 0).cstate =
      .modified := by decide +kernel
  exact ⟨hmod, (singleWriter _ 0 _ hrun).1 0 1 (by decide) (.inl hmod)⟩

end LifeSim.Directory
