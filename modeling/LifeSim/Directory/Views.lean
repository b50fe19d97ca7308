import LifeSim.Directory.Node

/-!
# How the directory changes its view of a cache

The counterpart of the steps of a cache: what the directory does to one cache, by
sending it a message or by changing what it knows about it, and why the invariant of the
cache survives.
-/

namespace LifeSim.Directory

open LifeSim.Lib DirMsg LlcMsg

variable {V : Type}

namespace Llc

/-- A message of the directory enters the channel. -/
def push (l : Llc V) (m : DirMsg V) : Llc V := { l with rx := l.rx ++ [m] }

@[simp] theorem push_cstate (l : Llc V) (m : DirMsg V) : (l.push m).cstate = l.cstate := rfl
@[simp] theorem push_waiters (l : Llc V) (m : DirMsg V) : (l.push m).waiters = l.waiters := rfl
@[simp] theorem push_rx (l : Llc V) (m : DirMsg V) : (l.push m).rx = l.rx ++ [m] := rfl
@[simp] theorem push_tx (l : Llc V) (m : DirMsg V) : (l.push m).tx = l.tx := rfl
@[simp] theorem push_data (l : Llc V) (m : DirMsg V) : (l.push m).data = l.data := rfl

/-- A new message is at best the last one to find a copy. -/
theorem hot_push_sublist (l : Llc V) (m : DirMsg V) : (l.push m).hot.Sublist (l.hot ++ [m]) := by
  by_cases hc : l.cstate = .invalid
  · simp only [hot, push_cstate, push_rx, if_pos hc, List.dropWhile_append]
    split
    · exact List.Sublist.trans (List.dropWhile_sublist _) (List.sublist_append_right _ _)
    · exact List.Sublist.refl _
  · rw [hot_of_held hc, hot_of_held (l := l.push m) hc]
    exact List.Sublist.refl _

/-- A message that brings no copy finds none where there is none. -/
theorem hot_push_of_copies {l : Llc V} {m : DirMsg V} (h : l.copies = 0) (hm : m.isDataRep = false) :
    (l.push m).hot = [] := by
  unfold copies at h
  refine hot_eq_nil ?_ ?_
  · have : (l.push m).held = l.held := rfl
    omega
  · rw [push_rx, List.countP_append, List.countP_singleton, hm, if_neg Bool.false_ne_true]
    omega

theorem copies_push (l : Llc V) (m : DirMsg V) : (l.push m).copies = l.copies + m.isDataRep.toNat := by
  have : (l.push m).held = l.held := rfl
  simp only [copies, this, push_rx, push_tx, List.countP_append, List.countP_singleton]
  cases m.isDataRep <;> simp
  omega

/-- Asking for a copy does not allow to write. -/
theorem excl_push {l : Llc V} {m : DirMsg V} (hm : m.isRep = false) : (l.push m).Excl ↔ l.Excl := by
  have hkind : m.isExRep = false ∧ m.isUpgradeRep = false := by
    cases m <;> simp_all [isRep, isDataRep, isUpgradeRep, isExRep]
  simp [Excl, hkind]

end Llc

namespace NodeInv

variable {v : View} {l : Llc V}

/-- The waits for a write-back and for a flush may be allowed without being used. -/
theorem weaken (h : NodeInv v l) {wb fl : Bool} (hwb : v.writeBack = true → wb = true)
    (hfl : v.flush = true → fl = true) (hnot : wb = true → fl = false) :
    NodeInv { v with writeBack := wb, flush := fl } l where
  copies := h.copies
  requests := h.requests
  upgrading := h.upgrading
  excl := h.excl
  writeBacks := by
    refine le_trans h.writeBacks ?_
    cases hv : v.writeBack with
    | false => exact Nat.zero_le _
    | true => simp [hwb hv]
  wbReq := h.wbReq
  wbRep := h.wbRep
  flushReq := fun hpos => hfl (h.flushReq hpos)
  flushRep := fun hpos => (h.flushRep hpos).imp_left hfl
  notBoth := hnot
  missReq := h.missReq
  order := h.order
  queuedMiss := h.queuedMiss

/-- About a cache without a copy nothing depends on the state of the line. -/
theorem of_noCopy (h : NodeInv v l) (hc : l.copies = 0) (dstate : DirectoryState) (wb fl : Bool)
    (hwb : l.tx.countP isWbRep ≤ wb.toNat) (hnot : wb = true → fl = false) :
    NodeInv { v with dstate := dstate, writeBack := wb, flush := fl } l := by
  have hhot := Llc.hot_eq_nil_of_copies hc
  have hfl : l.tx.countP isFlushRep = 0 := by
    have hle := Llc.countP_isFlushRep_le l.tx
    unfold Llc.copies at hc
    omega
  exact
    { copies := h.copies
      requests := h.requests
      upgrading := h.upgrading
      excl := fun he => absurd he.copies_pos (by omega)
      writeBacks := by simpa [hhot] using hwb
      wbReq := h.wbReq
      wbRep := h.wbRep
      flushReq := by simp [hhot]
      flushRep := fun hpos => by omega
      notBoth := hnot
      missReq := h.missReq
      order := h.order
      queuedMiss := h.queuedMiss }

/-- A line that is owned restricts its caches least. -/
theorem own (h : NodeInv v l) {dstate : DirectoryState} (hd : dstate.isOwned = true) :
    NodeInv { v with dstate := dstate } l :=
  { h with
    excl := fun _ => hd
    flushRep := fun _ => .inr hd }

/-- No copies, no sharer. -/
theorem copies_of_notSharer (h : NodeInv v l) (hs : v.sharer = false) : l.copies = 0 := by
  have := h.copies
  simp only [hs, Bool.toNat_false] at this
  omega

/-- A sharer to which nothing has been sent yet. -/
theorem copies_of_pending (h : NodeInv v l) (hp : v.pending = true) :
    l.copies = 0 ∧ v.sharer = true := by
  have := h.copies
  have hle := Bool.toNat_le v.sharer
  simp only [hp, Bool.toNat_true] at this
  have hs : v.sharer.toNat = 1 := by omega
  exact ⟨by omega, by simpa using hs⟩

/-- Nothing is asked for and nothing is answered. -/
theorem quiet (h : NodeInv v l) (hwb : v.writeBack = false) :
    l.hot.countP isWbReq = 0 ∧ l.tx.countP isWbRep = 0 := by
  have := h.writeBacks
  simp only [hwb, Bool.toNat_false] at this
  omega

/-- The cache becomes a sharer. -/
theorem grant (h : NodeInv v l) (hs : v.sharer = false) :
    NodeInv { v with sharer := true, pending := true } l := by
  have hc := h.copies_of_notSharer hs
  exact { h with copies := by simp [hc] }

/-- The cache is asked for its copy. -/
theorem pushDemand (h : NodeInv v l) {m : DirMsg V} (hm : m.isRep = false) (hwb : m.isWbReq = false)
    (hfl : m.isFlushReq = true → v.flush = true) : NodeInv v (l.push m) := by
  have hsub := Llc.hot_push_sublist l m
  have hkind : m.isDataRep = false ∧ m.isUpgradeRep = false := by
    cases m <;> simp_all [isRep, isDataRep, isUpgradeRep]
  have hcopies : (l.push m).copies = l.copies := by simp [Llc.copies_push, hkind]
  exact
    { copies := by rw [hcopies]; exact h.copies
      requests := by simpa [hm] using h.requests
      upgrading := h.upgrading
      excl := fun he => h.excl ((Llc.excl_push hm).mp he)
      writeBacks := by
        have hle : (l.push m).hot.countP isWbReq ≤ l.hot.countP isWbReq := by
          simpa [hwb] using hsub.countP_le (p := isWbReq)
        exact le_trans (Nat.add_le_add_right hle _) h.writeBacks
      wbReq := by
        refine List.Pairwise.sublist hsub (List.pairwise_append.mpr ⟨h.wbReq, by simp, ?_⟩)
        intro a _ b hb _
        rw [List.mem_singleton] at hb
        rw [hb]
        exact hkind.2
      wbRep := fun hpos => by
        obtain ⟨hex, hup, hfl⟩ := h.wbRep hpos
        exact ⟨fun he => hex ((Llc.excl_push hm).mp he), by simp [hup, hkind], hfl⟩
      flushReq := fun hpos => by
        by_cases hf : m.isFlushReq = true
        · exact hfl hf
        · have hle : (l.push m).hot.countP isFlushReq ≤ l.hot.countP isFlushReq := by
            simpa [hf] using hsub.countP_le (p := isFlushReq)
          exact h.flushReq (lt_of_lt_of_le hpos hle)
      flushRep := h.flushRep
      notBoth := h.notBoth
      missReq := h.missReq
      order := h.order
      queuedMiss := by rw [hcopies]; exact h.queuedMiss }

/-- The cache is asked to write back; where it has no copy nothing has to wait for the answer. -/
theorem pushWriteBack (h : NodeInv v l) {wb : Bool} (hwb : v.writeBack = false) (hfl : v.flush = false)
    (hwait : wb = true ∨ l.copies = 0) : NodeInv { v with writeBack := wb } (l.push .wbReq) := by
  have hcopies : (l.push .wbReq).copies = l.copies := by simp [Llc.copies_push, isDataRep]
  have hsub := Llc.hot_push_sublist l .wbReq
  obtain ⟨hreq, hrep⟩ := h.quiet hwb
  have hwbs : (l.push .wbReq).hot.countP isWbReq ≤ wb.toNat := by
    rcases hwait with rfl | hc
    · have := hsub.countP_le (p := isWbReq)
      rw [List.countP_append, hreq] at this
      simpa [isWbReq] using this
    · simp [Llc.hot_push_of_copies hc (m := .wbReq) rfl]
  refine
    { copies := by rw [hcopies]; exact h.copies
      requests := by simpa [isRep, isDataRep, isUpgradeRep] using h.requests
      upgrading := h.upgrading
      excl := fun he => h.excl ((Llc.excl_push rfl).mp he)
      writeBacks := by simpa [hrep] using hwbs
      wbReq := ?_
      wbRep := fun hpos => absurd hpos (by simp [hrep])
      flushReq := fun hpos => ?_
      flushRep := h.flushRep
      notBoth := fun _ => hfl
      missReq := h.missReq
      order := h.order
      queuedMiss := by rw [hcopies]; exact h.queuedMiss }
  · refine List.Pairwise.sublist hsub (List.pairwise_append.mpr ⟨h.wbReq, by simp, ?_⟩)
    intro a _ b hb _
    rw [List.mem_singleton] at hb
    rw [hb]
    rfl
  · have hle : (l.push .wbReq).hot.countP isFlushReq ≤ l.hot.countP isFlushReq := by
      simpa [isFlushReq] using hsub.countP_le (p := isFlushReq)
    exact h.flushReq (lt_of_lt_of_le hpos hle)

/-- The one request of a cache. -/
theorem queued_singleton (h : NodeInv v l) {k : ReqType} {ks : List ReqType} (hq : v.queued = k :: ks) :
    ks = [] ∧ l.rx.countP isRep = 0 ∧ l.tx.countP isReq = 0 ∧ l.waiters ≠ [] := by
  have := h.requests
  have hle := Bool.toNat_le (!l.waiters.isEmpty)
  rw [hq, List.length_cons] at this
  refine ⟨List.length_eq_zero_iff.mp (by omega), by omega, by omega, fun hw => ?_⟩
  simp only [hw, List.isEmpty_nil, Bool.not_true, Bool.toNat_false] at this
  omega

/-- The request is answered with data. -/
theorem pushData (h : NodeInv v l) {m : DirMsg V} {k : ReqType} {ks : List ReqType}
    (hq : v.queued = k :: ks) (hp : v.pending = true) (hm : m.isDataRep = true)
    (hex : m.isExRep = true → v.dstate.isOwned = true) (hwb : v.writeBack = false) :
    NodeInv { v with pending := false, queued := ks } (l.push m) := by
  obtain ⟨hcopies, hs⟩ := h.copies_of_pending hp
  obtain ⟨hks, hrep, hreq, hw⟩ := h.queued_singleton hq
  obtain ⟨-, hwbs⟩ := h.quiet hwb
  have hhot : (l.push m).hot.Sublist [m] := by
    have := Llc.hot_push_sublist l m
    rwa [Llc.hot_eq_nil_of_copies hcopies, List.nil_append] at this
  have hkind : m.isRep = true ∧ m.isWbReq = false ∧ m.isFlushReq = false := by
    cases m <;> simp_all [isRep, isDataRep, isWbReq, isFlushReq]
  have hflush : l.tx.countP isFlushRep = 0 := by
    have hle := Llc.countP_isFlushRep_le l.tx
    unfold Llc.copies at hcopies
    omega
  have hexcl : (l.push m).Excl → m.isExRep = true := by
    intro he
    by_contra hne
    have hold : l.Excl := by
      have hup : m.isUpgradeRep = false := by cases m <;> simp_all [isDataRep, isUpgradeRep]
      simpa [Llc.Excl, hne, hup] using he
    exact absurd hold.copies_pos (by omega)
  exact
    { copies := by simp [Llc.copies_push, hcopies, hm, hs]
      requests := by simp [hreq, hks, hrep, hkind, waiting hw]
      upgrading := h.upgrading
      excl := fun he => hex (hexcl he)
      writeBacks := by
        have := hhot.countP_le (p := isWbReq)
        simp only [List.countP_singleton, hkind, Bool.false_eq_true, if_false] at this
        simp only [Llc.push_tx, hwbs]
        omega
      wbReq := (List.pairwise_singleton _ _).sublist hhot
      wbRep := fun hpos => absurd hpos (by simp [hwbs])
      flushReq := fun hpos => by
        have := hhot.countP_le (p := isFlushReq)
        simp only [List.countP_singleton, hkind, Bool.false_eq_true, if_false] at this
        omega
      flushRep := fun hpos => absurd hpos (by simp [hflush])
      notBoth := h.notBoth
      missReq := h.missReq
      order := h.order
      queuedMiss := by simp [hks] }

/-- An upgrade is granted to the only sharer. -/
theorem pushUpgrade (h : NodeInv v l) {k : ReqType} {ks : List ReqType}
    (hq : v.queued = k :: ks) (hown : v.dstate.isOwned = true) (hwb : v.writeBack = false) :
    NodeInv { v with queued := ks } (l.push .upgradeRep) := by
  obtain ⟨hks, hrep, hreq, hw⟩ := h.queued_singleton hq
  obtain ⟨hwbr, hwbs⟩ := h.quiet hwb
  have hsub := Llc.hot_push_sublist l .upgradeRep
  have hcopies : (l.push .upgradeRep).copies = l.copies := by simp [Llc.copies_push, isDataRep]
  exact
    { copies := by rw [hcopies]; exact h.copies
      requests := by simp [hreq, hks, hrep, waiting hw, isRep, isUpgradeRep]
      upgrading := h.upgrading
      excl := fun _ => hown
      writeBacks := by
        have := hsub.countP_le (p := isWbReq)
        rw [List.countP_append, hwbr] at this
        simp only [List.countP_singleton, isWbReq, Bool.false_eq_true, if_false] at this
        simp only [Llc.push_tx, hwbs]
        omega
      wbReq := by
        refine List.Pairwise.sublist hsub (List.pairwise_append.mpr ⟨h.wbReq, by simp, ?_⟩)
        intro a ha b _ hab
        exact absurd hab (List.countP_eq_zero.mp hwbr a ha)
      wbRep := fun hpos => absurd hpos (by simp [hwbs])
      flushReq := fun hpos => by
        have := hsub.countP_le (p := isFlushReq)
        rw [List.countP_append] at this
        simp only [List.countP_singleton, isFlushReq, Bool.false_eq_true, if_false] at this
        exact h.flushReq (by omega)
      flushRep := fun _ => .inr hown
      notBoth := h.notBoth
      missReq := h.missReq
      order := h.order
      queuedMiss := by simp [hks] }

/-- A request of the cache enters the queue. -/
theorem popReq {m : LlcMsg V} {tx : List (LlcMsg V)} (h : NodeInv v l) (htx : l.tx = m :: tx) {k : ReqType}
    (hm : (m.isMissReq = true ∧ k ≠ .upgradeReq) ∨ (m.isUpgradeReq = true ∧ k = .upgradeReq)) :
    NodeInv { v with queued := v.queued ++ [k] } { l with tx := tx } := by
  have hkind : m.isReq = true ∧ m.isLeave = false ∧ m.isWbRep = false ∧ m.isFlushRep = false := by
    cases m <;> simp_all [isReq, isMissReq, isUpgradeReq, isLeave, isInvRep, isFlushRep, isWbRep]
  have hcopies : ({ l with tx := tx } : Llc V).copies = l.copies := by
    simp [Llc.copies, Llc.held, htx, hkind]
  have hreq := h.requests
  have hle := Bool.toNat_le (!l.waiters.isEmpty)
  rw [htx, List.countP_cons_of_pos hkind.1] at hreq
  have hqueued : v.queued = [] := List.length_eq_zero_iff.mp (by omega)
  refine
    { copies := by rw [hcopies]; exact h.copies
      requests := by rw [List.length_append, List.length_singleton]; simp only at hreq ⊢; omega
      upgrading := h.upgrading
      excl := h.excl
      writeBacks := by
        have := h.writeBacks
        rwa [htx, List.countP_cons_of_neg (by simp [hkind])] at this
      wbReq := h.wbReq
      wbRep := fun hpos => ?_
      flushReq := h.flushReq
      flushRep := fun hpos => h.flushRep (by simpa [htx, hkind] using hpos)
      notBoth := h.notBoth
      missReq := fun hpos => h.missReq (by rw [htx, List.countP_cons]; simp only at hpos; omega)
      order := by have := h.order; rw [htx] at this; exact this.of_cons
      queuedMiss := ?_ }
  · have hpos' : 0 < l.tx.countP isWbRep := by simpa [htx, hkind] using hpos
    obtain ⟨hex, hup, hfl⟩ := h.wbRep hpos'
    exact ⟨hex, hup, by simpa [htx, hkind] using hfl⟩
  · rw [hqueued, hcopies]
    rintro ⟨k', hk', hne⟩
    rw [List.nil_append, List.mem_singleton] at hk'
    subst hk'
    rcases hm with ⟨hm, -⟩ | ⟨-, rfl⟩
    · have hc : l.cstate = .invalid := h.missReq (by simp [htx, hm])
      have hnil : tx = [] := by
        have horder := h.order
        rw [htx, List.pairwise_cons] at horder
        cases tx with
        | nil => rfl
        | cons b bs =>
          have := (horder.1 b (List.mem_cons_self ..)).1
          simp [hm] at this
      have hdata : l.rx.countP isDataRep = 0 := data_of_rep (by omega)
      simp [Llc.copies, Llc.held, hc, hdata, htx, hnil, hkind]
    · exact absurd rfl hne

/-- A cache has given up its copy and the directory learns it. -/
theorem popLeave {m : LlcMsg V} {tx : List (LlcMsg V)} (h : NodeInv v l) (htx : l.tx = m :: tx)
    (hm : m.isLeave = true) (dstate : DirectoryState) (fl : Bool) :
    NodeInv { v with dstate := dstate, sharer := false, writeBack := false, flush := fl }
      { l with tx := tx } ∧ ({ l with tx := tx } : Llc V).copies = 0 ∧ v.pending = false := by
  have hkind : m.isReq = false ∧ m.isMissReq = false ∧ m.isWbRep = false := by
    cases m <;> simp_all [isLeave, isInvRep, isFlushRep, isReq, isMissReq, isUpgradeReq, isWbRep]
  have hcopies : l.copies = ({ l with tx := tx } : Llc V).copies + 1 := by
    simp only [Llc.copies, Llc.held, htx, List.countP_cons_of_pos hm]
    omega
  have htokens := h.copies
  have hle := Bool.toNat_le v.sharer
  have hzero : ({ l with tx := tx } : Llc V).copies = 0 := by omega
  have hpend : v.pending.toNat = 0 := by omega
  have hpend' : v.pending = false := by simpa using hpend
  have horder := h.order
  rw [htx, List.pairwise_cons] at horder
  have hwbs : tx.countP isWbRep = 0 :=
    List.countP_eq_zero.mpr fun b hb => by simp [(horder.1 b hb).2 hm]
  refine ⟨?_, hzero, hpend'⟩
  have hhot := Llc.hot_eq_nil_of_copies hzero
  have hflush : tx.countP isFlushRep = 0 := by
    have hle := Llc.countP_isFlushRep_le tx
    unfold Llc.copies at hzero
    simp only at hzero
    omega
  exact
    { copies := by simp [hzero, hpend']
      requests := by simpa [htx, hkind] using h.requests
      upgrading := h.upgrading
      excl := fun he => absurd he.copies_pos (by omega)
      writeBacks := by simp [hhot, hwbs]
      wbReq := by simp [hhot]
      wbRep := fun hpos => absurd hpos (by simp [hwbs])
      flushReq := by simp [hhot]
      flushRep := fun hpos => absurd hpos (by simp [hflush])
      notBoth := by simp
      missReq := fun hpos => h.missReq (by rw [htx, List.countP_cons]; simp only at hpos; omega)
      order := horder.2
      queuedMiss := fun _ => hzero }

/-- A cache has written back and the line is shared now. -/
theorem popWbRep {d : Option V} {tx : List (LlcMsg V)} (h : NodeInv v l) (htx : l.tx = .wbRep d :: tx) :
    NodeInv { v with dstate := .shared, writeBack := false, flush := false } { l with tx := tx } := by
  have hpos : 0 < l.tx.countP isWbRep := by simp [htx, isWbRep]
  obtain ⟨hex, hup, hfl⟩ := h.wbRep hpos
  have hwb : v.writeBack = true := by
    have := h.writeBacks
    by_contra hne
    simp only [Bool.not_eq_true] at hne
    simp only [hne, Bool.toNat_false] at this
    omega
  have htokens := h.writeBacks
  rw [hwb, Bool.toNat_true, htx, List.countP_cons_of_pos rfl] at htokens
  have hcopies : ({ l with tx := tx } : Llc V).copies = l.copies := by
    simp [Llc.copies, Llc.held, htx, isLeave, isInvRep, isFlushRep]
  have hhot : ({ l with tx := tx } : Llc V).hot = l.hot := rfl
  have hflush : tx.countP isFlushRep = 0 := by simpa [htx, isFlushRep] using hfl
  exact
    { copies := by rw [hcopies]; exact h.copies
      requests := by simpa [htx, isReq, isMissReq, isUpgradeReq] using h.requests
      upgrading := h.upgrading
      excl := fun he => absurd he hex
      writeBacks := by
        simp only [hhot, Bool.toNat_false]
        omega
      wbReq := h.wbReq
      wbRep := fun hpos => by
        simp only at hpos
        omega
      flushReq := fun hpos => by
        have := h.flushReq hpos
        rw [h.notBoth hwb] at this
        exact this
      flushRep := fun hpos => absurd hpos (by simp [hflush])
      notBoth := by simp
      missReq := fun hpos => h.missReq (by rw [htx, List.countP_cons]; simp only at hpos; omega)
      order := by have := h.order; rw [htx] at this; exact this.of_cons
      queuedMiss := by rw [hcopies]; exact h.queuedMiss }

end NodeInv

end LifeSim.Directory
