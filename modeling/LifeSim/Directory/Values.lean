import LifeSim.Directory.Swmr

/-!
# The value of the line in one cache

A copy of the line is in a cache, or in a message that brings it or takes it back. All of them have the value of the
latest write. A write makes the copy that it changes the only one, so that no other one can be out of date.

Memory may lag behind as long as the latest value is sure to come back: from a cache that has the line `MODIFIED`, or
gets it for a write, or from a `FLUSH_REP`.
-/

namespace LifeSim.Directory

open LifeSim.Lib DirMsg LlcMsg

variable {V : Type}

/-- `getDataBuf`; no buffer stands for `NULL`. -/
def DirMsg.getDataBuf : DirMsg V → Option (Option V)
  | shRep data => some data
  | exRep data => some data
  | _ => none

/-- `getDataBuf`; no buffer stands for `NULL`. -/
def LlcMsg.getDataBuf : LlcMsg V → Option (Option V)
  | flushRep data => some data
  | wbRep data => some data
  | _ => none

/-- The request is sent for a write. -/
def LlcMsg.forWrite : LlcMsg V → Bool
  | exReq => true
  | upgradeReq => true
  | _ => false

/-- The request is sent for a write. -/
def ReqType.forWrite : ReqType → Bool
  | .exReq => true
  | .upgradeReq => true
  | _ => false

namespace Llc

/-- A write waits for the line. -/
def WriteWaits (l : Llc V) : Prop := ∃ v, Access.write v ∈ l.waiters

/-- The copies of a cache have the latest value, and it asks to write only where a write waits. -/
structure Right (last : V) (queued : List ReqType) (l : Llc V) : Prop where
  copy : l.cstate ≠ .invalid → l.data = some last
  received : ∀ m ∈ l.rx, ∀ d ∈ m.getDataBuf, d = some last
  sent : ∀ m ∈ l.tx, ∀ d ∈ m.getDataBuf, d = some last
  writes : (∃ m ∈ l.tx, m.forWrite = true) ∨ (∃ k ∈ queued, k.forWrite = true) → l.WriteWaits

/-- The latest value comes back from this cache: it has the line `MODIFIED`, has sent it, or gets it for a write. -/
def Dirty (l : Llc V) : Prop :=
  l.cstate = .modified ∨ 0 < l.tx.countP isFlushRep ∨ (0 < l.rx.countP isExRep ∧ l.WriteWaits)

/-- What a cache does with the line: a write is the latest one and keeps the line in the cache. -/
structure Moves (queued : List ReqType) (last : V) (l : Llc V) (r : Llc V × V) : Prop where
  right : r.1.Right r.2 queued
  dirty : l.Dirty → r.1.Dirty
  write : r.2 = last ∨ (l.Excl ∧ r.1.Dirty)

section Steps

variable {l : Llc V} {last : V} {queued : List ReqType}

/-- Nothing has happened yet. -/
theorem right_empty : (empty : Llc V).Right last [] where
  copy := by simp [empty]
  received := by simp [empty]
  sent := by simp [empty]
  writes := by simp [empty]

/-- Where no message brings the line or takes it back, only the copy in the cache matters. -/
theorem Right.write (h : l.Right last queued) (hrx : l.rx.countP isDataRep = 0) (hleave : l.tx.countP isLeave = 0)
    (hwb : l.tx.countP isWbRep = 0) {c : CacheState} {d : Option V} {v : V}
    (hd : c ≠ .invalid → d = some v) : ({ l with cstate := c, data := d } : Llc V).Right v queued where
  copy := hd
  received := fun m hm b hb => by
    have := List.countP_eq_zero.mp hrx m hm
    cases m <;> simp_all [DirMsg.getDataBuf, isDataRep]
  sent := fun m hm b hb => by
    have hl := List.countP_eq_zero.mp hleave m hm
    have hw := List.countP_eq_zero.mp hwb m hm
    cases m <;> simp_all [LlcMsg.getDataBuf, isLeave, isInvRep, isFlushRep, isWbRep]
  writes := h.writes

/-- A cache without a copy has no value. -/
theorem Right.of_noCopy (h : l.Right last queued) (hc : l.copies = 0) (hwb : l.tx.countP isWbRep = 0) (v : V) :
    l.Right v queued := by
  unfold copies held at hc
  have hinv : l.cstate = .invalid := by
    by_contra hne
    rw [if_neg hne] at hc
    omega
  exact h.write (c := l.cstate) (d := l.data) (by omega) (by omega) hwb fun hne => absurd hinv hne

/-- A message goes out, with the latest value or without data. If it is a request for a write, a write waits. -/
theorem Right.send (h : l.Right last queued) {c : CacheState} {d : Option V} {ws : List (Access V)} {m : LlcMsg V}
    (hd : c ≠ .invalid → d = some last) (hm : ∀ b ∈ m.getDataBuf, b = some last)
    (hws : l.WriteWaits ∨ m.forWrite = true → ∃ v, .write v ∈ ws) :
    ({ l with cstate := c, data := d, waiters := ws, tx := l.tx ++ [m] } : Llc V).Right last queued where
  copy := hd
  received := h.received
  sent := fun m' hm' b hb => by
    rcases List.mem_append.mp hm' with hm' | hm'
    · exact h.sent m' hm' b hb
    · rw [List.mem_singleton.mp hm'] at hb
      exact hm b hb
  writes := by
    rintro (⟨m', hm', hw⟩ | hq)
    · rcases List.mem_append.mp hm' with hm' | hm'
      · exact hws (.inl (h.writes (.inl ⟨m', hm', hw⟩)))
      · rw [List.mem_singleton.mp hm'] at hw
        exact hws (.inr hw)
    · exact hws (.inl (h.writes (.inr hq)))

/-- The line leaves the cache. -/
theorem Right.leave (h : l.Right last queued) {m : LlcMsg V} (hm : ∀ b ∈ m.getDataBuf, b = some last)
    (hw : m.forWrite = false) : (l.leave m).Right last queued :=
  h.send (fun hne => absurd rfl hne) hm fun hws => hws.resolve_right (by simp [hw])

/-- The line leaves the cache and is sent back if it is `MODIFIED`. -/
theorem Dirty.leave (h : l.Dirty) {m : LlcMsg V} (hm : l.cstate = .modified → m.isFlushRep = true) :
    (l.leave m).Dirty := by
  rcases h with h | h | h
  · refine .inr (.inl ?_)
    rw [leave_tx, List.countP_append, List.countP_singleton, if_pos (hm h)]
    omega
  · refine .inr (.inl ?_)
    rw [leave_tx, List.countP_append]
    omega
  · exact .inr (.inr h)

/-- A message of the directory that asks for something is taken. -/
theorem Right.pop (h : l.Right last queued) {m : DirMsg V} {rx : List (DirMsg V)} (hrx : l.rx = m :: rx) :
    ({ l with rx := rx } : Llc V).Right last queued :=
  { h with received := fun m' hm' => h.received m' (by rw [hrx]; exact List.mem_cons_of_mem _ hm') }

theorem Dirty.pop (h : l.Dirty) {m : DirMsg V} {rx : List (DirMsg V)} (hrx : l.rx = m :: rx) (hm : m.isRep = false) :
    ({ l with rx := rx } : Llc V).Dirty := by
  have hex : m.isExRep = false := by cases m <;> simp_all [isExRep, isRep, isDataRep]
  rcases h with h | h | ⟨h, hw⟩
  · exact .inl h
  · exact .inr (.inl h)
  · rw [hrx, List.countP_cons_of_neg (by simp [hex])] at h
    exact .inr (.inr ⟨h, hw⟩)

/-- Data that has arrived is the latest. -/
theorem Right.fill (h : l.Right last queued) {c : CacheState} {d : Option V} (hd : d = some last) :
    ({ l with cstate := c, data := d } : Llc V).Right last queued :=
  { h with copy := fun _ => hd }

/-- An access that cannot be done in place leaves the values as they are. -/
theorem Right.initiateDirectoryAccess (h : l.Right last queued) (a : Access V) :
    Ensures (l.initiateDirectoryAccess a) (fun l' => l'.Right last queued ∧ (l.Dirty → l'.Dirty))
      fun _ => True := by
  have hws : ∀ v, .write v ∈ l.waiters → Access.write v ∈ l.waiters ++ [a] := fun v hv => List.mem_append_left _ hv
  have hdirty : l.Dirty → ({ l with waiters := l.waiters ++ [a] } : Llc V).Dirty :=
    Or.imp_right (Or.imp_right (And.imp_right fun ⟨v, hv⟩ => ⟨v, hws v hv⟩))
  have hsent : ∀ {l' : Llc V} {m : LlcMsg V}, l'.Dirty → ({ l' with tx := l'.tx ++ [m] } : Llc V).Dirty :=
    fun {l' m} => Or.imp_right (Or.imp_left fun hpos => by
      change 0 < (l'.tx ++ [m]).countP isFlushRep
      rw [List.countP_append]
      omega)
  unfold Llc.initiateDirectoryAccess
  dsimp only
  split
  · cases a with
    | read =>
      refine Ensures.ok ⟨h.send h.copy (by simp [LlcMsg.getDataBuf]) fun hw => ?_, fun hd => hsent (hdirty hd)⟩
      obtain ⟨v, hv⟩ := hw.resolve_right (by simp [LlcMsg.forWrite])
      exact ⟨v, hws v hv⟩
    | write v =>
      dsimp only
      split
      · rename_i hc
        refine Ensures.ok ⟨h.send (fun _ => h.copy (by simp [hc])) (by simp [LlcMsg.getDataBuf]) fun _ => ⟨v, by simp⟩,
          fun hd => ?_⟩
        rcases hsent (m := .upgradeReq) (hdirty hd) with hm | hrest
        · exact absurd (hc.symm.trans hm) (by simp)
        · exact .inr hrest
      · unfold Llc.processExReqToDirectory
        split
        · exact Ensures.ok ⟨h.send h.copy (by simp [LlcMsg.getDataBuf]) fun _ => ⟨v, by simp⟩,
            fun hd => hsent (hdirty hd)⟩
        · exact Ensures.error trivial
  · refine Ensures.ok ⟨{ h with writes := fun hq => ?_ }, hdirty⟩
    obtain ⟨v, hv⟩ := h.writes hq
    exact ⟨v, hws v hv⟩

/-- The waiters of a line that can be written are woken, and the last write among them is the latest one. -/
theorem wakeWaiters_data (ws : List (Access V)) {l : Llc V} (hc : l.cstate = .exclusive ∨ l.cstate = .modified)
    (hd : l.data = some last) : (wakeWaiters ws l last).1.data = some (wakeWaiters ws l last).2 ∧
      ((wakeWaiters ws l last).2 = last ∨ (wakeWaiters ws l last).1.cstate = .modified) ∧
      ((l.cstate = .modified ∨ ∃ v, .write v ∈ ws) → (wakeWaiters ws l last).1.cstate = .modified) := by
  induction ws generalizing l last with
  | nil => exact ⟨hd, .inl rfl, fun h => h.resolve_right (by simp)⟩
  | cons a ws ih =>
    cases a with
    | read =>
      obtain ⟨hdata, hlast, hmod⟩ := ih hc hd
      exact ⟨hdata, hlast, fun h => hmod (h.imp_right fun ⟨v, hv⟩ => ⟨v, by simpa using hv⟩)⟩
    | write v =>
      have hs : l.cstate ≠ .shared := by rcases hc with hc | hc <;> simp [hc]
      obtain ⟨hdata, -, hmod⟩ := ih (l := { l with cstate := .modified, data := some v }) (.inr rfl) rfl
      rw [wakeWaiters, if_neg hs]
      exact ⟨hdata, .inr (hmod (.inl rfl)), fun _ => hmod (.inl rfl)⟩

end Steps

section Cache

variable {l : Llc V} {last : V} {v : View}

/-- A cache that may write has the only copy of the line, and no message brings it or takes it back. -/
theorem Right.write_of_held (h : l.Right last v.queued) (hn : NodeInv v l) (hc : l.cstate ≠ .invalid) (hex : l.Excl)
    (c : CacheState) {d : Option V} {w : V} (hd : d = some w) :
    ({ l with cstate := c, data := d } : Llc V).Right w v.queued := by
  obtain ⟨hrx, hleave, -, -⟩ := hn.of_held hc
  exact h.write hrx hleave (hn.noWbRep hex) fun _ => hd

/-- A core reads or writes. -/
theorem Right.access (h : l.Right last v.queued) (hn : NodeInv v l) (a : Access V) :
    Ensures (l.access a last) (l.Moves v.queued last) fun _ => True := by
  have hmiss : Ensures ((l.initiateDirectoryAccess a).map fun l' => (l', last)) (l.Moves v.queued last)
      fun _ => True := by
    have := h.initiateDirectoryAccess a
    cases hl : l.initiateDirectoryAccess a with
    | error f => exact trivial
    | ok l' =>
      obtain ⟨hright, hdirty⟩ := this.of_ok hl
      exact ⟨hright, hdirty, .inl rfl⟩
  unfold Llc.access
  cases a with
  | read =>
    cases hc : l.cstate with
    | invalid => exact hmiss
    | sharedUpgrading => exact hmiss
    | shared => exact Ensures.ok ⟨h, id, .inl rfl⟩
    | exclusive => exact Ensures.ok ⟨h, id, .inl rfl⟩
    | modified => exact Ensures.ok ⟨h, id, .inl rfl⟩
  | write w =>
    cases hc : l.cstate with
    | invalid => exact hmiss
    | sharedUpgrading => exact hmiss
    | shared => exact hmiss
    | exclusive =>
      have hex : l.Excl := .inl hc
      exact Ensures.ok ⟨h.write_of_held hn (by simp [hc]) hex .modified rfl, fun _ => .inl rfl,
        .inr ⟨hex, .inl rfl⟩⟩
    | modified =>
      have hex : l.Excl := .inr (.inl hc)
      have hright := h.write_of_held hn (by simp [hc]) hex l.cstate (w := w) rfl
      exact Ensures.ok ⟨by simpa only [hc] using hright, fun _ => .inl rfl, .inr ⟨hex, .inl rfl⟩⟩

/-- The line is evicted. -/
theorem Right.evict {queued : List ReqType} (h : l.Right last queued) :
    Ensures l.evict (fun l' => l.Moves queued last (l', last)) fun _ => True := by
  unfold Llc.evict
  split
  · exact Ensures.ok ⟨h, id, .inl rfl⟩
  · rename_i hc
    have hdata : l.data = some last := h.copy (by simp [hc])
    exact Ensures.ok ⟨h.leave (by simp [LlcMsg.getDataBuf, hdata]) rfl, fun hd => hd.leave fun _ => rfl, .inl rfl⟩
  · rename_i hc
    exact Ensures.ok ⟨h.leave (by simp [LlcMsg.getDataBuf]) rfl, fun hd => hd.leave (by simp [hc]), .inl rfl⟩
  · rename_i hc
    exact Ensures.ok ⟨h.leave (by simp [LlcMsg.getDataBuf]) rfl, fun hd => hd.leave (by simp [hc]), .inl rfl⟩
  · exact Ensures.error trivial

/-- Before a reply no write has been asked for again. -/
theorem Right.answered (h : l.Right last v.queued) (hn : NodeInv v l) {m : DirMsg V} {rx : List (DirMsg V)}
    (hrx : l.rx = m :: rx) (hm : m.isRep = true) :
    ({ l with rx := rx, waiters := [] } : Llc V).Right last v.queued := by
  obtain ⟨hreq, hqueued, -⟩ := hn.of_reply hrx hm
  refine { h.pop hrx with writes := ?_ }
  rintro (⟨m', hm', hw⟩ | ⟨k, hk, -⟩)
  · refine absurd ?_ (List.countP_eq_zero.mp hreq m' hm')
    cases m' <;> simp_all [isReq, isMissReq, isUpgradeReq, LlcMsg.forWrite]
  · rw [hqueued] at hk
    cases hk

/-- A reply that lets the cache write. -/
theorem Right.woken (h : l.Right last v.queued) (hn : NodeInv v l) {m : DirMsg V} {rx : List (DirMsg V)}
    (hrx : l.rx = m :: rx) (hm : m.isRep = true) (hex : l.Excl) (hleave : l.tx.countP isLeave = 0)
    {c : CacheState} {d : Option V} (hc : c = .exclusive ∨ c = .modified) (hd : d = some last)
    (hmod : l.cstate = .modified → c = .modified) :
    l.Moves v.queued last (wakeWaiters l.waiters { l with cstate := c, data := d, rx := rx } last) := by
  obtain ⟨-, -, hrep⟩ := hn.of_reply hrx hm
  obtain ⟨hdata, hlast, hwrite⟩ := wakeWaiters_data l.waiters
    (l := { l with cstate := c, data := d, rx := rx }) hc hd
  obtain ⟨c', d', heq, -, -⟩ := wakeWaiters_owned l.waiters
    (l := { l with cstate := c, data := d, rx := rx }) hc last
  have hdatas := NodeInv.data_of_rep hrep
  rw [heq] at hdata hlast hwrite
  refine ⟨?_, fun hdirty => ?_, hlast.imp_right fun hm => ⟨hex, ?_⟩⟩
  · rw [heq]
    exact (h.answered hn hrx hm).write hdatas hleave (hn.noWbRep hex) fun _ => hdata
  · rw [heq]
    rcases hdirty with hm | hf | ⟨-, hw⟩
    · exact .inl (hwrite (.inl (hmod hm)))
    · exact .inr (.inl hf)
    · exact .inl (hwrite (.inr hw))
  · rw [heq]
    exact .inl hm

/-- A message of the directory is handled. A `WB_REQ` must not find the only up-to-date copy, nor a buffer that is not
filled. -/
theorem Right.handleMsg (h : l.Right last v.queued) (hn : NodeInv v l) {m : DirMsg V} {rx : List (DirMsg V)}
    (hrx : l.rx = m :: rx) (hkeep : m.isWbReq = true → l.cstate ≠ .modified ∧ l.cstate ≠ .sharedUpgrading) :
    Ensures ({ l with rx := rx }.handleMsg m last) (l.Moves v.queued last) fun _ => True := by
  have hmem : m ∈ l.rx := by simp [hrx]
  have hpop := h.pop hrx
  unfold Llc.handleMsg
  cases m with
  | shRep d =>
    dsimp only [Llc.handleReply, Llc.insertCacheBlock]
    split
    · exact Ensures.error trivial
    split
    · rename_i hc
      have hright := (h.answered hn hrx rfl).fill (c := .shared) (h.received _ hmem d rfl)
      obtain ⟨-, -, hrep⟩ := hn.of_reply hrx rfl
      have hex : rx.countP isExRep = 0 := List.countP_eq_zero.mpr fun m hm he =>
        List.countP_eq_zero.mp hrep m hm (by cases m <;> simp_all [isExRep, isRep, isDataRep])
      have hdirty : l.Dirty → 0 < l.tx.countP isFlushRep := by
        rintro (hm | hf | ⟨he, -⟩)
        · exact absurd (hc.symm.trans hm) (by simp)
        · exact hf
        · rw [hrx, List.countP_cons, hex] at he
          simp [isExRep] at he
      refine Ensures.ok ?_
      dsimp only
      rcases wakeWaiters_shared l.waiters (l := { l with cstate := .shared, data := d, rx := rx }) rfl last with
        heq | ⟨w, ws, heq⟩
      · rw [heq]
        exact ⟨hright, fun hd => .inr (.inl (hdirty hd)), .inl rfl⟩
      · rw [heq]
        refine ⟨hright.send (fun _ => hright.copy (by simp)) (by simp [LlcMsg.getDataBuf]) fun _ => ⟨w, by simp⟩,
          fun hd => .inr (.inl ?_), .inl rfl⟩
        have hpos := hdirty hd
        simp only [processUpgradeReqToDirectory, List.countP_append]
        omega
    · exact Ensures.error trivial
  | exRep d =>
    dsimp only [Llc.handleReply, Llc.insertCacheBlock]
    split
    · exact Ensures.error trivial
    split
    · rename_i hc
      have hcopies := hn.copies
      have hle := Bool.toNat_le v.sharer
      have hdata : 0 < l.rx.countP isDataRep := by simp [hrx, isDataRep]
      unfold copies at hcopies
      exact Ensures.ok (h.woken hn hrx rfl (.inr (.inr (.inl (by simp [hrx, isExRep])))) (by omega) (.inl rfl)
        (h.received _ hmem d rfl) fun hm => absurd (hc.symm.trans hm) (by simp))
    · exact Ensures.error trivial
  | upgradeRep =>
    dsimp only [Llc.handleReply, Llc.processUpgradeRep]
    split
    · exact Ensures.error trivial
    split
    · exact Ensures.error trivial
    · rename_i hc
      have hne : l.cstate ≠ .invalid := by simp_all
      obtain ⟨-, hleave, -, -⟩ := hn.of_held hne
      exact Ensures.ok (h.woken hn hrx rfl (.inr (.inr (.inr ⟨hc, by simp [hrx, isUpgradeRep]⟩))) hleave (.inr rfl)
        (h.copy hne) fun _ => rfl)
    · exact Ensures.error trivial
  | invReq =>
    dsimp only [Llc.processInvReq]
    split
    · exact Ensures.ok ⟨hpop, fun hd => hd.pop hrx rfl, .inl rfl⟩
    · exact Ensures.error trivial
    · rename_i hm
      exact Ensures.ok ⟨hpop.leave (by simp [LlcMsg.getDataBuf]) rfl,
        fun hd => (hd.pop hrx rfl).leave fun hm' => absurd hm' hm, .inl rfl⟩
  | flushReq =>
    dsimp only [Llc.processFlushReq]
    split
    · exact Ensures.ok ⟨hpop, fun hd => hd.pop hrx rfl, .inl rfl⟩
    · rename_i hc
      have hdata := h.copy hc
      exact Ensures.ok ⟨hpop.leave (by simp [LlcMsg.getDataBuf, hdata]) rfl,
        fun hd => (hd.pop hrx rfl).leave fun _ => rfl, .inl rfl⟩
  | wbReq =>
    obtain ⟨hm, hu⟩ := hkeep rfl
    dsimp only [Llc.processWbReq]
    split
    · exact Ensures.ok ⟨hpop, fun hd => hd.pop hrx rfl, .inl rfl⟩
    · rename_i hc
      exact absurd hc hu
    · rename_i hc _
      have hdata := h.copy hc
      refine Ensures.ok ⟨hpop.send (fun _ => hdata) (by simp [LlcMsg.getDataBuf, hdata]) fun hw => ?_, fun hd => ?_,
        .inl rfl⟩
      · exact hw.resolve_right (by simp [LlcMsg.forWrite])
      · rcases hd.pop hrx rfl with hd | hd | hd
        · exact absurd hd hm
        · refine .inr (.inl ?_)
          simp only [List.countP_append] at hd ⊢
          omega
        · exact .inr (.inr hd)

end Cache

section Directory

variable {l : Llc V} {last : V} {queued : List ReqType}

/-- The directory sends a message. Its data, if it has any, is the latest. -/
theorem Right.push (h : l.Right last queued) {m : DirMsg V} (hm : ∀ d ∈ m.getDataBuf, d = some last) :
    (l.push m).Right last queued where
  copy := h.copy
  received := fun m' hm' => by
    rcases List.mem_append.mp hm' with hm' | hm'
    · exact h.received m' hm'
    · rw [List.mem_singleton.mp hm']
      exact hm
  sent := h.sent
  writes := h.writes

theorem Dirty.push (h : l.Dirty) (m : DirMsg V) : (l.push m).Dirty :=
  h.imp_right (Or.imp_right (And.imp_left fun hpos => by
    rw [push_rx, List.countP_append]
    omega))

/-- The line is given to a cache for a write. -/
theorem dirty_push {d : Option V} (hw : l.WriteWaits) : (l.push (.exRep d)).Dirty :=
  .inr (.inr ⟨by simp [isExRep], hw⟩)

/-- A message of the cache is taken, and may become a request in the queue. -/
theorem Right.popTx (h : l.Right last queued) {m : LlcMsg V} {tx : List (LlcMsg V)} (htx : l.tx = m :: tx)
    {queued' : List ReqType} (hq : ∀ k ∈ queued', k ∈ queued ∨ (k.forWrite = true → m.forWrite = true)) :
    ({ l with tx := tx } : Llc V).Right last queued' where
  copy := h.copy
  received := h.received
  sent := fun m' hm' => h.sent m' (by rw [htx]; exact List.mem_cons_of_mem _ hm')
  writes := by
    have hm : m ∈ l.tx := by simp [htx]
    rintro (⟨m', hm', hw⟩ | ⟨k, hk, hw⟩)
    · exact h.writes (.inl ⟨m', by rw [htx]; exact List.mem_cons_of_mem _ hm', hw⟩)
    · rcases hq k hk with hk | hk
      · exact h.writes (.inr ⟨k, hk, hw⟩)
      · exact h.writes (.inl ⟨m, hm, hk hw⟩)

theorem Dirty.popTx (h : l.Dirty) {m : LlcMsg V} {tx : List (LlcMsg V)} (htx : l.tx = m :: tx)
    (hm : m.isFlushRep = false) : ({ l with tx := tx } : Llc V).Dirty :=
  h.imp_right (Or.imp_left fun hpos => by
    rwa [htx, List.countP_cons_of_neg (by simp [hm])] at hpos)

/-- Fewer requests are in the queue. -/
theorem Right.mono (h : l.Right last queued) {queued' : List ReqType} (hq : ∀ k ∈ queued', k ∈ queued) :
    l.Right last queued' :=
  { h with writes := fun hw => h.writes (hw.imp_right fun ⟨k, hk, hw'⟩ => ⟨k, hq k hk, hw'⟩) }

/-- A cache without a copy has nothing that could come back. -/
theorem not_dirty_of_copies (h : l.copies = 0) : ¬ l.Dirty := by
  have hle := countP_isExRep_le l
  have hfl := countP_isFlushRep_le l.tx
  unfold copies held at h
  rintro (hm | hf | ⟨he, -⟩)
  · rw [if_neg (by simp [hm])] at h
    omega
  · omega
  · omega

/-- Nothing comes back from a cache that may not write and has not been asked to flush. -/
theorem not_dirty_of_shared {v : View} (hn : NodeInv v l) (hd : v.dstate.isOwned = false) (hfl : v.flush = false) :
    ¬ l.Dirty := by
  have hex : ¬ l.Excl := fun he => by
    rw [hn.excl he] at hd
    cases hd
  rintro (hm | hf | ⟨he, -⟩)
  · exact hex (.inr (.inl hm))
  · rcases hn.flushRep hf with hf' | hown
    · rw [hfl] at hf'
      cases hf'
    · rw [hown] at hd
      cases hd
  · exact hex (.inr (.inr (.inl he)))

end Directory

end Llc

end LifeSim.Directory
