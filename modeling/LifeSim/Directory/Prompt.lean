import LifeSim.Directory.Node

/-!
# What a last-level cache owes the directory

The counterpart of the invariant of a cache. That one bounds what the cache may do from above; this one says
that nothing gets lost: a copy the directory waits for is given up by a message that is under way or
still finds the copy when it arrives, an upgrade is granted to a cache that upgrades, and a line that the
directory has given away for writing is written.
-/

namespace LifeSim.Directory

open LifeSim.Lib DirMsg LlcMsg

variable {V : Type}

/-- The message takes the copy away. -/
def DirMsg.isDemand (m : DirMsg V) : Bool := m.isInvReq || m.isFlushReq

/-- The message brings a copy that must not be written. -/
def DirMsg.isShRep : DirMsg V → Bool
  | shRep _ => true
  | _ => false

/-- The type under which the directory queues the message. -/
def LlcMsg.reqType : LlcMsg V → Option ReqType
  | shReq => some .shReq
  | exReq => some .exReq
  | upgradeReq => some .upgradeReq
  | _ => none

/-- The requests of the cache that are on their way or in the queue. -/
def Llc.asked (queued : List ReqType) (l : Llc V) : List ReqType :=
  l.tx.filterMap LlcMsg.reqType ++ queued

/-- Nothing that the directory waits for is lost: a copy, if `leave`, and a write-back, if `wb`. -/
structure Prompt (dstate : DirectoryState) (queued : List ReqType) (leave wb : Bool) (l : Llc V) :
    Prop where
  leaves : leave = true → 0 < l.tx.countP isLeave + l.hot.countP isDemand
  writesBack : wb = true → 0 < l.tx.countP isLeave + l.tx.countP isWbRep + l.hot.countP isWbReq
  invReq : 0 < l.hot.countP isInvReq → leave = true ∧ dstate = .shared
  flushReq : 0 < l.hot.countP isFlushReq → leave = true
  upgradeRep : 0 < l.rx.countP isUpgradeRep →
    l.cstate = .sharedUpgrading ∧ l.rx.head? = some .upgradeRep
  upgrading : .upgradeReq ∈ l.asked queued → l.cstate = .invalid ∨ l.cstate = .sharedUpgrading
  /-- A cache that upgrades loses its copy to the request at the front only. -/
  lost : .upgradeReq ∈ l.asked queued → 0 < l.tx.countP isLeave → leave = true
  write : .upgradeReq ∈ l.asked queued ∨ .exReq ∈ l.asked queued → ∃ v, .write v ∈ l.waiters
  /-- The copy of a `MODIFIED` line is written, or has been written back. -/
  modified : dstate = .modified → l.cstate = .invalid ∨ l.cstate = .modified ∨
    (l.cstate = .sharedUpgrading ∧ 0 < l.rx.countP isUpgradeRep) ∨ 0 < l.tx.countP isWbRep
  exRep : dstate = .modified → 0 < l.rx.countP isDataRep →
    0 < l.rx.countP isExRep ∧ ∃ v, .write v ∈ l.waiters
  invRep : dstate = .modified → 0 < l.tx.countP isInvRep → 0 < l.tx.countP isWbRep
  read : .shReq ∈ l.asked queued → l.waiters.head? = some .read
  shRep : 0 < l.rx.countP isShRep → l.waiters.head? = some .read

namespace Prompt

variable {v : View} {leave wb : Bool} {l : Llc V}

/-- Nothing has happened yet. -/
theorem empty {dstate : DirectoryState} : Prompt dstate [] false false (Llc.empty : Llc V) where
  leaves := by simp
  writesBack := by simp
  invReq := by simp [Llc.hot, Llc.empty]
  flushReq := by simp [Llc.hot, Llc.empty]
  upgradeRep := by simp [Llc.empty]
  upgrading := by simp [Llc.asked, Llc.empty]
  lost := by simp [Llc.empty]
  write := by simp [Llc.asked, Llc.empty]
  modified := by simp [Llc.empty]
  exRep := by simp [Llc.empty]
  invRep := by simp [Llc.empty]
  read := by simp [Llc.asked, Llc.empty]
  shRep := by simp [Llc.empty]

/-- A copy that must not be written is a copy. -/
theorem countP_isShRep_le (ms : List (DirMsg V)) : ms.countP isShRep ≤ ms.countP isDataRep :=
  List.countP_mono_left fun m _ => by cases m <;> simp [isShRep, isDataRep]

/-- Without a request there is none for the line. -/
theorem asked_eq_nil {queued : List ReqType} (hr : l.tx.countP isReq = 0) (hq : queued = []) :
    l.asked queued = [] := by
  rw [Llc.asked, hq, List.append_nil, List.filterMap_eq_nil_iff]
  intro m hm
  have := List.countP_eq_zero.mp hr m hm
  cases m <;> simp_all [reqType, isReq, isMissReq, isUpgradeReq]

/-- An upgrade is only granted to a cache that upgrades, as the next message that it gets. -/
theorem noUpgradeRep {dstate : DirectoryState} {queued : List ReqType}
    (h : Prompt dstate queued leave wb l)
    (hne : l.cstate ≠ .sharedUpgrading ∨ ∃ m, m.isUpgradeRep = false ∧ l.rx.head? = some m) :
    l.rx.countP isUpgradeRep = 0 := by
  by_contra hpos
  obtain ⟨hc, hhead⟩ := h.upgradeRep (by omega)
  rcases hne with hne | ⟨m, hm, hm'⟩
  · exact hne hc
  · rw [hhead] at hm'
    cases hm'
    cases hm

variable {dstate : DirectoryState} {queued : List ReqType}

/-- Where nobody upgrades, none has been asked for. -/
theorem notUpgrading (h : Prompt dstate queued leave wb l) (hc : l.cstate ≠ .invalid)
    (hc' : l.cstate ≠ .sharedUpgrading) : .upgradeReq ∉ l.asked queued := fun hup => by
  rcases h.upgrading hup with hu | hu
  · exact hc hu
  · exact hc' hu

/-- The line leaves the cache. -/
theorem giveUp {m : LlcMsg V} (hi : NodeInv v l) (hc : l.cstate ≠ .invalid) (hm : m.isLeave = true)
    (hup : l.rx.countP isUpgradeRep = 0)
    (hwrite : .upgradeReq ∈ l.asked v.queued ∨ .exReq ∈ l.asked v.queued → ∃ w, .write w ∈ l.waiters)
    (hread : .shReq ∈ l.asked v.queued → l.waiters.head? = some .read)
    (hlost : .upgradeReq ∈ l.asked v.queued → leave = true)
    (hinv : m.isInvRep = true → v.dstate = .modified → 0 < l.tx.countP isWbRep) :
    Prompt v.dstate v.queued leave wb (l.leave m) := by
  obtain ⟨hdata, hleave, -, -⟩ := hi.of_held hc
  have hhot : (l.leave m).hot = [] := Llc.hot_eq_nil (by simp [Llc.held]) hdata
  have hasked : (l.leave m).asked v.queued = l.asked v.queued := by
    have : m.reqType = none := by cases m <;> simp_all [isLeave, isInvRep, isFlushRep, reqType]
    simp [Llc.asked, this]
  have hwb : m.isWbRep = false := by cases m <;> simp_all [isLeave, isInvRep, isFlushRep, isWbRep]
  have hnone : l.tx.countP isInvRep = 0 := by
    have hle : l.tx.countP isInvRep ≤ l.tx.countP isLeave :=
      List.countP_mono_left fun a _ ha => by simp [isLeave, ha]
    omega
  exact
    { leaves := fun _ => by simp [hm]
      writesBack := fun _ => by simp [hm]
      invReq := by simp [hhot]
      flushReq := by simp [hhot]
      upgradeRep := fun hpos => by simp only [Llc.leave_rx] at hpos; omega
      upgrading := fun _ => .inl rfl
      lost := fun hu _ => hlost (hasked ▸ hu)
      write := by rw [hasked]; exact hwrite
      modified := fun _ => .inl rfl
      exRep := fun _ hpos => by simp only [Llc.leave_rx] at hpos; omega
      invRep := fun hd hpos => by
        rw [Llc.leave_tx, List.countP_append, List.countP_singleton, hnone] at hpos
        simp only [Llc.leave_tx, List.countP_append, List.countP_singleton, hwb]
        exact hinv (by by_contra hne; simp [hne] at hpos) hd
      read := by rw [hasked]; exact hread
      shRep := fun hpos => by
        have := countP_isShRep_le l.rx
        simp only [Llc.leave_rx] at hpos
        omega }

/-- The line is evicted. -/
theorem evict (h : Prompt v.dstate v.queued leave wb l) (hi : NodeInv v l) (hne : l.cstate ≠ .sharedUpgrading) :
    Ensures l.evict (Prompt v.dstate v.queued leave wb) fun _ => False := by
  unfold Llc.evict
  split
  · exact Ensures.ok h
  · rename_i hc
    exact Ensures.ok (giveUp hi (by simp [hc]) rfl (h.noUpgradeRep (.inl (by simp [hc]))) h.write h.read
      (fun hu => absurd hu (h.notUpgrading (by simp [hc]) (by simp [hc]))) (by simp [isInvRep]))
  · rename_i hc
    exact Ensures.ok (giveUp hi (by simp [hc]) rfl (h.noUpgradeRep (.inl (by simp [hc]))) h.write h.read
      (fun hu => absurd hu (h.notUpgrading (by simp [hc]) (by simp [hc])))
      fun _ hd => by simpa [hc] using h.modified hd)
  · rename_i hc
    exact Ensures.ok (giveUp hi (by simp [hc]) rfl (h.noUpgradeRep (.inl (by simp [hc]))) h.write h.read
      (fun hu => absurd hu (h.notUpgrading (by simp [hc]) (by simp [hc])))
      fun _ hd => by simpa [hc] using h.modified hd)
  · rename_i hc
    exact absurd hc hne

/-- A message that finds no copy is dropped. -/
theorem drop {m : DirMsg V} {rx : List (DirMsg V)} (h : Prompt dstate queued leave wb l)
    (hrx : l.rx = m :: rx) (hm : m.isRep = false) (hc : l.cstate = .invalid) :
    Prompt dstate queued leave wb { l with rx := rx } := by
  have hkind : m.isDataRep = false ∧ m.isExRep = false ∧ m.isUpgradeRep = false ∧ m.isShRep = false := by
    cases m <;> simp_all [isRep, isDataRep, isUpgradeRep, isExRep, isShRep]
  have hhot : ({ l with rx := rx } : Llc V).hot = l.hot := by simp [Llc.hot, hc, hrx, hkind]
  have hup : rx.countP isUpgradeRep = 0 := by
    have := h.noUpgradeRep (.inl (by simp [hc]))
    rw [hrx, List.countP_cons] at this
    omega
  exact
    { leaves := by rw [hhot]; exact h.leaves
      writesBack := by rw [hhot]; exact h.writesBack
      invReq := by rw [hhot]; exact h.invReq
      flushReq := by rw [hhot]; exact h.flushReq
      upgradeRep := fun hpos => by simp only at hpos; omega
      upgrading := h.upgrading
      lost := h.lost
      write := h.write
      modified := fun _ => .inl hc
      exRep := by simpa [hrx, hkind] using h.exRep
      invRep := h.invRep
      read := h.read
      shRep := by simpa [hrx, hkind] using h.shRep }

/-- A copy is taken away. -/
theorem demand {m : DirMsg V} {r : LlcMsg V} {rx : List (DirMsg V)}
    (h : Prompt v.dstate v.queued leave wb l) (hi : NodeInv v l) (hrx : l.rx = m :: rx)
    (hm : (m = .invReq ∧ r = .invRep) ∨ (m = .flushReq ∧ r.isFlushRep = true))
    (hc : l.cstate ≠ .invalid) :
    Prompt v.dstate v.queued leave wb (Llc.leave { l with rx := rx } r) := by
  have hhot := Llc.hot_of_held hc
  have hlv : leave = true := by
    rcases hm with ⟨rfl, -⟩ | ⟨rfl, -⟩
    · exact (h.invReq (by simp [hhot, hrx, isInvReq])).1
    · exact h.flushReq (by simp [hhot, hrx, isFlushReq])
  have hkind : m.isRep = false ∧ m.isUpgradeRep = false ∧ r.isLeave = true := by
    rcases hm with ⟨rfl, rfl⟩ | ⟨rfl, hr⟩
    · exact ⟨rfl, rfl, rfl⟩
    · exact ⟨rfl, rfl, by simp [isLeave, hr]⟩
  have hup : rx.countP isUpgradeRep = 0 := by
    have := h.noUpgradeRep (.inr ⟨m, hkind.2.1, by simp [hrx]⟩)
    rw [hrx, List.countP_cons] at this
    omega
  refine giveUp (hi.popDemand hrx hkind.1) hc hkind.2.2 hup h.write h.read (fun _ => hlv) fun hr hd => ?_
  rcases hm with ⟨rfl, -⟩ | ⟨-, hr'⟩
  · -- a `MODIFIED` line is not invalidated
    have := (h.invReq (by simp [hhot, hrx, isInvReq])).2
    rw [hd] at this
    cases this
  · cases r <;> simp [isInvRep, isFlushRep] at hr hr'

/-- A write-back is answered. -/
theorem answerWriteBack {rx : List (DirMsg V)} {c : CacheState} {d : Option V}
    (h : Prompt v.dstate v.queued leave wb l) (hi : NodeInv v l) (hrx : l.rx = .wbReq :: rx)
    (hc : l.cstate ≠ .invalid)
    (hc' : c = .shared ∧ l.cstate ≠ .sharedUpgrading ∨ c = .sharedUpgrading ∧ l.cstate = .sharedUpgrading) :
    Prompt v.dstate v.queued leave wb { l with cstate := c, rx := rx, tx := l.tx ++ [.wbRep d] } := by
  obtain ⟨hdata, hleave, -, -⟩ := hi.of_held hc
  have hne : c ≠ .invalid := by rcases hc' with ⟨rfl, -⟩ | ⟨rfl, -⟩ <;> simp
  have hhot : l.hot = .wbReq :: rx := by rw [Llc.hot_of_held hc, hrx]
  have hhot' : ({ l with cstate := c, rx := rx, tx := l.tx ++ [.wbRep d] } : Llc V).hot = rx :=
    Llc.hot_of_held hne
  have hasked : ({ l with cstate := c, rx := rx, tx := l.tx ++ [.wbRep d] } : Llc V).asked v.queued =
      l.asked v.queued := by
    simp [Llc.asked, reqType]
  have hup : rx.countP isUpgradeRep = 0 := by
    have := h.noUpgradeRep (.inr ⟨.wbReq, rfl, by simp [hrx]⟩)
    rw [hrx, List.countP_cons] at this
    omega
  exact
    { leaves := fun hl => by
        have := h.leaves hl
        rw [hhot, List.countP_cons] at this
        rw [hhot', List.countP_append]
        simp only [isDemand, isInvReq, isFlushReq, Bool.or_self, Bool.false_eq_true, if_false] at this
        omega
      writesBack := fun _ => by simp [isWbRep]
      invReq := fun hpos => h.invReq (by rw [hhot, List.countP_cons, hhot'] at *; omega)
      flushReq := fun hpos => h.flushReq (by rw [hhot, List.countP_cons, hhot'] at *; omega)
      upgradeRep := fun hpos => by simp only at hpos; omega
      upgrading := fun hu => by
        rw [hasked] at hu
        rcases hc' with ⟨-, hc'⟩ | ⟨hc', -⟩
        · exact absurd hu (h.notUpgrading hc hc')
        · exact .inr hc'
      lost := fun hu hpos => by simp [isLeave, isInvRep, isFlushRep, hleave] at hpos
      write := by rw [hasked]; exact h.write
      modified := fun _ => .inr (.inr (.inr (by simp [isWbRep])))
      exRep := fun _ hpos => by
        rw [hrx, List.countP_cons] at hdata
        simp only at hpos
        omega
      invRep := fun _ _ => by simp [isWbRep]
      read := by rw [hasked]; exact h.read
      shRep := fun hpos => by
        have := countP_isShRep_le rx
        rw [hrx, List.countP_cons] at hdata
        simp only at hpos
        omega }

/-- A write in place. -/
theorem writeInPlace (h : Prompt dstate queued leave wb l)
    (hc : l.cstate = .exclusive ∨ l.cstate = .modified) (d : Option V) :
    Prompt dstate queued leave wb { l with cstate := .modified, data := d } := by
  have hne : l.cstate ≠ .invalid ∧ l.cstate ≠ .sharedUpgrading := by rcases hc with hc | hc <;> simp [hc]
  have hhot : ({ l with cstate := .modified, data := d } : Llc V).hot = l.hot := by
    rw [Llc.hot_of_held hne.1, Llc.hot_of_held (by simp)]
  have hup := h.noUpgradeRep (.inl hne.2)
  exact
    { leaves := by rw [hhot]; exact h.leaves
      writesBack := by rw [hhot]; exact h.writesBack
      invReq := by rw [hhot]; exact h.invReq
      flushReq := by rw [hhot]; exact h.flushReq
      upgradeRep := fun hpos => by simp only at hpos; omega
      upgrading := fun hu => absurd hu (h.notUpgrading hne.1 hne.2)
      lost := h.lost
      write := h.write
      modified := fun _ => .inr (.inl rfl)
      exRep := h.exRep
      invRep := h.invRep
      read := h.read
      shRep := h.shRep }

/-- One more access waits. -/
theorem addWaiter (h : Prompt dstate queued leave wb l) (a : Access V) :
    Prompt dstate queued leave wb { l with waiters := l.waiters ++ [a] } :=
  { h with
    write := fun hw => (h.write hw).imp fun _ hv => List.mem_append_left _ hv
    exRep := fun hd hpos => (h.exRep hd hpos).imp_right fun hw =>
      hw.imp fun _ hv => List.mem_append_left _ hv
    read := fun hr => by simp [h.read hr]
    shRep := fun hpos => by simp [h.shRep hpos] }

/-- A request is sent, an upgrade only by a cache that has a copy. -/
theorem send {m : LlcMsg V} {c : CacheState} {k : ReqType} {ws : List (Access V)}
    (h : Prompt v.dstate v.queued leave wb l) (hi : NodeInv v l) (hw : l.waiters = [])
    (hk : m.reqType = some k)
    (hws : (k = .shReq ∧ ws.head? = some .read) ∨ (k ≠ .shReq ∧ ∃ w, .write w ∈ ws))
    (hc : (k ≠ .upgradeReq ∧ c = l.cstate) ∨ (l.cstate = .shared ∧ c = .sharedUpgrading)) :
    Prompt v.dstate v.queued leave wb { l with cstate := c, waiters := ws, tx := l.tx ++ [m] } := by
  have hreq := hi.requests
  simp only [hw, List.isEmpty_nil, Bool.not_true, Bool.toNat_false] at hreq
  have hasked : l.asked v.queued = [] := asked_eq_nil (by omega) (List.length_eq_zero_iff.mp (by omega))
  have hasked' : ∀ k', k' ∈ ({ l with cstate := c, waiters := ws, tx := l.tx ++ [m] } : Llc V).asked
      v.queued → k' = k := by
    intro k' hk'
    rw [Llc.asked, List.append_eq_nil_iff] at hasked
    simpa [Llc.asked, hasked, hk] using hk'
  have hinv : c = .invalid ↔ l.cstate = .invalid := by
    rcases hc with ⟨-, rfl⟩ | ⟨hc, rfl⟩
    · rfl
    · simp [hc]
  have hhot : ({ l with cstate := c, waiters := ws, tx := l.tx ++ [m] } : Llc V).hot = l.hot := by
    simp only [Llc.hot, hinv]
  have hkind : m.isLeave = false ∧ m.isWbRep = false ∧ m.isInvRep = false := by
    cases m <;> simp_all [reqType, isLeave, isInvRep, isFlushRep, isWbRep]
  have hrep : l.rx.countP isRep = 0 := by omega
  have hup := NodeInv.upgrade_of_rep hrep
  have hdata := NodeInv.data_of_rep hrep
  exact
    { leaves := fun hl => by
        rw [hhot]
        simpa [hkind] using h.leaves hl
      writesBack := fun hl => by
        rw [hhot]
        simpa [hkind] using h.writesBack hl
      invReq := by rw [hhot]; exact h.invReq
      flushReq := by rw [hhot]; exact h.flushReq
      upgradeRep := fun hpos => by simp only at hpos; omega
      upgrading := fun hu => by
        rcases hc with ⟨hne, -⟩ | ⟨-, hc⟩
        · exact absurd (hasked' _ hu).symm hne
        · exact .inr hc
      lost := fun hu hpos => by
        rcases hc with ⟨hne, -⟩ | ⟨hc, -⟩
        · exact absurd (hasked' _ hu).symm hne
        · have := (hi.of_held (by simp [hc])).2.1
          simp [hkind, this] at hpos
      write := fun hu => by
        rcases hws with ⟨hs, -⟩ | ⟨-, hw⟩
        · rcases hu with hu | hu <;> rw [hs] at hasked' <;> cases hasked' _ hu
        · exact hw
      modified := fun hd => by
        rcases hc with ⟨-, rfl⟩ | ⟨hc, -⟩
        · simpa [hkind] using h.modified hd
        · have := h.modified hd
          simp only [hc, reduceCtorEq, false_and, false_or] at this
          exact .inr (.inr (.inr (by simpa [hkind] using this)))
      exRep := fun _ hpos => by simp only at hpos; omega
      invRep := by simpa [hkind] using h.invRep
      read := fun hr => by
        rcases hws with ⟨-, hw⟩ | ⟨hs, -⟩
        · exact hw
        · exact absurd (hasked' _ hr).symm hs
      shRep := fun hpos => by
        have := countP_isShRep_le l.rx
        simp only at hpos
        omega }

/-- A reply with data is taken and nobody waits any more. -/
theorem takeData {m : DirMsg V} {rx : List (DirMsg V)} {d : Option V} {c : CacheState}
    (h : Prompt v.dstate v.queued leave wb l) (hi : NodeInv v l) (hrx : l.rx = m :: rx)
    (hm : m.isDataRep = true) (hc : l.cstate = .invalid) (hc' : c ≠ .invalid)
    (hmod : v.dstate = .modified → c = .modified) :
    Prompt v.dstate v.queued leave wb { l with cstate := c, data := d, rx := rx, waiters := [] } := by
  obtain ⟨hreq, hqueued, hrep⟩ := hi.of_reply hrx (by simp [isRep, hm])
  have hhot : l.hot = m :: rx := by simp [Llc.hot, hc, hrx, hm]
  have hhot' : ({ l with cstate := c, data := d, rx := rx, waiters := [] } : Llc V).hot = rx :=
    Llc.hot_of_held hc'
  have hup := NodeInv.upgrade_of_rep hrep
  have hdata := NodeInv.data_of_rep hrep
  have hasked : ({ l with cstate := c, data := d, rx := rx, waiters := [] } : Llc V).asked v.queued = [] :=
    asked_eq_nil hreq hqueued
  have hkind : m.isDemand = false ∧ m.isWbReq = false := by
    cases m <;> simp_all [isDataRep, isDemand, isInvReq, isFlushReq, isWbReq]
  exact
    { leaves := by
        rw [hhot']
        simpa [hhot, hkind] using h.leaves
      writesBack := by
        rw [hhot']
        simpa [hhot, hkind] using h.writesBack
      invReq := fun hpos => h.invReq (by rw [hhot, List.countP_cons]; rw [hhot'] at hpos; omega)
      flushReq := fun hpos => h.flushReq (by rw [hhot, List.countP_cons]; rw [hhot'] at hpos; omega)
      upgradeRep := fun hpos => by simp only at hpos; omega
      upgrading := by simp [hasked]
      lost := by simp [hasked]
      write := by simp [hasked]
      modified := fun hd => .inr (.inl (hmod hd))
      exRep := fun _ hpos => by simp only at hpos; omega
      invRep := h.invRep
      read := by simp [hasked]
      shRep := fun hpos => by
        have := countP_isShRep_le rx
        simp only at hpos
        omega }

/-- A granted upgrade is taken and nobody waits any more. -/
theorem takeUpgrade {rx : List (DirMsg V)} {d : Option V} (h : Prompt v.dstate v.queued leave wb l)
    (hi : NodeInv v l) (hrx : l.rx = .upgradeRep :: rx) (hc : l.cstate = .sharedUpgrading) :
    Prompt v.dstate v.queued leave wb
      { l with cstate := .modified, data := d, rx := rx, waiters := [] } := by
  obtain ⟨hreq, hqueued, hrep⟩ := hi.of_reply hrx rfl
  have hhot : l.hot = .upgradeRep :: rx := by rw [Llc.hot_of_held (by simp [hc]), hrx]
  have hhot' : ({ l with cstate := .modified, data := d, rx := rx, waiters := [] } : Llc V).hot = rx :=
    Llc.hot_of_held (by simp)
  have hup := NodeInv.upgrade_of_rep hrep
  have hdata := NodeInv.data_of_rep hrep
  have hasked : ({ l with cstate := .modified, data := d, rx := rx, waiters := [] } : Llc V).asked
      v.queued = [] := asked_eq_nil hreq hqueued
  exact
    { leaves := by
        rw [hhot']
        simpa [hhot, isDemand, isInvReq, isFlushReq] using h.leaves
      writesBack := by
        rw [hhot']
        simpa [hhot, isWbReq] using h.writesBack
      invReq := fun hpos => h.invReq (by rw [hhot, List.countP_cons]; rw [hhot'] at hpos; omega)
      flushReq := fun hpos => h.flushReq (by rw [hhot, List.countP_cons]; rw [hhot'] at hpos; omega)
      upgradeRep := fun hpos => by simp only at hpos; omega
      upgrading := by simp [hasked]
      lost := by simp [hasked]
      write := by simp [hasked]
      modified := fun _ => .inr (.inl rfl)
      exRep := fun _ hpos => by simp only at hpos; omega
      invRep := h.invRep
      read := by simp [hasked]
      shRep := fun hpos => by
        have := countP_isShRep_le rx
        simp only at hpos
        omega }

/-- An access that cannot be done in place. -/
theorem initiateDirectoryAccess {a : Access V} (h : Prompt v.dstate v.queued leave wb l)
    (hi : NodeInv v l)
    (hmiss : l.cstate = .invalid ∨ l.cstate = .sharedUpgrading ∨ (l.cstate = .shared ∧ a ≠ .read)) :
    Ensures (l.initiateDirectoryAccess a) (Prompt v.dstate v.queued leave wb) fun _ => False := by
  unfold Llc.initiateDirectoryAccess
  split
  · rename_i hw
    have hc : l.cstate ≠ .sharedUpgrading := fun hc => hi.upgrading hc hw
    cases a with
    | read => exact h.send hi hw rfl (.inl ⟨rfl, by simp [hw]⟩) (.inl ⟨by simp, rfl⟩)
    | write w =>
      dsimp only
      split
      · rename_i hs
        exact h.send hi hw rfl (.inr ⟨by simp, w, by simp⟩) (.inr ⟨hs, rfl⟩)
      · rename_i hs
        unfold Llc.processExReqToDirectory
        split
        · exact h.send hi hw rfl (.inr ⟨by simp, w, by simp⟩) (.inl ⟨by simp, rfl⟩)
        · rename_i hne
          rcases hmiss with hm | hm | ⟨hm, -⟩
          · exact hne hm
          · exact hc hm
          · exact hs hm
  · exact h.addWaiter a

/-- A result that is only paired with a value. -/
theorem map_pair {x : Except Fault (Llc V)} {Q : Llc V → Prop} (hx : Ensures x Q fun _ => False)
    (last : V) : Ensures (x.map fun l' => (l', last)) (fun r => Q r.1) fun _ => False := by
  cases x with
  | ok l' => exact hx
  | error f => exact hx

/-- A core reads or writes. -/
theorem access (h : Prompt v.dstate v.queued leave wb l) (hi : NodeInv v l) (a : Access V) (last : V) :
    Ensures (l.access a last) (fun r => Prompt v.dstate v.queued leave wb r.1) fun _ => False := by
  unfold Llc.access
  cases a with
  | read =>
    cases hc : l.cstate with
    | invalid => exact map_pair (h.initiateDirectoryAccess hi (.inl hc)) last
    | sharedUpgrading => exact map_pair (h.initiateDirectoryAccess hi (.inr (.inl hc))) last
    | shared => exact h
    | exclusive => exact h
    | modified => exact h
  | write w =>
    cases hc : l.cstate with
    | invalid => exact map_pair (h.initiateDirectoryAccess hi (.inl hc)) last
    | sharedUpgrading => exact map_pair (h.initiateDirectoryAccess hi (.inr (.inl hc))) last
    | shared => exact map_pair (h.initiateDirectoryAccess hi (.inr (.inr ⟨hc, by simp⟩))) last
    | exclusive => exact h.writeInPlace (.inl hc) (some w)
    | modified => exact h.writeInPlace (.inr hc) (some w)

end Prompt

/-- A write among the waiters of a line that can be written leaves it `MODIFIED`. -/
theorem Llc.wakeWaiters_modified {ws : List (Access V)} {l : Llc V} {v : V}
    (hc : l.cstate = .exclusive ∨ l.cstate = .modified) (hv : .write v ∈ ws) (last : V) :
    (wakeWaiters ws l last).1.cstate = .modified := by
  induction ws generalizing l last with
  | nil => cases hv
  | cons a ws ih =>
    cases a with
    | read => exact ih hc (by simpa using hv) last
    | write w =>
      have hs : l.cstate ≠ .shared := by rcases hc with hc | hc <;> simp [hc]
      obtain ⟨c, d, heq, -, hmod⟩ :=
        wakeWaiters_owned ws (l := { l with cstate := .modified, data := some w }) (.inr rfl) w
      rw [wakeWaiters, if_neg hs, heq]
      exact hmod rfl

namespace Prompt

variable {v : View} {leave wb : Bool} {l : Llc V}

/-- Somebody waits for a reply. -/
theorem waiters_of_rep {m : DirMsg V} {rx : List (DirMsg V)} (hi : NodeInv v l) (hrx : l.rx = m :: rx)
    (hm : m.isRep = true) : l.waiters ≠ [] := by
  intro hw
  have := hi.requests
  rw [hrx, List.countP_cons_of_pos hm, hw] at this
  simp at this

/-- Data arrives where there is no copy. -/
theorem invalid_of_data {m : DirMsg V} {rx : List (DirMsg V)} (hi : NodeInv v l) (hrx : l.rx = m :: rx)
    (hm : m.isDataRep = true) : l.cstate = .invalid := by
  by_contra hc
  have := (hi.of_held hc).1
  rw [hrx, List.countP_cons_of_pos hm] at this
  omega

/-- A message of the directory is handled. -/
theorem handleMsg {m : DirMsg V} {rx : List (DirMsg V)} (h : Prompt v.dstate v.queued leave wb l)
    (hi : NodeInv v l) (hrx : l.rx = m :: rx) (last : V) :
    Ensures ({ l with rx := rx }.handleMsg m last) (fun r => Prompt v.dstate v.queued leave wb r.1)
      fun _ => False := by
  unfold Llc.handleMsg
  cases m with
  | shRep d =>
    dsimp only [Llc.handleReply, Llc.insertCacheBlock]
    have hc := invalid_of_data hi hrx rfl
    rw [if_neg (waiters_of_rep hi hrx rfl), if_pos hc]
    refine Ensures.ok ?_
    dsimp only
    -- the data of a `MODIFIED` line comes with an `EX_REP`
    have hmod : v.dstate = .modified → CacheState.shared = .modified := by
      intro hd
      have hrep := (hi.of_reply hrx rfl).2.2
      have hex := (h.exRep hd (by simp [hrx, isDataRep])).1
      rw [hrx, List.countP_cons] at hex
      have hle : rx.countP isExRep ≤ rx.countP isRep :=
        List.countP_mono_left fun m _ => by cases m <;> simp [isExRep, isRep, isDataRep]
      simp only [isExRep, Bool.false_eq_true, if_false] at hex
      omega
    have hall := h.takeData (d := d) hi hrx rfl hc (by simp) hmod
    rcases Llc.wakeWaiters_shared l.waiters
      (l := { l with cstate := .shared, data := d, rx := rx }) rfl last with heq | ⟨w, ws, heq⟩
    · rw [heq]
      exact hall
    · rw [heq]
      have hiall := hi.takeData (d := d) hrx rfl hc (.inl rfl)
      exact hall.send hiall rfl rfl (.inr ⟨by simp, w, List.mem_cons_self ..⟩) (.inr ⟨rfl, rfl⟩)
  | exRep d =>
    dsimp only [Llc.handleReply, Llc.insertCacheBlock]
    have hc := invalid_of_data hi hrx rfl
    rw [if_neg (waiters_of_rep hi hrx rfl), if_pos hc]
    refine Ensures.ok ?_
    dsimp only
    obtain ⟨c, d', heq, hc', -⟩ := Llc.wakeWaiters_owned l.waiters
      (l := { l with cstate := .exclusive, data := d, rx := rx }) (.inl rfl) last
    have hmod : v.dstate = .modified → c = .modified := by
      intro hd
      obtain ⟨w, hw⟩ := (h.exRep hd (by simp [hrx, isDataRep])).2
      have := Llc.wakeWaiters_modified (l := { l with cstate := .exclusive, data := d, rx := rx })
        (.inl rfl) hw last
      rwa [heq] at this
    rw [heq]
    exact h.takeData hi hrx rfl hc (by rcases hc' with rfl | rfl <;> simp) hmod
  | upgradeRep =>
    dsimp only [Llc.handleReply, Llc.processUpgradeRep]
    have hc := (h.upgradeRep (by simp [hrx, isUpgradeRep])).1
    rw [if_neg (waiters_of_rep hi hrx rfl), hc]
    refine Ensures.ok ?_
    dsimp only
    obtain ⟨c, d', heq, -, hc'⟩ := Llc.wakeWaiters_owned l.waiters
      (l := { l with cstate := .modified, rx := rx }) (.inr rfl) last
    rw [heq, hc' rfl]
    exact h.takeUpgrade hi hrx hc
  | invReq =>
    refine map_pair ?_ last
    unfold Llc.processInvReq
    split
    · rename_i hc
      exact h.drop hrx rfl hc
    · rename_i hc
      -- a line that is invalidated is `SHARED`
      have hds := (h.invReq (by simp [Llc.hot_of_held (l := l) (by simp_all), hrx, isInvReq])).2
      have hown := hi.excl (.inr (.inl hc))
      rw [hds] at hown
      cases hown
    · rename_i hc _
      exact h.demand hi hrx (.inl ⟨rfl, rfl⟩) hc
  | flushReq =>
    refine Ensures.ok ?_
    dsimp only
    unfold Llc.processFlushReq
    split
    · rename_i hc
      exact h.drop hrx rfl hc
    · rename_i hc
      exact h.demand hi hrx (.inr ⟨rfl, rfl⟩) hc
  | wbReq =>
    refine Ensures.ok ?_
    dsimp only
    unfold Llc.processWbReq
    split
    · rename_i hc
      exact h.drop hrx rfl hc
    · rename_i hc
      simp only at hc
      have := h.answerWriteBack (d := none) (c := .sharedUpgrading) hi hrx (by simp [hc]) (.inr ⟨rfl, hc⟩)
      simpa [hc] using this
    · rename_i hc hc'
      exact h.answerWriteBack hi hrx hc (.inl ⟨rfl, hc'⟩)

end Prompt

end LifeSim.Directory
