import LifeSim.Directory.Controller

/-!
# What the directory may rely on about one last-level cache

Between the directory and a last-level cache a few tokens go back and forth: the copy of the
line, which is in the cache or in a message that brings it or takes it back, and the one
request a cache may have. The invariant below counts them, for one cache, against what
the directory knows about it. It also says which messages of the directory the cache can still
receive while it has a copy: the others find the line `INVALID` and are dropped.

The steps of a cache keep the invariant for any view the directory may have of it.
-/

namespace LifeSim.Directory

open LifeSim.Lib

variable {V : Type}

namespace DirMsg

def isExRep : DirMsg V → Bool
  | exRep _ => true
  | _ => false

/-- The message brings a copy of the line. -/
def isDataRep : DirMsg V → Bool
  | shRep _ => true
  | exRep _ => true
  | _ => false

def isUpgradeRep : DirMsg V → Bool
  | upgradeRep => true
  | _ => false

/-- The message answers a request. -/
def isRep (m : DirMsg V) : Bool :=
  m.isDataRep || m.isUpgradeRep

def isInvReq : DirMsg V → Bool
  | invReq => true
  | _ => false

def isFlushReq : DirMsg V → Bool
  | flushReq => true
  | _ => false

def isWbReq : DirMsg V → Bool
  | wbReq => true
  | _ => false

end DirMsg

namespace LlcMsg

/-- The request of a cache that has no copy. -/
def isMissReq : LlcMsg V → Bool
  | shReq => true
  | exReq => true
  | _ => false

def isUpgradeReq : LlcMsg V → Bool
  | upgradeReq => true
  | _ => false

def isReq (m : LlcMsg V) : Bool :=
  m.isMissReq || m.isUpgradeReq

def isInvRep : LlcMsg V → Bool
  | invRep => true
  | _ => false

def isFlushRep : LlcMsg V → Bool
  | flushRep _ => true
  | _ => false

/-- The message says that the sender has no copy any more. -/
def isLeave (m : LlcMsg V) : Bool :=
  m.isInvRep || m.isFlushRep

def isWbRep : LlcMsg V → Bool
  | wbRep _ => true
  | _ => false

end LlcMsg

namespace DirectoryState

/-- One cache may have the line for itself. -/
def isOwned : DirectoryState → Bool
  | exclusive => true
  | modified => true
  | _ => false

end DirectoryState

namespace Llc

open DirMsg LlcMsg

/-- The cache has a copy of the line. -/
def held (l : Llc V) : ℕ := if l.cstate = .invalid then 0 else 1

/-- The copies of the line that are in the cache or between it and the directory. -/
def copies (l : Llc V) : ℕ := l.held + l.rx.countP isDataRep + l.tx.countP isLeave

/-- The messages of the directory that may find a copy when they arrive. -/
def hot (l : Llc V) : List (DirMsg V) :=
  if l.cstate = .invalid then l.rx.dropWhile fun m => !m.isDataRep else l.rx

/-- The cache may write without asking, now or after a reply that is on its way. -/
def Excl (l : Llc V) : Prop :=
  l.cstate = .exclusive ∨ l.cstate = .modified ∨ 0 < l.rx.countP isExRep ∨
    (l.cstate = .sharedUpgrading ∧ 0 < l.rx.countP isUpgradeRep)

@[simp] theorem leave_cstate (l : Llc V) (m : LlcMsg V) : (l.leave m).cstate = .invalid := rfl
@[simp] theorem leave_waiters (l : Llc V) (m : LlcMsg V) : (l.leave m).waiters = l.waiters := rfl
@[simp] theorem leave_rx (l : Llc V) (m : LlcMsg V) : (l.leave m).rx = l.rx := rfl
@[simp] theorem leave_tx (l : Llc V) (m : LlcMsg V) : (l.leave m).tx = l.tx ++ [m] := rfl

theorem hot_of_held {l : Llc V} (h : l.cstate ≠ .invalid) : l.hot = l.rx := by
  simp [hot, h]

theorem hot_eq_nil {l : Llc V} (h : l.held = 0) (hd : l.rx.countP isDataRep = 0) : l.hot = [] := by
  have hc : l.cstate = .invalid := by
    by_contra hc
    simp [held, hc] at h
  rw [hot, if_pos hc, List.dropWhile_eq_nil_iff]
  intro m hm
  simpa using List.countP_eq_zero.mp hd m hm

/-- Without a copy nothing finds one. -/
theorem hot_eq_nil_of_copies {l : Llc V} (h : l.copies = 0) : l.hot = [] := by
  unfold copies at h
  exact hot_eq_nil (by omega) (by omega)

/-- An `EX_REP` brings a copy. -/
theorem countP_isExRep_le (l : Llc V) : l.rx.countP isExRep ≤ l.rx.countP isDataRep :=
  List.countP_mono_left fun m _ => by cases m <;> simp [isExRep, isDataRep]

/-- A `FLUSH_REP` takes a copy back. -/
theorem countP_isFlushRep_le (tx : List (LlcMsg V)) : tx.countP isFlushRep ≤ tx.countP isLeave :=
  List.countP_mono_left fun m _ => by cases m <;> simp [isFlushRep, isLeave]

/-- A cache that may write has a copy, or will have one. -/
theorem Excl.copies_pos {l : Llc V} (h : l.Excl) : 0 < l.copies := by
  have hle := countP_isExRep_le l
  unfold copies held
  rcases h with h | h | h | ⟨h, -⟩
  · simp [h]
  · simp [h]
  · omega
  · simp [h]

end Llc

/-- What the directory knows about a cache. -/
structure View where
  dstate : DirectoryState
  sharer : Bool
  /-- The cache is a sharer already, but the reply has not been sent. -/
  pending : Bool
  /-- The types of its requests in the queue. -/
  queued : List ReqType
  /-- The request at the front may wait for a `WB_REP` of this cache. -/
  writeBack : Bool
  /-- The request at the front may wait for a `FLUSH_REP`. -/
  flush : Bool

open DirMsg LlcMsg

/-- The invariant of one cache. -/
structure NodeInv (v : View) (l : Llc V) : Prop where
  copies : l.copies + v.pending.toNat = v.sharer.toNat
  requests : l.tx.countP isReq + v.queued.length + l.rx.countP isRep =
    (!l.waiters.isEmpty).toNat
  upgrading : l.cstate = .sharedUpgrading → l.waiters ≠ []
  excl : l.Excl → v.dstate.isOwned = true
  writeBacks : l.hot.countP isWbReq + l.tx.countP isWbRep ≤ v.writeBack.toNat
  /-- An upgrade is not granted while a write-back is asked for. -/
  wbReq : l.hot.Pairwise fun a b => a.isWbReq = true → b.isUpgradeRep = false
  wbRep : 0 < l.tx.countP isWbRep →
    ¬ l.Excl ∧ l.rx.countP isUpgradeRep = 0 ∧ l.tx.countP isFlushRep = 0
  flushReq : 0 < l.hot.countP isFlushReq → v.flush = true
  flushRep : 0 < l.tx.countP isFlushRep → v.flush = true ∨ v.dstate.isOwned = true
  notBoth : v.writeBack = true → v.flush = false
  missReq : 0 < l.tx.countP isMissReq → l.cstate = .invalid
  /-- A cache that has asked for a copy says nothing more, and one that has given it up
  answers no write-back. -/
  order : l.tx.Pairwise fun a b => a.isMissReq = false ∧ (a.isLeave = true → b.isWbRep = false)
  queuedMiss : (∃ k ∈ v.queued, k ≠ .upgradeReq) → l.copies = 0

namespace NodeInv

variable {v : View} {l : Llc V}

/-- Somebody waits. -/
theorem waiting {ws : List (Access V)} (h : ws ≠ []) : (!ws.isEmpty).toNat = 1 := by
  cases ws with
  | nil => exact absurd rfl h
  | cons => rfl

/-- Nothing has happened yet. -/
theorem empty {dstate : DirectoryState} :
    NodeInv ⟨dstate, false, false, [], false, false⟩ (Llc.empty : Llc V) where
  copies := by simp [Llc.copies, Llc.held, Llc.empty]
  requests := by simp [Llc.empty]
  upgrading := by simp [Llc.empty]
  excl := by simp [Llc.Excl, Llc.empty]
  writeBacks := by simp [Llc.hot, Llc.empty]
  wbReq := by simp [Llc.hot, Llc.empty]
  wbRep := by simp [Llc.empty]
  flushReq := by simp [Llc.hot, Llc.empty]
  flushRep := by simp [Llc.empty]
  notBoth := by simp
  missReq := by simp [Llc.empty]
  order := by simp [Llc.empty]
  queuedMiss := by simp

/-- A cache with a copy has no other one under way. -/
theorem of_held (h : NodeInv v l) (hc : l.cstate ≠ .invalid) :
    l.rx.countP isDataRep = 0 ∧ l.tx.countP isLeave = 0 ∧ v.pending = false ∧ v.sharer = true := by
  have hcopies := h.copies
  have hheld : l.held = 1 := by simp [Llc.held, hc]
  unfold Llc.copies at hcopies
  have hle := Bool.toNat_le v.sharer
  have hp : v.pending.toNat = 0 := by omega
  have hs : v.sharer.toNat = 1 := by omega
  exact ⟨by omega, by omega, by simpa using hp, by simpa using hs⟩

/-- A cache with a copy has not asked for one. -/
theorem miss_of_held (h : NodeInv v l) (hc : l.cstate ≠ .invalid) : l.tx.countP isMissReq = 0 := by
  have := h.missReq
  by_contra hne
  exact hc (this (by omega))


/-- The line leaves the cache. A flush is either asked for or the cache may write. -/
theorem leave {m : LlcMsg V} (h : NodeInv v l) (hc : l.cstate ≠ .invalid) (hm : m.isLeave = true)
    (hflush : m.isFlushRep = true → v.flush = true ∨ v.dstate.isOwned = true)
    (hwb : m.isFlushRep = true → l.tx.countP isWbRep = 0) : NodeInv v (l.leave m) := by
  obtain ⟨hdata, hleave, -, -⟩ := h.of_held hc
  have hmiss := h.miss_of_held hc
  have hheld : l.held = 1 := by simp [Llc.held, hc]
  have hheld' : (l.leave m).held = 0 := by simp [Llc.held]
  have hhot : (l.leave m).hot = [] := Llc.hot_eq_nil hheld' hdata
  have hreq : m.isReq = false ∧ m.isMissReq = false ∧ m.isWbRep = false := by
    cases m <;> simp_all [isLeave, isInvRep, isFlushRep, isReq, isMissReq, isUpgradeReq, isWbRep]
  have hex : ¬ (l.leave m).Excl := by
    have := Llc.countP_isExRep_le l
    simp only [Llc.Excl, Llc.leave_cstate, Llc.leave_rx, reduceCtorEq, false_and, or_false, false_or]
    omega
  have hcopies : (l.leave m).copies = l.copies := by
    simp only [Llc.copies, hheld, hheld', Llc.leave_rx, Llc.leave_tx, List.countP_append,
      List.countP_singleton, hm, if_true]
    omega
  have hwbs : (l.leave m).tx.countP isWbRep = l.tx.countP isWbRep := by simp [hreq]
  refine
    { copies := by rw [hcopies]; exact h.copies
      requests := by simpa [hreq] using h.requests
      upgrading := by simp
      excl := fun he => absurd he hex
      writeBacks := by rw [hwbs, hhot]; exact le_trans (Nat.add_le_add_right (Nat.zero_le _) _) h.writeBacks
      wbReq := by simp [hhot]
      wbRep := fun hpos => ?_
      flushReq := by simp [hhot]
      flushRep := fun hpos => ?_
      notBoth := h.notBoth
      missReq := by simp
      order := ?_
      queuedMiss := by rw [hcopies]; exact h.queuedMiss }
  · rw [hwbs] at hpos
    obtain ⟨-, hup, hfl⟩ := h.wbRep hpos
    refine ⟨hex, hup, ?_⟩
    have hf : m.isFlushRep = false := by
      by_contra hf
      have := hwb (by simpa using hf)
      omega
    simpa [hf] using hfl
  · by_cases hf : m.isFlushRep = true
    · exact hflush hf
    · exact h.flushRep (by simpa [hf] using hpos)
  · rw [Llc.leave_tx, List.pairwise_append]
    refine ⟨h.order, by simp, fun a ha b hb => ?_⟩
    rw [List.mem_singleton] at hb
    subst hb
    exact ⟨by simpa using List.countP_eq_zero.mp hmiss a ha, fun _ => hreq.2.2⟩

/-- A message that asks for the copy is taken from the channel. -/
theorem popDemand {m : DirMsg V} {rx : List (DirMsg V)} (h : NodeInv v l) (hrx : l.rx = m :: rx)
    (hm : m.isRep = false) : NodeInv v { l with rx := rx } := by
  have hkind : m.isDataRep = false ∧ m.isExRep = false ∧ m.isUpgradeRep = false := by
    cases m <;> simp_all [isRep, isDataRep, isUpgradeRep, isExRep]
  have hsub : ({ l with rx := rx } : Llc V).hot.Sublist l.hot := by
    by_cases hc : l.cstate = .invalid
    · simp [Llc.hot, hc, hrx, hkind]
    · simp [Llc.hot, hc, hrx]
  have hex : ({ l with rx := rx } : Llc V).Excl ↔ l.Excl := by simp [Llc.Excl, hrx, hkind]
  have hcopies : ({ l with rx := rx } : Llc V).copies = l.copies := by
    simp [Llc.copies, Llc.held, hrx, hkind]
  exact
    { copies := by rw [hcopies]; exact h.copies
      requests := by simpa [hrx, hm] using h.requests
      upgrading := h.upgrading
      excl := fun he => h.excl (hex.mp he)
      writeBacks := le_trans (Nat.add_le_add_right (hsub.countP_le) _) h.writeBacks
      wbReq := h.wbReq.sublist hsub
      wbRep := by simpa [hex, hrx, hkind] using h.wbRep
      flushReq := fun hpos => h.flushReq (lt_of_lt_of_le hpos hsub.countP_le)
      flushRep := h.flushRep
      notBoth := h.notBoth
      missReq := h.missReq
      order := h.order
      queuedMiss := by rw [hcopies]; exact h.queuedMiss }

/-- The data of the line does not matter. -/
theorem setData (h : NodeInv v l) (d : Option V) : NodeInv v { l with data := d } :=
  ⟨h.copies, h.requests, h.upgrading, h.excl, h.writeBacks, h.wbReq, h.wbRep, h.flushReq, h.flushRep,
    h.notBoth, h.missReq, h.order, h.queuedMiss⟩

/-- The silent upgrade. -/
theorem silentUpgrade (h : NodeInv v l) (hc : l.cstate = .exclusive) (d : Option V) :
    NodeInv v { l with cstate := .modified, data := d } := by
  have hex : ({ l with cstate := .modified, data := d } : Llc V).Excl ↔ l.Excl := by
    simp [Llc.Excl, hc]
  have hcopies : ({ l with cstate := .modified, data := d } : Llc V).copies = l.copies := by
    simp [Llc.copies, Llc.held, hc]
  have hhot : ({ l with cstate := .modified, data := d } : Llc V).hot = l.hot := by
    simp [Llc.hot, hc]
  have hmiss := h.miss_of_held (by simp [hc])
  exact
    { copies := by rw [hcopies]; exact h.copies
      requests := h.requests
      upgrading := by simp
      excl := fun he => h.excl (hex.mp he)
      writeBacks := by rw [hhot]; exact h.writeBacks
      wbReq := by rw [hhot]; exact h.wbReq
      wbRep := by simpa only [hex] using h.wbRep
      flushReq := by rw [hhot]; exact h.flushReq
      flushRep := h.flushRep
      notBoth := h.notBoth
      missReq := fun hpos => by simp only at hpos; omega
      order := h.order
      queuedMiss := by rw [hcopies]; exact h.queuedMiss }

/-- One more access waits for the reply. -/
theorem addWaiter (h : NodeInv v l) (hw : l.waiters ≠ []) (a : Access V) :
    NodeInv v { l with waiters := l.waiters ++ [a] } where
  copies := h.copies
  requests := by
    rw [waiting (List.append_ne_nil_of_right_ne_nil _ (List.cons_ne_nil a [])), ← waiting hw]
    exact h.requests
  upgrading := by simp
  excl := h.excl
  writeBacks := h.writeBacks
  wbReq := h.wbReq
  wbRep := h.wbRep
  flushReq := h.flushReq
  flushRep := h.flushRep
  notBoth := h.notBoth
  missReq := h.missReq
  order := h.order
  queuedMiss := h.queuedMiss

/-- When nobody waits there is no request anywhere. -/
theorem of_idle (h : NodeInv v l) (hw : l.waiters = []) :
    l.tx.countP isReq = 0 ∧ v.queued = [] ∧ l.rx.countP isRep = 0 := by
  have := h.requests
  simp only [hw, List.isEmpty_nil, Bool.not_true, Bool.toNat_false] at this
  exact ⟨by omega, List.length_eq_zero_iff.mp (by omega), by omega⟩

/-- A request goes out behind messages that are no requests. -/
theorem order_snoc {tx : List (LlcMsg V)} {m : LlcMsg V} (h : tx.countP isReq = 0)
    (horder : tx.Pairwise fun a b => a.isMissReq = false ∧ (a.isLeave = true → b.isWbRep = false))
    (hm : m.isWbRep = false) : (tx ++ [m]).Pairwise fun a b =>
      a.isMissReq = false ∧ (a.isLeave = true → b.isWbRep = false) := by
  rw [List.pairwise_append]
  refine ⟨horder, by simp, fun a ha b hb => ?_⟩
  rw [List.mem_singleton] at hb
  subst hb
  have := List.countP_eq_zero.mp h a ha
  simp [isReq] at this
  exact ⟨this.1, fun _ => hm⟩

/-- The first access that misses sends the request. -/
theorem sendMiss {m : LlcMsg V} (h : NodeInv v l) (hw : l.waiters = []) (hc : l.cstate = .invalid)
    (hm : m.isMissReq = true) (a : Access V) :
    NodeInv v { l with waiters := [a], tx := l.tx ++ [m] } := by
  obtain ⟨hreq, hqueued, hrep⟩ := h.of_idle hw
  have hkind : m.isReq = true ∧ m.isLeave = false ∧ m.isFlushRep = false ∧ m.isWbRep = false := by
    cases m <;> simp_all [isReq, isMissReq, isLeave, isInvRep, isFlushRep, isWbRep]
  have hcopies : ({ l with waiters := [a], tx := l.tx ++ [m] } : Llc V).copies = l.copies := by
    simp [Llc.copies, Llc.held, hkind]
  exact
    { copies := by rw [hcopies]; exact h.copies
      requests := by simp [hreq, hqueued, hrep, hkind]
      upgrading := by simp
      excl := h.excl
      writeBacks := by
        rw [List.countP_append, List.countP_singleton, hkind.2.2.2]
        exact h.writeBacks
      wbReq := h.wbReq
      wbRep := by
        simp only [List.countP_append, List.countP_singleton, hkind.2.2.2, hkind.2.2.1,
          Bool.false_eq_true, if_false, Nat.add_zero]
        exact h.wbRep
      flushReq := h.flushReq
      flushRep := by simpa [hkind] using h.flushRep
      notBoth := h.notBoth
      missReq := fun _ => hc
      order := order_snoc hreq h.order hkind.2.2.2
      queuedMiss := by simp [hqueued] }

/-- Where there is no reply, there is no upgrade. -/
theorem upgrade_of_rep {rx : List (DirMsg V)} (h : rx.countP isRep = 0) : rx.countP isUpgradeRep = 0 := by
  rw [List.countP_eq_zero] at h ⊢
  exact fun m hm hup => h m hm (by simp [isRep, hup])

theorem data_of_rep {rx : List (DirMsg V)} (h : rx.countP isRep = 0) : rx.countP isDataRep = 0 := by
  rw [List.countP_eq_zero] at h ⊢
  exact fun m hm hd => h m hm (by simp [isRep, hd])

/-- A write to a shared line sends an upgrade request. -/
theorem sendUpgrade (h : NodeInv v l) (hw : l.waiters = []) (hc : l.cstate = .shared)
    {ws : List (Access V)} (hws : ws ≠ []) :
    NodeInv v { l with waiters := ws }.processUpgradeReqToDirectory := by
  obtain ⟨hreq, hqueued, hrep⟩ := h.of_idle hw
  have hup := upgrade_of_rep hrep
  have hcopies : ({ l with waiters := ws }.processUpgradeReqToDirectory : Llc V).copies = l.copies := by
    simp [Llc.copies, Llc.held, Llc.processUpgradeReqToDirectory, hc, isLeave, isInvRep, isFlushRep]
  have hhot : ({ l with waiters := ws }.processUpgradeReqToDirectory : Llc V).hot = l.hot := by
    simp [Llc.hot, Llc.processUpgradeReqToDirectory, hc]
  have hex : ({ l with waiters := ws }.processUpgradeReqToDirectory : Llc V).Excl → l.Excl := by
    simp [Llc.Excl, Llc.processUpgradeReqToDirectory, hup]
    tauto
  have hmiss := h.miss_of_held (by simp [hc])
  refine
    { copies := by rw [hcopies]; exact h.copies
      requests := ?_
      upgrading := fun _ => hws
      excl := fun he => h.excl (hex he)
      writeBacks := ?_
      wbReq := by rw [hhot]; exact h.wbReq
      wbRep := fun hpos => ?_
      flushReq := by rw [hhot]; exact h.flushReq
      flushRep := ?_
      notBoth := h.notBoth
      missReq := ?_
      order := order_snoc hreq h.order rfl
      queuedMiss := by simp [hqueued] }
  · simp [Llc.processUpgradeReqToDirectory, hreq, hqueued, hrep, waiting hws, isReq, isMissReq,
      isUpgradeReq]
  · rw [hhot]
    simpa [Llc.processUpgradeReqToDirectory, isWbRep] using h.writeBacks
  · simp only [Llc.processUpgradeReqToDirectory, List.countP_append, List.countP_singleton, isWbRep,
      Bool.false_eq_true, if_false, Nat.add_zero] at hpos
    obtain ⟨hne, -, hfl⟩ := h.wbRep hpos
    refine ⟨fun he => hne (hex he), hup, ?_⟩
    simpa [Llc.processUpgradeReqToDirectory, isFlushRep] using hfl
  · simpa [Llc.processUpgradeReqToDirectory, isFlushRep] using h.flushRep
  · simp [Llc.processUpgradeReqToDirectory, hmiss, isMissReq]

/-- The cache answers a write-back and keeps a shared copy. -/
theorem answerWriteBack {rx : List (DirMsg V)} {d : Option V} {c : CacheState} (h : NodeInv v l)
    (hrx : l.rx = .wbReq :: rx) (hc : l.cstate ≠ .invalid)
    (hc' : c = .shared ∨ (c = .sharedUpgrading ∧ l.cstate = .sharedUpgrading)) :
    NodeInv v { l with cstate := c, rx := rx, tx := l.tx ++ [.wbRep d] } := by
  obtain ⟨hdata, hleave, -, -⟩ := h.of_held hc
  have hmiss := h.miss_of_held hc
  have hne : c ≠ .invalid := by rcases hc' with rfl | ⟨rfl, -⟩ <;> simp
  have hhot : l.hot = .wbReq :: rx := by rw [Llc.hot_of_held hc, hrx]
  have hhot' : ({ l with cstate := c, rx := rx, tx := l.tx ++ [.wbRep d] } : Llc V).hot = rx :=
    Llc.hot_of_held hne
  have hup : rx.countP isUpgradeRep = 0 := by
    have := h.wbReq
    rw [hhot, List.pairwise_cons] at this
    exact List.countP_eq_zero.mpr fun m hm => by simp [this.1 m hm rfl]
  have hwb := h.writeBacks
  have hflush : l.tx.countP isFlushRep = 0 := by
    have hle := Llc.countP_isFlushRep_le l.tx
    omega
  have hex : ¬ ({ l with cstate := c, rx := rx, tx := l.tx ++ [.wbRep d] } : Llc V).Excl := by
    have := Llc.countP_isExRep_le l
    have hexs : rx.countP isExRep = 0 := by
      rw [hrx, List.countP_cons] at this
      rw [hrx] at hdata
      omega
    rcases hc' with rfl | ⟨rfl, -⟩ <;> simp [Llc.Excl, hup, hexs]
  have hcopies : ({ l with cstate := c, rx := rx, tx := l.tx ++ [.wbRep d] } : Llc V).copies = l.copies := by
    simp [Llc.copies, Llc.held, hrx, hc, hne, isDataRep, isLeave, isInvRep, isFlushRep]
  refine
    { copies := by rw [hcopies]; exact h.copies
      requests := ?_
      upgrading := ?_
      excl := fun he => absurd he hex
      writeBacks := ?_
      wbReq := ?_
      wbRep := fun _ => ⟨hex, hup, ?_⟩
      flushReq := ?_
      flushRep := ?_
      notBoth := h.notBoth
      missReq := ?_
      order := ?_
      queuedMiss := by rw [hcopies]; exact h.queuedMiss }
  · simpa [hrx, isReq, isMissReq, isUpgradeReq, isRep, isDataRep, isUpgradeRep] using h.requests
  · rintro rfl
    exact h.upgrading (by simpa using hc')
  · rw [hhot']
    rw [hhot, List.countP_cons] at hwb
    simp [isWbReq, isWbRep] at hwb ⊢
    omega
  · rw [hhot']
    have := h.wbReq
    rw [hhot] at this
    exact this.of_cons
  · simp [hflush, isFlushRep]
  · rw [hhot']
    intro hpos
    exact h.flushReq (by rw [hhot, List.countP_cons]; omega)
  · simp [hflush, isFlushRep]
  · simp [hmiss, isMissReq]
  · rw [List.pairwise_append]
    refine ⟨h.order, by simp, fun a ha b hb => ?_⟩
    have hm := List.countP_eq_zero.mp hmiss a ha
    have hl := List.countP_eq_zero.mp hleave a ha
    exact ⟨by simpa using hm, fun hl' => absurd hl' hl⟩

/-- A reply is the only token of its request. -/
theorem of_reply {m : DirMsg V} {rx : List (DirMsg V)} (h : NodeInv v l) (hrx : l.rx = m :: rx)
    (hm : m.isRep = true) : l.tx.countP isReq = 0 ∧ v.queued = [] ∧ rx.countP isRep = 0 := by
  have hreq := h.requests
  have hle := Bool.toNat_le (!l.waiters.isEmpty)
  rw [hrx, List.countP_cons_of_pos hm] at hreq
  exact ⟨by omega, List.length_eq_zero_iff.mp (by omega), by omega⟩

/-- Where there is no request, there is none for a missing line. -/
theorem miss_of_req {tx : List (LlcMsg V)} (h : tx.countP isReq = 0) : tx.countP isMissReq = 0 := by
  rw [List.countP_eq_zero] at h ⊢
  exact fun m hm hmiss => h m hm (by simp [isReq, hmiss])

/-- A reply with data arrives and nobody waits any more. -/
theorem takeData {m : DirMsg V} {rx : List (DirMsg V)} {d : Option V} {c : CacheState} (h : NodeInv v l)
    (hrx : l.rx = m :: rx) (hm : m.isDataRep = true) (hc : l.cstate = .invalid)
    (hc' : c = .shared ∨ (m.isExRep = true ∧ (c = .exclusive ∨ c = .modified))) :
    NodeInv v { l with cstate := c, data := d, rx := rx, waiters := [] } := by
  obtain ⟨hreq, hqueued, hrep⟩ := h.of_reply hrx (by simp [isRep, hm])
  have hne : c ≠ .invalid := by rcases hc' with rfl | ⟨-, rfl | rfl⟩ <;> simp
  have hsu : c ≠ .sharedUpgrading := by rcases hc' with rfl | ⟨-, rfl | rfl⟩ <;> simp
  have hhot : l.hot = m :: rx := by simp [Llc.hot, hc, hrx, hm]
  have hhot' : ({ l with cstate := c, data := d, rx := rx, waiters := [] } : Llc V).hot = rx :=
    Llc.hot_of_held hne
  have hup := upgrade_of_rep hrep
  have hdata := data_of_rep hrep
  have hexs : rx.countP isExRep = 0 := by
    rw [List.countP_eq_zero] at hdata ⊢
    exact fun m hm he => hdata m hm (by cases m <;> simp_all [isExRep, isDataRep])
  have hex : ({ l with cstate := c, data := d, rx := rx, waiters := [] } : Llc V).Excl → l.Excl := by
    rintro (he | he | he | ⟨he, -⟩)
    · rcases hc' with rfl | ⟨hm', -⟩
      · cases he
      · exact .inr (.inr (.inl (by simp [hrx, hm'])))
    · rcases hc' with rfl | ⟨hm', -⟩
      · cases he
      · exact .inr (.inr (.inl (by simp [hrx, hm'])))
    · simp only [hexs] at he
      omega
    · exact absurd he hsu
  have hcopies : ({ l with cstate := c, data := d, rx := rx, waiters := [] } : Llc V).copies = l.copies := by
    simp [Llc.copies, Llc.held, hc, hne, hrx, hm]
    omega
  refine
    { copies := by rw [hcopies]; exact h.copies
      requests := by simp [hreq, hqueued, hrep]
      upgrading := fun hc'' => absurd hc'' hsu
      excl := fun he => h.excl (hex he)
      writeBacks := ?_
      wbReq := ?_
      wbRep := fun hpos => ?_
      flushReq := ?_
      flushRep := h.flushRep
      notBoth := h.notBoth
      missReq := fun hpos => ?_
      order := h.order
      queuedMiss := by simp [hqueued] }
  · have := h.writeBacks
    rw [hhot, List.countP_cons] at this
    rw [hhot']
    exact le_trans (Nat.add_le_add_right (Nat.le_add_right _ _) _) this
  · have := h.wbReq
    rw [hhot] at this
    rw [hhot']
    exact this.of_cons
  · obtain ⟨hne', -, hfl⟩ := h.wbRep hpos
    exact ⟨fun he => hne' (hex he), hup, hfl⟩
  · intro hpos
    rw [hhot'] at hpos
    exact h.flushReq (by rw [hhot, List.countP_cons]; omega)
  · have := miss_of_req hreq
    simp only at hpos
    omega

/-- An upgrade is granted and nobody waits any more. -/
theorem takeUpgrade {rx : List (DirMsg V)} {d : Option V} (h : NodeInv v l)
    (hrx : l.rx = .upgradeRep :: rx) (hc : l.cstate = .sharedUpgrading) :
    NodeInv v { l with cstate := .modified, data := d, rx := rx, waiters := [] } := by
  obtain ⟨hreq, hqueued, hrep⟩ := h.of_reply hrx rfl
  have hup := upgrade_of_rep hrep
  have hexcl : l.Excl := .inr (.inr (.inr ⟨hc, by simp [hrx, isUpgradeRep]⟩))
  have hhot : l.hot = .upgradeRep :: rx := by simp [Llc.hot, hc, hrx]
  have hhot' : ({ l with cstate := .modified, data := d, rx := rx, waiters := [] } : Llc V).hot = rx :=
    Llc.hot_of_held (by simp)
  have hcopies :
      ({ l with cstate := .modified, data := d, rx := rx, waiters := [] } : Llc V).copies = l.copies := by
    simp [Llc.copies, Llc.held, hc, hrx, isDataRep]
  refine
    { copies := by rw [hcopies]; exact h.copies
      requests := by simp [hreq, hqueued, hrep]
      upgrading := by simp
      excl := fun _ => h.excl hexcl
      writeBacks := ?_
      wbReq := ?_
      wbRep := fun hpos => absurd hexcl (h.wbRep hpos).1
      flushReq := ?_
      flushRep := h.flushRep
      notBoth := h.notBoth
      missReq := fun hpos => ?_
      order := h.order
      queuedMiss := by simp [hqueued] }
  · have := h.writeBacks
    rw [hhot, List.countP_cons] at this
    rw [hhot']
    exact le_trans (Nat.add_le_add_right (Nat.le_add_right _ _) _) this
  · have := h.wbReq
    rw [hhot] at this
    rw [hhot']
    exact this.of_cons
  · intro hpos
    rw [hhot'] at hpos
    exact h.flushReq (by rw [hhot, List.countP_cons]; omega)
  · have := miss_of_req hreq
    simp only at hpos
    omega

/-- An access that cannot be done in place. -/
theorem initiateDirectoryAccess (h : NodeInv v l) {a : Access V}
    (hmiss : l.cstate = .invalid ∨ l.cstate = .sharedUpgrading ∨ (l.cstate = .shared ∧ a ≠ .read)) :
    Ensures (l.initiateDirectoryAccess a) (NodeInv v) fun _ => True := by
  unfold Llc.initiateDirectoryAccess
  split
  · rename_i hw
    have hc : l.cstate ≠ .sharedUpgrading := fun hc => h.upgrading hc hw
    cases a with
    | read =>
      refine Ensures.ok ?_
      have hinv : l.cstate = .invalid := by simpa [hc] using hmiss
      simpa [Llc.processShReqToDirectory, hw] using h.sendMiss hw hinv rfl Access.read
    | write w =>
      simp only [hw, List.nil_append]
      split
      · rename_i hs
        exact Ensures.ok (h.sendUpgrade hw hs (List.cons_ne_nil _ _))
      · unfold Llc.processExReqToDirectory
        split
        · rename_i hinv
          exact Ensures.ok (h.sendMiss hw hinv rfl (Access.write w))
        · exact Ensures.error trivial
  · rename_i hw
    exact h.addWaiter hw a

/-- A result that is only paired with a value. -/
theorem map_pair {x : Except Fault (Llc V)} (hx : Ensures x (NodeInv v) fun _ => True) (last : V) :
    Ensures (x.map fun l' => (l', last)) (fun r => NodeInv v r.1) fun _ => True := by
  cases x with
  | ok l' => exact hx
  | error f => exact trivial

/-- A core reads or writes. -/
theorem access (h : NodeInv v l) (a : Access V) (last : V) :
    Ensures (l.access a last) (fun r => NodeInv v r.1) fun _ => True := by
  unfold Llc.access
  cases a with
  | read =>
    cases hc : l.cstate with
    | invalid => exact map_pair (h.initiateDirectoryAccess (.inl hc)) last
    | sharedUpgrading => exact map_pair (h.initiateDirectoryAccess (.inr (.inl hc))) last
    | shared => exact h
    | exclusive => exact h
    | modified => exact h
  | write w =>
    cases hc : l.cstate with
    | invalid => exact map_pair (h.initiateDirectoryAccess (.inl hc)) last
    | sharedUpgrading => exact map_pair (h.initiateDirectoryAccess (.inr (.inl hc))) last
    | shared => exact map_pair (h.initiateDirectoryAccess (.inr (.inr ⟨hc, by simp⟩))) last
    | exclusive => exact h.silentUpgrade hc (some w)
    | modified =>
      have := h.setData (some w)
      rw [hc] at this
      exact this

/-- A `MODIFIED` line is not between the messages of a write-back. -/
theorem noWbRep (h : NodeInv v l) (hex : l.Excl) : l.tx.countP isWbRep = 0 := by
  by_contra hne
  exact (h.wbRep (by omega)).1 hex

/-- The line is evicted. -/
theorem evict (h : NodeInv v l) : Ensures l.evict (NodeInv v) fun _ => True := by
  unfold Llc.evict
  split
  · exact Ensures.ok h
  · rename_i hc
    have hex : l.Excl := .inr (.inl hc)
    exact Ensures.ok (h.leave (by simp [hc]) rfl (fun _ => .inr (h.excl hex)) fun _ => h.noWbRep hex)
  · rename_i hc
    exact Ensures.ok (h.leave (by simp [hc]) rfl (by simp [isFlushRep]) (by simp [isFlushRep]))
  · rename_i hc
    exact Ensures.ok (h.leave (by simp [hc]) rfl (by simp [isFlushRep]) (by simp [isFlushRep]))
  · exact Ensures.error trivial

end NodeInv

namespace Llc

/-- The waiters of a `SHARED` line: reads are woken, the first write goes on as an upgrade. -/
theorem wakeWaiters_shared (ws : List (Access V)) {l : Llc V} (hc : l.cstate = .shared) (last : V) :
    wakeWaiters ws l last = ({ l with waiters := [] }, last) ∨
    ∃ v ws', wakeWaiters ws l last =
      ({ l with waiters := .write v :: ws' }.processUpgradeReqToDirectory, last) := by
  induction ws with
  | nil => exact .inl rfl
  | cons a ws ih =>
    cases a with
    | read => exact ih
    | write v => exact .inr ⟨v, ws, by simp [wakeWaiters, hc]⟩

/-- The waiters of a line that can be written are all woken. -/
theorem wakeWaiters_owned (ws : List (Access V)) {l : Llc V}
    (hc : l.cstate = .exclusive ∨ l.cstate = .modified) (last : V) :
    ∃ c d, (wakeWaiters ws l last).1 = { l with cstate := c, data := d, waiters := [] } ∧
      (c = .exclusive ∨ c = .modified) ∧ (l.cstate = .modified → c = .modified) := by
  induction ws generalizing l last with
  | nil => exact ⟨l.cstate, l.data, rfl, hc, id⟩
  | cons a ws ih =>
    cases a with
    | read => exact ih hc last
    | write v =>
      have hs : l.cstate ≠ .shared := by rcases hc with hc | hc <;> simp [hc]
      obtain ⟨c, d, heq, hc', hmod⟩ := ih (l := { l with cstate := .modified, data := some v }) (.inr rfl) v
      refine ⟨c, d, ?_, hc', fun _ => hmod rfl⟩
      rw [wakeWaiters, if_neg hs, heq]

end Llc

namespace NodeInv

variable {v : View} {l : Llc V}

/-- A message of the directory is handled. -/
theorem handleMsg {m : DirMsg V} {rx : List (DirMsg V)} (h : NodeInv v l) (hrx : l.rx = m :: rx)
    (last : V) : Ensures ({ l with rx := rx }.handleMsg m last) (fun r => NodeInv v r.1) fun _ => True := by
  unfold Llc.handleMsg
  cases m with
  | shRep d =>
    dsimp only [Llc.handleReply, Llc.insertCacheBlock]
    split
    · exact Ensures.error trivial
    split
    · rename_i hc
      refine Ensures.ok ?_
      dsimp only
      have hall := h.takeData (d := d) hrx rfl hc (.inl rfl)
      rcases Llc.wakeWaiters_shared l.waiters
        (l := { l with cstate := .shared, data := d, rx := rx }) rfl last with heq | ⟨w, ws, heq⟩
      · rw [heq]
        exact hall
      · rw [heq]
        exact hall.sendUpgrade rfl rfl (List.cons_ne_nil _ _)
    · exact Ensures.error trivial
  | exRep d =>
    dsimp only [Llc.handleReply, Llc.insertCacheBlock]
    split
    · exact Ensures.error trivial
    split
    · rename_i hc
      refine Ensures.ok ?_
      dsimp only
      obtain ⟨c, d', heq, hc', -⟩ := Llc.wakeWaiters_owned l.waiters
        (l := { l with cstate := .exclusive, data := d, rx := rx }) (.inl rfl) last
      rw [heq]
      exact h.takeData hrx rfl hc (.inr ⟨rfl, hc'⟩)
    · exact Ensures.error trivial
  | upgradeRep =>
    dsimp only [Llc.handleReply, Llc.processUpgradeRep]
    split
    · exact Ensures.error trivial
    split
    · exact Ensures.error trivial
    · rename_i hc
      refine Ensures.ok ?_
      dsimp only
      obtain ⟨c, d', heq, -, hc'⟩ := Llc.wakeWaiters_owned l.waiters
        (l := { l with cstate := .modified, rx := rx }) (.inr rfl) last
      rw [heq, hc' rfl]
      exact h.takeUpgrade hrx hc
    · exact Ensures.error trivial
  | invReq =>
    refine map_pair ?_ last
    have hpop := h.popDemand hrx rfl
    unfold Llc.processInvReq
    split
    · exact hpop
    · exact Ensures.error trivial
    · rename_i hc _
      exact hpop.leave hc rfl (by simp [isFlushRep]) (by simp [isFlushRep])
  | flushReq =>
    have hpop := h.popDemand hrx rfl
    refine Ensures.ok ?_
    dsimp only
    unfold Llc.processFlushReq
    split
    · exact hpop
    · rename_i hc
      have hfl : v.flush = true := h.flushReq (by simp [Llc.hot_of_held (l := l) hc, hrx, isFlushReq])
      refine hpop.leave hc rfl (fun _ => .inl hfl) fun _ => ?_
      have hwb := hpop.writeBacks
      have hnot : v.writeBack = false := by
        by_contra hne
        simp [h.notBoth (by simpa using hne)] at hfl
      simp only [hnot, Bool.toNat_false] at hwb
      exact Nat.eq_zero_of_add_eq_zero_left (Nat.le_zero.mp hwb)
  | wbReq =>
    refine Ensures.ok ?_
    dsimp only
    unfold Llc.processWbReq
    split
    · exact h.popDemand hrx rfl
    · rename_i hc
      simp only at hc
      have := h.answerWriteBack (d := none) (c := .sharedUpgrading) hrx (by simp [hc]) (.inr ⟨rfl, hc⟩)
      simpa [hc] using this
    · rename_i hc _
      exact h.answerWriteBack hrx hc (.inl rfl)

end NodeInv

end LifeSim.Directory
