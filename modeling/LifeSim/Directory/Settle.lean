import LifeSim.Directory.Progress

/-!
# How much there is to do

What the handlers leave as it is: the directory neither wakes a waiter nor touches what the caches send, a
message that is no request leaves the number of requests alone, and a cache answers a message at most once.
-/

namespace LifeSim.Directory

open LifeSim.Lib DirMsg LlcMsg State

variable {n : ℕ} {V : Type}

/-- The directory only adds to what the caches receive. -/
def SameCaches (s s' : State n V) : Prop :=
  ∀ x, (s'.llc x).waiters = (s.llc x).waiters ∧ (s'.llc x).tx = (s.llc x).tx

/-- A handler leaves the number of requests as it is. -/
def Keeps (s s' : State n V) : Prop :=
  s'.queue.length = s.queue.length ∧ SameCaches s s'

section Handlers

variable {s s' t : State n V} {f : ShmemReq n} {rest : List (ShmemReq n)} {cfg : Config n} {env : Env}
  {x : Fin n}

theorem SameCaches.trans (h : SameCaches s s') (h' : SameCaches s' t) : SameCaches s t := fun x =>
  ⟨(h' x).1.trans (h x).1, (h' x).2.trans (h x).2⟩

/-- The caches and the length of the queue are the same. -/
theorem keeps_of_eq (hq : s'.queue.length = s.queue.length) (hl : s'.llc = s.llc) : Keeps s s' :=
  ⟨hq, fun x => by rw [hl]; exact ⟨rfl, rfl⟩⟩

theorem Keeps.trans (h : Keeps s s') (h' : Keeps s' t) : Keeps s t :=
  ⟨h'.1.trans h.1, h.2.trans h'.2⟩

theorem keeps_sendMsg (m : DirMsg V) : Keeps s (s.sendMsg x m) := by
  refine ⟨rfl, fun y => ?_⟩
  rw [sendMsg_llc]
  split <;> exact ⟨rfl, rfl⟩

theorem keeps_sendMsgs (msgs : List (Fin n × DirMsg V)) : Keeps s (s.sendMsgs msgs) := by
  unfold sendMsgs
  induction msgs generalizing s with
  | nil => exact keeps_of_eq rfl rfl
  | cons q msgs ih => exact (keeps_sendMsg q.2).trans (ih (s := s.sendMsg q.1 q.2))

theorem keeps_sendDataToNUCA (d : Option V) : Keeps s (s.sendDataToNUCA cfg env d) := by
  obtain ⟨-, hq, hl, -⟩ := sendDataToNUCA_same cfg env d s
  exact keeps_of_eq (by rw [hq]) hl

theorem keeps_sendDataToDram (d : Option V) : Keeps s (s.sendDataToDram cfg env d) := by
  obtain ⟨-, hq, hl, -⟩ := sendDataToDram_same cfg env d s
  exact keeps_of_eq (by rw [hq]) hl

/-- `retrieveDataAndSendToL2Cache`. -/
theorem retrieveData_keeps (rep : Option V → DirMsg V) (buf : Option (Option V)) (e : DirectoryEntry n) :
    Ensures (s.retrieveDataAndSendToL2Cache cfg rep x buf e) (fun r => Keeps s r.1) fun _ => True := by
  have hreply : ∀ (u : State n V) (m : DirMsg V), Keeps u (u.sendReply x m) := fun u m =>
    keeps_sendMsg (s := u) m
  have hset : ∀ e', Keeps s (s.setEntry e') := fun _ => keeps_of_eq rfl rfl
  unfold retrieveDataAndSendToL2Cache
  split
  · exact Ensures.ok ((hset _).trans (hreply _ _))
  · split
    · exact Ensures.ok ((hset _).trans (hreply _ _))
    · unfold fetchData
      split
      · exact Ensures.error trivial
      · rename_i req rest hq
        have hlen : ∀ g : ShmemReq n, (g :: rest).length = s.queue.length := fun g => by
          rw [show s.queue = req :: rest from hq]
          rfl
        split
        · rename_i y _
          have hfwd : Keeps s { s.setEntry e with queue := { req with forwardingFrom := some y } :: rest } :=
            keeps_of_eq (hlen _) rfl
          exact Ensures.ok (hfwd.trans (keeps_sendMsg _))
        · exact Ensures.ok (keeps_of_eq (hlen _) rfl)

/-- The owner gets a message. -/
theorem getOwner_keeps (e : DirectoryEntry n) (m : DirMsg V) :
    Ensures (do let owner ← e.getOwner; .ok (s.sendMsg owner m, false))
      (fun r => Keeps s r.1) fun _ => True :=
  Ensures.bind_any fun _ => Ensures.ok (keeps_sendMsg m)

/-- `processExReqFromL2Cache`. -/
theorem processExReq_keeps (buf : Option (Option V)) :
    Ensures (s.processExReqFromL2Cache cfg f buf) (fun r => Keeps s r.1) fun _ => True := by
  unfold processExReqFromL2Cache
  dsimp only
  split
  · split
    · exact Ensures.error trivial
    · exact getOwner_keeps _ _
  · split
    · exact Ensures.error trivial
    · exact getOwner_keeps _ _
  · split
    · exact Ensures.error trivial
    · exact Ensures.ok (keeps_sendMsgs _)
  · exact Ensures.bind_any fun _ => Ensures.bind_any fun _ => retrieveData_keeps _ _ _

theorem writeBackOwner_keeps (buf : Option (Option V)) (e : DirectoryEntry n) :
    Ensures (s.writeBackOwner buf e) (fun r => Keeps s r.1) fun _ => True := by
  unfold State.writeBackOwner
  split
  · exact Ensures.error trivial
  · exact getOwner_keeps _ _

theorem makeRoom_keeps (e : DirectoryEntry n) :
    Ensures (s.makeRoom env e) (fun r => Keeps s r.1) fun _ => True := by
  unfold State.makeRoom
  split
  · exact Ensures.error trivial
  · rename_i req rest hq
    refine Ensures.bind_any fun y => Ensures.ok ?_
    have hvictim : Keeps s { s with queue := { req with victim := some y } :: rest } :=
      keeps_of_eq (by rw [hq]; rfl) rfl
    exact hvictim.trans (keeps_sendMsg _)

/-- `processShReqFromL2Cache`. -/
theorem processShReq_keeps (buf : Option (Option V)) :
    Ensures (s.processShReqFromL2Cache cfg env f buf) (fun r => Keeps s r.1) fun _ => True := by
  unfold processShReqFromL2Cache
  dsimp only
  split
  · split
    · exact Ensures.error trivial
    · exact writeBackOwner_keeps _ _
  · exact writeBackOwner_keeps _ _
  · split
    · exact retrieveData_keeps _ _ _
    · refine Ensures.bind_any fun e => ?_
      split
      · exact makeRoom_keeps _
      · exact retrieveData_keeps _ _ _
  · refine Ensures.bind_any fun _ => Ensures.bind_any fun _ => ?_
    split
    · exact retrieveData_keeps _ _ _
    · exact retrieveData_keeps _ _ _

/-- `processUpgradeReqFromL2Cache`. -/
theorem processUpgradeReq_keeps (buf : Option (Option V)) :
    Ensures (s.processUpgradeReqFromL2Cache cfg f buf) (fun r => Keeps s r.1) fun _ => True := by
  have hreply : ∀ e m, Keeps s ((s.setEntry e).sendReply f.requester m) := fun e m =>
    keeps_sendMsg (s := s.setEntry e) m
  have howned : ∀ e, Ensures (s.upgradeOwned f.requester e) (fun r => Keeps s r.1) fun _ => True := by
    intro e
    unfold State.upgradeOwned
    split
    · exact Ensures.error trivial
    · split
      · split
        · exact Ensures.ok (hreply _ _)
        · exact Ensures.error trivial
      · exact getOwner_keeps _ _
  unfold processUpgradeReqFromL2Cache
  dsimp only
  split
  · exact howned _
  · exact howned _
  · unfold State.upgradeShared
    split
    · exact Ensures.bind_any fun _ => Ensures.ok (hreply _ _)
    · exact Ensures.ok (keeps_sendMsgs _)
  · split
    · exact Ensures.error trivial
    · exact Ensures.bind_any fun _ => Ensures.bind_any fun _ => retrieveData_keeps _ _ _

/-- `processNullifyReq`. -/
theorem processNullifyReq_keeps :
    Ensures s.processNullifyReq (fun r => Keeps s r.1) fun _ => True := by
  unfold State.processNullifyReq
  split
  · exact Ensures.error trivial
  · split
    · exact getOwner_keeps _ _
    · exact getOwner_keeps _ _
    · exact Ensures.ok (keeps_sendMsgs _)
    · exact Ensures.ok (keeps_of_eq rfl rfl)

/-- The first work on a request. -/
theorem processReq_keeps : Ensures (s.processReq cfg env f) (fun r => Keeps s r.1) fun _ => True := by
  unfold State.processReq
  split
  · exact processExReq_keeps none
  · exact processShReq_keeps none
  · exact processUpgradeReq_keeps none
  · exact Ensures.error trivial

/-- `processNextReqFromL2Cache` takes a request from the queue. -/
theorem processNextReq_keeps (k : ℕ) : Ensures (processNextReqFromL2Cache cfg env k s)
    (fun s' => s'.queue.length < s.queue.length ∧ SameCaches s s') fun _ => True := by
  induction k generalizing s with
  | zero => exact Ensures.error trivial
  | succ k ih =>
    unfold processNextReqFromL2Cache
    split
    · exact Ensures.error trivial
    · rename_i hq
      exact Ensures.ok ⟨by simp [hq], fun x => ⟨rfl, rfl⟩⟩
    · rename_i g rest hq
      refine processReq_keeps.bind fun r hr => ?_
      obtain ⟨u, completed⟩ := r
      obtain ⟨hlen, hsame⟩ := hr
      have hless : u.queue.length < s.queue.length := by
        rw [hlen, hq]
        exact Nat.lt_succ_self _
      dsimp only
      cases completed with
      | true => exact ih.mono (fun t ht => ⟨ht.1.trans hless, hsame.trans ht.2⟩) fun _ => id
      | false => exact Ensures.ok ⟨hless, hsame⟩

/-- An `INV_REP` and the request at the front. -/
theorem resumeAfterInv_keeps (e : DirectoryEntry n) :
    Ensures (s.resumeAfterInv cfg env x e) (fun r => Keeps s r.1) fun _ => True := by
  have hrefl : Keeps s s := keeps_of_eq rfl rfl
  unfold State.resumeAfterInv
  split
  · exact Ensures.ok hrefl
  · split
    · split
      · exact processExReq_keeps none
      · exact Ensures.ok hrefl
    · split
      · split
        · exact processUpgradeReq_keeps none
        · exact Ensures.ok hrefl
      · split
        · exact processUpgradeReq_keeps none
        · exact Ensures.ok hrefl
    · split
      · exact Ensures.ok hrefl
      · split
        · exact Ensures.ok hrefl
        · exact processShReq_keeps none
    · split
      · exact processNullifyReq_keeps
      · exact Ensures.ok hrefl

/-- A `FLUSH_REP` and the request at the front. -/
theorem resumeAfterFlush_keeps (d : Option V) (e : DirectoryEntry n) :
    Ensures (s.resumeAfterFlush cfg env d e) (fun r => Keeps s r.1) fun _ => True := by
  have hdram : Keeps s (s.sendDataToDram cfg env d) := keeps_sendDataToDram d
  unfold State.resumeAfterFlush
  split
  · exact Ensures.ok hdram
  · rename_i req rest hq
    split
    · exact processExReq_keeps _
    · exact (processShReq_keeps _).mono (fun r hr => hdram.trans hr) fun _ => id
    · split
      · exact processUpgradeReq_keeps _
      · exact Ensures.ok (keeps_of_eq (by rw [hq]; rfl) rfl)
    · exact processNullifyReq_keeps.mono (fun r hr => hdram.trans hr) fun _ => id

/-- A message of a cache that is no request. -/
theorem handleMsg_keeps {m : LlcMsg V} (hm : m.isReq = false) :
    Ensures (s.handleMsgFromL2Cache cfg env x m) (fun r => Keeps s r.1) fun _ => True := by
  unfold handleMsgFromL2Cache
  cases m with
  | exReq => cases hm
  | shReq => cases hm
  | upgradeReq => cases hm
  | invRep =>
    dsimp only
    unfold processInvRepFromL2Cache
    split
    · exact Ensures.error trivial
    · split
      · exact Ensures.bind_any fun _ => resumeAfterInv_keeps _
      · exact Ensures.error trivial
  | flushRep d =>
    dsimp only
    unfold processFlushRepFromL2Cache
    split
    · exact Ensures.error trivial
    · split
      · refine Ensures.bind_any fun _ => ?_
        dsimp only
        split
        · exact Ensures.error trivial
        · exact resumeAfterFlush_keeps _ _
      · exact Ensures.error trivial
  | wbRep d =>
    dsimp only
    unfold processWbRepFromL2Cache
    split
    · exact Ensures.error trivial
    · split
      · dsimp only
        split
        · exact Ensures.error trivial
        · split
          · exact processShReq_keeps _
          · exact Ensures.error trivial
      · exact Ensures.error trivial

/-- A request of a cache. -/
theorem enqueueReq_keeps (k : ReqType) :
    Ensures (s.enqueueReq cfg env k x) (fun r => SameCaches s r.1) fun _ => True := by
  unfold State.enqueueReq
  dsimp only
  split
  · exact processReq_keeps.mono (fun r hr => hr.2) fun _ => id
  · exact Ensures.ok fun y => ⟨rfl, rfl⟩

end Handlers

/-- Data from memory. -/
theorem processDRAMReply_keeps {s : State n V} {cfg : Config n} {env : Env} (d : Option V) :
    Ensures (s.processDRAMReply cfg env d) (fun r => r.2 = true ∧ Keeps s r.1) fun _ => True := by
  unfold State.processDRAMReply
  split
  · exact Ensures.error trivial
  · exact Ensures.error trivial
  · rename_i f _ e _ _
    refine Ensures.bind_any fun rep => Ensures.ok ⟨rfl, ?_⟩
    have hreply : Keeps s (s.sendReply f.requester (rep d)) := keeps_sendMsg (s := s) (x := f.requester) (rep d)
    exact hreply.trans (keeps_sendDataToNUCA d)

namespace Llc

/-- What is left of the waiters. -/
theorem wakeWaiters_length (ws : List (Access V)) (l : Llc V) (last : V) :
    (wakeWaiters ws l last).1.waiters.length ≤ ws.length := by
  induction ws generalizing l last with
  | nil => exact le_rfl
  | cons a ws ih =>
    cases a with
    | read => exact (ih l last).trans (Nat.le_succ _)
    | write v =>
      rw [wakeWaiters]
      split
      · exact le_rfl
      · exact (ih _ v).trans (Nat.le_succ _)

/-- The first waiter is woken when it reads, or when the line may be written. -/
theorem wakeWaiters_first {ws : List (Access V)} {l : Llc V} (hne : ws ≠ [])
    (h : ws.head? = some .read ∨ l.cstate ≠ .shared) (last : V) :
    (wakeWaiters ws l last).1.waiters.length < ws.length := by
  cases ws with
  | nil => exact absurd rfl hne
  | cons a ws =>
    refine Nat.lt_succ_of_le ?_
    cases a with
    | read => exact wakeWaiters_length ws l last
    | write v =>
      have hc : l.cstate ≠ .shared := h.resolve_left (by simp)
      rw [wakeWaiters, if_neg hc]
      exact wakeWaiters_length ws _ v

/-- A reply wakes somebody. -/
theorem handleMsg_reply {v : View} {l : Llc V} {m : DirMsg V} {rx : List (DirMsg V)} {leave wb : Bool}
    (h : Prompt v.dstate v.queued leave wb l) (hi : NodeInv v l) (hrx : l.rx = m :: rx)
    (hm : m.isRep = true) (last : V) :
    Ensures ({ l with rx := rx }.handleMsg m last) (fun r => r.1.waiters.length < l.waiters.length)
      fun _ => True := by
  have hne := Prompt.waiters_of_rep hi hrx hm
  unfold Llc.handleMsg
  cases m with
  | shRep d =>
    dsimp only [Llc.handleReply, Llc.insertCacheBlock]
    rw [if_neg hne]
    split
    · exact Ensures.ok (wakeWaiters_first hne (.inl (h.shRep (by simp [hrx, isShRep]))) last)
    · exact Ensures.error trivial
  | exRep d =>
    dsimp only [Llc.handleReply, Llc.insertCacheBlock]
    rw [if_neg hne]
    split
    · exact Ensures.ok (wakeWaiters_first hne (.inr (by simp)) last)
    · exact Ensures.error trivial
  | upgradeRep =>
    dsimp only [Llc.handleReply, Llc.processUpgradeRep]
    rw [if_neg hne]
    split
    · exact Ensures.error trivial
    · exact Ensures.ok (wakeWaiters_first hne (.inr (by simp)) last)
    · exact Ensures.error trivial
  | invReq => cases hm
  | flushReq => cases hm
  | wbReq => cases hm

/-- A message that is no reply wakes nobody, and is answered at most once. -/
theorem handleMsg_demand {l : Llc V} {m : DirMsg V} (hm : m.isRep = false) (last : V) :
    Ensures (l.handleMsg m last) (fun r => r.1.waiters = l.waiters ∧ r.1.rx = l.rx ∧
      r.1.tx.countP isReq = l.tx.countP isReq ∧ r.1.tx.length ≤ l.tx.length + 1) fun _ => True := by
  have hsame : l.waiters = l.waiters ∧ l.rx = l.rx ∧ l.tx.countP isReq = l.tx.countP isReq ∧
      l.tx.length ≤ l.tx.length + 1 := ⟨rfl, rfl, rfl, Nat.le_succ _⟩
  have hsend : ∀ r : LlcMsg V, r.isReq = false →
      (l.tx ++ [r]).countP isReq = l.tx.countP isReq ∧ (l.tx ++ [r]).length ≤ l.tx.length + 1 :=
    fun r hr => ⟨by simp [hr], by simp⟩
  unfold Llc.handleMsg
  cases m with
  | shRep d => cases hm
  | exRep d => cases hm
  | upgradeRep => cases hm
  | invReq =>
    dsimp only
    unfold Llc.processInvReq
    split
    · exact Ensures.ok hsame
    · exact Ensures.error trivial
    · exact Ensures.ok ⟨rfl, rfl, hsend _ rfl⟩
  | flushReq =>
    refine Ensures.ok ?_
    dsimp only
    unfold Llc.processFlushReq
    split
    · exact hsame
    · exact ⟨rfl, rfl, hsend _ rfl⟩
  | wbReq =>
    refine Ensures.ok ?_
    dsimp only
    unfold Llc.processWbReq
    split
    · exact hsame
    · exact ⟨rfl, rfl, hsend _ rfl⟩
    · exact ⟨rfl, rfl, hsend _ rfl⟩

end Llc

end LifeSim.Directory
