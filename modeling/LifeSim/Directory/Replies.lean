import LifeSim.Directory.Swmr

/-!
# Every request is answered once, in the order of arrival

The replies that have been sent, followed by the requests that are in the queue, are the requests that have arrived. A
handler sends a reply when it is done with the request at the front, to the sender of this request, and no other message
is a reply. What a cache waits for is in one place only: its request is on its way or in the queue, or the reply is on
its way.
-/

namespace LifeSim.Directory

open LifeSim.Lib DirMsg LlcMsg State

variable {n : ℕ} {V : Type}

/-- The senders of the requests in a queue. -/
def waitingFor (queue : List (ShmemReq n)) : List (Fin n) :=
  (queue.filter fun f => f.msgType ≠ .nullifyReq).map (·.requester)

/-- What has arrived has been answered or is in the queue. -/
def InOrder (s : State n V) : Prop := s.replied ++ waitingFor s.queue = s.arrived

/-- A handler has answered the request at the front, or has left the queue as it was. -/
def Answers (r : Outcome n V) : Prop :=
  if r.2 = true then ∃ f rest, r.1.queue = f :: rest ∧ r.1.replied ++ waitingFor rest = r.1.arrived else InOrder r.1

section Queue

variable {f g : ShmemReq n} {rest : List (ShmemReq n)}

theorem waitingFor_cons (hf : f.msgType ≠ .nullifyReq) :
    waitingFor (f :: rest) = f.requester :: waitingFor rest := by simp [waitingFor, hf]

theorem waitingFor_nullify (hf : f.msgType = .nullifyReq) : waitingFor (f :: rest) = waitingFor rest := by
  simp [waitingFor, hf]

theorem waitingFor_front (hm : g.msgType = f.msgType) (hr : g.requester = f.requester) :
    waitingFor (g :: rest) = waitingFor (f :: rest) := by
  unfold waitingFor
  rw [List.filter_cons, List.filter_cons, hm]
  split
  · rw [List.map_cons, List.map_cons, hr]
  · rfl

end Queue

namespace State

variable (s : State n V)

theorem sendMsgs_history (msgs : List (Fin n × DirMsg V)) :
    (s.sendMsgs msgs).replied = s.replied ∧ (s.sendMsgs msgs).arrived = s.arrived := by
  unfold sendMsgs
  induction msgs generalizing s with
  | nil => exact ⟨rfl, rfl⟩
  | cons q msgs ih => exact ih (s.sendMsg q.1 q.2)

theorem sendDataToNUCA_history (cfg : Config n) (env : Env) (d : Option V) :
    (s.sendDataToNUCA cfg env d).replied = s.replied ∧ (s.sendDataToNUCA cfg env d).arrived = s.arrived := by
  unfold sendDataToNUCA
  split
  · split
    · exact ⟨rfl, rfl⟩
    · exact ⟨rfl, rfl⟩
  · exact ⟨rfl, rfl⟩

theorem sendDataToDram_history (cfg : Config n) (env : Env) (d : Option V) :
    (s.sendDataToDram cfg env d).replied = s.replied ∧ (s.sendDataToDram cfg env d).arrived = s.arrived := by
  unfold sendDataToDram
  split
  · exact sendDataToNUCA_history s cfg env d
  · exact ⟨rfl, rfl⟩

end State

section Handlers

variable {s s' : State n V} {f : ShmemReq n} {rest : List (ShmemReq n)} {cfg : Config n} {env : Env}

theorem InOrder.congr (h : InOrder s) (hq : waitingFor s'.queue = waitingFor s.queue) (hr : s'.replied = s.replied)
    (ha : s'.arrived = s.arrived) : InOrder s' := by
  rw [InOrder, hq, hr, ha]
  exact h

/-- The request at the front waits. -/
theorem InOrder.wait (h : InOrder s) (hq : waitingFor s'.queue = waitingFor s.queue) (hr : s'.replied = s.replied)
    (ha : s'.arrived = s.arrived) : Answers (s', false) := h.congr hq hr ha

/-- The caches are asked for their copies. -/
theorem InOrder.ask (h : InOrder s) (msgs : List (Fin n × DirMsg V)) : Answers (s.sendMsgs msgs, false) := by
  obtain ⟨hr, ha⟩ := s.sendMsgs_history msgs
  exact h.wait (by rw [sendMsgs_queue]) hr ha

/-- The request at the front is answered. -/
theorem InOrder.answer (h : InOrder s) (hq : s.queue = f :: rest) (hf : f.msgType ≠ .nullifyReq)
    (hq' : s'.queue = s.queue) (hr : s'.replied = s.replied ++ [f.requester]) (ha : s'.arrived = s.arrived) :
    Answers (s', true) := by
  refine ⟨f, rest, by rw [hq', hq], ?_⟩
  dsimp only
  rw [hr, ha, List.append_assoc, List.singleton_append, ← waitingFor_cons hf, ← hq]
  exact h

/-- `retrieveDataAndSendToL2Cache`. -/
theorem InOrder.retrieveData (h : InOrder s) (hq : s.queue = f :: rest) (hf : f.msgType ≠ .nullifyReq)
    (rep : Option V → DirMsg V) (buf : Option (Option V)) (e : DirectoryEntry n) :
    Ensures (s.retrieveDataAndSendToL2Cache cfg rep f.requester buf e) Answers fun _ => True := by
  unfold retrieveDataAndSendToL2Cache
  split
  · exact Ensures.ok (h.answer hq hf rfl rfl rfl)
  · split
    · exact Ensures.ok (h.answer hq hf rfl rfl rfl)
    · have hq' : (s.setEntry e).queue = f :: rest := hq
      unfold fetchData
      rw [hq']
      dsimp only
      split
      · rename_i y _
        refine Ensures.ok (h.wait ?_ rfl rfl)
        rw [hq]
        exact waitingFor_front (f := f) (g := { f with forwardingFrom := some y }) rfl rfl
      · refine Ensures.ok (h.wait ?_ rfl rfl)
        rw [hq]
        exact waitingFor_front (f := f) (g := { f with waitForData := true }) rfl rfl

theorem InOrder.getOwner (h : InOrder s) (e : DirectoryEntry n) (m : DirMsg V) :
    Ensures (do let owner ← e.getOwner; .ok (s.sendMsg owner m, false)) Answers fun _ => True :=
  Ensures.bind_any fun o => Ensures.ok (h.ask [(o, m)])

/-- `processExReqFromL2Cache`. -/
theorem InOrder.processExReq (h : InOrder s) (hq : s.queue = f :: rest) (hf : f.msgType ≠ .nullifyReq)
    (buf : Option (Option V)) : Ensures (s.processExReqFromL2Cache cfg f buf) Answers fun _ => True := by
  unfold processExReqFromL2Cache
  dsimp only
  split
  · split
    · exact Ensures.error trivial
    · exact h.getOwner _ _
  · split
    · exact Ensures.error trivial
    · exact h.getOwner _ _
  · split
    · exact Ensures.error trivial
    · exact Ensures.ok (h.ask _)
  · exact Ensures.bind_any fun e => Ensures.bind_any fun e' => h.retrieveData hq hf _ _ _

theorem InOrder.writeBackOwner (h : InOrder s) (buf : Option (Option V)) (e : DirectoryEntry n) :
    Ensures (s.writeBackOwner buf e) Answers fun _ => True := by
  unfold State.writeBackOwner
  split
  · exact Ensures.error trivial
  · exact h.getOwner _ _

theorem InOrder.makeRoom (h : InOrder s) (e : DirectoryEntry n) :
    Ensures (s.makeRoom env e) Answers fun _ => True := by
  unfold State.makeRoom
  split
  · exact Ensures.error trivial
  · rename_i req rest hq
    refine Ensures.bind_any fun y => Ensures.ok (h.wait ?_ rfl rfl)
    rw [hq]
    exact waitingFor_front (f := req) (g := { req with victim := some y }) rfl rfl

/-- `processShReqFromL2Cache`. -/
theorem InOrder.processShReq (h : InOrder s) (hq : s.queue = f :: rest) (hf : f.msgType ≠ .nullifyReq)
    (buf : Option (Option V)) : Ensures (s.processShReqFromL2Cache cfg env f buf) Answers fun _ => True := by
  unfold processShReqFromL2Cache
  dsimp only
  split
  · split
    · exact Ensures.error trivial
    · exact h.writeBackOwner _ _
  · exact h.writeBackOwner _ _
  · split
    · exact h.retrieveData hq hf _ _ _
    · refine Ensures.bind_any fun e => ?_
      split
      · exact h.makeRoom _
      · exact h.retrieveData hq hf _ _ _
  · refine Ensures.bind_any fun e => Ensures.bind_any fun e' => ?_
    split
    · exact h.retrieveData hq hf _ _ _
    · exact h.retrieveData hq hf _ _ _

theorem InOrder.upgradeOwned (h : InOrder s) (hq : s.queue = f :: rest) (hf : f.msgType ≠ .nullifyReq)
    (e : DirectoryEntry n) : Ensures (s.upgradeOwned f.requester e) Answers fun _ => True := by
  unfold State.upgradeOwned
  split
  · exact Ensures.error trivial
  · split
    · split
      · exact Ensures.ok (h.answer hq hf rfl rfl rfl)
      · exact Ensures.error trivial
    · exact h.getOwner _ _

theorem InOrder.upgradeShared (h : InOrder s) (hq : s.queue = f :: rest) (hf : f.msgType ≠ .nullifyReq)
    (e : DirectoryEntry n) : Ensures (s.upgradeShared f.requester e) Answers fun _ => True := by
  unfold State.upgradeShared
  split
  · exact Ensures.bind_any fun e' => Ensures.ok (h.answer hq hf rfl rfl rfl)
  · exact Ensures.ok (h.ask _)

/-- `processUpgradeReqFromL2Cache`. -/
theorem InOrder.processUpgradeReq (h : InOrder s) (hq : s.queue = f :: rest) (hf : f.msgType ≠ .nullifyReq)
    (buf : Option (Option V)) : Ensures (s.processUpgradeReqFromL2Cache cfg f buf) Answers fun _ => True := by
  unfold processUpgradeReqFromL2Cache
  dsimp only
  split
  · exact h.upgradeOwned hq hf _
  · exact h.upgradeOwned hq hf _
  · exact h.upgradeShared hq hf _
  · split
    · exact Ensures.error trivial
    · exact Ensures.bind_any fun e => Ensures.bind_any fun e' => h.retrieveData hq hf _ _ _

/-- `processNullifyReq`. -/
theorem InOrder.processNullifyReq (h : InOrder s) (hq : s.queue = f :: rest) (hf : f.msgType = .nullifyReq) :
    Ensures s.processNullifyReq Answers fun _ => True := by
  unfold State.processNullifyReq
  split
  · exact Ensures.error trivial
  · split
    · exact h.getOwner _ _
    · exact h.getOwner _ _
    · exact Ensures.ok (h.ask _)
    · refine Ensures.ok ⟨f, rest, hq, ?_⟩
      rw [← waitingFor_nullify hf, ← hq]
      exact h

/-- The first work on a request. -/
theorem InOrder.processReq (h : InOrder s) (hq : s.queue = f :: rest) :
    Ensures (s.processReq cfg env f) Answers fun _ => True := by
  unfold State.processReq
  split
  · rename_i hk
    exact h.processExReq hq (by simp [hk]) none
  · rename_i hk
    exact h.processShReq hq (by simp [hk]) none
  · rename_i hk
    exact h.processUpgradeReq hq (by simp [hk]) none
  · exact Ensures.error trivial

/-- The requests behind one that is done. -/
theorem processNextReq_inOrder (k : ℕ) (hq : ∃ f rest, s.queue = f :: rest ∧ s.replied ++ waitingFor rest = s.arrived) :
    Ensures (processNextReqFromL2Cache cfg env k s) InOrder fun _ => True := by
  induction k generalizing s with
  | zero => exact Ensures.error trivial
  | succ k ih =>
    obtain ⟨f, rest, hqueue, horder⟩ := hq
    unfold processNextReqFromL2Cache
    rw [hqueue]
    cases rest with
    | nil => exact Ensures.ok horder
    | cons g rest =>
      have hg : InOrder ({ s with queue := g :: rest } : State n V) := horder
      refine (hg.processReq rfl).bind fun r hr => ?_
      obtain ⟨s', completed⟩ := r
      cases completed with
      | true => exact ih hr
      | false => exact Ensures.ok hr

theorem finish_inOrder {r : Outcome n V} (hr : Answers r) : Ensures (finish cfg env r) InOrder fun _ => True := by
  obtain ⟨s', completed⟩ := r
  cases completed with
  | true => exact processNextReq_inOrder _ hr
  | false => exact Ensures.ok hr

/-- A request of a cache arrives. -/
theorem InOrder.enqueueReq (h : InOrder s) {k : ReqType} (hk : k ≠ .nullifyReq) (x : Fin n) :
    Ensures (s.enqueueReq cfg env k x) Answers fun _ => True := by
  unfold State.enqueueReq
  dsimp only
  have harrived : InOrder ({ s with queue := s.queue ++ [ShmemReq.new k x], arrived := s.arrived ++ [x] } :
      State n V) := by
    have hsnoc : waitingFor (s.queue ++ [ShmemReq.new k x]) = waitingFor s.queue ++ [x] := by
      simp [waitingFor, ShmemReq.new, hk]
    unfold InOrder at h ⊢
    dsimp only
    rw [hsnoc, ← List.append_assoc, h]
  split
  · rename_i hone
    have hnil : s.queue = [] := by
      rw [List.length_append, List.length_singleton] at hone
      exact List.length_eq_zero_iff.1 (by omega)
    have hqueue : s.queue ++ [ShmemReq.new k x] = [ShmemReq.new k x] := by rw [hnil, List.nil_append]
    exact harrived.processReq hqueue
  · exact Ensures.ok harrived

/-- An `INV_REP` and the request at the front. -/
theorem InOrder.resumeAfterInv (h : InOrder s) (x : Fin n) (e : DirectoryEntry n) :
    Ensures (s.resumeAfterInv cfg env x e) Answers fun _ => True := by
  unfold State.resumeAfterInv
  split
  · exact Ensures.ok h
  · rename_i req rest hq
    split
    · rename_i hk
      split
      · exact h.processExReq hq (by simp [hk]) none
      · exact Ensures.ok h
    · rename_i hk
      split
      · split
        · exact h.processUpgradeReq hq (by simp [hk]) none
        · exact Ensures.ok h
      · split
        · have h' : InOrder (s.setEntry { e with dstate := .uncached }) := h
          exact h'.processUpgradeReq hq (by simp [hk]) none
        · exact Ensures.ok h
    · rename_i hk
      split
      · exact Ensures.ok h
      · split
        · exact Ensures.ok h
        · exact h.processShReq hq (by simp [hk]) none
    · rename_i hk
      split
      · exact h.processNullifyReq hq hk
      · exact Ensures.ok h

/-- A `FLUSH_REP` and the request at the front. -/
theorem InOrder.resumeAfterFlush (h : InOrder s) (d : Option V) (e : DirectoryEntry n) :
    Ensures (s.resumeAfterFlush cfg env d e) Answers fun _ => True := by
  obtain ⟨-, hmq, -, -⟩ := sendDataToDram_same cfg env d s
  obtain ⟨hmr, hma⟩ := s.sendDataToDram_history cfg env d
  have hdram : InOrder (s.sendDataToDram cfg env d) := h.congr (by rw [hmq]) hmr hma
  unfold State.resumeAfterFlush
  split
  · exact Ensures.ok hdram
  · rename_i req rest hq
    have hq' : (s.sendDataToDram cfg env d).queue = req :: rest := hmq.trans hq
    split
    · rename_i hk
      exact h.processExReq hq (by simp [hk]) _
    · rename_i hk
      exact hdram.processShReq hq' (by simp [hk]) _
    · rename_i hk
      split
      · exact h.processUpgradeReq hq (by simp [hk]) _
      · refine Ensures.ok (h.wait ?_ rfl rfl)
        rw [hq]
        exact waitingFor_front (f := req) (g := { req with dataBuf := true }) rfl rfl
    · rename_i hk
      exact hdram.processNullifyReq hq' hk

/-- `handleMsgFromL2Cache`. -/
theorem InOrder.handleMsg (h : InOrder s) (x : Fin n) (m : LlcMsg V) :
    Ensures (s.handleMsgFromL2Cache cfg env x m) Answers fun _ => True := by
  unfold handleMsgFromL2Cache
  cases m with
  | exReq => exact h.enqueueReq (by simp) x
  | shReq => exact h.enqueueReq (by simp) x
  | upgradeReq => exact h.enqueueReq (by simp) x
  | invRep =>
    dsimp only
    unfold processInvRepFromL2Cache
    split
    · exact Ensures.error trivial
    · split
      · refine Ensures.bind_any fun e => ?_
        exact InOrder.resumeAfterInv (s := s.setEntry _) h x _
      · exact Ensures.error trivial
  | flushRep d =>
    dsimp only
    unfold processFlushRepFromL2Cache
    split
    · exact Ensures.error trivial
    · split
      · refine Ensures.bind_any fun e => ?_
        dsimp only
        split
        · exact Ensures.error trivial
        · exact InOrder.resumeAfterFlush (s := s.setEntry _) h d _
      · exact Ensures.error trivial
  | wbRep d =>
    dsimp only
    unfold processWbRepFromL2Cache
    split
    · exact Ensures.error trivial
    · rename_i e _
      split
      · dsimp only
        split
        · exact Ensures.error trivial
        · rename_i req rest hq
          split
          · rename_i hk
            have h' : InOrder (s.setEntry { e with owner := none, dstate := .shared }) := h
            exact h'.processShReq hq (by simp [hk]) _
          · exact Ensures.error trivial
      · exact Ensures.error trivial

/-- `processDRAMReply`. -/
theorem InOrder.processDRAMReply (h : InOrder s) (d : Option V) :
    Ensures (s.processDRAMReply cfg env d) Answers fun _ => True := by
  unfold State.processDRAMReply
  split
  · exact Ensures.error trivial
  · exact Ensures.error trivial
  · rename_i req rest e hq _
    have hrep : Ensures (dramReplyType req.msgType e.dstate : Except Fault (Option V → DirMsg V))
        (fun _ => req.msgType ≠ .nullifyReq) fun _ => True := by
      unfold dramReplyType
      split
      · exact Ensures.ok (by simp [*])
      · exact Ensures.ok (by simp [*])
      · exact Ensures.error trivial
      · exact Ensures.ok (by simp [*])
      · exact Ensures.error trivial
      · exact Ensures.ok (by simp [*])
      · exact Ensures.error trivial
    refine hrep.bind fun rep hnull => Ensures.ok ?_
    obtain ⟨-, hmq, -, -⟩ := sendDataToNUCA_same cfg env d (s.sendReply req.requester (rep d))
    obtain ⟨hmr, hma⟩ := (s.sendReply req.requester (rep d)).sendDataToNUCA_history cfg env d
    exact h.answer hq hnull hmq hmr hma

/-- Every step keeps the order. -/
theorem inOrder_step (cfg : Config n) (h : InOrder s) (e : Event n V) :
    Ensures (step cfg s e) InOrder fun _ => True := by
  have hmap {x : Fin n} (y : Except Fault (Llc V × V)) :
      Ensures (y.map fun r => s.setLlc x r) InOrder fun _ => True := by
    cases y with
    | ok r => exact h
    | error f => exact trivial
  cases e with
  | access x a => exact hmap _
  | evict x =>
    dsimp only [step]
    cases (s.llc x).evict with
    | ok l => exact h
    | error f => exact trivial
  | toLlc x =>
    dsimp only [step]
    split
    · exact h
    · exact hmap _
  | toDir x env =>
    dsimp only [step]
    split
    · exact h
    · rename_i m tx _
      have h' : InOrder (s.popTx x tx) := h
      exact (h'.handleMsg x m).bind fun _ hr => finish_inOrder hr
  | dram =>
    dsimp only [step]
    split
    · exact h
    · rename_i m rest _
      cases m with
      | readReq => exact h
      | writeReq d => exact h
  | fromDram env =>
    dsimp only [step]
    split
    · exact h
    · rename_i d rest _
      have h' : InOrder { s with fromDram := rest } := h
      exact (h'.processDRAMReply d).bind fun _ hr => finish_inOrder hr
  | nullify x env =>
    dsimp only [step]
    split
    · rename_i hc
      have hnew : InOrder { s with queue := s.queue ++ [ShmemReq.new .nullifyReq x] } :=
        h.congr (by rw [hc.2]; rfl) rfl rfl
      have hqueue : s.queue ++ [ShmemReq.new .nullifyReq x] = [ShmemReq.new .nullifyReq x] := by
        rw [hc.2, List.nil_append]
      have hnullify : Ensures (s.nullify x) Answers fun _ => True := hnew.processNullifyReq hqueue rfl
      exact hnullify.bind fun _ hr => finish_inOrder hr
    · exact h
  | evictNuca =>
    dsimp only [step]
    unfold State.evictNuca
    split
    · exact h
    · exact h

end Handlers

/-- The requests of a cache in the queue. -/
theorem count_waitingFor (queue : List (ShmemReq n)) (x : Fin n) :
    (waitingFor queue).count x = (queuedBy queue x).length := by
  induction queue with
  | nil => rfl
  | cons f rest ih =>
    by_cases hf : f.msgType = .nullifyReq
    · rw [waitingFor_nullify hf, queuedBy_nullify hf, ih]
    · rw [waitingFor_cons hf, queuedBy_cons hf, List.count_cons, ih, List.length_append]
      by_cases hx : f.requester = x
      · simp [hx, Nat.add_comm]
      · simp [hx]

/-- Every run keeps the order. -/
theorem inOrder_of_reachable {cfg : Config n} {v : V} {s : State n V}
    (h : (machine n V cfg).Reachable (initial v) s) : InOrder s :=
  h.invariant rfl fun _ e _ hs he => (inOrder_step cfg hs e).of_ok he

/-- What a cache waits for is in one place. -/
theorem Stable.one_place {s : State n V} (h : Stable s) (x : Fin n) :
    (s.llc x).tx.countP isReq + (waitingFor s.queue).count x + (s.llc x).rx.countP isRep =
      if (s.llc x).waiters = [] then 0 else 1 := by
  obtain ⟨p, wb, fl, hc⟩ := h.coherent
  have hrequests := (hc.node x).requests
  have hqueued : (s.view p wb fl x).queued = queuedBy s.queue x := rfl
  rw [hqueued] at hrequests
  rw [count_waitingFor]
  split
  · rename_i hw
    simpa [hw] using hrequests
  · rename_i hw
    rw [NodeInv.waiting hw] at hrequests
    exact hrequests

/-- **One reply for every request.** In every state that the protocol can reach, the replies followed by the requests in
the queue are the requests that have arrived, in this order; and a cache in which accesses wait has one request on its
way or in the queue or one reply on its way, and a cache without waiting accesses has none. -/
theorem answered_in_order (cfg : Config n) (v : V) (s : State n V)
    (h : (machine n V cfg).Reachable (initial v) s) :
    s.replied ++ waitingFor s.queue = s.arrived ∧
    ∀ x, (s.llc x).tx.countP isReq + (waitingFor s.queue).count x + (s.llc x).rx.countP isRep =
      if (s.llc x).waiters = [] then 0 else 1 :=
  ⟨inOrder_of_reachable h, (stable_of_reachable h).one_place⟩

/-- Two caches have asked, and the one that was first at the directory has its answer. -/
theorem answered_in_order_secondReader : ∃ s, (machine 2 ℕ ⟨.mesi, .fullMap, 2, false, none⟩).run (initial 0)
      [.access 0 .read, .access 1 .read, .toDir 1 ⟨0, false⟩, .toDir 0 ⟨0, false⟩, .dram, .fromDram ⟨0, false⟩] =
        .ok s ∧
    s.replied ++ waitingFor s.queue = s.arrived ∧ s.replied = [1] ∧ s.arrived = [1, 0] := by
  have hok : ((machine 2 ℕ ⟨.mesi, .fullMap, 2, false, none⟩).run (initial 0)
      [.access 0 .read, .access 1 .read, .toDir 1 ⟨0, false⟩, .toDir 0 ⟨0, false⟩, .dram,
        .fromDram ⟨0, false⟩]).isOk = true := by decide +kernel
  have hrun := Machine.run_final _ hok
  exact ⟨_, hrun, (answered_in_order _ 0 _ ⟨_, hrun⟩).1, by decide +kernel, by decide +kernel⟩

end LifeSim.Directory
