import LifeSim.Directory.Coherence

/-!
# The handlers keep the line coherent

Between two steps the request at the front of the queue is either waiting for something or there is none.
A handler that is entered with the request at the front in turn, nothing being asked for,
leaves the request waiting or answers it; in the second case the next one is in turn.
-/

namespace LifeSim.Directory

open LifeSim.Lib DirMsg LlcMsg State

variable {n : ℕ} {V : Type}

/-- How far the request at the front has come, for a line in a state. -/
structure FrontOk (f : ShmemReq n) (dstate : DirectoryState) : Prop where
  shReq : f.msgType = .shReq → f.waitForData = true → dstate = .shared ∨ dstate = .exclusive
  forwarding : f.forwardingFrom.isSome = true →
    f.msgType = .shReq ∧ (f.waitForData = false → dstate = .shared)
  exReq : f.msgType = .exReq → f.waitForData = true → dstate = .modified
  upgradeReq : f.msgType = .upgradeReq → f.waitForData = true → dstate = .modified
  nullifyReq : f.msgType = .nullifyReq → f.waitForData = false

/-- The request waits for a `WB_REP` of the cache. -/
def State.waitsForWb (s : State n V) (f : ShmemReq n) (x : Fin n) : Bool :=
  f.msgType = .shReq && !f.waitForData && f.requester ≠ x &&
    (s.dstate.isOwned && s.sharer x || f.forwardingFrom = some x)

/-- The request waits for a `FLUSH_REP`. -/
def State.waitsForFlush (s : State n V) (f : ShmemReq n) : Bool :=
  !f.waitForData && (f.msgType ≠ .shReq && s.dstate.isOwned ||
    s.dstate = .shared && f.msgType = .upgradeReq && !s.sharer f.requester)

/-- The request at the front waits, and those behind it have not been worked on. -/
structure Waiting (f : ShmemReq n) (rest : List (ShmemReq n)) (s : State n V) : Prop where
  queue : s.queue = f :: rest
  coherent : Coherent f.granted (s.waitsForWb f) (s.waitsForFlush f) s
  front : FrontOk f s.dstate
  fresh : ∀ g ∈ rest, g.Fresh
  reads : s.reads = f.waitForData.toNat

/-- Nothing is waited for. -/
structure Ready (s : State n V) : Prop where
  coherent : Coherent none (fun _ => false) false s
  fresh : ∀ g ∈ s.queue, g.Fresh
  reads : s.reads = 0

/-- The line between two steps. -/
def Stable (s : State n V) : Prop :=
  (s.queue = [] ∧ Ready s) ∨ ∃ f rest, Waiting f rest s

/-- The request at the front is in turn. -/
structure Turn (f : ShmemReq n) (rest : List (ShmemReq n)) (s : State n V) : Prop where
  queue : s.queue = f :: rest
  coherent : Coherent none (fun _ => false) false s
  fresh : ∀ g ∈ rest, g.Fresh
  reads : s.reads = 0
  waitForData : f.waitForData = false
  forwardingFrom : f.forwardingFrom = none

/-- A handler leaves the request waiting, or answers it and makes way for the next one. -/
def Handled (rest : List (ShmemReq n)) (r : Outcome n V) : Prop :=
  if r.2 = true then (∃ f, r.1.queue = f :: rest) ∧ ∀ s', s'.entry = r.1.entry → s'.llc = r.1.llc →
    s'.reads = r.1.reads → s'.queue = rest → Ready s'
  else Stable r.1

/-- A request that is not granted. -/
theorem ShmemReq.granted_eq_none {f : ShmemReq n} (hw : f.waitForData = false)
    (hf : f.forwardingFrom = none) : f.granted = none := by
  simp [granted, hw, hf]

/-- A request that forwards from nobody waits for no `WB_REP` of a shared line. -/
theorem waitsForWb_of_shared {s : State n V} {f : ShmemReq n} (hd : s.dstate = .shared)
    (hf : f.forwardingFrom = none) (x : Fin n) : s.waitsForWb f x = false := by
  simp [waitsForWb, hd, hf, DirectoryState.isOwned]

namespace State

variable (cfg : Config n) (s : State n V)

@[simp] theorem getDirectoryEntry_dstate : (s.getDirectoryEntry cfg).dstate = s.dstate := by
  unfold getDirectoryEntry dstate
  cases s.entry <;> rfl

@[simp] theorem getDirectoryEntry_sharers : (s.getDirectoryEntry cfg).sharers = s.sharer := by
  funext x
  simp only [getDirectoryEntry, sharer]
  cases s.entry <;> rfl

@[simp] theorem getDirectoryEntry_owner : (s.getDirectoryEntry cfg).owner = s.owner := by
  unfold getDirectoryEntry owner
  cases s.entry <;> rfl

end State

namespace DirectoryEntry

variable {cfg : Config n} {e : DirectoryEntry n} {x : Fin n}

theorem mem_getSharersList : x ∈ e.getSharersList ↔ e.sharers x = true := by
  simp [getSharersList]

theorem nodup_getSharersList : e.getSharersList.Nodup :=
  (List.nodup_finRange n).filter _

theorem getNumSharers_eq_zero : e.getNumSharers = 0 ↔ ∀ y, e.sharers y = false := by
  rw [getNumSharers, List.length_eq_zero_iff, List.eq_nil_iff_forall_not_mem]
  simp only [mem_getSharersList, Bool.not_eq_true]

theorem getNumSharers_eq_card (e : DirectoryEntry n) :
    e.getNumSharers = (Finset.univ.filter fun y => e.sharers y = true).card := by
  rw [getNumSharers, getSharersList, Fin.univ_def]
  simp [Finset.filter, Finset.card]

theorem getNumSharers_congr {e' : DirectoryEntry n} (h : e'.sharers = e.sharers) :
    e'.getNumSharers = e.getNumSharers := by
  rw [getNumSharers, getSharersList, h, getNumSharers, getSharersList]

/-- One more sharer. -/
theorem getNumSharers_add {e' : DirectoryEntry n} (hx : e.sharers x = false)
    (h : e'.sharers = Function.update e.sharers x true) : e'.getNumSharers = e.getNumSharers + 1 := by
  rw [getNumSharers_eq_card, getNumSharers_eq_card, ← Finset.card_insert_of_notMem (a := x) (by simp [hx])]
  congr 1
  ext y
  by_cases hy : y = x <;> simp [h, hy]

/-- One sharer less. -/
theorem getNumSharers_remove {e' : DirectoryEntry n} (hx : e.sharers x = true)
    (h : e'.sharers = Function.update e.sharers x false) : e'.getNumSharers + 1 = e.getNumSharers := by
  have hnot : e'.sharers x = false := by rw [h, Function.update_self]
  refine (getNumSharers_add hnot ?_).symm
  funext y
  by_cases hy : y = x <;> simp [h, hy, hx]

theorem addFirstSharer_ensures : Ensures (e.addFirstSharer cfg x)
    (fun e' => e.sharers x = false ∧ e' = { e with sharers := Function.update e.sharers x true })
    fun _ => True := by
  unfold addFirstSharer addSharer
  split
  · exact Ensures.error trivial
  · rename_i hx
    split
    · exact Ensures.error trivial
    · exact Ensures.ok ⟨by simpa using hx, rfl⟩

theorem setOwner_ensures : Ensures (e.setOwner x)
    (fun e' => e.sharers x = true ∧ e' = { e with owner := some x }) fun _ => True := by
  unfold setOwner
  split
  · rename_i hx
    exact Ensures.ok ⟨hx, rfl⟩
  · exact Ensures.error trivial

theorem getOwner_ensures : Ensures e.getOwner (fun o => e.owner = some o) fun _ => True := by
  unfold getOwner
  split
  · rename_i o ho
    exact Ensures.ok ho
  · exact Ensures.error trivial

theorem getOneSharer_ensures {pick : ℕ} :
    Ensures (e.getOneSharer pick) (fun y => e.sharers y = true) fun _ => True := by
  unfold getOneSharer
  split
  · rename_i y hy
    exact Ensures.ok (mem_getSharersList.mp (List.mem_of_getElem? hy))
  · exact Ensures.error trivial

end DirectoryEntry

namespace Coherent

variable {s s' : State n V} {p : Option (Fin n)} {wb wb' : Fin n → Bool} {fl fl' : Bool}

/-- Only the state, the sharers and the owner of the entry matter. -/
theorem congr_entry (h : Coherent p wb fl s) (hd : s'.dstate = s.dstate) (hs : s'.sharer = s.sharer)
    (ho : s'.owner = s.owner) (hq : ∀ x, queuedBy s'.queue x = queuedBy s.queue x)
    (hl : s'.llc = s.llc) : Coherent p wb fl s' where
  uncached := by rw [hd, hs]; exact h.uncached
  owned := by rw [hd, hs, ho]; exact h.owned
  node := fun x => by
    have hview : s'.view p wb fl x = s.view p wb fl x := by simp only [view, hd, hs, hq]
    rw [hview, hl]
    exact h.node x

/-- More may be waited for. -/
theorem weaken (h : Coherent p wb fl s) (hwb : ∀ x, wb x = true → wb' x = true)
    (hfl : fl = true → fl' = true) (hnot : fl' = true → ∀ x, wb' x = false) : Coherent p wb' fl' s where
  uncached := h.uncached
  owned := h.owned
  node := fun x => (h.node x).weaken (hwb x) hfl fun hx => by
    by_contra hne
    have := hnot (by simpa using hne) x
    rw [hx] at this
    cases this

end Coherent

section Handlers

variable {s : State n V} {f : ShmemReq n} {rest : List (ShmemReq n)} {cfg : Config n} {env : Env}

/-- A request that waits for `INV_REP`s or `FLUSH_REP`s. -/
theorem Turn.ask (h : Turn f rest s) (msgs : List (Fin n × DirMsg V)) (hnd : (msgs.map Prod.fst).Nodup)
    (hmsgs : ∀ q ∈ msgs, q.2 = .invReq ∨ (q.2 = .flushReq ∧ s.waitsForFlush f = true))
    (hwb : ∀ x, s.waitsForWb f x = false) : Handled rest (s.sendMsgs msgs, false) := by
  refine .inr ⟨f, rest, ?_⟩
  have hfl : (s.sendMsgs msgs).waitsForFlush f = s.waitsForFlush f := by
    simp only [waitsForFlush, sendMsgs_dstate, sendMsgs_sharer]
  have hwb' : (s.sendMsgs msgs).waitsForWb f = fun _ => false := by
    funext x
    rw [← hwb x]
    simp only [waitsForWb, sendMsgs_dstate, sendMsgs_sharer]
  have hgr := ShmemReq.granted_eq_none h.waitForData h.forwardingFrom
  exact
    { queue := by rw [sendMsgs_queue, h.queue]
      coherent := by
        rw [hgr, hwb', hfl]
        exact h.coherent.askAll hnd hmsgs
      front := ⟨by simp [h.waitForData], by simp [h.forwardingFrom], by simp [h.waitForData],
        by simp [h.waitForData], fun _ => h.waitForData⟩
      fresh := h.fresh
      reads := by rw [sendMsgs_reads, h.reads, h.waitForData]; rfl }

/-- A request that asks the owner to flush. -/
theorem Turn.askOwner (h : Turn f rest s) (hk : f.msgType ≠ .shReq) (hd : s.dstate.isOwned = true)
    (o : Fin n) : Handled rest (s.sendMsg o .flushReq, false) := by
  refine h.ask [(o, .flushReq)] (by simp) ?_ fun x => by simp [waitsForWb, hk]
  intro q hq
  rw [List.mem_singleton] at hq
  subst hq
  exact .inr ⟨rfl, by simp [waitsForFlush, h.waitForData, hk, hd]⟩

/-- A request that invalidates all sharers. -/
theorem Turn.invalidate (h : Turn f rest s) (hk : f.msgType ≠ .shReq) (e : DirectoryEntry n) :
    Handled rest (s.invalidateSharers e, false) := by
  refine h.ask _ ?_ ?_ fun x => by simp [waitsForWb, hk]
  · rw [List.map_map]
    simpa [Function.comp_def] using e.nodup_getSharersList
  · intro q hq
    obtain ⟨y, -, rfl⟩ := List.mem_map.mp hq
    exact .inl rfl

/-- The request at the front has been granted, for a line in a state that fits. -/
structure Granted (f : ShmemReq n) (rest : List (ShmemReq n)) (s : State n V) : Prop where
  queue : s.queue = f :: rest
  coherent : Coherent (some f.requester) (fun _ => false) false s
  fresh : ∀ g ∈ rest, g.Fresh
  reads : s.reads = 0
  waitForData : f.waitForData = false
  kind : (f.msgType = .shReq ∧ (s.dstate = .shared ∨ s.dstate = .exclusive)) ∨
    ((f.msgType = .exReq ∨ f.msgType = .upgradeReq) ∧ s.dstate = .modified)
  forwarding : f.forwardingFrom.isSome = true → f.msgType = .shReq ∧ s.dstate = .shared

theorem Granted.msgType (h : Granted f rest s) : f.msgType ≠ .nullifyReq := by
  rcases h.kind with ⟨hk, -⟩ | ⟨hk | hk, -⟩ <;> simp [hk]

/-- The request waits for data from memory. -/
theorem Granted.read (h : Granted f rest s) :
    Waiting { f with waitForData := true } rest
      { s with queue := { f with waitForData := true } :: rest, toDram := s.toDram ++ [.readReq] } where
  queue := rfl
  coherent := by
    have hgr : ({ f with waitForData := true } : ShmemReq n).granted = some f.requester := by
      simp [ShmemReq.granted]
    have hwb : ∀ t : State n V, t.waitsForWb { f with waitForData := true } = fun _ => false :=
      fun t => by funext x; simp [waitsForWb]
    have hfl : ∀ t : State n V, t.waitsForFlush { f with waitForData := true } = false :=
      fun t => by simp [waitsForFlush]
    rw [hgr, hwb, hfl]
    refine h.coherent.congr_entry rfl rfl rfl (fun x => ?_) rfl
    rw [h.queue]
    exact queuedBy_front (f := f) (g := { f with waitForData := true }) rfl rfl x
  front := by
    have hne : f.msgType = .exReq ∨ f.msgType = .upgradeReq → s.dstate = .modified := by
      intro hk
      rcases h.kind with ⟨hk', -⟩ | ⟨-, hd⟩
      · simp [hk'] at hk
      · exact hd
    refine ⟨fun hk _ => ?_, fun hf => ⟨(h.forwarding hf).1, by simp⟩, fun hk _ => hne (.inl hk),
      fun hk _ => hne (.inr hk), fun hk => absurd hk h.msgType⟩
    rcases h.kind with ⟨-, hd⟩ | ⟨hk', -⟩
    · exact hd
    · simp only at hk
      simp [hk] at hk'
  fresh := h.fresh
  reads := by
    have hr := h.reads
    simp only [State.reads, List.countP_append, List.countP_singleton, DramMsg.isRead, if_true] at hr ⊢
    rw [Bool.toNat_true]
    omega

/-- The request waits for data from a sharer. -/
theorem Granted.forward (h : Granted f rest s) (hd : s.dstate = .shared) (y : Fin n) :
    Waiting { f with forwardingFrom := some y } rest
      ({ s with queue := { f with forwardingFrom := some y } :: rest }.sendMsg y .wbReq) := by
  have hsh : f.msgType = .shReq := by
    rcases h.kind with ⟨hk, -⟩ | ⟨-, hk⟩
    · exact hk
    · rw [hd] at hk
      cases hk
  have hbase : Coherent (some f.requester) (fun _ => false) false
      { s with queue := { f with forwardingFrom := some y } :: rest } := by
    refine h.coherent.congr_entry rfl rfl rfl (fun x => ?_) rfl
    rw [h.queue]
    exact queuedBy_front (f := f) (g := { f with forwardingFrom := some y }) rfl rfl x
  exact
    { queue := rfl
      coherent := by
        have hgr : ({ f with forwardingFrom := some y } : ShmemReq n).granted = some f.requester := by
          simp [ShmemReq.granted]
        have hfl : ∀ t : State n V, t.waitsForFlush { f with forwardingFrom := some y } = false :=
          fun t => by simp [waitsForFlush, hsh]
        rw [hgr, hfl]
        refine hbase.askWriteBack ?_
        by_cases hy : f.requester = y
        · refine .inr ?_
          have := (hbase.node y).copies_of_pending (by simp [view, hy])
          exact this.1
        · refine .inl ?_
          simp [waitsForWb, hsh, h.waitForData, hy]
      front := ⟨by simp [h.waitForData], fun _ => ⟨hsh, fun _ => hd⟩, by simp [h.waitForData],
        by simp [h.waitForData], fun _ => h.waitForData⟩
      fresh := h.fresh
      reads := by
        rw [h.waitForData]
        exact h.reads }

/-- The request is answered. -/
theorem Granted.answer (h : Granted f rest s) {m : DirMsg V} (hm : m.isDataRep = true)
    (hex : m.isExRep = true → s.dstate.isOwned = true) :
    Handled rest (s.sendReply f.requester m, true) := by
  refine ⟨⟨f, h.queue⟩, fun s' he' hl' hr' hq' => ⟨?_, ?_, ?_⟩⟩
  · refine h.coherent.reply h.queue h.msgType rfl hm hex he' hq' fun x => ?_
    rw [hl']
    exact sendMsg_llc f.requester x m s
  · rw [hq']
    exact h.fresh
  · rw [hr']
    exact h.reads

/-- The forwarder of the entry does not matter. -/
theorem Granted.setEntry {e e' : DirectoryEntry n} (h : Granted f rest (s.setEntry e))
    (hd : e'.dstate = e.dstate) (hs : e'.sharers = e.sharers) (ho : e'.owner = e.owner) :
    Granted f rest (s.setEntry e') where
  queue := h.queue
  coherent := h.coherent.congr_entry hd hs ho (fun _ => rfl) rfl
  fresh := h.fresh
  reads := h.reads
  waitForData := h.waitForData
  kind := by
    have hd' : (s.setEntry e').dstate = (s.setEntry e).dstate := hd
    rw [hd']
    exact h.kind
  forwarding := by
    have hd' : (s.setEntry e').dstate = (s.setEntry e).dstate := hd
    rw [hd']
    exact h.forwarding

/-- `retrieveDataAndSendToL2Cache` answers the request or leaves it waiting. -/
theorem Granted.retrieveData {rep : Option V → DirMsg V} {buf : Option (Option V)} {e : DirectoryEntry n}
    (h : Granted f rest (s.setEntry e)) (hrep : ∀ d, (rep d).isDataRep = true)
    (hex : ∀ d, (rep d).isExRep = true → e.dstate.isOwned = true) :
    Ensures (s.retrieveDataAndSendToL2Cache cfg rep f.requester buf e) (Handled rest) fun _ => True := by
  unfold retrieveDataAndSendToL2Cache
  split
  · have h' : Granted f rest (s.setEntry { e with forwarder := some f.requester }) :=
      h.setEntry rfl rfl rfl
    exact Ensures.ok (h'.answer (hrep _) (hex _))
  · split
    · exact Ensures.ok (h.answer (hrep _) (hex _))
    · have hq : (s.setEntry e).queue = f :: rest := h.queue
      unfold fetchData
      rw [hq]
      dsimp only
      split
      · rename_i y hy
        have hd : e.dstate = .shared := by
          unfold forwardCandidate at hy
          split at hy
          · rename_i hc
            exact hc.2.2
          · cases hy
        exact Ensures.ok (.inr ⟨_, rest, h.forward hd y⟩)
      · exact Ensures.ok (.inr ⟨_, rest, h.read⟩)

/-- A request of a cache without a copy comes from a cache that is no sharer. -/
theorem Turn.notSharer (h : Turn f rest s) (hk : f.msgType = .shReq ∨ f.msgType = .exReq) :
    s.sharer f.requester = false := by
  have hx := h.coherent.node f.requester
  have hnull : f.msgType ≠ .nullifyReq := by rcases hk with hk | hk <;> simp [hk]
  have hmem : (s.view none (fun _ => false) false f.requester).queued =
      f.msgType :: queuedBy rest f.requester := by
    simp [view, h.queue, queuedBy_cons hnull]
  have hc := hx.queuedMiss ⟨f.msgType, by simp [hmem], by rcases hk with hk | hk <;> simp [hk]⟩
  have htok := hx.copies
  rw [hc] at htok
  have hz : (s.sharer f.requester).toNat = 0 := htok.symm
  simpa using hz

/-- The requester becomes a sharer, and the owner unless the line is shared. -/
theorem Turn.grant (h : Turn f rest s) {e : DirectoryEntry n}
    (hr : s.sharer f.requester = false) (he : e.sharers = Function.update s.sharer f.requester true)
    (hd : (s.dstate = .uncached ∧ e.dstate ≠ .uncached) ∨ (s.dstate = .shared ∧ e.dstate = .shared))
    (ho : e.dstate.isOwned = true → e.owner = some f.requester)
    (hkind : (f.msgType = .shReq ∧ (e.dstate = .shared ∨ e.dstate = .exclusive)) ∨
      ((f.msgType = .exReq ∨ f.msgType = .upgradeReq) ∧ e.dstate = .modified)) :
    Granted f rest (s.setEntry e) where
  queue := h.queue
  coherent := h.coherent.grant hr he hd ho
  fresh := h.fresh
  reads := h.reads
  waitForData := h.waitForData
  kind := hkind
  forwarding := by simp [h.forwardingFrom]

/-- The first sharer of a line that is not cached. -/
theorem Turn.grantFirst (h : Turn f rest s) (hd : s.dstate = .uncached) {dstate : DirectoryState}
    {rep : Option V → DirMsg V} {buf : Option (Option V)}
    (hkind : (f.msgType = .shReq ∧ (dstate = .shared ∨ dstate = .exclusive)) ∨
      ((f.msgType = .exReq ∨ f.msgType = .upgradeReq) ∧ dstate = .modified))
    (hrep : ∀ d, (rep d).isDataRep = true) (hex : ∀ d, (rep d).isExRep = true → dstate.isOwned = true)
    {e : DirectoryEntry n} (he : e.sharers = Function.update s.sharer f.requester true)
    (ho : e.owner = some f.requester) :
    Ensures (s.retrieveDataAndSendToL2Cache cfg rep f.requester buf { e with dstate := dstate })
      (Handled rest) fun _ => True := by
  have hne : dstate ≠ .uncached := by rcases hkind with ⟨-, hk | hk⟩ | ⟨-, hk⟩ <;> simp [hk]
  have hr : s.sharer f.requester = false := h.coherent.uncached.mp hd _
  exact (h.grant (e := { e with dstate := dstate }) hr he (.inl ⟨hd, hne⟩) (fun _ => ho)
    hkind).retrieveData hrep hex

/-- `processExReqFromL2Cache`. -/
theorem Turn.processExReq (h : Turn f rest s) (hk : f.msgType = .exReq) (buf : Option (Option V)) :
    Ensures (s.processExReqFromL2Cache cfg f buf) (Handled rest) fun _ => True := by
  have hsh : f.msgType ≠ .shReq := by simp [hk]
  have hflush : s.dstate.isOwned = true →
      Ensures (if buf.isSome then .error .dataNotNull else do
        let owner ← (s.getDirectoryEntry cfg).getOwner
        .ok (s.sendMsg owner .flushReq, false)) (Handled rest) fun _ => True := by
    intro hd
    split
    · exact Ensures.error trivial
    · exact DirectoryEntry.getOwner_ensures.bind fun o _ => Ensures.ok (h.askOwner hsh hd o)
  unfold processExReqFromL2Cache
  dsimp only
  cases hd : s.dstate with
  | exclusive =>
    simp only [getDirectoryEntry_dstate, hd]
    exact hflush (by simp [hd, DirectoryState.isOwned])
  | modified =>
    simp only [getDirectoryEntry_dstate, hd]
    exact hflush (by simp [hd, DirectoryState.isOwned])
  | shared =>
    simp only [getDirectoryEntry_dstate, hd]
    split
    · exact Ensures.error trivial
    · exact Ensures.ok (h.invalidate hsh _)
  | uncached =>
    simp only [getDirectoryEntry_dstate, hd]
    refine DirectoryEntry.addFirstSharer_ensures.bind fun e he => ?_
    refine DirectoryEntry.setOwner_ensures.bind fun e' he' => ?_
    refine h.grantFirst hd (.inr ⟨.inl hk, rfl⟩) (fun _ => rfl) (fun _ _ => rfl) ?_ ?_
    · rw [he'.2, he.2, getDirectoryEntry_sharers]
    · rw [he'.2]

/-- The owner is asked to write back. -/
theorem Turn.writeBackOwner (h : Turn f rest s) (hk : f.msgType = .shReq) (hd : s.dstate.isOwned = true)
    (buf : Option (Option V)) :
    Ensures (s.writeBackOwner buf (s.getDirectoryEntry cfg)) (Handled rest) fun _ => True := by
  unfold State.writeBackOwner
  split
  · exact Ensures.error trivial
  · refine DirectoryEntry.getOwner_ensures.bind fun o ho => Ensures.ok (.inr ⟨f, rest, ?_⟩)
    rw [getDirectoryEntry_owner] at ho
    obtain ⟨o', ho', hso, -⟩ := h.coherent.owned hd
    rw [ho] at ho'
    cases ho'
    have hne : f.requester ≠ o := by
      intro heq
      have := h.notSharer (.inl hk)
      rw [heq, hso] at this
      cases this
    exact
      { queue := h.queue
        coherent := by
          have hfl' : (s.sendMsg o .wbReq).waitsForFlush f = false := by simp [waitsForFlush, hk]
          rw [ShmemReq.granted_eq_none h.waitForData h.forwardingFrom, hfl']
          refine h.coherent.askWriteBack (.inl ?_)
          have hd' : (s.sendMsg o DirMsg.wbReq).dstate.isOwned = true := hd
          have hso' : (s.sendMsg o DirMsg.wbReq).sharer o = true := hso
          simp [waitsForWb, hk, h.waitForData, hne, hd', hso']
        front := ⟨by simp [h.waitForData], by simp [h.forwardingFrom], by simp [h.waitForData],
          by simp [h.waitForData], fun _ => h.waitForData⟩
        fresh := h.fresh
        reads := by
          rw [h.waitForData]
          exact h.reads }

/-- A sharer has to make room. -/
theorem Turn.makeRoom (h : Turn f rest s) (hd : s.dstate = .shared)
    (e : DirectoryEntry n) : Ensures (s.makeRoom env e) (Handled rest) fun _ => True := by
  unfold State.makeRoom
  rw [h.queue]
  refine DirectoryEntry.getOneSharer_ensures.bind fun y _ => Ensures.ok ?_
  have hturn : Turn { f with victim := some y } rest
      { s with queue := { f with victim := some y } :: rest } :=
    { queue := rfl
      coherent := h.coherent.congr_entry rfl rfl rfl (fun x => by
        rw [h.queue]
        exact queuedBy_front (f := f) (g := { f with victim := some y }) rfl rfl x) rfl
      fresh := h.fresh
      reads := h.reads
      waitForData := h.waitForData
      forwardingFrom := h.forwardingFrom }
  refine hturn.ask [(y, .invReq)] (by simp) (by simp) fun x => ?_
  exact waitsForWb_of_shared hd h.forwardingFrom x

/-- `processShReqFromL2Cache`. -/
theorem Turn.processShReq (h : Turn f rest s) (hk : f.msgType = .shReq) (buf : Option (Option V)) :
    Ensures (s.processShReqFromL2Cache cfg env f buf) (Handled rest) fun _ => True := by
  have hns := h.notSharer (.inl hk)
  unfold processShReqFromL2Cache
  dsimp only
  cases hd : s.dstate with
  | exclusive =>
    simp only [getDirectoryEntry_dstate, hd]
    split
    · exact Ensures.error trivial
    · exact h.writeBackOwner hk (by simp [hd, DirectoryState.isOwned]) buf
  | modified =>
    simp only [getDirectoryEntry_dstate, hd]
    exact h.writeBackOwner hk (by simp [hd, DirectoryState.isOwned]) buf
  | shared =>
    simp only [getDirectoryEntry_dstate, hd, getDirectoryEntry_sharers, hns, Bool.false_eq_true, if_false]
    unfold DirectoryEntry.addSharer
    simp only [getDirectoryEntry_sharers, hns, Bool.false_eq_true, if_false]
    split
    · exact h.makeRoom hd _
    · refine (h.grant (e := { s.getDirectoryEntry cfg with
        sharers := Function.update s.sharer f.requester true }) hns rfl ?_ ?_ ?_).retrieveData
          (fun _ => rfl) (by simp [isExRep])
      · exact .inr ⟨hd, by simp [hd]⟩
      · simp [hd, DirectoryState.isOwned]
      · exact .inl ⟨hk, .inl (by simp [hd])⟩
  | uncached =>
    simp only [getDirectoryEntry_dstate, hd]
    refine DirectoryEntry.addFirstSharer_ensures.bind fun e he => ?_
    refine DirectoryEntry.setOwner_ensures.bind fun e' he' => ?_
    have hsh : e'.sharers = Function.update s.sharer f.requester true := by
      rw [he'.2, he.2, getDirectoryEntry_sharers]
    have ho : e'.owner = some f.requester := by rw [he'.2]
    split
    · exact h.grantFirst hd (.inl ⟨hk, .inl rfl⟩) (fun _ => rfl) (by simp [isExRep]) hsh ho
    · exact h.grantFirst hd (.inl ⟨hk, .inr rfl⟩) (fun _ => rfl) (fun _ _ => rfl) hsh ho

/-- The requester is a sharer. -/
theorem Granted.sharer (h : Granted f rest s) : s.sharer f.requester = true := by
  have := ((h.coherent.node f.requester).copies_of_pending (by simp [view])).2
  simpa [view] using this

theorem Granted.getDirectoryEntry (h : Granted f rest s) :
    Granted f rest (s.setEntry (s.getDirectoryEntry cfg)) := by
  have hd : (s.setEntry (s.getDirectoryEntry cfg)).dstate = s.dstate := getDirectoryEntry_dstate cfg s
  exact
    { queue := h.queue
      coherent := h.coherent.congr_entry hd (getDirectoryEntry_sharers cfg s)
        (getDirectoryEntry_owner cfg s) (fun _ => rfl) rfl
      fresh := h.fresh
      reads := h.reads
      waitForData := h.waitForData
      kind := by rw [hd]; exact h.kind
      forwarding := by rw [hd]; exact h.forwarding }

/-- `processShReqFromL2Cache` for a request that has been granted already. -/
theorem Granted.processShReq (h : Granted f rest s) (hd : s.dstate = .shared) (buf : Option (Option V)) :
    Ensures (s.processShReqFromL2Cache cfg env f buf) (Handled rest) fun _ => True := by
  unfold processShReqFromL2Cache
  simp only [getDirectoryEntry_dstate, hd, getDirectoryEntry_sharers, h.sharer, if_true]
  exact h.getDirectoryEntry.retrieveData (fun _ => rfl) (by simp [isExRep])

/-- The messages of an upgrade go to different sharers. -/
theorem upgradeMsgs_nodup {requester : Fin n} {hasCopy : Bool} {sharers : List (Fin n)} (h : sharers.Nodup) :
    ((upgradeMsgs requester hasCopy sharers : List (Fin n × DirMsg V)).map Prod.fst).Nodup := by
  unfold upgradeMsgs
  rw [List.map_map]
  have hsub : ((sharers.zipIdx.filter fun x => x.1 ≠ requester).map Prod.fst).Sublist sharers := by
    have := (List.filter_sublist (l := sharers.zipIdx) (p := fun x => x.1 ≠ requester)).map Prod.fst
    simpa using this
  exact h.sublist hsub

/-- An upgrade asks for the data only when the requester has lost its copy. -/
theorem mem_upgradeMsgs {requester : Fin n} {hasCopy : Bool} {sharers : List (Fin n)}
    {q : Fin n × DirMsg V} (h : q ∈ upgradeMsgs requester hasCopy sharers) :
    q.2 = .invReq ∨ (q.2 = .flushReq ∧ hasCopy = false) := by
  obtain ⟨y, -, rfl⟩ := List.mem_map.mp h
  by_cases hc : (!hasCopy && y.2 == 0) = true
  · refine .inr ⟨by simp [hc], ?_⟩
    simp only [Bool.and_eq_true, Bool.not_eq_true'] at hc
    exact hc.1
  · exact .inl (by simp [hc])

/-- An upgrade that only concerns the requester. -/
theorem Turn.upgrade (h : Turn f rest s) (hk : f.msgType = .upgradeReq) {e : DirectoryEntry n}
    (hsh : ∀ x, s.sharer x = true ↔ x = f.requester) (he : e.sharers = s.sharer)
    (hd : e.dstate.isOwned = true) (ho : e.owner = some f.requester) :
    Handled rest ((s.setEntry e).sendReply f.requester .upgradeRep, true) := by
  refine ⟨⟨f, h.queue⟩, fun s' he' hl' hr' hq' => ⟨?_, ?_, ?_⟩⟩
  · refine h.coherent.upgrade h.queue (by simp [hk]) rfl hsh he hd ho he' hq' fun x => ?_
    rw [hl']
    exact sendMsg_llc f.requester x .upgradeRep (s.setEntry e)
  · rw [hq']
    exact h.fresh
  · rw [hr']
    exact h.reads

/-- An upgrade of a line that is owned. -/
theorem Turn.upgradeOwned (h : Turn f rest s) (hk : f.msgType = .upgradeReq) (hd : s.dstate.isOwned = true) :
    Ensures (s.upgradeOwned f.requester (s.getDirectoryEntry cfg)) (Handled rest) fun _ => True := by
  unfold State.upgradeOwned
  split
  · exact Ensures.error trivial
  · rename_i x xs hx
    split
    · rename_i hxr
      split
      · rename_i ho
        refine Ensures.ok (h.upgrade hk (fun y => ?_) (by simp) rfl ho)
        obtain ⟨o, ho', hso, hall⟩ := h.coherent.owned hd
        rw [getDirectoryEntry_owner, ho'] at ho
        cases ho
        exact ⟨hall y, fun hy => hy ▸ hso⟩
      · exact Ensures.error trivial
    · exact DirectoryEntry.getOwner_ensures.bind fun o _ => Ensures.ok (h.askOwner (by simp [hk]) hd o)

/-- An upgrade of a line that is shared. -/
theorem Turn.upgradeShared (h : Turn f rest s) (hk : f.msgType = .upgradeReq) (hd : s.dstate = .shared) :
    Ensures (s.upgradeShared f.requester (s.getDirectoryEntry cfg)) (Handled rest) fun _ => True := by
  unfold State.upgradeShared
  split
  · rename_i hlist
    refine DirectoryEntry.setOwner_ensures.bind fun e he => Ensures.ok ?_
    refine h.upgrade hk (fun y => ?_) (by simp [he.2]) rfl (by simp [he.2])
    have := DirectoryEntry.mem_getSharersList (e := s.getDirectoryEntry cfg) (x := y)
    rw [hlist, List.mem_singleton, getDirectoryEntry_sharers] at this
    exact this.symm
  · refine Ensures.ok (h.ask _ (upgradeMsgs_nodup (DirectoryEntry.nodup_getSharersList)) ?_
      (waitsForWb_of_shared hd h.forwardingFrom))
    intro q hq
    refine (mem_upgradeMsgs hq).imp_right fun hq' => ⟨hq'.1, ?_⟩
    have hcopy : s.sharer f.requester = false := by
      have := hq'.2
      rwa [getDirectoryEntry_sharers] at this
    simp [waitsForFlush, h.waitForData, hd, hk, hcopy]

/-- `processUpgradeReqFromL2Cache`. -/
theorem Turn.processUpgradeReq (h : Turn f rest s) (hk : f.msgType = .upgradeReq)
    (buf : Option (Option V)) :
    Ensures (s.processUpgradeReqFromL2Cache cfg f buf) (Handled rest) fun _ => True := by
  unfold processUpgradeReqFromL2Cache
  dsimp only
  cases hd : s.dstate with
  | exclusive =>
    simp only [getDirectoryEntry_dstate, hd]
    exact h.upgradeOwned hk (by simp [hd, DirectoryState.isOwned])
  | modified =>
    simp only [getDirectoryEntry_dstate, hd]
    exact h.upgradeOwned hk (by simp [hd, DirectoryState.isOwned])
  | shared =>
    simp only [getDirectoryEntry_dstate, hd]
    exact h.upgradeShared hk hd
  | uncached =>
    simp only [getDirectoryEntry_dstate, hd]
    split
    · exact Ensures.error trivial
    · refine DirectoryEntry.addFirstSharer_ensures.bind fun e he => ?_
      refine DirectoryEntry.setOwner_ensures.bind fun e' he' => ?_
      refine h.grantFirst hd (.inr ⟨.inr hk, rfl⟩) (fun _ => rfl) (fun _ _ => rfl) ?_ ?_
      · rw [he'.2, he.2, getDirectoryEntry_sharers]
      · rw [he'.2]

/-- `processNullifyReq`. -/
theorem Turn.processNullifyReq (h : Turn f rest s) (hk : f.msgType = .nullifyReq) :
    Ensures s.processNullifyReq (Handled rest) fun _ => True := by
  have hsh : f.msgType ≠ .shReq := by simp [hk]
  unfold State.processNullifyReq
  split
  · exact Ensures.error trivial
  · rename_i e he
    have hds : s.dstate = e.dstate := by simp only [dstate, he]
    split
    · rename_i hd
      exact DirectoryEntry.getOwner_ensures.bind fun o _ =>
        Ensures.ok (h.askOwner hsh (by simp [hds, hd, DirectoryState.isOwned]) o)
    · rename_i hd
      exact DirectoryEntry.getOwner_ensures.bind fun o _ =>
        Ensures.ok (h.askOwner hsh (by simp [hds, hd, DirectoryState.isOwned]) o)
    · exact Ensures.ok (h.invalidate hsh e)
    · rename_i hd
      refine Ensures.ok ⟨⟨f, h.queue⟩, fun s' he' hl' hr' hq' => ⟨?_, ?_, ?_⟩⟩
      · exact h.coherent.nullified (by rw [hds, hd]) h.queue hk he' hq' hl'
      · rw [hq']
        exact h.fresh
      · rw [hr']
        exact h.reads

/-- The first work on a request. -/
theorem Turn.processReq (h : Turn f rest s) :
    Ensures (s.processReq cfg env f) (Handled rest) fun _ => True := by
  unfold State.processReq
  split
  · rename_i hk
    exact h.processExReq hk none
  · rename_i hk
    exact h.processShReq hk none
  · rename_i hk
    exact h.processUpgradeReq hk none
  · exact Ensures.error trivial

/-- Where nothing is waited for, the next request is in turn. -/
theorem Ready.turn (h : Ready s) (hq : s.queue = f :: rest) : Turn f rest s := by
  have hfresh := h.fresh
  rw [hq, List.forall_mem_cons] at hfresh
  exact
    { queue := hq
      coherent := h.coherent
      fresh := hfresh.2
      reads := h.reads
      waitForData := hfresh.1.waitForData
      forwardingFrom := hfresh.1.forwardingFrom }

/-- The requests behind one that is done are worked on until one has to wait. -/
theorem processNextReq_ensures (k : ℕ) (hq : ∃ f rest, s.queue = f :: rest ∧ ∀ s', s'.entry = s.entry →
      s'.llc = s.llc → s'.reads = s.reads → s'.queue = rest → Ready s') :
    Ensures (processNextReqFromL2Cache cfg env k s) Stable fun _ => True := by
  induction k generalizing s with
  | zero => exact Ensures.error trivial
  | succ k ih =>
    obtain ⟨f, rest, hqueue, hready⟩ := hq
    unfold processNextReqFromL2Cache
    rw [hqueue]
    cases rest with
    | nil => exact Ensures.ok (.inl ⟨rfl, hready _ rfl rfl rfl rfl⟩)
    | cons g rest =>
      have hturn := (hready { s with queue := g :: rest } rfl rfl rfl rfl).turn rfl
      refine hturn.processReq.bind fun r hr => ?_
      obtain ⟨s', completed⟩ := r
      dsimp only
      unfold Handled at hr
      cases completed with
      | true =>
        simp only [if_true] at hr ⊢
        obtain ⟨⟨f', hf'⟩, hready'⟩ := hr
        exact ih ⟨f', rest, hf', hready'⟩
      | false => exact Ensures.ok hr

/-- The end of a handler. -/
theorem finish_ensures {r : Outcome n V} (hr : Handled rest r) :
    Ensures (finish cfg env r) Stable fun _ => True := by
  unfold finish
  unfold Handled at hr
  split
  · rename_i hc
    rw [if_pos hc] at hr
    obtain ⟨⟨f', hf'⟩, hready'⟩ := hr
    exact processNextReq_ensures _ ⟨f', rest, hf', hready'⟩
  · rename_i hc
    rw [if_neg hc] at hr
    exact Ensures.ok hr

end Handlers

end LifeSim.Directory
