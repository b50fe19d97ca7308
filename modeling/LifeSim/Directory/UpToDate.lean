import LifeSim.Directory.Values

/-!
# Where the latest value is

The copies of the line have the value of the latest write, and memory has it unless it is sure to come back from a
cache. The directory reads memory only when nothing can come back: when the line is not cached, or shared. With data at
hand it answers a request for a write without memory, which then lags behind until the writer sends the line back.
-/

namespace LifeSim.Directory

open LifeSim.Lib DirMsg LlcMsg State

variable {n : ℕ} {V : Type}

namespace DramMsg

/-- What DRAM holds when it has taken the messages. -/
def after : List (DramMsg V) → Option V → Option V
  | [], data => data
  | readReq :: ms, data => after ms data
  | writeReq data :: ms, _ => after ms data

/-- What DRAM answers to the messages. -/
def answers : List (DramMsg V) → Option V → List (Option V)
  | [], _ => []
  | readReq :: ms, data => data :: answers ms data
  | writeReq data :: ms, _ => answers ms data

theorem after_append (ms ms' : List (DramMsg V)) (data : Option V) :
    after (ms ++ ms') data = after ms' (after ms data) := by
  induction ms generalizing data with
  | nil => rfl
  | cons m ms ih => cases m <;> exact ih _

theorem answers_append (ms ms' : List (DramMsg V)) (data : Option V) :
    answers (ms ++ ms') data = answers ms data ++ answers ms' (after ms data) := by
  induction ms generalizing data with
  | nil => rfl
  | cons m ms ih =>
    cases m with
    | readReq => exact congrArg (List.cons data) (ih data)
    | writeReq d => exact ih d

/-- Every read is answered. -/
theorem length_answers (ms : List (DramMsg V)) (data : Option V) : (answers ms data).length = ms.countP isRead := by
  induction ms generalizing data with
  | nil => rfl
  | cons m ms ih => cases m <;> simp [answers, List.countP_cons, isRead, ih]

end DramMsg

namespace State

/-- What DRAM holds when it has taken what is on its way. -/
def dramNext (s : State n V) : Option V := DramMsg.after s.toDram s.dram

/-- What a read finds in the memory behind the directory. -/
def memory (s : State n V) : Option V :=
  match s.nuca with
  | some block => block.data
  | none => s.dramNext

/-- The data that is read from DRAM and has not arrived. -/
def answers (s : State n V) : List (Option V) := s.fromDram ++ DramMsg.answers s.toDram s.dram

theorem length_answers (s : State n V) : s.answers.length = s.reads := by
  rw [answers, reads, List.length_append, DramMsg.length_answers, Nat.add_comm]

end State

/-- Whatever is on its way to a cache or is read from DRAM is the latest value, and no request keeps data for later. -/
structure Carried (cfg : Config n) (s : State n V) : Prop where
  caches : ∀ x, (s.llc x).Right s.lastWrite (queuedBy s.queue x)
  answers : ∀ d ∈ s.answers, d = some s.lastWrite
  stored : ∀ f ∈ s.queue, f.dataBuf = false
  nuca : s.nuca.isSome = true → cfg.nuca = true

/-- Memory has the latest value, or it comes back from a cache. -/
def Kept (s : State n V) : Prop := s.memory = some s.lastWrite ∨ ∃ x, (s.llc x).Dirty

/-- The latest value is nowhere replaced by another one, and not lost. -/
structure UpToDate (cfg : Config n) (s : State n V) : Prop extends Carried cfg s where
  kept : Kept s

section Parts

variable {cfg : Config n} {s s' : State n V} {x : Fin n}

theorem Kept.memory (h : Kept s) (hnot : ∀ x, ¬ (s.llc x).Dirty) : s.memory = some s.lastWrite :=
  h.resolve_right fun ⟨x, hx⟩ => hnot x hx

/-- Nothing comes back to a line that is not cached, or shared and not flushed. -/
theorem Coherent.not_dirty {p : Option (Fin n)} {wb : Fin n → Bool} {fl : Bool} (h : Coherent p wb fl s)
    (hd : s.dstate = .uncached ∨ (s.dstate.isOwned = false ∧ fl = false)) (x : Fin n) : ¬ (s.llc x).Dirty := by
  rcases hd with hd | ⟨hd, hfl⟩
  · exact Llc.not_dirty_of_copies (h.copies_of_uncached hd x)
  · exact Llc.not_dirty_of_shared (h.node x) hd hfl

/-- Parts of the state that do not matter here. -/
theorem Carried.congr (h : Carried cfg s) (hl : s'.llc = s.llc) (hq : ∀ x, queuedBy s'.queue x = queuedBy s.queue x)
    (hs : ∀ f ∈ s'.queue, f.dataBuf = false) (ha : s'.answers = s.answers) (hw : s'.lastWrite = s.lastWrite)
    (hn : s'.nuca = s.nuca) : Carried cfg s' where
  caches := fun x => by
    rw [hl, hw, hq]
    exact h.caches x
  answers := by
    rw [ha, hw]
    exact h.answers
  stored := hs
  nuca := by
    rw [hn]
    exact h.nuca

theorem UpToDate.congr (h : UpToDate cfg s) (hl : s'.llc = s.llc) (hq : ∀ x, queuedBy s'.queue x = queuedBy s.queue x)
    (hs : ∀ f ∈ s'.queue, f.dataBuf = false) (ha : s'.answers = s.answers) (hw : s'.lastWrite = s.lastWrite)
    (hn : s'.nuca = s.nuca) (hm : s'.memory = s.memory) : UpToDate cfg s' where
  toCarried := h.toCarried.congr hl hq hs ha hw hn
  kept := by
    unfold Kept
    rw [hm, hw, hl]
    exact h.kept

/-- The entry of the line does not matter. -/
theorem UpToDate.setEntry (h : UpToDate cfg s) (e : DirectoryEntry n) : UpToDate cfg (s.setEntry e) :=
  h.congr rfl (fun _ => rfl) h.stored rfl rfl rfl rfl

theorem Carried.setEntry (h : Carried cfg s) (e : DirectoryEntry n) : Carried cfg (s.setEntry e) :=
  h.congr rfl (fun _ => rfl) h.stored rfl rfl rfl

/-- The request at the front is changed. -/
theorem UpToDate.setFront (h : UpToDate cfg s) {f g : ShmemReq n} {rest : List (ShmemReq n)} (hq : s.queue = f :: rest)
    (hm : g.msgType = f.msgType) (hr : g.requester = f.requester) (hb : g.dataBuf = f.dataBuf) :
    UpToDate cfg { s with queue := g :: rest } := by
  have hs := h.stored
  rw [hq, List.forall_mem_cons] at hs
  refine h.congr rfl (fun x => ?_) (List.forall_mem_cons.mpr ⟨hb.trans hs.1, hs.2⟩) rfl rfl rfl rfl
  rw [hq]
  exact queuedBy_front hm hr x

/-- A message is sent, with the latest value or without data. -/
theorem Carried.sendMsg (h : Carried cfg s) {m : DirMsg V} (hm : ∀ d ∈ m.getDataBuf, d = some s.lastWrite) :
    Carried cfg (s.sendMsg x m) where
  caches := fun y => by
    have hlast : (s.sendMsg x m).lastWrite = s.lastWrite := rfl
    have hqueue : (s.sendMsg x m).queue = s.queue := rfl
    rw [sendMsg_llc, hlast, hqueue]
    split
    · rename_i hy
      rw [hy]
      exact (h.caches x).push hm
    · exact h.caches y
  answers := h.answers
  stored := h.stored
  nuca := h.nuca

/-- What comes back still does. -/
theorem Kept.sendMsg (h : Kept s) (m : DirMsg V) : Kept (s.sendMsg x m) := by
  refine h.imp_right fun ⟨y, hy⟩ => ⟨y, ?_⟩
  rw [sendMsg_llc]
  split
  · rename_i hyx
    subst hyx
    exact hy.push m
  · exact hy

/-- The data is given away for a write. -/
theorem kept_sendMsg {d : Option V} (hw : (s.llc x).WriteWaits) : Kept (s.sendMsg x (.exRep d)) := by
  refine .inr ⟨x, ?_⟩
  rw [sendMsg_llc, if_pos rfl]
  exact Llc.dirty_push hw

/-- A cache is asked for something. -/
theorem UpToDate.ask (h : UpToDate cfg s) {m : DirMsg V} (hm : m.getDataBuf = none) : UpToDate cfg (s.sendMsg x m) where
  toCarried := h.toCarried.sendMsg (by simp [hm])
  kept := h.kept.sendMsg m

theorem UpToDate.askAll (h : UpToDate cfg s) {msgs : List (Fin n × DirMsg V)} (hm : ∀ q ∈ msgs, q.2.getDataBuf = none) :
    UpToDate cfg (s.sendMsgs msgs) := by
  induction msgs generalizing s with
  | nil => exact h
  | cons q msgs ih =>
    obtain ⟨hq, hmsgs⟩ := List.forall_mem_cons.mp hm
    exact ih (s := s.sendMsg q.1 q.2) (h.ask hq) hmsgs

/-- A reply is a message. -/
theorem UpToDate.sendReply {m : DirMsg V} (h : UpToDate cfg (s.sendMsg x m)) : UpToDate cfg (s.sendReply x m) :=
  h.congr rfl (fun _ => rfl) h.stored rfl rfl rfl rfl

/-- A request for a write waits in the queue, and the write in its cache. -/
theorem Carried.writeWaits (h : Carried cfg s) {f : ShmemReq n} {rest : List (ShmemReq n)} (hq : s.queue = f :: rest)
    (hw : f.msgType.forWrite = true) : (s.llc f.requester).WriteWaits := by
  refine (h.caches f.requester).writes (.inr ⟨f.msgType, ?_, hw⟩)
  have hf : f.msgType ≠ .nullifyReq := fun hk => by
    rw [hk] at hw
    cases hw
  rw [hq, queuedBy_cons hf]
  simp

end Parts

section Memory

variable (cfg : Config n) (env : Env) (d : Option V) (s : State n V)

theorem sendDataToNUCA_value : (s.sendDataToNUCA cfg env d).answers = s.answers ∧
    (s.sendDataToNUCA cfg env d).lastWrite = s.lastWrite ∧
    ((s.sendDataToNUCA cfg env d).nuca.isSome = true → cfg.nuca = true ∨ s.nuca.isSome = true) ∧
    (s.sendDataToNUCA cfg env d).memory = if cfg.nuca then d else s.memory := by
  unfold sendDataToNUCA
  split
  · rename_i hn
    split
    · refine ⟨?_, rfl, fun _ => .inl hn, rfl⟩
      cases env.stray <;> simp [State.answers, DramMsg.answers_append, DramMsg.answers]
    · exact ⟨rfl, rfl, fun _ => .inl hn, rfl⟩
  · exact ⟨rfl, rfl, .inr, rfl⟩

/-- Data that is written to memory is found there. -/
theorem sendDataToDram_value : (s.sendDataToDram cfg env d).answers = s.answers ∧
    (s.sendDataToDram cfg env d).lastWrite = s.lastWrite ∧
    ((s.sendDataToDram cfg env d).nuca.isSome = true → cfg.nuca = true ∨ s.nuca.isSome = true) ∧
    ((cfg.nuca = true ∨ s.nuca = none) → (s.sendDataToDram cfg env d).memory = d) := by
  unfold sendDataToDram
  split
  · rename_i hn
    obtain ⟨ha, hw, hs, hm⟩ := sendDataToNUCA_value cfg env d s
    exact ⟨ha, hw, hs, fun _ => by rw [hm, if_pos hn]⟩
  · rename_i hn
    refine ⟨by simp [State.answers, DramMsg.answers_append, DramMsg.answers], rfl, .inr, fun h => ?_⟩
    have hnone := h.resolve_left hn
    simp [State.memory, hnone, dramNext, DramMsg.after_append, DramMsg.after]

end Memory

section Handlers

variable {s : State n V} {f : ShmemReq n} {rest : List (ShmemReq n)} {cfg : Config n} {env : Env} {x : Fin n}

/-- A handler leaves the latest value where it is found. -/
def Saves (cfg : Config n) (r : Outcome n V) : Prop := UpToDate cfg r.1

/-- `fetchData`: the read finds the latest value in DRAM. -/
theorem UpToDate.fetchData (h : UpToDate cfg s) (hm : s.dramNext = some s.lastWrite) (e : DirectoryEntry n) :
    Ensures (s.fetchData cfg e) (Saves cfg) fun _ => True := by
  unfold State.fetchData
  split
  · exact Ensures.error trivial
  · rename_i req rest hq
    split
    · rename_i y _
      have hfront := h.setFront (g := { req with forwardingFrom := some y }) hq rfl rfl rfl
      exact Ensures.ok (hfront.ask rfl)
    · have hfront := h.setFront (g := { req with waitForData := true }) hq rfl rfl rfl
      refine Ensures.ok ⟨⟨hfront.caches, fun d hd => ?_, hfront.stored, hfront.nuca⟩, ?_⟩
      · rw [State.answers] at hd
        simp only [DramMsg.answers_append, DramMsg.answers, ← List.append_assoc] at hd
        rcases List.mem_append.mp hd with hd | hd
        · exact h.answers d hd
        · rw [List.mem_singleton.mp hd]
          exact hm
      · refine h.kept.imp_left fun hk => Eq.trans ?_ hk
        unfold State.memory dramNext
        simp only [DramMsg.after_append, DramMsg.after]

/-- `retrieveDataAndSendToL2Cache`. With data at hand memory may lag behind if the line is given away for a write;
without, memory has the latest value. -/
theorem Carried.retrieveData (h : Carried cfg s) (hq : s.queue = f :: rest) {rep : Option V → DirMsg V}
    {buf : Option (Option V)} (hrep : ∀ d, (rep d).getDataBuf = some d) (hbuf : ∀ d ∈ buf, d = some s.lastWrite)
    (hnone : buf = none → s.memory = some s.lastWrite)
    (hkept : Kept s ∨ (f.msgType.forWrite = true ∧ rep = .exRep)) (e : DirectoryEntry n) :
    Ensures (s.retrieveDataAndSendToL2Cache cfg rep f.requester buf e) (Saves cfg) fun _ => True := by
  have hanswer : ∀ d, d = some s.lastWrite → ∀ e', UpToDate cfg ((s.setEntry e').sendReply f.requester (rep d)) :=
    fun d hd e' => by
      have hcarried : Carried cfg ((s.setEntry e').sendMsg f.requester (rep d)) :=
        (h.setEntry e').sendMsg fun d' hd' => by
          rw [hrep d] at hd'
          exact (Option.some.inj hd').symm.trans hd
      refine UpToDate.sendReply ⟨hcarried, ?_⟩
      rcases hkept with hk | ⟨hw, rfl⟩
      · have hk' : Kept (s.setEntry e') := hk
        exact hk'.sendMsg (rep d)
      · exact kept_sendMsg (s := s.setEntry e') (h.writeWaits hq hw)
  unfold retrieveDataAndSendToL2Cache
  split
  · exact Ensures.ok (hanswer _ (hbuf _ rfl) _)
  · have hm := hnone rfl
    have hup : UpToDate cfg s := ⟨h, .inl hm⟩
    split
    · rename_i block hb
      unfold State.memory at hm
      rw [hb] at hm
      exact Ensures.ok (hanswer _ hm _)
    · rename_i hb
      unfold State.memory at hm
      rw [hb] at hm
      exact (hup.setEntry e).fetchData hm e

/-- The owner is asked for the line. -/
theorem UpToDate.askOwner (h : UpToDate cfg s) {m : DirMsg V} (hm : m.getDataBuf = none) (e : DirectoryEntry n) :
    Ensures (do let owner ← e.getOwner; .ok (s.sendMsg owner m, false)) (Saves cfg) fun _ => True :=
  Ensures.bind_any fun _ => Ensures.ok (h.ask hm)

/-- The sharers are invalidated. -/
theorem UpToDate.invalidateSharers (h : UpToDate cfg s) (e : DirectoryEntry n) :
    UpToDate cfg (s.invalidateSharers e) := by
  refine h.askAll fun q hq => ?_
  obtain ⟨y, -, rfl⟩ := List.mem_map.mp hq
  rfl

/-- `processExReqFromL2Cache`. -/
theorem Carried.processExReq (h : Carried cfg s) (hq : s.queue = f :: rest) (hk : f.msgType = .exReq)
    {buf : Option (Option V)} (hbuf : ∀ d ∈ buf, d = some s.lastWrite) (hkept : buf = none → Kept s)
    (hnone : buf = none → s.dstate = .uncached → s.memory = some s.lastWrite) :
    Ensures (s.processExReqFromL2Cache cfg f buf) (Saves cfg) fun _ => True := by
  have hup : ¬ buf.isSome = true → UpToDate cfg s := fun hb => ⟨h, hkept (by simpa using hb)⟩
  unfold processExReqFromL2Cache
  dsimp only
  split
  · split
    · exact Ensures.error trivial
    · rename_i hb
      exact (hup hb).askOwner rfl _
  · split
    · exact Ensures.error trivial
    · rename_i hb
      exact (hup hb).askOwner rfl _
  · split
    · exact Ensures.error trivial
    · rename_i hb
      exact Ensures.ok ((hup hb).invalidateSharers _)
  · rename_i hd
    rw [getDirectoryEntry_dstate] at hd
    exact Ensures.bind_any fun e => Ensures.bind_any fun e' =>
      h.retrieveData hq (fun _ => rfl) hbuf (fun hb => hnone hb hd) (.inr ⟨by rw [hk]; rfl, rfl⟩) _

theorem UpToDate.writeBackOwner (h : UpToDate cfg s) (buf : Option (Option V)) (e : DirectoryEntry n) :
    Ensures (s.writeBackOwner buf e) (Saves cfg) fun _ => True := by
  unfold State.writeBackOwner
  split
  · exact Ensures.error trivial
  · exact h.askOwner rfl e

theorem UpToDate.makeRoom (h : UpToDate cfg s) (e : DirectoryEntry n) :
    Ensures (s.makeRoom env e) (Saves cfg) fun _ => True := by
  unfold State.makeRoom
  split
  · exact Ensures.error trivial
  · rename_i req rest hq
    refine Ensures.bind_any fun y => Ensures.ok ?_
    have hfront := h.setFront (g := { req with victim := some y }) hq rfl rfl rfl
    exact hfront.ask rfl

/-- `processShReqFromL2Cache`. -/
theorem UpToDate.processShReq (h : UpToDate cfg s) (hq : s.queue = f :: rest) {buf : Option (Option V)}
    (hbuf : ∀ d ∈ buf, d = some s.lastWrite)
    (hnone : buf = none → s.dstate.isOwned = false → s.memory = some s.lastWrite) :
    Ensures (s.processShReqFromL2Cache cfg env f buf) (Saves cfg) fun _ => True := by
  have hretrieve : s.dstate.isOwned = false → ∀ {rep : Option V → DirMsg V}, (∀ d, (rep d).getDataBuf = some d) →
      ∀ e, Ensures (s.retrieveDataAndSendToL2Cache cfg rep f.requester buf e) (Saves cfg) fun _ => True :=
    fun hd rep hrep => h.retrieveData hq hrep hbuf (fun hb => hnone hb hd) (.inl h.kept)
  unfold processShReqFromL2Cache
  dsimp only
  split
  · split
    · exact Ensures.error trivial
    · exact h.writeBackOwner _ _
  · exact h.writeBackOwner _ _
  · rename_i hd
    rw [getDirectoryEntry_dstate] at hd
    have hown : s.dstate.isOwned = false := by rw [hd]; rfl
    split
    · exact hretrieve hown (fun _ => rfl) _
    · refine Ensures.bind_any fun e => ?_
      split
      · exact h.makeRoom _
      · exact hretrieve hown (fun _ => rfl) _
  · rename_i hd
    rw [getDirectoryEntry_dstate] at hd
    have hown : s.dstate.isOwned = false := by rw [hd]; rfl
    refine Ensures.bind_any fun e => Ensures.bind_any fun e' => ?_
    split
    · exact hretrieve hown (fun _ => rfl) _
    · exact hretrieve hown (fun _ => rfl) _

/-- An upgrade is granted. -/
theorem UpToDate.grantUpgrade (h : UpToDate cfg s) (e : DirectoryEntry n) (x : Fin n) :
    UpToDate cfg ((s.setEntry e).sendReply x .upgradeRep) :=
  ((h.setEntry e).ask rfl).sendReply

theorem UpToDate.upgradeOwned (h : UpToDate cfg s) (x : Fin n) (e : DirectoryEntry n) :
    Ensures (s.upgradeOwned x e) (Saves cfg) fun _ => True := by
  unfold State.upgradeOwned
  split
  · exact Ensures.error trivial
  · split
    · split
      · exact Ensures.ok (h.grantUpgrade _ _)
      · exact Ensures.error trivial
    · exact h.askOwner rfl _

theorem UpToDate.upgradeShared (h : UpToDate cfg s) (x : Fin n) (e : DirectoryEntry n) :
    Ensures (s.upgradeShared x e) (Saves cfg) fun _ => True := by
  unfold State.upgradeShared
  split
  · exact Ensures.bind_any fun e' => Ensures.ok (h.grantUpgrade _ _)
  · refine Ensures.ok (h.askAll fun q hq => ?_)
    rcases mem_upgradeMsgs hq with hq' | ⟨hq', -⟩ <;> rw [hq'] <;> rfl

/-- `processUpgradeReqFromL2Cache`. -/
theorem Carried.processUpgradeReq (h : Carried cfg s) (hq : s.queue = f :: rest) (hk : f.msgType = .upgradeReq)
    {buf : Option (Option V)} (hbuf : ∀ d ∈ buf, d = some s.lastWrite) (hkept : Kept s ∨ s.dstate = .uncached)
    (hnone : buf = none → s.dstate = .uncached → s.memory = some s.lastWrite) :
    Ensures (s.processUpgradeReqFromL2Cache cfg f buf) (Saves cfg) fun _ => True := by
  have hup : s.dstate ≠ .uncached → UpToDate cfg s := fun hd => ⟨h, hkept.resolve_right hd⟩
  unfold processUpgradeReqFromL2Cache
  dsimp only
  split
  · rename_i hd
    rw [getDirectoryEntry_dstate] at hd
    exact (hup (by simp [hd])).upgradeOwned _ _
  · rename_i hd
    rw [getDirectoryEntry_dstate] at hd
    exact (hup (by simp [hd])).upgradeOwned _ _
  · rename_i hd
    rw [getDirectoryEntry_dstate] at hd
    exact (hup (by simp [hd])).upgradeShared _ _
  · rename_i hd
    rw [getDirectoryEntry_dstate] at hd
    have hstored : f.dataBuf = false := h.stored f (by rw [hq]; exact List.mem_cons_self ..)
    rw [hstored, if_neg Bool.false_ne_true, Option.or_none]
    split
    · exact Ensures.error trivial
    · exact Ensures.bind_any fun e => Ensures.bind_any fun e' =>
        h.retrieveData hq (fun _ => rfl) hbuf (fun hb => hnone hb hd) (.inr ⟨by rw [hk]; rfl, rfl⟩) _

/-- `processNullifyReq`. -/
theorem UpToDate.processNullifyReq (h : UpToDate cfg s) : Ensures s.processNullifyReq (Saves cfg) fun _ => True := by
  unfold State.processNullifyReq
  split
  · exact Ensures.error trivial
  · split
    · exact h.askOwner rfl _
    · exact h.askOwner rfl _
    · exact Ensures.ok (h.invalidateSharers _)
    · exact Ensures.ok (h.congr rfl (fun _ => rfl) h.stored rfl rfl rfl rfl)

/-- The first work on a request. -/
theorem UpToDate.processReq (h : UpToDate cfg s) (hq : s.queue = f :: rest)
    (hc : Coherent none (fun _ => false) false s) :
    Ensures (s.processReq cfg env f) (Saves cfg) fun _ => True := by
  have hown : s.dstate.isOwned = false → s.memory = some s.lastWrite := fun hd =>
    h.kept.memory (hc.not_dirty (.inr ⟨hd, rfl⟩))
  have hunc : s.dstate = .uncached → s.memory = some s.lastWrite := fun hd => hown (by rw [hd]; rfl)
  unfold State.processReq
  split
  · rename_i hk
    exact h.processExReq hq hk (by simp) (fun _ => h.kept) fun _ => hunc
  · exact h.processShReq hq (by simp) fun _ => hown
  · rename_i hk
    exact h.processUpgradeReq hq hk (by simp) (.inl h.kept) fun _ => hunc
  · exact Ensures.error trivial

/-- The queue gets shorter. -/
theorem UpToDate.setQueue (h : UpToDate cfg s) (queue : List (ShmemReq n)) (hsub : queue.Sublist s.queue) :
    UpToDate cfg { s with queue := queue } where
  caches := fun x => (h.caches x).mono fun _ hk => ((hsub.filter _).map _).subset hk
  answers := h.answers
  stored := fun f hf => h.stored f (hsub.subset hf)
  nuca := h.nuca
  kept := h.kept

/-- The requests behind one that is done. -/
theorem processNextReq_saves (k : ℕ) (h : UpToDate cfg s) (hq : ∃ f rest, s.queue = f :: rest ∧
      ∀ s', s'.entry = s.entry → s'.llc = s.llc → s'.reads = s.reads → s'.queue = rest → Ready s') :
    Ensures (processNextReqFromL2Cache cfg env k s) (UpToDate cfg) fun _ => True := by
  induction k generalizing s with
  | zero => exact Ensures.error trivial
  | succ k ih =>
    obtain ⟨f, rest, hqueue, hready⟩ := hq
    unfold processNextReqFromL2Cache
    rw [hqueue]
    have hrest := h.setQueue rest (by rw [hqueue]; exact List.sublist_cons_self ..)
    cases rest with
    | nil => exact Ensures.ok hrest
    | cons g rest =>
      have hturn := (hready { s with queue := g :: rest } rfl rfl rfl rfl).turn rfl
      refine ((hrest.processReq rfl hturn.coherent).and hturn.processReq).bind fun r hr => ?_
      obtain ⟨hsaves, hhandled⟩ := hr
      obtain ⟨t, completed⟩ := r
      cases completed with
      | true =>
        obtain ⟨⟨f', hf'⟩, hready'⟩ := hhandled
        exact ih hsaves ⟨f', rest, hf', hready'⟩
      | false => exact Ensures.ok hsaves

/-- The end of a handler. -/
theorem finish_saves {r : Outcome n V} (h : Saves cfg r) (hr : ∃ rest, Handled rest r) :
    Ensures (finish cfg env r) (UpToDate cfg) fun _ => True := by
  obtain ⟨rest, hhandled⟩ := hr
  obtain ⟨t, completed⟩ := r
  cases completed with
  | true =>
    obtain ⟨⟨f', hf'⟩, hready'⟩ := hhandled
    exact processNextReq_saves _ h ⟨f', rest, hf', hready'⟩
  | false => exact Ensures.ok h

end Handlers

end LifeSim.Directory
