import LifeSim.Directory.UpToDate

/-!
# No written value is lost

A `WB_REQ` that finds the line `MODIFIED` loses the value. The directory gives the data to the reader, but does not write
it to memory as it does with the data of a `FLUSH_REP`, and the copies are clean from then on. Two more ways to lose the
value are the `FLUSH_REP` that an upgrade keeps for later, whose buffer is freed with the message, and a block of the
NUCA cache that is inserted with data which DRAM does not have, but not marked as `MODIFIED`. Every other event keeps the
value.
-/

namespace LifeSim.Directory

open LifeSim.Lib DirMsg LlcMsg State

variable {n : ℕ} {V : Type}

/-- The event loses no value. A `WB_REQ` does not find the line `MODIFIED`, nor `SHARED_UPGRADING`, where the buffer is
not filled; a `FLUSH_REP` for an upgrade comes from the last sharer; and the NUCA cache does not drop the latest value
before DRAM has it. -/
def Event.KeepsData (s : State n V) : Event n V → Prop
  | .toLlc x => ∀ m ∈ (s.llc x).rx.head?, m.isWbReq = true →
      (s.llc x).cstate ≠ .modified ∧ (s.llc x).cstate ≠ .sharedUpgrading
  | .toDir x _ => ∀ m ∈ (s.llc x).tx.head?, m.isFlushRep = true →
      ∀ f ∈ s.queue.head?, f.msgType = .upgradeReq → ∀ y, s.sharer y = true → y = x
  | .evictNuca => ∀ block ∈ s.nuca, block.modified = false → block.data = some s.lastWrite → s.dramNext = block.data
  | _ => True

instance [DecidableEq V] (s : State n V) : (ev : Event n V) → Decidable (ev.KeepsData s)
  | .toLlc x => inferInstanceAs (Decidable (∀ m ∈ (s.llc x).rx.head?, m.isWbReq = true →
      (s.llc x).cstate ≠ .modified ∧ (s.llc x).cstate ≠ .sharedUpgrading))
  | .toDir x _ => inferInstanceAs (Decidable (∀ m ∈ (s.llc x).tx.head?, m.isFlushRep = true →
      ∀ f ∈ s.queue.head?, f.msgType = .upgradeReq → ∀ y, s.sharer y = true → y = x))
  | .evictNuca => inferInstanceAs (Decidable (∀ block ∈ s.nuca, block.modified = false →
      block.data = some s.lastWrite → s.dramNext = block.data))
  | .access .. | .evict _ | .dram | .fromDram _ | .nullify .. => isTrue trivial

section Messages

variable {s : State n V} {f : ShmemReq n} {rest : List (ShmemReq n)} {cfg : Config n} {env : Env} {x : Fin n}

/-- A message of a cache is taken. -/
theorem Carried.popTx (h : Carried cfg s) {m : LlcMsg V} {tx : List (LlcMsg V)} (htx : (s.llc x).tx = m :: tx) :
    Carried cfg (s.popTx x tx) where
  caches := fun y => by
    change (Function.update s.llc x { s.llc x with tx := tx } y).Right s.lastWrite (queuedBy s.queue y)
    by_cases hy : y = x
    · subst hy
      rw [Function.update_self]
      exact (h.caches y).popTx htx fun _ hk => .inl hk
    · rw [Function.update_of_ne hy]
      exact h.caches y
  answers := h.answers
  stored := h.stored
  nuca := h.nuca

/-- A message other than a `FLUSH_REP` leaves what comes back. -/
theorem Kept.popTx (h : Kept s) {m : LlcMsg V} {tx : List (LlcMsg V)} (htx : (s.llc x).tx = m :: tx)
    (hm : m.isFlushRep = false) : Kept (s.popTx x tx) := by
  refine h.imp_right fun ⟨y, hy⟩ => ⟨y, ?_⟩
  change (Function.update s.llc x { s.llc x with tx := tx } y).Dirty
  by_cases hyx : y = x
  · subst hyx
    rw [Function.update_self]
    exact hy.popTx htx hm
  · rwa [Function.update_of_ne hyx]

theorem UpToDate.popTx (h : UpToDate cfg s) {m : LlcMsg V} {tx : List (LlcMsg V)} (htx : (s.llc x).tx = m :: tx)
    (hm : m.isFlushRep = false) : UpToDate cfg (s.popTx x tx) :=
  ⟨h.toCarried.popTx htx, h.kept.popTx htx hm⟩

/-- A request of a cache arrives. -/
theorem UpToDate.enqueueReq {m : LlcMsg V} {tx : List (LlcMsg V)} {k : ReqType} (h : UpToDate cfg s) (hst : Stable s)
    (htx : (s.llc x).tx = m :: tx) (hk : k ≠ .nullifyReq) (hw : k.forWrite = true → m.forWrite = true)
    (hm : (m.isMissReq = true ∧ k ≠ .upgradeReq) ∨ (m.isUpgradeReq = true ∧ k = .upgradeReq)) :
    Ensures ((s.popTx x tx).enqueueReq cfg env k x) (Saves cfg) fun _ => True := by
  have hflush : m.isFlushRep = false := by cases m <;> simp_all [isFlushRep, isMissReq, isUpgradeReq]
  have hpop := h.popTx htx hflush
  have hqueued : ∀ y k', k' ∈ queuedBy (s.queue ++ [ShmemReq.new k x]) y → k' ∈ queuedBy s.queue y ∨ (y = x ∧ k' = k) :=
    fun y k' hk' => by
      rw [queuedBy, List.filter_append, List.map_append, List.mem_append] at hk'
      refine hk'.imp_right fun hk' => ?_
      obtain ⟨g, hg, rfl⟩ := List.mem_map.mp hk'
      obtain ⟨hg, hp⟩ := List.mem_filter.mp hg
      rw [List.mem_singleton.mp hg] at hp ⊢
      simp only [ShmemReq.new, Bool.and_eq_true] at hp
      exact ⟨(of_decide_eq_true hp.2).symm, rfl⟩
  have hnew : UpToDate cfg { s.popTx x tx with
      queue := s.queue ++ [ShmemReq.new k x], arrived := s.arrived ++ [x] } :=
    { caches := fun y => by
        change (Function.update s.llc x { s.llc x with tx := tx } y).Right s.lastWrite _
        by_cases hy : y = x
        · subst hy
          rw [Function.update_self]
          exact (h.caches y).popTx htx fun k' hk' => (hqueued y k' hk').imp_right fun hx => by rwa [hx.2]
        · rw [Function.update_of_ne hy]
          exact (h.caches y).mono fun k' hk' => (hqueued y k' hk').resolve_right fun hx => hy hx.1
      answers := h.answers
      stored := fun g hg => by
        rcases List.mem_append.mp hg with hg | hg
        · exact h.stored g hg
        · rw [List.mem_singleton.mp hg]
          rfl
      nuca := h.nuca
      kept := hpop.kept }
  unfold State.enqueueReq
  dsimp only
  rcases hst with ⟨hq, hr⟩ | ⟨f, rest, hwait⟩
  · have hq' : (s.popTx x tx).queue = [] := hq
    rw [hq, List.nil_append] at hnew
    simp only [hq', List.nil_append, List.length_singleton, if_true]
    exact hnew.processReq rfl (hr.coherent.enqueue htx hk hm rfl (by rw [hq]; rfl) rfl)
  · have hq' : (s.popTx x tx).queue = f :: rest := hwait.queue
    have hlen : ¬ ((s.popTx x tx).queue ++ [ShmemReq.new k x]).length = 1 := by simp [hq']
    rw [if_neg hlen]
    exact Ensures.ok hnew

/-- An `INV_REP` and the request at the front, where memory has the latest value if it is going to be read. -/
theorem UpToDate.resumeAfterInv (h : UpToDate cfg s) {e : DirectoryEntry n}
    (hempty : e.getNumSharers = 0 → s.dstate = .uncached)
    (hunc : s.dstate = .uncached → s.memory = some s.lastWrite)
    (hread : ∀ f rest, s.queue = f :: rest → f.msgType = .shReq → s.dstate.isOwned = false →
      s.memory = some s.lastWrite) :
    Ensures (s.resumeAfterInv cfg env x e) (Saves cfg) fun _ => True := by
  unfold State.resumeAfterInv
  split
  · exact Ensures.ok h
  · rename_i req rest hq
    split
    · rename_i hk
      split
      · exact h.processExReq hq hk (by simp) (fun _ => h.kept) fun _ => hunc
      · exact Ensures.ok h
    · rename_i hk
      split
      · split
        · exact h.processUpgradeReq hq hk (by simp) (.inl h.kept) fun _ => hunc
        · exact Ensures.ok h
      · split
        · rename_i hzero
          have h' := h.setEntry { e with dstate := .uncached }
          exact h'.processUpgradeReq hq hk (by simp) (.inl h'.kept) fun _ _ => hunc (hempty hzero)
        · exact Ensures.ok h
    · rename_i hk
      split
      · exact Ensures.ok h
      · split
        · exact Ensures.ok h
        · exact h.processShReq hq (by simp) fun _ => hread req rest hq hk
    · split
      · exact h.processNullifyReq
      · exact Ensures.ok h

/-- `processInvRepFromL2Cache`. -/
theorem UpToDate.invRep {tx : List (LlcMsg V)} (h : UpToDate cfg s) (hst : Stable s)
    (htx : (s.llc x).tx = .invRep :: tx) :
    Ensures ((s.popTx x tx).processInvRepFromL2Cache cfg env x) (Saves cfg) fun _ => True := by
  unfold processInvRepFromL2Cache
  have he : (s.popTx x tx).entry = s.entry := rfl
  rw [he]
  cases hse : s.entry with
  | none => exact Ensures.error trivial
  | some e =>
    dsimp only
    split
    · refine removeSharer_ensures.bind fun e' he' => ?_
      obtain ⟨hsx, rfl⟩ := he'
      dsimp only
      set e' : DirectoryEntry n := { e with
        sharers := Function.update e.sharers x false
        forwarder := if e.forwarder = some x then none else e.forwarder } with he'
      have hup := (h.popTx htx rfl).setEntry (uncacheIfEmpty e')
      -- a read waits for no flush, so that nothing comes back when it is taken up again
      obtain ⟨p, wb, fl, hc, hfl⟩ : ∃ p wb fl, Coherent p wb fl ((s.popTx x tx).setEntry (uncacheIfEmpty e')) ∧
          ∀ f rest, s.queue = f :: rest → f.msgType = .shReq → fl = false := by
        rcases hst with ⟨hq, hr⟩ | ⟨f, rest, hw⟩
        · obtain ⟨-, hc⟩ := left_of_pop e' hr.coherent htx rfl hse hsx rfl rfl
          exact ⟨_, _, _, hc, fun _ _ _ _ => rfl⟩
        · obtain ⟨-, hc⟩ := left_of_pop e' hw.coherent htx rfl hse hsx rfl rfl
          refine ⟨_, _, _, hc, fun f' rest' hq hk => ?_⟩
          obtain ⟨rfl, -⟩ := List.cons.inj (hw.queue.symm.trans hq)
          simp [waitsForFlush, hk]
      refine hup.resumeAfterInv (fun hzero => hc.uncached.mpr ?_) (fun hd => hup.kept.memory (hc.not_dirty (.inl hd)))
        fun f rest hq hk hd => hup.kept.memory (hc.not_dirty (.inr ⟨hd, hfl f rest hq hk⟩))
      exact DirectoryEntry.getNumSharers_eq_zero.mp hzero
    · exact Ensures.error trivial

/-- The latest value is written to memory. -/
theorem Carried.sendDataToDram (h : Carried cfg s) (env : Env) {d : Option V} (hd : d = some s.lastWrite) :
    UpToDate cfg (s.sendDataToDram cfg env d) := by
  obtain ⟨-, hq, hl, -⟩ := sendDataToDram_same cfg env d s
  obtain ⟨ha, hw, hs, hm⟩ := sendDataToDram_value cfg env d s
  have hnuca : cfg.nuca = true ∨ s.nuca = none := by
    cases hn : s.nuca with
    | none => exact .inr rfl
    | some block => exact .inl (h.nuca (by rw [hn]; rfl))
  refine ⟨⟨fun x => ?_, ?_, ?_, fun hn => (hs hn).elim id h.nuca⟩, .inl ?_⟩
  · rw [hl, hw, hq]
    exact h.caches x
  · rw [ha, hw]
    exact h.answers
  · rw [hq]
    exact h.stored
  · rw [hm hnuca, hw]
    exact hd

/-- A `FLUSH_REP` and the request at the front. An upgrade goes on at once if no sharer is left. -/
theorem Carried.resumeAfterFlush (h : Carried cfg s) {d : Option V} (hd : d = some s.lastWrite) {e : DirectoryEntry n}
    (hup : ∀ f rest, s.queue = f :: rest → f.msgType = .upgradeReq → e.getNumSharers = 0 ∧ s.dstate = .uncached) :
    Ensures (s.resumeAfterFlush cfg env d e) (Saves cfg) fun _ => True := by
  have hbuf : ∀ d' ∈ some d, d' = some s.lastWrite := fun d' hd' => (Option.some.inj hd').symm.trans hd
  have hdram := h.sendDataToDram env hd
  obtain ⟨-, hmq, -, -⟩ := sendDataToDram_same cfg env d s
  obtain ⟨-, hmw, -, -⟩ := sendDataToDram_value cfg env d s
  unfold State.resumeAfterFlush
  split
  · exact Ensures.ok hdram
  · rename_i req rest hq
    split
    · rename_i hk
      exact h.processExReq hq hk hbuf (by simp) (by simp)
    · exact hdram.processShReq (hmq.trans hq) (by rw [hmw]; exact hbuf) (by simp)
    · rename_i hk
      obtain ⟨hzero, hd'⟩ := hup req rest hq hk
      rw [if_pos hzero]
      exact h.processUpgradeReq hq hk hbuf (.inr hd') (by simp)
    · exact hdram.processNullifyReq

/-- `processFlushRepFromL2Cache`. -/
theorem UpToDate.flushRep {d : Option V} {tx : List (LlcMsg V)} (h : UpToDate cfg s)
    (htx : (s.llc x).tx = .flushRep d :: tx)
    (hkeep : ∀ f rest, s.queue = f :: rest → f.msgType = .upgradeReq → ∀ y, s.sharer y = true → y = x) :
    Ensures ((s.popTx x tx).processFlushRepFromL2Cache cfg env x d) (Saves cfg) fun _ => True := by
  have hd : d = some s.lastWrite := (h.caches x).sent (.flushRep d) (by simp [htx]) d rfl
  have hpop := h.toCarried.popTx htx
  unfold processFlushRepFromL2Cache
  have he : (s.popTx x tx).entry = s.entry := rfl
  rw [he]
  cases hse : s.entry with
  | none => exact Ensures.error trivial
  | some e =>
    dsimp only
    split
    · refine removeSharer_ensures.bind fun e' he' => ?_
      obtain ⟨hsx, rfl⟩ := he'
      dsimp only
      split
      · exact Ensures.error trivial
      · refine (hpop.setEntry _).resumeAfterFlush hd fun f rest hq hk => ?_
        have hall : ∀ y, Function.update e.sharers x false y = false := fun y => by
          by_cases hy : y = x
          · simp [hy]
          · rw [Function.update_of_ne hy]
            by_contra hs
            exact hy (hkeep f rest hq hk y (by simpa [sharer, hse] using hs))
        refine ⟨DirectoryEntry.getNumSharers_eq_zero.mpr (by simpa using hall), ?_⟩
        change (uncacheIfEmpty _).dstate = _
        rw [uncacheIfEmpty_dstate, if_pos hall]
    · exact Ensures.error trivial

/-- `processWbRepFromL2Cache`. -/
theorem UpToDate.wbRep {d : Option V} {tx : List (LlcMsg V)} (h : UpToDate cfg s)
    (htx : (s.llc x).tx = .wbRep d :: tx) :
    Ensures ((s.popTx x tx).processWbRepFromL2Cache cfg env x d) (Saves cfg) fun _ => True := by
  have hd : d = some s.lastWrite := (h.caches x).sent (.wbRep d) (by simp [htx]) d rfl
  have hpop := h.popTx htx rfl
  unfold processWbRepFromL2Cache
  split
  · exact Ensures.error trivial
  · split
    · dsimp only
      split
      · exact Ensures.error trivial
      · rename_i req rest hq
        split
        · exact (hpop.setEntry _).processShReq hq (fun d' hd' => (Option.some.inj hd').symm.trans hd) (by simp)
        · exact Ensures.error trivial
    · exact Ensures.error trivial

/-- `handleMsgFromL2Cache`. -/
theorem UpToDate.handleMsg {m : LlcMsg V} {tx : List (LlcMsg V)} (h : UpToDate cfg s) (hst : Stable s)
    (htx : (s.llc x).tx = m :: tx) (hkeep : m.isFlushRep = true →
      ∀ f ∈ s.queue.head?, f.msgType = .upgradeReq → ∀ y, s.sharer y = true → y = x) :
    Ensures ((s.popTx x tx).handleMsgFromL2Cache cfg env x m) (Saves cfg) fun _ => True := by
  unfold handleMsgFromL2Cache
  cases m with
  | exReq => exact h.enqueueReq hst htx (by simp) (fun _ => rfl) (.inl ⟨rfl, by simp⟩)
  | shReq => exact h.enqueueReq hst htx (by simp) (fun hw => hw) (.inl ⟨rfl, by simp⟩)
  | upgradeReq => exact h.enqueueReq hst htx (by simp) (fun _ => rfl) (.inr ⟨rfl, rfl⟩)
  | invRep => exact h.invRep hst htx
  | flushRep d => exact h.flushRep htx fun f rest hq => hkeep rfl f (by rw [hq]; rfl)
  | wbRep d => exact h.wbRep htx

/-- `processDRAMReply`. -/
theorem UpToDate.processDRAMReply {d : Option V} {ds : List (Option V)} (h : UpToDate cfg s)
    (hd : s.fromDram = d :: ds) :
    Ensures ({ s with fromDram := ds }.processDRAMReply cfg env d) (Saves cfg) fun _ => True := by
  have hlast : d = some s.lastWrite := h.answers d (by simp [State.answers, hd])
  have hrest : UpToDate cfg { s with fromDram := ds } :=
    { caches := h.caches
      answers := fun d' hd' => h.answers d' (by
        rw [State.answers, hd, List.cons_append]
        exact List.mem_cons_of_mem _ hd')
      stored := h.stored
      nuca := h.nuca
      kept := h.kept }
  unfold State.processDRAMReply
  split
  · exact Ensures.error trivial
  · exact Ensures.error trivial
  · rename_i req rest e hq _
    have hrep : Ensures (dramReplyType req.msgType e.dstate : Except Fault (Option V → DirMsg V))
        (fun rep => ∀ d, (rep d).getDataBuf = some d) fun _ => True := by
      unfold dramReplyType
      split
      · exact Ensures.ok fun _ => rfl
      · exact Ensures.ok fun _ => rfl
      · exact Ensures.error trivial
      · exact Ensures.ok fun _ => rfl
      · exact Ensures.error trivial
      · exact Ensures.ok fun _ => rfl
      · exact Ensures.error trivial
    refine hrep.bind fun rep hdata => Ensures.ok ?_
    set t : State n V := ({ s with fromDram := ds } : State n V).sendReply req.requester (rep d) with ht
    have hreply : UpToDate cfg t :=
      UpToDate.sendReply
        { toCarried := hrest.toCarried.sendMsg fun d' hd' => by
            rw [hdata d] at hd'
            exact (Option.some.inj hd').symm.trans hlast
          kept := hrest.kept.sendMsg _ }
    obtain ⟨-, hmq, hml, -⟩ := sendDataToNUCA_same cfg env d t
    obtain ⟨hma, hmw, hms, hmm⟩ := sendDataToNUCA_value cfg env d t
    refine ⟨⟨fun y => ?_, ?_, ?_, fun hn => (hms hn).elim id hreply.nuca⟩, ?_⟩
    · rw [hml, hmw, hmq]
      exact hreply.caches y
    · rw [hma, hmw]
      exact hreply.answers
    · rw [hmq]
      exact hreply.stored
    · unfold Kept
      rw [hmm, hmw, hml]
      split
      · exact .inl hlast
      · exact hreply.kept

/-- The line is nullified while there is no request. -/
theorem UpToDate.nullify (h : UpToDate cfg s) (requester : Fin n) :
    Ensures (s.nullify requester) (Saves cfg) fun _ => True := by
  have hnew : UpToDate cfg { s with queue := s.queue ++ [ShmemReq.new .nullifyReq requester] } := by
    refine h.congr rfl (fun x => ?_) (fun f hf => ?_) rfl rfl rfl rfl
    · simp [queuedBy, ShmemReq.new]
    · rcases List.mem_append.mp hf with hf | hf
      · exact h.stored f hf
      · rw [List.mem_singleton.mp hf]
        rfl
  exact hnew.processNullifyReq

/-- A cache that may write owns the line, and no other one has a copy. -/
theorem Coherent.owned_of_excl {p : Option (Fin n)} {wb : Fin n → Bool} {fl : Bool} (h : Coherent p wb fl s)
    (hx : (s.llc x).Excl) : s.dstate.isOwned = true ∧ s.sharer x = true ∧
      ∀ y, y ≠ x → s.sharer y = false ∧ (s.llc y).copies = 0 := by
  have hown : s.dstate.isOwned = true := (h.node x).excl hx
  have hpos := hx.copies_pos
  have hsx : s.sharer x = true := by
    by_contra hs
    have := (h.node x).copies_of_notSharer (by simpa [view] using hs)
    omega
  refine ⟨hown, hsx, fun y hy => ⟨?_, h.copies_of_owned hown hsx hy⟩⟩
  obtain ⟨o, -, -, hall⟩ := h.owned hown
  by_contra hs
  exact hy ((hall y (by simpa using hs)).trans (hall x hsx).symm)

/-- A cache that may write is alone: no other one has a copy or writes one back, and no data comes from DRAM. -/
theorem Stable.alone (h : Stable s) (hx : (s.llc x).Excl) :
    s.reads = 0 ∧ ∀ y, y ≠ x → (s.llc y).copies = 0 ∧ (s.llc y).tx.countP isWbRep = 0 := by
  rcases h with ⟨-, hr⟩ | ⟨f, rest, hw⟩
  · obtain ⟨-, -, hothers⟩ := hr.coherent.owned_of_excl hx
    exact ⟨hr.reads, fun y hy => ⟨(hothers y hy).2, ((hr.coherent.node y).quiet rfl).2⟩⟩
  · obtain ⟨-, -, hothers⟩ := hw.coherent.owned_of_excl hx
    -- a cache to which the line has been granted would be another sharer
    have hgranted : f.granted ≠ some f.requester := fun hg => by
      obtain ⟨hc, hs⟩ := (hw.coherent.node f.requester).copies_of_pending (by simp [view, hg])
      have hpos := hx.copies_pos
      by_cases hrx : f.requester = x
      · rw [hrx] at hc
        omega
      · simp only [view, (hothers _ hrx).1] at hs
        cases hs
    have hwait : f.waitForData = false := by
      by_contra hne
      exact hgranted (by simp [ShmemReq.granted, hne])
    have hfwd : f.forwardingFrom = none := by
      by_contra hne
      exact hgranted (by simp [ShmemReq.granted, Option.isSome_iff_ne_none.mpr hne])
    refine ⟨by rw [hw.reads, hwait]; rfl, fun y hy => ⟨(hothers y hy).2, ?_⟩⟩
    exact ((hw.coherent.node y).quiet (by simp [view, waitsForWb, (hothers y hy).1, hfwd])).2

/-- A step of one cache. -/
theorem UpToDate.setLlc (h : UpToDate cfg s) (hst : Stable s) {r : Llc V × V}
    (hr : (s.llc x).Moves (queuedBy s.queue x) s.lastWrite r) : UpToDate cfg (s.setLlc x r) where
  caches := fun y => by
    change (Function.update s.llc x r.1 y).Right r.2 (queuedBy s.queue y)
    by_cases hy : y = x
    · subst hy
      rw [Function.update_self]
      exact hr.right
    · rw [Function.update_of_ne hy]
      rcases hr.write with hlast | ⟨hex, -⟩
      · rw [hlast]
        exact h.caches y
      · obtain ⟨hc, hwb⟩ := (hst.alone hex).2 y hy
        exact (h.caches y).of_noCopy hc hwb r.2
  answers := by
    change ∀ d ∈ s.answers, d = some r.2
    rcases hr.write with hlast | ⟨hex, -⟩
    · rw [hlast]
      exact h.answers
    · have hnil : s.answers = [] := List.length_eq_zero_iff.mp (s.length_answers.trans (hst.alone hex).1)
      simp [hnil]
  stored := h.stored
  nuca := h.nuca
  kept := by
    have hself : (s.setLlc x r).llc x = r.1 := Function.update_self ..
    rcases hr.write with hlast | ⟨-, hd⟩
    · rcases h.kept with hm | ⟨y, hy⟩
      · exact .inl (hm.trans (congrArg some hlast.symm))
      · refine .inr ⟨y, ?_⟩
        by_cases hyx : y = x
        · subst hyx
          rw [hself]
          exact hr.dirty hy
        · rwa [show (s.setLlc x r).llc y = s.llc y from Function.update_of_ne hyx ..]
    · exact .inr ⟨x, by rwa [hself]⟩

/-- DRAM takes a message. -/
theorem UpToDate.serveDram (h : UpToDate cfg s) {m : DramMsg V} {ms : List (DramMsg V)} (hm : s.toDram = m :: ms) :
    UpToDate cfg ({ s with toDram := ms }.serveDram m) := by
  cases m with
  | readReq =>
    refine h.congr rfl (fun _ => rfl) h.stored ?_ rfl rfl ?_
    · simp [State.serveDram, State.answers, hm, DramMsg.answers]
    · simp [State.serveDram, State.memory, dramNext, hm, DramMsg.after]
  | writeReq d =>
    refine h.congr rfl (fun _ => rfl) h.stored ?_ rfl rfl ?_
    · simp [State.serveDram, State.answers, hm, DramMsg.answers]
    · simp [State.serveDram, State.memory, dramNext, hm, DramMsg.after]

/-- The NUCA cache evicts the block. -/
theorem UpToDate.evictNuca (h : UpToDate cfg s) (hkeep : Event.evictNuca.KeepsData s) : UpToDate cfg s.evictNuca := by
  unfold State.evictNuca
  split
  · rename_i block hb
    refine ⟨⟨h.caches, ?_, h.stored, by simp⟩, ?_⟩
    · cases block.modified <;> simpa [State.answers, DramMsg.answers_append, DramMsg.answers] using h.answers
    · refine h.kept.imp_left fun hm => ?_
      simp only [State.memory, hb] at hm
      cases hmod : block.modified with
      | false => simpa [State.memory, dramNext] using (hkeep block hb hmod hm).trans hm
      | true => simpa [State.memory, dramNext, DramMsg.after_append, DramMsg.after] using hm
  · exact h

end Messages

section Runs

variable {cfg : Config n}

/-- Nothing has happened yet. -/
theorem upToDate_initial (v : V) : UpToDate cfg (initial v : State n V) where
  caches := fun _ => Llc.right_empty
  answers := by simp [State.answers, initial, DramMsg.answers]
  stored := by simp [initial]
  nuca := by simp [initial]
  kept := .inl rfl

/-- Every step that loses no value keeps the latest one. -/
theorem UpToDate.step {s : State n V} (h : UpToDate cfg s) (hst : Stable s) {ev : Event n V} (hkeep : ev.KeepsData s) :
    Ensures (step cfg s ev) (UpToDate cfg) fun _ => True := by
  obtain ⟨p, wb, fl, hc⟩ := hst.coherent
  have hmap : ∀ {x : Fin n} {y : Except Fault (Llc V × V)},
      Ensures y ((s.llc x).Moves (queuedBy s.queue x) s.lastWrite) (fun _ => True) →
      Ensures (y.map fun r => s.setLlc x r) (UpToDate cfg) fun _ => True := by
    intro x y hy
    cases y with
    | ok r => exact h.setLlc hst hy
    | error f => exact trivial
  cases ev with
  | access x a => exact hmap ((h.caches x).access (hc.node x) a)
  | evict x =>
    dsimp only [LifeSim.Directory.step]
    have hevict := (h.caches x).evict
    cases hr : (s.llc x).evict with
    | ok l => exact h.setLlc hst (hevict.of_ok hr)
    | error f => exact trivial
  | toLlc x =>
    dsimp only [LifeSim.Directory.step]
    split
    · exact h
    · rename_i m rx hrx
      exact hmap ((h.caches x).handleMsg (hc.node x) hrx (hkeep m (by rw [hrx]; rfl)))
  | toDir x env =>
    dsimp only [LifeSim.Directory.step]
    split
    · exact h
    · rename_i m tx htx
      exact ((h.handleMsg hst htx (hkeep m (by rw [htx]; rfl))).and (hst.handleMsg htx)).bind fun _ hr =>
        finish_saves hr.1 hr.2
  | dram =>
    dsimp only [LifeSim.Directory.step]
    split
    · exact h
    · rename_i m ms hm
      exact Ensures.ok (h.serveDram hm)
  | fromDram env =>
    dsimp only [LifeSim.Directory.step]
    split
    · exact h
    · rename_i d ds hd
      exact ((h.processDRAMReply hd).and (hst.processDRAMReply hd)).bind fun _ hr => finish_saves hr.1 hr.2
  | nullify x env =>
    dsimp only [LifeSim.Directory.step]
    split
    · rename_i hcond
      exact ((h.nullify x).and (hst.nullify hcond.2 x)).bind fun _ hr => finish_saves hr.1 hr.2
    · exact h
  | evictNuca => exact Ensures.ok (h.evictNuca hkeep)

/-- A run that loses no value. -/
theorem upToDate_of_guarded {v : V} {es : List (Event n V)} {s : State n V}
    (hes : (machine n V cfg).Guarded (fun s ev => ev.KeepsData s) (initial v) es)
    (hrun : (machine n V cfg).run (initial v) es = .ok s) : UpToDate cfg s := by
  have hboth : Stable s ∧ UpToDate cfg s := (machine n V cfg).guarded_induction
    (P := fun s => Stable s ∧ UpToDate cfg s)
    (fun s ev s' hs hkeep hok => ⟨(stable_step cfg hs.1 ev).of_ok hok, (hs.2.step hs.1 hkeep).of_ok hok⟩)
    ⟨stable_initial v, upToDate_initial v⟩ hes hrun
  exact hboth.2

end Runs

/-- **No written value is lost.** Where no event loses the value, a cache is only sent the value of the latest write,
whether it comes from another cache or from memory, it only reads this value in its own copy, and memory has it when
nothing is going to come back from a cache. -/
theorem answered_with_latest (cfg : Config n) (v : V) (es : List (Event n V))
    (hes : (machine n V cfg).Guarded (fun s ev => ev.KeepsData s) (initial v) es) (s : State n V)
    (hrun : (machine n V cfg).run (initial v) es = .ok s) :
    (∀ x, ∀ m ∈ (s.llc x).rx, ∀ d ∈ m.getDataBuf, d = some s.lastWrite) ∧
    (∀ x, (s.llc x).cstate ≠ .invalid → (s.llc x).data = some s.lastWrite) ∧
    ((∀ x, ¬ (s.llc x).Dirty) → s.memory = some s.lastWrite) := by
  have h := upToDate_of_guarded hes hrun
  exact ⟨fun x => (h.caches x).received, fun x => (h.caches x).copy, h.kept.memory⟩

/-- Two caches write one after the other, the second one evicts the line, a third one reads it from memory, and the first
one gets it from there. -/
def handedOn (x y z : Fin n) : List (Event n ℕ) :=
  [.access x (.write 1), .toDir x ⟨0, false⟩, .dram, .fromDram ⟨0, false⟩, .toLlc x,
    .access y (.write 2), .toDir y ⟨0, false⟩, .toLlc x, .toDir x ⟨0, false⟩, .toLlc y,
    .evict y, .toDir y ⟨0, false⟩, .dram, .access z .read, .toDir z ⟨0, false⟩, .dram, .fromDram ⟨0, false⟩, .toLlc z,
    .access x .read, .toDir x ⟨0, false⟩, .toLlc z, .toDir z ⟨0, false⟩]

theorem answered_with_latest_handedOn : ∃ s, (machine 3 ℕ ⟨.mesi, .fullMap, 3, false, none⟩).run (initial 0)
      (handedOn 0 1 2) = .ok s ∧
    (∀ x, ∀ m ∈ (s.llc x).rx, ∀ d ∈ m.getDataBuf, d = some s.lastWrite) ∧
    (s.llc 0).rx = [.shRep (some 2)] ∧ s.lastWrite = 2 := by
  have hok : ((machine 3 ℕ ⟨.mesi, .fullMap, 3, false, none⟩).run (initial 0) (handedOn 0 1 2)).isOk = true := by
    decide +kernel
  have hrun := Machine.run_final _ hok
  have hes := answered_with_latest ⟨.mesi, .fullMap, 3, false, none⟩ 0 (handedOn (0 : Fin 3) 1 2)
    (Machine.Guarded.of_decide (by decide +kernel)) _ hrun
  exact ⟨_, hrun, hes.1, by decide +kernel, by decide +kernel⟩

/-- A cache writes, another one reads, both evict their copies, and the first one reads again. -/
def writtenBack (x y : Fin n) : List (Event n ℕ) :=
  [.access x (.write 7), .toDir x ⟨0, false⟩, .dram, .fromDram ⟨0, false⟩, .toLlc x,
    .access y .read, .toDir y ⟨0, false⟩, .toLlc x, .toDir x ⟨0, false⟩, .toLlc y,
    .evict x, .toDir x ⟨0, false⟩, .evict y, .toDir y ⟨0, false⟩,
    .access x .read, .toDir x ⟨0, false⟩, .dram, .fromDram ⟨0, false⟩]

/-- The write is lost: the read is answered with the value from before it. -/
theorem answered_with_latest_fails : ∃ s, (machine 2 ℕ ⟨.msi, .fullMap, 2, false, none⟩).run (initial 0)
      (writtenBack 0 1) = .ok s ∧
    (s.llc 0).rx = [.shRep (some 0)] ∧ s.lastWrite = 7 := by
  have hok : ((machine 2 ℕ ⟨.msi, .fullMap, 2, false, none⟩).run (initial 0) (writtenBack 0 1)).isOk = true := by
    decide +kernel
  exact ⟨_, Machine.run_final _ hok, by decide +kernel, by decide +kernel⟩

end LifeSim.Directory
