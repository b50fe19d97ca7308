import LifeSim.Directory.Demands

/-!
# No handler fails

The handlers once more: where the invariants hold, none of their assertions fails, and what the request
at the front then waits for is under way. A limited directory without room for all caches asks a sharer to leave on
behalf of a read. A request that is resumed in the meantime leaves the `INV_REQ` behind.
-/

namespace LifeSim.Directory

open LifeSim.Lib DirMsg LlcMsg State

variable {n : ℕ} {V : Type}

/-- A limited directory has room for one sharer. -/
def Config.HasPlace (cfg : Config n) : Prop :=
  cfg.directoryType = .limitedNoBroadcast → 1 ≤ n → 1 ≤ cfg.maxHwSharers

theorem Config.HasRoom.hasPlace {cfg : Config n} (hcfg : cfg.HasRoom) : cfg.HasPlace :=
  fun ht hn => hn.trans (hcfg ht)

/-- The first sharer is never refused. -/
theorem not_refused_first {cfg : Config n} (hcfg : cfg.HasPlace) {e : DirectoryEntry n} (x : Fin n)
    (hnone : ∀ y, e.sharers y = false) : e.refusesSharer cfg = false := by
  have hn : 1 ≤ n := x.pos
  unfold DirectoryEntry.refusesSharer Config.useMaxHwSharers
  rw [DirectoryEntry.getNumSharers_eq_zero.mpr hnone]
  cases ht : cfg.directoryType with
  | limitless => rfl
  | limitedNoBroadcast => exact decide_eq_false (Nat.not_le.mpr (hcfg ht hn))
  | fullMap => exact decide_eq_false (Nat.not_le.mpr hn)

/-- The forwarder is never read before it is set. -/
theorem Config.HasRoom.setsForwarder {cfg : Config n} (hcfg : cfg.HasRoom) : cfg.SetsForwarder := by
  refine fun _ => .inr fun hl => ?_
  have := hcfg hl.1
  omega

/-- A part that succeeds is followed by the rest. -/
theorem ensures_of_ok {α β : Type} {x : Except Fault α} {a : α} {g : α → Except Fault β} {Q : β → Prop}
    {F : Fault → Prop} (hx : x = .ok a) (h : Ensures (g a) Q F) : Ensures (x >>= g) Q F := by
  rw [hx]
  exact h

/-- How far a request is from its answer: caches are asked for their copies, one has to make room, one is asked for
the data, memory is read. -/
def ShmemReq.stage (f : ShmemReq n) : ℕ :=
  if f.waitForData then 0 else if f.forwardingFrom.isSome then 1 else if f.victim.isSome then 2 else 3

/-- How far the request at the front is from its answer. -/
def State.stage (s : State n V) : ℕ :=
  match s.queue with
  | [] => 0
  | f :: _ => f.stage

namespace DirectoryEntry

variable {cfg : Config n} {e : DirectoryEntry n} {x : Fin n}

/-- A sharer is added where there is room. -/
theorem addSharer_ok (hroom : e.refusesSharer cfg = false) (hx : e.sharers x = false) :
    e.addSharer cfg x = .ok (some { e with sharers := Function.update e.sharers x true }) := by
  simp [addSharer, hx, hroom]

/-- A sharer is refused. -/
theorem addSharer_full (hfull : e.refusesSharer cfg = true) (hx : e.sharers x = false) :
    e.addSharer cfg x = .ok none := by
  simp [addSharer, hx, hfull]

/-- The first sharer is added. -/
theorem addFirstSharer_ok (hcfg : cfg.HasPlace) (hnone : ∀ y, e.sharers y = false) :
    e.addFirstSharer cfg x = .ok { e with sharers := Function.update e.sharers x true } := by
  simp [addFirstSharer, addSharer_ok (not_refused_first hcfg x hnone) (hnone x), bind, Except.bind]

/-- A sharer becomes the owner. -/
theorem setOwner_ok (hx : e.sharers x = true) : e.setOwner x = .ok { e with owner := some x } := by
  simp [setOwner, hx]

/-- One of the sharers is chosen. -/
theorem getOneSharer_ok (hx : e.sharers x = true) (pick : ℕ) : ∃ y, e.getOneSharer pick = .ok y ∧ e.sharers y = true := by
  have hpos : 0 < e.getSharersList.length := List.length_pos_of_mem (mem_getSharersList.mpr hx)
  have hget := List.getElem?_eq_getElem (Nat.mod_lt pick hpos)
  refine ⟨_, ?_, mem_getSharersList.mp (List.getElem_mem (Nat.mod_lt pick hpos))⟩
  rw [getOneSharer, getNumSharers, hget]

/-- The owner gets a message. -/
theorem getOwner_ok (hx : e.owner = some x) : e.getOwner = .ok x := by
  simp [getOwner, hx]

end DirectoryEntry

section Handlers

variable {s s' : State n V} {f : ShmemReq n} {rest : List (ShmemReq n)} {cfg : Config n} {env : Env}
  {x : Fin n}

/-- A sharer has a copy, or has sent it back. -/
theorem Turn.copies (h : Turn f rest s) (hx : s.sharer x = true) : 0 < (s.llc x).copies := by
  have := (h.coherent.node x).copies
  simp only [view, hx, Bool.toNat_true] at this
  simp at this
  omega

/-- Only a read is refused. -/
theorem refused_of_ne (hk : f.msgType ≠ .shReq) : s.refused f = false := by
  simp [refused, hk]

/-- A read that has been granted has not been refused. -/
theorem refused_of_forwarding (hf : f.forwardingFrom.isSome = true) : s.refused f = false := by
  rw [Option.isSome_iff_exists] at hf
  obtain ⟨y, hy⟩ := hf
  simp [refused, hy]

theorem refused_of_waitForData (hw : f.waitForData = true) : s.refused f = false := by
  simp [refused, hw]

/-- A read that has been refused waits for no write-back. -/
theorem waitsForWb_of_refused (hr : s.refused f = true) : s.waitsForWb f = fun _ => false := by
  simp only [refused, Bool.and_eq_true, decide_eq_true_eq] at hr
  exact funext fun y => waitsForWb_of_shared hr.2 hr.1.2 y

/-- A read that has not been refused waits for no copy. -/
theorem demands_of_not_refused (hk : f.msgType = .shReq) (hr : s.refused f = false) : s.demands f = fun _ => false := by
  funext y
  simp [demands, hk, hr]

/-- A request that waits for copies waits for no write-back, and the other way round. -/
theorem demands_of_waitsForWb (hk : f.msgType = .shReq) (hwb : s.waitsForWb f x = true) :
    s.demands f = fun _ => false := by
  refine demands_of_not_refused hk ?_
  by_contra hr
  rw [waitsForWb_of_refused (by simpa using hr)] at hwb
  cases hwb

theorem demands_of_waitForData (hw : f.waitForData = true) : s.demands f = fun _ => false := by
  funext y
  simp [demands, hw]

theorem waitsForWb_of_waitForData (hw : f.waitForData = true) : s.waitsForWb f = fun _ => false := by
  funext y
  simp [waitsForWb, hw]

/-- The sharers are asked for their copies. -/
theorem Turn.ask_served (h : Turn f rest s) (hp : Prompts (fun _ => false) (fun _ => false) s)
    (hwb : s.waitsForWb f = fun _ => false) (hfull : s.refused f = true → ¬ cfg.HasRoom)
    (hown : f.msgType = .shReq → s.dstate.isOwned = true → f.victim = none)
    (msgs : List (Fin n × DirMsg V)) (hnd : (msgs.map Prod.fst).Nodup)
    (hmem : ∀ x, s.demands f x = true ↔ x ∈ msgs.map Prod.fst)
    (hmsgs : ∀ q ∈ msgs, (q.2 = .invReq ∧ s.dstate = .shared) ∨ q.2 = .flushReq)
    (hex : ∃ x, s.demands f x = true) : Served cfg (s.sendMsgs msgs, false) := by
  have href : (s.sendMsgs msgs).refused f = s.refused f := by simp only [refused, sendMsgs_dstate]
  have hdem : (s.sendMsgs msgs).demands f = s.demands f := by
    funext y
    simp only [demands, sendMsgs_sharer, href]
  have hwb' : (s.sendMsgs msgs).waitsForWb f = fun _ => false := by
    rw [← hwb]
    funext y
    simp only [waitsForWb, sendMsgs_dstate, sendMsgs_sharer]
  refine .inr ⟨f, rest, by rw [sendMsgs_queue, h.queue], ?_⟩
  exact
    { prompts := by
        rw [hdem, hwb']
        refine hp.askAll hnd hmem (fun y hy => h.copies ?_) hmsgs
        simp only [demands, Bool.and_eq_true] at hy
        exact hy.1.2
      waits := fun _ => by
        rw [hdem]
        exact hex.imp fun _ => .inl
      sharer := fun y hy => by
        rw [hwb'] at hy
        cases hy
      refused := by
        rw [href]
        exact hfull
      unasked := fun hk _ _ => by
        rw [sendMsgs_dstate]
        exact hown hk }

/-- The sharers are asked on behalf of a request for the line itself. -/
theorem Turn.askAll_served (h : Turn f rest s) (hp : Prompts (fun _ => false) (fun _ => false) s)
    (hk : f.msgType ≠ .shReq) (msgs : List (Fin n × DirMsg V)) (hnd : (msgs.map Prod.fst).Nodup)
    (hmem : ∀ x, s.demands f x = true ↔ x ∈ msgs.map Prod.fst)
    (hmsgs : ∀ q ∈ msgs, (q.2 = .invReq ∧ s.dstate = .shared) ∨ q.2 = .flushReq)
    (hex : ∃ x, s.demands f x = true) : Served cfg (s.sendMsgs msgs, false) :=
  h.ask_served hp (waitsForWb_of_ne hk) (fun hr => by rw [refused_of_ne hk] at hr; cases hr) (fun hk' => absurd hk' hk)
    msgs hnd hmem hmsgs hex

/-- The owner is asked for the line. -/
theorem Turn.askOwner_served (h : Turn f rest s) (hp : Prompts (fun _ => false) (fun _ => false) s)
    (hk : f.msgType ≠ .shReq) (hd : s.dstate.isOwned = true)
    (hr : f.msgType = .upgradeReq → s.sharer f.requester = false) :
    Ensures ((s.getDirectoryEntry cfg).getOwner >>= fun o => .ok (s.sendMsg o .flushReq, false))
      (Served cfg) fun _ => False := by
  obtain ⟨o, ho, hso, hall⟩ := h.coherent.owned hd
  refine ensures_of_ok (DirectoryEntry.getOwner_ok (x := o) (by rw [getDirectoryEntry_owner, ho])) ?_
  have hdem : ∀ y, s.demands f y = true ↔ y = o := by
    intro y
    simp only [demands, h.waitForData, if_neg hk, Bool.not_false, Bool.true_and, Bool.and_eq_true, Bool.not_eq_true']
    refine ⟨fun hy => hall y hy.1, ?_⟩
    rintro rfl
    refine ⟨hso, ?_⟩
    by_contra hne
    simp only [Bool.not_eq_false, Bool.and_eq_true, decide_eq_true_eq] at hne
    have := hr hne.1
    rw [hne.2, hso] at this
    cases this
  refine Ensures.ok (h.askAll_served hp hk [(o, .flushReq)] (by simp) (fun y => ?_) ?_ ⟨o, (hdem o).mpr rfl⟩)
  · rw [hdem y]
    simp
  · intro q hq
    rw [List.mem_singleton] at hq
    subst hq
    exact .inr rfl

/-- All sharers of a `SHARED` line are asked for their copies. -/
theorem Turn.invalidate_served (h : Turn f rest s) (hp : Prompts (fun _ => false) (fun _ => false) s)
    (hk : f.msgType ≠ .shReq) (hk' : f.msgType ≠ .upgradeReq) (hd : s.dstate = .shared)
    {e : DirectoryEntry n} (he : e.sharers = s.sharer) : Served cfg (s.invalidateSharers e, false) := by
  have hdem : ∀ y, s.demands f y = true ↔ s.sharer y = true := by
    intro y
    simp [demands, h.waitForData, hk, hk']
  refine h.askAll_served hp hk _ ?_ (fun y => ?_) ?_ ?_
  · rw [List.map_map]
    simpa [Function.comp_def] using e.nodup_getSharersList
  · rw [hdem, List.map_map, ← he, ← DirectoryEntry.mem_getSharersList]
    simp [Function.comp_def]
  · intro q hq
    obtain ⟨y, -, rfl⟩ := List.mem_map.mp hq
    exact .inl ⟨rfl, hd⟩
  · by_contra hne
    have hu : s.dstate = .uncached := h.coherent.uncached.mpr fun y => by
      by_contra hy
      exact hne ⟨y, (hdem y).mpr (by simpa using hy)⟩
    rw [hd] at hu
    cases hu

/-- The forwarder of a line that is asked for its data is a sharer other than the requester. -/
def ForwarderAsked (cfg : Config n) (f : ShmemReq n) (e : DirectoryEntry n) : Prop :=
  ∀ y, forwardCandidate cfg e f = some y → e.sharers y = true ∧ y ≠ f.requester

/-- Data from memory is waited for. -/
theorem pending_read (hw : f.waitForData = true) (h : Prompts (fun _ => false) (fun _ => false) s) :
    Pending cfg f s where
  prompts := by
    rw [demands_of_waitForData hw, waitsForWb_of_waitForData hw]
    exact h
  waits := fun hne => by
    rw [hw] at hne
    cases hne
  sharer := fun y hy => by
    rw [waitsForWb_of_waitForData hw] at hy
    cases hy
  refused := fun hr => by
    rw [refused_of_waitForData hw] at hr
    cases hr
  unasked := fun _ hne => by
    rw [hw] at hne
    cases hne

/-- The request waits for data from a sharer. -/
theorem Granted.forward_served (h : Granted f rest s) (hp : Prompts (fun _ => false) (fun _ => false) s)
    (hd : s.dstate = .shared) {y : Fin n} (hs : s.sharer y = true) (hy : y ≠ f.requester) :
    Pending cfg { f with forwardingFrom := some y }
      ({ s with queue := { f with forwardingFrom := some y } :: rest }.sendMsg y .wbReq) := by
  have hk : f.msgType = .shReq := by
    rcases h.kind with ⟨hk, -⟩ | ⟨-, hk⟩
    · exact hk
    · rw [hd] at hk
      cases hk
  generalize ht : ({ s with queue := { f with forwardingFrom := some y } :: rest } : State n V) = t
  have hte : t.entry = s.entry := by rw [← ht]
  have hwb : ∀ z, (t.sendMsg y .wbReq).waitsForWb { f with forwardingFrom := some y } z = true ↔ z = y := by
    intro z
    have hd' : (t.sendMsg y DirMsg.wbReq).dstate = .shared := by
      rw [← hd]
      simp only [State.dstate, sendMsg_entry, hte]
    have hne : f.requester ≠ y := fun h => hy h.symm
    simp only [waitsForWb, hk, h.waitForData, hd', DirectoryState.isOwned, Bool.false_and, Bool.false_or,
      Bool.not_false, decide_true, Bool.true_and, Bool.and_eq_true, decide_eq_true_eq, Option.some.injEq]
    refine ⟨fun hz => hz.2.symm, ?_⟩
    rintro rfl
    exact ⟨hne, rfl⟩
  have hpt : Prompts (fun _ => false) (fun _ => false) t := by
    refine hp.congr (by simp only [State.dstate, hte]) (fun z => ?_) (by rw [← ht])
    rw [← ht, h.queue]
    exact queuedBy_front (f := f) (g := { f with forwardingFrom := some y }) rfl rfl z
  have hcopies : 0 < (t.llc y).copies := by
    have hl : t.llc = s.llc := by rw [← ht]
    have hne : ¬ f.requester = y := fun h => hy h.symm
    have := (h.coherent.node y).copies
    simp only [view, hs, Bool.toNat_true, Option.some.injEq, hne, decide_false, Bool.toNat_false] at this
    rw [hl]
    omega
  exact
    { prompts := by
        rw [demands_of_waitsForWb (f := { f with forwardingFrom := some y }) hk ((hwb y).mpr rfl)]
        exact hpt.askWriteBack hwb hcopies
      waits := fun _ => ⟨y, .inr ((hwb y).mpr rfl)⟩
      sharer := fun z hz => by
        rw [(hwb z).mp hz]
        simpa only [State.sharer, sendMsg_entry, hte] using hs
      refused := fun hr => by
        rw [refused_of_forwarding rfl] at hr
        cases hr
      unasked := fun _ _ hnone => by cases hnone }

/-- The request is answered. -/
theorem Granted.answer_served (h : Granted f rest s) (hp : Prompts (fun _ => false) (fun _ => false) s)
    {m : DirMsg V} (hm : m.isDataRep = true) (hmod : s.dstate = .modified → m.isExRep = true)
    (hsh : m.isShRep = true → f.msgType = .shReq) : Served cfg (s.sendReply f.requester m, true) := by
  intro s' he' hl' hq'
  have hrest : s'.queue = rest := hq'.trans (congrArg List.tail h.queue)
  refine hp.reply h.coherent h.queue h.msgType rfl hm (fun hd => ⟨hmod hd, ?_⟩) hsh he' hrest fun x => ?_
  · -- a line that is `MODIFIED` is granted to a request that writes
    rcases h.kind with ⟨-, hs | hs⟩ | ⟨hk, -⟩
    · rw [hd] at hs
      cases hs
    · rw [hd] at hs
      cases hs
    · exact hk
  · rw [hl']
    exact sendMsg_llc f.requester x m s

/-- `retrieveDataAndSendToL2Cache` answers the request, or what it waits for is under way. -/
theorem Granted.retrieveData_served {rep : Option V → DirMsg V} {buf : Option (Option V)}
    {e : DirectoryEntry n} (h : Granted f rest (s.setEntry e))
    (hp : Prompts (fun _ => false) (fun _ => false) (s.setEntry e)) (hrep : ∀ d, (rep d).isDataRep = true)
    (hmod : e.dstate = .modified → ∀ d, (rep d).isExRep = true)
    (hsh : ∀ d, (rep d).isShRep = true → f.msgType = .shReq) (hf : buf = none → ForwarderAsked cfg f e) :
    Ensures (s.retrieveDataAndSendToL2Cache cfg rep f.requester buf e) (Served cfg) fun _ => False := by
  unfold retrieveDataAndSendToL2Cache
  split
  · have h' : Granted f rest (s.setEntry { e with forwarder := some f.requester }) := h.setEntry rfl rfl rfl
    exact Ensures.ok (h'.answer_served hp (hrep _) (fun hd => hmod hd _) (hsh _))
  · split
    · exact Ensures.ok (h.answer_served hp (hrep _) (fun hd => hmod hd _) (hsh _))
    · have hq : (s.setEntry e).queue = f :: rest := h.queue
      unfold fetchData
      rw [hq]
      dsimp only
      split
      · rename_i y hy
        have hd : e.dstate = .shared := by
          unfold forwardCandidate at hy
          split at hy
          · rename_i hc
            exact hc.2.2
          · cases hy
        obtain ⟨hs, hne⟩ := hf rfl y hy
        exact Ensures.ok (.inr ⟨_, rest, rfl, h.forward_served hp hd hs hne⟩)
      · refine Ensures.ok (.inr ⟨_, rest, rfl, pending_read rfl (hp.congr rfl (fun x => ?_) rfl)⟩)
        rw [hq]
        exact queuedBy_front (f := f) (g := { f with waitForData := true }) rfl rfl x

/-- The first sharer of a line that is not cached. -/
theorem Turn.grantFirst_served (h : Turn f rest s) (hp : Prompts (fun _ => false) (fun _ => false) s)
    (hcfg : cfg.HasPlace) (hd : s.dstate = .uncached) {d : DirectoryState}
    {rep : Option V → DirMsg V} {buf : Option (Option V)}
    (hkind : (f.msgType = .shReq ∧ (d = .shared ∨ d = .exclusive)) ∨
      ((f.msgType = .exReq ∨ f.msgType = .upgradeReq) ∧ d = .modified))
    (hms : d = .shared → cfg.protocol = .msi) (hrep : ∀ d, (rep d).isDataRep = true)
    (hmod : d = .modified → ∀ d, (rep d).isExRep = true)
    (hsh : ∀ d, (rep d).isShRep = true → f.msgType = .shReq) :
    Ensures ((s.getDirectoryEntry cfg).addFirstSharer cfg f.requester >>= fun e =>
      e.setOwner f.requester >>= fun e =>
      s.retrieveDataAndSendToL2Cache cfg rep f.requester buf { e with dstate := d }) (Served cfg)
      fun _ => False := by
  have hr : s.sharer f.requester = false := h.coherent.uncached.mp hd _
  have hne : d ≠ .uncached := by rcases hkind with ⟨-, hk | hk⟩ | ⟨-, hk⟩ <;> simp [hk]
  refine ensures_of_ok (DirectoryEntry.addFirstSharer_ok hcfg fun y => ?_) ?_
  · rw [getDirectoryEntry_sharers, h.coherent.uncached.mp hd]
  refine ensures_of_ok (DirectoryEntry.setOwner_ok (by simp)) ?_
  refine (h.grant (e := { s.getDirectoryEntry cfg with
    dstate := d
    sharers := Function.update (s.getDirectoryEntry cfg).sharers f.requester true
    owner := some f.requester }) hr (by rw [getDirectoryEntry_sharers]) (.inl ⟨hd, hne⟩) (fun _ => rfl)
    hkind).retrieveData_served (hp.setEntry fun x => ?_) hrep hmod hsh fun _ y hy => ?_
  · exact h.coherent.copies_of_uncached hd x
  · -- only MESIF forwards, and it does not start with a `SHARED` line
    unfold forwardCandidate at hy
    split at hy
    · rename_i hc
      have := hms hc.2.2
      rw [hc.1] at this
      cases this
    · cases hy

/-- `processExReqFromL2Cache`. Data is at hand only where nobody has the line. -/
theorem Turn.processExReq_served (h : Turn f rest s) (hp : Prompts (fun _ => false) (fun _ => false) s)
    (hcfg : cfg.HasPlace) (hk : f.msgType = .exReq) {buf : Option (Option V)}
    (hbuf : buf.isSome = true → s.dstate = .uncached) :
    Ensures (s.processExReqFromL2Cache cfg f buf) (Served cfg) fun _ => False := by
  have hsh : f.msgType ≠ .shReq := by simp [hk]
  have hno : s.dstate ≠ .uncached → ¬ buf.isSome = true := fun hne hb => hne (hbuf hb)
  unfold processExReqFromL2Cache
  dsimp only
  cases hd : s.dstate with
  | exclusive =>
    simp only [getDirectoryEntry_dstate, hd]
    rw [if_neg (hno (by simp [hd]))]
    exact h.askOwner_served hp hsh (by rw [hd]; rfl) (by simp [hk])
  | modified =>
    simp only [getDirectoryEntry_dstate, hd]
    rw [if_neg (hno (by simp [hd]))]
    exact h.askOwner_served hp hsh (by rw [hd]; rfl) (by simp [hk])
  | shared =>
    simp only [getDirectoryEntry_dstate, hd]
    rw [if_neg (hno (by simp [hd]))]
    exact Ensures.ok (h.invalidate_served hp hsh (by simp [hk]) hd (getDirectoryEntry_sharers cfg s))
  | uncached =>
    simp only [getDirectoryEntry_dstate, hd]
    exact h.grantFirst_served hp hcfg hd (.inr ⟨.inl hk, rfl⟩) (by simp) (fun _ => rfl) (fun _ _ => rfl)
      (by simp [isShRep])

/-- The owner is asked to write back. -/
theorem Turn.writeBackOwner_served (h : Turn f rest s) (hp : Prompts (fun _ => false) (fun _ => false) s)
    (hk : f.msgType = .shReq) (hd : s.dstate.isOwned = true) (hv : f.victim = none) {buf : Option (Option V)}
    (hbuf : buf = none) :
    Ensures (s.writeBackOwner buf (s.getDirectoryEntry cfg)) (Served cfg) fun _ => False := by
  unfold State.writeBackOwner
  rw [hbuf, if_neg (by simp)]
  obtain ⟨o, ho, hso, hall⟩ := h.coherent.owned hd
  refine ensures_of_ok (DirectoryEntry.getOwner_ok (x := o) (by rw [getDirectoryEntry_owner, ho])) ?_
  have hne : f.requester ≠ o := by
    intro heq
    have := h.notSharer (.inl hk)
    rw [heq, hso] at this
    cases this
  have hwb : ∀ y, (s.sendMsg o .wbReq).waitsForWb f y = true ↔ y = o := by
    intro y
    have hd' : (s.sendMsg o DirMsg.wbReq).dstate.isOwned = true := hd
    have hs' : (s.sendMsg o DirMsg.wbReq).sharer = s.sharer := rfl
    simp only [waitsForWb, hk, h.waitForData, h.forwardingFrom, hd', hs', Bool.true_and, Bool.and_eq_true,
      Bool.or_eq_true, decide_eq_true_eq, Bool.not_false, reduceCtorEq, or_false, true_and]
    refine ⟨fun hy => hall y hy.2, ?_⟩
    rintro rfl
    exact ⟨hne, hso⟩
  exact Ensures.ok (.inr ⟨f, rest, h.queue,
    { prompts := by
        rw [demands_of_waitsForWb hk ((hwb o).mpr rfl)]
        exact hp.askWriteBack hwb (h.copies hso)
      waits := fun _ => ⟨o, .inr ((hwb o).mpr rfl)⟩
      sharer := fun y hy => by
        rw [(hwb y).mp hy]
        exact hso
      refused := fun hr => by
        rw [waitsForWb_of_refused hr] at hwb
        cases (hwb o).mpr rfl
      unasked := fun _ _ _ _ => hv }⟩)

/-- One of the sharers is asked to make room for a read. -/
theorem Turn.makeRoom_served (h : Turn f rest s) (hp : Prompts (fun _ => false) (fun _ => false) s)
    (hk : f.msgType = .shReq) (hd : s.dstate = .shared) (hfull : ¬ cfg.HasRoom) :
    Ensures (s.makeRoom env (s.getDirectoryEntry cfg)) (Served cfg) fun _ => False := by
  obtain ⟨z, hz⟩ : ∃ z, s.sharer z = true := by
    by_contra hne
    have hu : s.dstate = .uncached := h.coherent.uncached.mpr fun y => by
      by_contra hy
      exact hne ⟨y, by simpa using hy⟩
    rw [hd] at hu
    cases hu
  have hz' : (s.getDirectoryEntry cfg).sharers z = true := by rw [getDirectoryEntry_sharers, hz]
  obtain ⟨y, hpick, hy⟩ := DirectoryEntry.getOneSharer_ok hz' env.pick
  rw [getDirectoryEntry_sharers] at hy
  unfold State.makeRoom
  rw [h.queue]
  refine ensures_of_ok hpick (Ensures.ok ?_)
  generalize ht : ({ s with queue := { f with victim := some y } :: rest } : State n V) = t
  have hqueued (x : Fin n) : queuedBy t.queue x = queuedBy s.queue x := by
    rw [← ht, h.queue]
    exact queuedBy_front (f := f) (g := { f with victim := some y }) rfl rfl x
  have hturn : Turn { f with victim := some y } rest t := by
    subst ht
    exact
      { queue := rfl
        coherent := h.coherent.congr_entry rfl rfl rfl hqueued rfl
        fresh := h.fresh
        reads := h.reads
        waitForData := h.waitForData
        forwardingFrom := h.forwardingFrom }
  have hdt : t.dstate = .shared := by rw [← ht]; exact hd
  have hst : t.sharer y = true := by rw [← ht]; exact hy
  have hpt : Prompts (fun _ => false) (fun _ => false) t := hp.congr (by rw [← ht]; rfl) hqueued (by rw [← ht])
  have href : t.refused { f with victim := some y } = true := by
    simp [refused, hk, h.waitForData, h.forwardingFrom, hdt]
  have hdem : ∀ x, t.demands { f with victim := some y } x = true ↔ x = y := by
    intro x
    rw [demands, href]
    simp only [hk, h.waitForData, Bool.not_false, Bool.true_and, if_true, Bool.and_eq_true, decide_eq_true_eq,
      Option.some.injEq]
    exact ⟨fun hx => hx.2.symm, fun hx => ⟨hx ▸ hst, hx.symm⟩⟩
  exact hturn.ask_served hpt (waitsForWb_of_refused href) (fun _ => hfull)
    (fun _ hown => by rw [hdt] at hown; cases hown) [(y, .invReq)] (by simp) (fun x => by rw [hdem x]; simp)
    (by simp [hdt]) ⟨y, (hdem y).mpr rfl⟩

/-- `processShReqFromL2Cache`. Data is at hand only where nobody owns the line. -/
theorem Turn.processShReq_served (h : Turn f rest s) (hp : Prompts (fun _ => false) (fun _ => false) s)
    (hcfg : cfg.HasPlace) (hk : f.msgType = .shReq) {buf : Option (Option V)}
    (hbuf : s.dstate.isOwned = true → buf = none ∧ f.victim = none)
    (hf : buf = none → ∀ y, forwardCandidate cfg (s.getDirectoryEntry cfg) f = some y → s.sharer y = true) :
    Ensures (s.processShReqFromL2Cache cfg env f buf) (Served cfg) fun _ => False := by
  have hns := h.notSharer (.inl hk)
  unfold processShReqFromL2Cache
  dsimp only
  cases hd : s.dstate with
  | exclusive =>
    simp only [getDirectoryEntry_dstate, hd]
    have hown : s.dstate.isOwned = true := by rw [hd]; rfl
    rw [if_neg]
    · exact h.writeBackOwner_served hp hk hown (hbuf hown).2 (hbuf hown).1
    · rw [getDirectoryEntry_owner]
      obtain ⟨o, ho, hso, -⟩ := h.coherent.owned hown
      rw [ho]
      rintro ⟨⟩
      rw [hns] at hso
      cases hso
  | modified =>
    simp only [getDirectoryEntry_dstate, hd]
    have hown : s.dstate.isOwned = true := by rw [hd]; rfl
    exact h.writeBackOwner_served hp hk hown (hbuf hown).2 (hbuf hown).1
  | shared =>
    simp only [getDirectoryEntry_dstate, hd, getDirectoryEntry_sharers, hns, Bool.false_eq_true, if_false]
    have hnot : (s.getDirectoryEntry cfg).sharers f.requester = false := by rw [getDirectoryEntry_sharers, hns]
    by_cases hfull : (s.getDirectoryEntry cfg).refusesSharer cfg = true
    · refine ensures_of_ok (DirectoryEntry.addSharer_full hfull hnot) ?_
      refine h.makeRoom_served hp hk hd fun hroom => ?_
      rw [not_refused hroom hnot] at hfull
      cases hfull
    refine ensures_of_ok (DirectoryEntry.addSharer_ok (by simpa using hfull) hnot) ?_
    refine (h.grant (e := { s.getDirectoryEntry cfg with
        sharers := Function.update (s.getDirectoryEntry cfg).sharers f.requester true }) hns
        (by rw [getDirectoryEntry_sharers]) ?_ ?_ ?_).retrieveData_served ?_ (fun _ => rfl) ?_ (fun _ _ => hk) ?_
    · exact .inr ⟨hd, by simp [hd]⟩
    · simp [hd, DirectoryState.isOwned]
    · exact .inl ⟨hk, .inl (by simp [hd])⟩
    · exact hp.congr (getDirectoryEntry_dstate cfg s) (fun _ => rfl) rfl
    · simp [hd]
    · intro hnone y hy
      have hsy := hf hnone y hy
      have hne : y ≠ f.requester := by
        rintro rfl
        rw [hns] at hsy
        cases hsy
      exact ⟨by simp [hne, hsy], hne⟩
  | uncached =>
    simp only [getDirectoryEntry_dstate, hd]
    by_cases hproto : cfg.protocol = .msi
    · simp only [hproto, if_true]
      exact h.grantFirst_served hp hcfg hd (.inl ⟨hk, .inl rfl⟩) (fun _ => hproto) (fun _ => rfl) (by simp)
        fun _ _ => hk
    · simp only [hproto, if_false]
      exact h.grantFirst_served hp hcfg hd (.inl ⟨hk, .inr rfl⟩) (by simp) (fun _ => rfl) (by simp)
        fun _ _ => hk

/-- `processShReqFromL2Cache` for a request that has been granted and has asked a sharer already. -/
theorem Granted.processShReq_served (h : Granted f rest s)
    (hp : Prompts (fun _ => false) (fun _ => false) s) (hd : s.dstate = .shared)
    (hf : f.forwardingFrom.isSome = true) (buf : Option (Option V)) :
    Ensures (s.processShReqFromL2Cache cfg env f buf) (Served cfg) fun _ => False := by
  unfold processShReqFromL2Cache
  simp only [getDirectoryEntry_dstate, hd, getDirectoryEntry_sharers, h.sharer, if_true]
  have hd' : (s.setEntry (s.getDirectoryEntry cfg)).dstate = s.dstate := getDirectoryEntry_dstate cfg s
  have hk : f.msgType = .shReq := (h.forwarding hf).1
  refine h.getDirectoryEntry.retrieveData_served (hp.congr hd' (fun _ => rfl) rfl) (fun _ => rfl) (by simp [hd])
    (fun _ _ => hk) fun _ y hy => ?_
  -- a request is forwarded once
  unfold forwardCandidate at hy
  split at hy
  · rename_i hc
    rw [hc.2.1] at hf
    cases hf
  · cases hy

/-- An upgrade that only concerns the requester. -/
theorem Turn.upgrade_served (h : Turn f rest s) (hp : Prompts (fun _ => false) (fun _ => false) s)
    (hk : f.msgType = .upgradeReq) {e : DirectoryEntry n} (hsh : ∀ x, s.sharer x = true ↔ x = f.requester) :
    Served cfg ((s.setEntry e).sendReply f.requester .upgradeRep, true) := by
  intro s' _ hl' hq'
  have hrest : s'.queue = rest := hq'.trans (congrArg List.tail h.queue)
  refine hp.upgrade h.coherent h.queue hk rfl hsh hrest fun x => ?_
  rw [hl']
  exact sendMsg_llc f.requester x .upgradeRep (s.setEntry e)

/-- An upgrade of a line that is owned. -/
theorem Turn.upgradeOwned_served (h : Turn f rest s) (hp : Prompts (fun _ => false) (fun _ => false) s)
    (hk : f.msgType = .upgradeReq) (hd : s.dstate.isOwned = true) :
    Ensures (s.upgradeOwned f.requester (s.getDirectoryEntry cfg)) (Served cfg) fun _ => False := by
  obtain ⟨o, ho, hso, hall⟩ := h.coherent.owned hd
  have hsh : ∀ y, s.sharer y = true ↔ y = o := fun y => ⟨hall y, fun hy => hy ▸ hso⟩
  have hlist : (s.getDirectoryEntry cfg).getSharersList = [o] :=
    getSharersList_eq_singleton (by simpa using hsh)
  unfold State.upgradeOwned
  rw [hlist]
  dsimp only
  split
  · rename_i hor
    rw [if_pos (by rw [getDirectoryEntry_owner, ho, hor])]
    exact Ensures.ok (h.upgrade_served hp hk (hor ▸ hsh))
  · rename_i hor
    refine h.askOwner_served hp (by simp [hk]) hd fun _ => ?_
    by_contra hne
    exact hor ((hall _ (by simpa using hne)).symm)

/-- An upgrade asks all sharers but the requester. -/
theorem mem_upgradeMsgs_fst {requester : Fin n} {hasCopy : Bool} {sharers : List (Fin n)} (y : Fin n) :
    y ∈ (upgradeMsgs requester hasCopy sharers : List (Fin n × DirMsg V)).map Prod.fst ↔
      y ∈ sharers ∧ y ≠ requester := by
  unfold upgradeMsgs
  rw [List.map_map]
  simp only [List.mem_map, List.mem_filter, Function.comp_apply, decide_eq_true_eq, Prod.exists,
    exists_and_right, exists_eq_right]
  constructor
  · rintro ⟨⟨i, hi⟩, hne⟩
    exact ⟨List.fst_mem_of_mem_zipIdx hi, hne⟩
  · rintro ⟨hy, hne⟩
    obtain ⟨i, hi, heq⟩ := List.mem_iff_getElem.mp hy
    exact ⟨⟨i, by rw [List.mk_mem_zipIdx_iff_getElem?, List.getElem?_eq_getElem hi, heq]⟩, hne⟩

/-- An upgrade of a line that is shared. -/
theorem Turn.upgradeShared_served (h : Turn f rest s) (hp : Prompts (fun _ => false) (fun _ => false) s)
    (hk : f.msgType = .upgradeReq) (hd : s.dstate = .shared) :
    Ensures (s.upgradeShared f.requester (s.getDirectoryEntry cfg)) (Served cfg) fun _ => False := by
  have hmem : ∀ y, y ∈ (s.getDirectoryEntry cfg).getSharersList ↔ s.sharer y = true := fun y => by
    rw [DirectoryEntry.mem_getSharersList, getDirectoryEntry_sharers]
  have hdem : ∀ y, s.demands f y = true ↔ s.sharer y = true ∧ y ≠ f.requester := by
    intro y
    simp [demands, h.waitForData, hk, eq_comm (a := f.requester) (b := y)]
  unfold State.upgradeShared
  split
  · rename_i hlist
    have hsh : ∀ y, s.sharer y = true ↔ y = f.requester := fun y => by
      rw [← hmem, hlist, List.mem_singleton]
    refine ensures_of_ok (DirectoryEntry.setOwner_ok ?_) (Ensures.ok (h.upgrade_served hp hk hsh))
    rw [getDirectoryEntry_sharers]
    exact (hsh _).mpr rfl
  · rename_i hlist
    refine Ensures.ok (h.askAll_served hp (by simp [hk]) _ (upgradeMsgs_nodup DirectoryEntry.nodup_getSharersList)
      (fun y => ?_) (fun q hq => ?_) ?_)
    · rw [hdem, mem_upgradeMsgs_fst, hmem]
    · exact (mem_upgradeMsgs hq).imp (fun hi => ⟨hi, hd⟩) And.left
    · by_contra hne
      have hall : ∀ y, s.sharer y = true → y = f.requester := fun y hy => by
        by_contra hyr
        exact hne ⟨y, (hdem y).mpr ⟨hy, hyr⟩⟩
      have hr : s.sharer f.requester = true := by
        by_contra hr
        have hu : s.dstate = .uncached := h.coherent.uncached.mpr fun y => by
          by_contra hy
          exact hr ((hall y (by simpa using hy)) ▸ by simpa using hy)
        rw [hd] at hu
        cases hu
      refine hlist (getSharersList_eq_singleton fun y => ?_)
      rw [getDirectoryEntry_sharers]
      exact ⟨hall y, fun hy => hy ▸ hr⟩

/-- `processUpgradeReqFromL2Cache`. -/
theorem Turn.processUpgradeReq_served (h : Turn f rest s)
    (hp : Prompts (fun _ => false) (fun _ => false) s) (hcfg : cfg.HasPlace)
    (hk : f.msgType = .upgradeReq) (buf : Option (Option V)) :
    Ensures (s.processUpgradeReqFromL2Cache cfg f buf) (Served cfg) fun _ => False := by
  unfold processUpgradeReqFromL2Cache
  dsimp only
  cases hd : s.dstate with
  | exclusive =>
    simp only [getDirectoryEntry_dstate, hd]
    exact h.upgradeOwned_served hp hk (by rw [hd]; rfl)
  | modified =>
    simp only [getDirectoryEntry_dstate, hd]
    exact h.upgradeOwned_served hp hk (by rw [hd]; rfl)
  | shared =>
    simp only [getDirectoryEntry_dstate, hd]
    exact h.upgradeShared_served hp hk hd
  | uncached =>
    simp only [getDirectoryEntry_dstate, hd]
    rw [if_neg]
    · exact h.grantFirst_served hp hcfg hd (.inr ⟨.inr hk, rfl⟩) (by simp) (fun _ => rfl) (fun _ _ => rfl)
        (by simp [isShRep])
    · rw [not_not, List.eq_nil_iff_forall_not_mem]
      intro y hy
      rw [DirectoryEntry.mem_getSharersList, getDirectoryEntry_sharers, h.coherent.uncached.mp hd] at hy
      cases hy

/-- `processNullifyReq`. -/
theorem Turn.processNullifyReq_served (h : Turn f rest s)
    (hp : Prompts (fun _ => false) (fun _ => false) s) (hk : f.msgType = .nullifyReq)
    {e : DirectoryEntry n} (he : s.entry = some e) :
    Ensures s.processNullifyReq (Served cfg) fun _ => False := by
  have hsh : f.msgType ≠ .shReq := by simp [hk]
  have hds : s.dstate = e.dstate := by simp only [State.dstate, he]
  have howner : s.owner = e.owner := by simp only [State.owner, he]
  have hask : s.dstate.isOwned = true →
      Ensures (e.getOwner >>= fun o => .ok (s.sendMsg o .flushReq, false)) (Served cfg) fun _ => False := by
    intro hd
    have hget : s.getDirectoryEntry cfg = e := by
      simp only [State.getDirectoryEntry, he, Option.getD_some]
    rw [← hget]
    exact h.askOwner_served hp hsh hd (by simp [hk])
  unfold State.processNullifyReq
  rw [he]
  dsimp only
  split
  · rename_i hd
    exact hask (by rw [hds, hd]; rfl)
  · rename_i hd
    exact hask (by rw [hds, hd]; rfl)
  · rename_i hd
    exact Ensures.ok (h.invalidate_served hp hsh (by simp [hk]) (by rw [hds, hd])
      (by funext y; simp only [State.sharer, he]))
  · rename_i hd
    refine Ensures.ok fun s' he' hl' hq' => ?_
    refine hp.congr ?_ (fun y => ?_) hl'
    · rw [hds, hd]
      simp only [State.dstate, he']
    · rw [hq', h.queue, queuedBy_nullify hk, List.tail_cons]

/-- A line keeps a forwarder that can be asked. -/
theorem forwarder_of_entryInv (h : EntryInv cfg s) {y : Fin n}
    (hy : forwardCandidate cfg (s.getDirectoryEntry cfg) f = some y) : s.sharer y = true := by
  unfold forwardCandidate at hy
  split at hy
  · rename_i hc
    rw [← getDirectoryEntry_sharers cfg]
    exact h.getDirectoryEntry.2 (.inr ⟨hc.1, hc.2.2⟩) y hy
  · cases hy

/-- The first work on a request of a cache. -/
theorem Turn.processReq_served (h : Turn f rest s) (hp : Prompts (fun _ => false) (fun _ => false) s)
    (hcfg : cfg.HasPlace) (he : EntryInv cfg s) (hf : f.Fresh) :
    Ensures (s.processReq cfg env f) (Served cfg) fun _ => False := by
  unfold State.processReq
  split
  · rename_i hk
    exact h.processExReq_served hp hcfg hk (by simp)
  · rename_i hk
    exact h.processShReq_served hp hcfg hk (fun _ => ⟨rfl, hf.victim⟩) fun _ _ => forwarder_of_entryInv he
  · rename_i hk
    exact h.processUpgradeReq_served hp hcfg hk none
  · rename_i hk
    exact absurd hk hf.msgType

/-- A handler is done with the request at the front, or brings it further. -/
def Forth (s : State n V) (r : Outcome n V) : Prop := r.2 = true ∨ r.1.stage < s.stage

/-- A handler brings the request at the front further, or leaves it waiting for the same and sends at most
some data to memory. -/
def Onward (s : State n V) (r : Outcome n V) : Prop :=
  Forth s r ∨ (r.1.llc = s.llc ∧ r.1.stage = s.stage ∧ r.1.fromDram = s.fromDram ∧
    r.1.toDram.length ≤ s.toDram.length + 1)

/-- The request goes on waiting. -/
theorem onward_refl : Onward s (s, false) := .inr ⟨rfl, rfl, rfl, Nat.le_succ _⟩

/-- A handler that does not fail. -/
theorem served_onward {y : Except Fault (Outcome n V)} (hs : Ensures y (Served cfg) fun _ => False)
    (hf : Ensures y (Forth s) fun _ => True) : Ensures y (fun r => Served cfg r ∧ Onward s r) fun _ => False :=
  (hs.and hf).mono (fun _ hr => ⟨hr.1, .inl hr.2⟩) fun _ => id

/-- `sendDataToDram` sends at most one message. -/
theorem sendDataToDram_length (cfg : Config n) (env : Env) (d : Option V) (s : State n V) :
    (s.sendDataToDram cfg env d).fromDram = s.fromDram ∧
      (s.sendDataToDram cfg env d).toDram.length ≤ s.toDram.length + 1 := by
  unfold sendDataToDram sendDataToNUCA
  split
  · split
    · refine ⟨rfl, ?_⟩
      dsimp only
      split
      · simp
      · exact Nat.le_succ _
    · exact ⟨rfl, Nat.le_succ _⟩
  · exact ⟨rfl, by simp⟩

/-- `retrieveDataAndSendToL2Cache`. -/
theorem retrieveData_forth (hq : s.queue = f :: rest) (hw : f.waitForData = false)
    (rep : Option V → DirMsg V) (buf : Option (Option V)) (e : DirectoryEntry n) :
    Ensures (s.retrieveDataAndSendToL2Cache cfg rep x buf e) (Forth s) fun _ => True := by
  unfold retrieveDataAndSendToL2Cache
  split
  · exact Ensures.ok (.inl rfl)
  · split
    · exact Ensures.ok (.inl rfl)
    · have hq' : (s.setEntry e).queue = f :: rest := hq
      unfold fetchData
      rw [hq']
      dsimp only
      split
      · rename_i y hy
        have hf : f.forwardingFrom = none := by
          unfold forwardCandidate at hy
          split at hy
          · rename_i hc
            exact hc.2.1
          · cases hy
        refine Ensures.ok (.inr ?_)
        simp only [State.stage, sendMsg_queue, hq, ShmemReq.stage, hw, hf, Option.isSome_some, Option.isSome_none,
          Bool.false_eq_true, if_true, if_false]
        split <;> omega
      · refine Ensures.ok (.inr ?_)
        simp only [State.stage, hq, ShmemReq.stage, hw, if_true, Bool.false_eq_true, if_false]
        split_ifs <;> omega

/-- `processExReqFromL2Cache` for a line that nobody has. -/
theorem processExReq_forth (hq : s.queue = f :: rest) (hw : f.waitForData = false)
    (hd : s.dstate = .uncached) (buf : Option (Option V)) :
    Ensures (s.processExReqFromL2Cache cfg f buf) (Forth s) fun _ => True := by
  unfold processExReqFromL2Cache
  simp only [getDirectoryEntry_dstate, hd]
  exact Ensures.bind_any fun e => Ensures.bind_any fun e' => retrieveData_forth hq hw _ _ _

/-- `processShReqFromL2Cache` for a line that nobody owns. -/
theorem processShReq_forth (hq : s.queue = f :: rest) (hw : f.waitForData = false) (hd : s.dstate.isOwned = false)
    (hroom : s.dstate = .shared → s.sharer f.requester = false →
      (s.getDirectoryEntry cfg).refusesSharer cfg = false ∨ (f.forwardingFrom = none ∧ f.victim = none))
    (buf : Option (Option V)) :
    Ensures (s.processShReqFromL2Cache cfg env f buf) (Forth s) fun _ => True := by
  unfold processShReqFromL2Cache
  dsimp only
  cases hds : s.dstate with
  | exclusive =>
    rw [hds] at hd
    cases hd
  | modified =>
    rw [hds] at hd
    cases hd
  | shared =>
    simp only [getDirectoryEntry_dstate, hds]
    split
    · exact retrieveData_forth hq hw _ _ _
    · rename_i hx
      have hnot : s.sharer f.requester = false := by rw [← getDirectoryEntry_sharers cfg]; simpa using hx
      have hx' : (s.getDirectoryEntry cfg).sharers f.requester = false := by simpa using hx
      by_cases hfull : (s.getDirectoryEntry cfg).refusesSharer cfg = true
      · refine ensures_of_ok (DirectoryEntry.addSharer_full hfull hx') ?_
        obtain ⟨hf, hv⟩ := (hroom hds hnot).resolve_left (by simp [hfull])
        unfold State.makeRoom
        rw [hq]
        refine Ensures.bind_any fun y => Ensures.ok (.inr ?_)
        simp [State.stage, sendMsg_queue, hq, ShmemReq.stage, hw, hf, hv]
      refine ensures_of_ok (DirectoryEntry.addSharer_ok (by simpa using hfull) hx') ?_
      exact retrieveData_forth hq hw _ _ _
  | uncached =>
    simp only [getDirectoryEntry_dstate, hds]
    refine Ensures.bind_any fun e => Ensures.bind_any fun e' => ?_
    split
    · exact retrieveData_forth hq hw _ _ _
    · exact retrieveData_forth hq hw _ _ _

/-- `processUpgradeReqFromL2Cache` for a line that nobody else has. -/
theorem processUpgradeReq_forth (hq : s.queue = f :: rest) (hw : f.waitForData = false)
    (hd : s.dstate = .uncached ∨ (s.getDirectoryEntry cfg).getSharersList = [f.requester])
    (buf : Option (Option V)) :
    Ensures (s.processUpgradeReqFromL2Cache cfg f buf) (Forth s) fun _ => True := by
  have howned : (s.getDirectoryEntry cfg).getSharersList = [f.requester] →
      Ensures (s.upgradeOwned f.requester (s.getDirectoryEntry cfg)) (Forth s) fun _ => True := by
    intro hl
    unfold State.upgradeOwned
    rw [hl]
    dsimp only
    rw [if_pos rfl]
    split
    · exact Ensures.ok (.inl rfl)
    · exact Ensures.error trivial
  unfold processUpgradeReqFromL2Cache
  dsimp only
  cases hds : s.dstate with
  | exclusive =>
    simp only [getDirectoryEntry_dstate, hds]
    exact howned (hd.resolve_left (by simp [hds]))
  | modified =>
    simp only [getDirectoryEntry_dstate, hds]
    exact howned (hd.resolve_left (by simp [hds]))
  | shared =>
    simp only [getDirectoryEntry_dstate, hds]
    unfold State.upgradeShared
    rw [if_pos (hd.resolve_left (by simp [hds]))]
    exact Ensures.bind_any fun e => Ensures.ok (.inl rfl)
  | uncached =>
    simp only [getDirectoryEntry_dstate, hds]
    split
    · exact Ensures.error trivial
    · exact Ensures.bind_any fun e => Ensures.bind_any fun e' => retrieveData_forth hq hw _ _ _

/-- `processNullifyReq` for a line that nobody has. -/
theorem processNullifyReq_forth (hd : s.dstate = .uncached) :
    Ensures s.processNullifyReq (Forth s) fun _ => True := by
  unfold State.processNullifyReq
  split
  · exact Ensures.error trivial
  · rename_i e he
    have hed : e.dstate = .uncached := by simpa only [State.dstate, he] using hd
    rw [hed]
    exact Ensures.ok (.inl rfl)

end Handlers

end LifeSim.Directory
