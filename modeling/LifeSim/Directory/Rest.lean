import LifeSim.Directory.Settle
import LifeSim.Lib.Settle

/-!
# Left to itself, the protocol comes to rest

Messages are delivered in any order, and nothing else happens. Every delivery brings the line closer to an end: a
reply wakes a waiter, a request enters the queue, the request at the front is answered, asks a sharer or memory, and
all other messages only get fewer. Where there is nothing left to deliver, nobody waits and the entry says
exactly who has the line.
-/

namespace LifeSim.Directory

open LifeSim.Lib DirMsg LlcMsg State

variable {n : ℕ} {V : Type}

/-- Something is under way that the event delivers. -/
def Event.Delivers (s : State n V) : Event n V → Prop
  | .toLlc x => (s.llc x).rx ≠ []
  | .toDir x _ => (s.llc x).tx ≠ []
  | .dram => s.toDram ≠ []
  | .fromDram _ => s.fromDram ≠ []
  | _ => False

namespace State

/-- What a message is good for: one to a cache may be answered, one of a cache may send data to memory, and
memory may answer. -/
def work (s : State n V) : ℕ :=
  ∑ x, (4 * (s.llc x).rx.length + 3 * (s.llc x).tx.length) + 2 * s.toDram.length + s.fromDram.length

/-- What is left to do: accesses that wait, requests on their way, requests in the queue, steps towards the answer of
the one at the front, messages. -/
def toDo (s : State n V) : ℕ ×ₗ ℕ ×ₗ ℕ ×ₗ ℕ ×ₗ ℕ :=
  toLex (∑ x, (s.llc x).waiters.length, toLex (∑ x, (s.llc x).tx.countP isReq,
    toLex (s.queue.length, toLex (s.stage, s.work))))

variable {s s' : State n V}

/-- Somebody is woken. -/
theorem toDo_lt_of_waiters (h : ∑ x, (s'.llc x).waiters.length < ∑ x, (s.llc x).waiters.length) :
    s'.toDo < s.toDo :=
  Prod.Lex.toLex_lt_toLex.mpr (.inl h)

/-- A request arrives. -/
theorem toDo_lt_of_requests (hw : ∑ x, (s'.llc x).waiters.length = ∑ x, (s.llc x).waiters.length)
    (h : ∑ x, (s'.llc x).tx.countP isReq < ∑ x, (s.llc x).tx.countP isReq) : s'.toDo < s.toDo :=
  Prod.Lex.toLex_lt_toLex.mpr (.inr ⟨hw, Prod.Lex.toLex_lt_toLex.mpr (.inl h)⟩)

variable (hw : ∑ x, (s'.llc x).waiters.length = ∑ x, (s.llc x).waiters.length)
  (hr : ∑ x, (s'.llc x).tx.countP isReq = ∑ x, (s.llc x).tx.countP isReq)
include hw hr

/-- A request is answered, or comes closer to its answer, or there are fewer messages. -/
theorem toDo_lt (h : s'.queue.length < s.queue.length ∨ (s'.queue.length = s.queue.length ∧
    (s'.stage < s.stage ∨ (s'.stage = s.stage ∧ s'.work < s.work)))) : s'.toDo < s.toDo := by
  refine Prod.Lex.toLex_lt_toLex.mpr (.inr ⟨hw, Prod.Lex.toLex_lt_toLex.mpr (.inr ⟨hr, ?_⟩)⟩)
  rcases h with h | ⟨hq, h | h⟩
  · exact Prod.Lex.toLex_lt_toLex.mpr (.inl h)
  · exact Prod.Lex.toLex_lt_toLex.mpr (.inr ⟨hq, Prod.Lex.toLex_lt_toLex.mpr (.inl h)⟩)
  · exact Prod.Lex.toLex_lt_toLex.mpr (.inr ⟨hq, Prod.Lex.toLex_lt_toLex.mpr (.inr h)⟩)

end State

section Deliveries

variable {s s' : State n V} {cfg : Config n} {env : Env} {x : Fin n}

/-- Nobody has been woken and no request sent. -/
theorem SameCaches.sums (h : SameCaches s s') :
    ∑ x, (s'.llc x).waiters.length = ∑ x, (s.llc x).waiters.length ∧
      ∑ x, (s'.llc x).tx.countP isReq = ∑ x, (s.llc x).tx.countP isReq :=
  ⟨Finset.sum_congr rfl fun x _ => by rw [(h x).1], Finset.sum_congr rfl fun x _ => by rw [(h x).2]⟩

/-- A message of a cache is taken from its channel. -/
theorem popTx_sums {m : LlcMsg V} {tx : List (LlcMsg V)} (htx : (s.llc x).tx = m :: tx) :
    ∑ y, ((s.popTx x tx).llc y).waiters.length = ∑ y, (s.llc y).waiters.length ∧
      ∑ y, ((s.popTx x tx).llc y).tx.countP isReq + (if m.isReq = true then 1 else 0) =
        ∑ y, (s.llc y).tx.countP isReq ∧ (s.popTx x tx).work + 3 = s.work := by
  have hws := sum_update_add s.llc (fun l => l.waiters.length) x { s.llc x with tx := tx }
  have hreqs := sum_update_add s.llc (fun l => l.tx.countP isReq) x { s.llc x with tx := tx }
  have hwork := sum_update_add s.llc (fun l => 4 * l.rx.length + 3 * l.tx.length) x { s.llc x with tx := tx }
  simp only [htx, List.countP_cons, List.length_cons] at hws hreqs hwork
  simp only [popTx, work]
  omega

/-- A cache takes a message of the directory. -/
theorem toLlc_less {m : DirMsg V} {rx : List (DirMsg V)} {r : Llc V × V} (h : Stable s) (hp : Alive cfg s)
    (hrx : (s.llc x).rx = m :: rx) (hok : { s.llc x with rx := rx }.handleMsg m s.lastWrite = .ok r) :
    (s.setLlc x r).toDo < s.toDo := by
  obtain ⟨p, wb, fl, hc⟩ := h.coherent
  obtain ⟨leave, wb', hpr⟩ := hp.exists_prompts
  have hws := sum_update_add s.llc (fun l => l.waiters.length) x r.1
  by_cases hm : m.isRep = true
  · have hless := (Llc.handleMsg_reply (v := s.view p wb fl x) (hpr x) (hc.node x) hrx hm s.lastWrite).of_ok hok
    refine toDo_lt_of_waiters ?_
    simp only [State.setLlc]
    omega
  · obtain ⟨hw, hrx', hreq, htx⟩ := (Llc.handleMsg_demand (by simpa using hm) s.lastWrite).of_ok hok
    have hreqs := sum_update_add s.llc (fun l => l.tx.countP isReq) x r.1
    have hwork := sum_update_add s.llc (fun l => 4 * l.rx.length + 3 * l.tx.length) x r.1
    simp only [hw, hrx', hreq, hrx, List.length_cons] at hws hreqs hwork htx
    refine toDo_lt (Nat.add_right_cancel hws) (Nat.add_right_cancel hreqs) (.inr ⟨rfl, .inr ⟨rfl, ?_⟩⟩)
    simp only [work, State.setLlc]
    omega

/-- What follows a handler. -/
theorem finish_keeps (r : Outcome n V) :
    Ensures (finish cfg env r) (fun s' => SameCaches r.1 s' ∧
      (r.2 = true → s'.queue.length < r.1.queue.length) ∧ (r.2 = false → s' = r.1)) fun _ => True := by
  unfold finish
  split
  · rename_i hc
    exact (processNextReq_keeps _).mono
      (fun _ h => ⟨h.2, fun _ => h.1, fun hne => by rw [hc] at hne; cases hne⟩) fun _ => id
  · rename_i hc
    exact Ensures.ok ⟨fun _ => ⟨rfl, rfl⟩, fun hne => absurd hne hc, fun _ => rfl⟩

/-- The directory takes a message of a cache. -/
theorem toDir_less {m : LlcMsg V} {tx : List (LlcMsg V)} {s' : State n V} (hcfg : cfg.HasPlace) (h : Stable s)
    (hp : Alive cfg s) (he : EntryInv cfg s) (hexp : s.expects x = true) (htx : (s.llc x).tx = m :: tx)
    (hok : (s.popTx x tx).handleMsgFromL2Cache cfg env x m >>= finish cfg env = .ok s') : s'.toDo < s.toDo := by
  obtain ⟨hws, hreqs, hwork⟩ := popTx_sums htx
  obtain ⟨r, hr, hfin⟩ := exists_of_bind_ok hok
  obtain ⟨hsame, hdone, hsame'⟩ := (finish_keeps r).of_ok hfin
  by_cases hm : m.isReq = true
  · have hcaches : SameCaches (s.popTx x tx) r.1 := by
      unfold handleMsgFromL2Cache at hr
      cases m with
      | exReq => exact (enqueueReq_keeps _).of_ok hr
      | shReq => exact (enqueueReq_keeps _).of_ok hr
      | upgradeReq => exact (enqueueReq_keeps _).of_ok hr
      | invRep => cases hm
      | flushRep d => cases hm
      | wbRep d => cases hm
    have hsums := (hcaches.trans hsame).sums
    rw [if_pos hm] at hreqs
    exact toDo_lt_of_requests (hsums.1.trans hws) (by omega)
  · have hm' : m.isReq = false := by simpa using hm
    have hkeeps := (handleMsg_keeps hm').of_ok hr
    have hasked : ∀ f rest, s.queue = f :: rest → m = .invRep → s.refused f = true → f.victim = some x :=
      fun f rest hq hm hr => victim_of_expects hexp hq (hm ▸ htx) hr
    have honward := ((h.handleMsg_served hp hcfg he htx hasked).of_ok hr).2 hm'
    have hsums := (hkeeps.2.trans hsame).sums
    rw [if_neg hm, Nat.add_zero] at hreqs
    refine toDo_lt (hsums.1.trans hws) (hsums.2.trans hreqs) ?_
    have hlen : r.1.queue.length = s.queue.length := hkeeps.1
    cases hc : r.2 with
    | true => exact .inl (hlen ▸ hdone hc)
    | false =>
      rw [hsame' hc]
      refine .inr ⟨hlen, ?_⟩
      rcases honward with (hc' | hstage) | ⟨hl, hstage, hfd, htd⟩
      · rw [hc] at hc'
        cases hc'
      · exact .inl hstage
      · -- at most some data is on its way to memory instead
        refine .inr ⟨hstage, ?_⟩
        simp only [work, hl, hfd] at hwork ⊢
        omega

/-- A delivery evicts nothing. -/
theorem Event.Delivers.spares {ev : Event n V} (hd : ev.Delivers s) : ev.Spares s := by
  cases ev with
  | evict x => exact hd.elim
  | access x a => exact hd.elim
  | toLlc x => exact trivial
  | toDir x env => exact trivial
  | dram => exact trivial
  | fromDram env => exact trivial
  | nullify x env => exact hd.elim
  | evictNuca => exact hd.elim

/-- Every delivery leaves less to do. -/
theorem delivery_less {ev : Event n V} (hcfg : cfg.HasPlace) (h : Sound cfg s) (hd : ev.Delivers s)
    (hexp : ev.Expected s) (hok : step cfg s ev = .ok s') : s'.toDo < s.toDo := by
  obtain ⟨h, he, hp⟩ := h
  cases ev with
  | toLlc x =>
    dsimp only [step] at hok
    split at hok
    · rename_i hrx
      exact absurd hrx hd
    · rename_i m rx hrx
      cases hr : ({ s.llc x with rx := rx } : Llc V).handleMsg m s.lastWrite with
      | error f =>
        rw [hr] at hok
        cases hok
      | ok r =>
        rw [hr] at hok
        cases hok
        exact toLlc_less h hp hrx hr
  | toDir x env =>
    dsimp only [step] at hok
    split at hok
    · rename_i htx
      exact absurd htx hd
    · rename_i m tx htx
      exact toDir_less hcfg h hp he hexp htx hok
  | dram =>
    dsimp only [step] at hok
    split at hok
    · rename_i htd
      exact absurd htd hd
    · rename_i m rest htd
      cases hok
      refine toDo_lt ?_ ?_ (.inr ⟨?_, .inr ⟨?_, ?_⟩⟩) <;> cases m <;> simp [serveDram, work, stage, htd]
      omega
  | fromDram env =>
    dsimp only [step] at hok
    split at hok
    · rename_i hfd
      exact absurd hfd hd
    · rename_i d rest hfd
      obtain ⟨r, hr, hfin⟩ := exists_of_bind_ok hok
      obtain ⟨hsame, hdone, -⟩ := (finish_keeps r).of_ok hfin
      obtain ⟨hc, hlen, hcaches⟩ := (processDRAMReply_keeps d).of_ok hr
      obtain ⟨hws, hreqs⟩ := (hcaches.trans hsame).sums
      exact toDo_lt hws hreqs (.inl (hlen ▸ hdone hc))
  | access x a => exact hd.elim
  | evict x => exact hd.elim
  | nullify x env => exact hd.elim
  | evictNuca => exact hd.elim

end Deliveries

/-- Nothing is left to deliver. -/
def Quiet (s : State n V) : Prop := ∀ ev : Event n V, ¬ ev.Delivers s

/-- Nothing is asked for and nobody waits, and the entry says who has the line. -/
structure AtRest (s : State n V) : Prop where
  queue : s.queue = []
  waiters : ∀ x, (s.llc x).waiters = []
  upgrading : ∀ x, (s.llc x).cstate ≠ .sharedUpgrading
  sharers : ∀ x, s.sharer x = true ↔ (s.llc x).cstate ≠ .invalid
  uncached : s.dstate = .uncached ↔ ∀ x, (s.llc x).cstate = .invalid
  modified : s.dstate = .modified → ∀ x, (s.llc x).cstate = .invalid ∨ (s.llc x).cstate = .modified
  owned : ∀ x, (s.llc x).cstate = .exclusive ∨ (s.llc x).cstate = .modified → s.dstate.isOwned = true

/-- Where nothing is left to deliver, no request waits. -/
theorem Sound.queue_eq_nil {s : State n V} {cfg : Config n} (h : Sound cfg s) (hd : Quiet s) :
    s.queue = [] := by
  have hrx : ∀ x, (s.llc x).rx = [] := fun x => not_not.mp (hd (.toLlc x))
  have htx : ∀ x, (s.llc x).tx = [] := fun x => not_not.mp (hd (.toDir x ⟨0, false⟩))
  have htd : s.toDram = [] := not_not.mp (hd .dram)
  have hfd : s.fromDram = [] := not_not.mp (hd (.fromDram ⟨0, false⟩))
  have hhot : ∀ x, (s.llc x).hot = [] := fun x => by simp [Llc.hot, hrx]
  rcases h.stable with ⟨hq, -⟩ | ⟨f, rest, hw⟩
  · exact hq
  have hpend := h.alive.pending hw.queue
  exfalso
  cases hwait : f.waitForData with
  | true =>
    -- the data would be in one of the channels of memory
    have := hw.reads
    simp [State.reads, htd, hfd, hwait] at this
  | false =>
    obtain ⟨x, hx | hx⟩ := hpend.waits hwait
    · have := (hpend.prompts x).leaves hx
      simp [htx, hhot] at this
    · have := (hpend.prompts x).writesBack hx
      simp [htx, hhot] at this

/-- Where nothing is left to deliver, everything has been answered. -/
theorem Sound.atRest {s : State n V} {cfg : Config n} (h : Sound cfg s) (hd : Quiet s) :
    AtRest s := by
  have hq := h.queue_eq_nil hd
  have hrx : ∀ x, (s.llc x).rx = [] := fun x => not_not.mp (hd (.toLlc x))
  have htx : ∀ x, (s.llc x).tx = [] := fun x => not_not.mp (hd (.toDir x ⟨0, false⟩))
  have hc : Coherent none (fun _ => false) false s := by
    rcases h.stable with ⟨-, hr⟩ | ⟨f, rest, hw⟩
    · exact hr.coherent
    · rw [hw.queue] at hq
      cases hq
  have hpr := h.alive.prompts hq
  have hwaiters : ∀ x, (s.llc x).waiters = [] := fun x => by
    have hreq := (hc.node x).requests
    by_contra hne
    rw [NodeInv.waiting hne] at hreq
    simp [hrx, htx, view, hq, queuedBy] at hreq
  have hup : ∀ x, (s.llc x).cstate ≠ .sharedUpgrading := fun x hx =>
    (hc.node x).upgrading hx (hwaiters x)
  have hsharers : ∀ x, s.sharer x = true ↔ (s.llc x).cstate ≠ .invalid := fun x => by
    have hcopies := (hc.node x).copies
    simp only [Llc.copies, Llc.held, hrx, htx, view] at hcopies
    cases hsx : s.sharer x <;> by_cases hx : (s.llc x).cstate = .invalid <;> simp_all
  exact
    { queue := hq
      waiters := hwaiters
      upgrading := hup
      sharers := hsharers
      uncached := by
        rw [hc.uncached]
        refine forall_congr' fun x => ?_
        have := hsharers x
        cases hs : s.sharer x <;> simp_all
      modified := fun hm x => by
        have := (hpr x).modified hm
        simp [hrx, htx] at this
        exact this
      owned := fun x hx => (hc.node x).excl (hx.elim .inl fun hx => .inr (.inl hx)) }

/-- Messages are not delivered for ever, in whatever order they arrive, and where nothing is left to deliver everything
has been answered. -/
theorem comesToRest (cfg : Config n) (hcfg : cfg.HasRoom) (v : V) (s : State n V)
    (h : (machine n V cfg).Reachable (initial v) s) :
    (¬ ∃ t : ℕ → State n V, t 0 = s ∧ ∀ i, ∃ ev : Event n V, ev.Delivers (t i) ∧
      step cfg (t i) ev = .ok (t (i + 1))) ∧
    (∃ es s', (machine n V cfg).Guarded Event.Delivers s es ∧ (machine n V cfg).run s es = .ok s' ∧ Quiet s') ∧
    ∀ es s', (machine n V cfg).run s es = .ok s' → Quiet s' → AtRest s' := by
  have hs := sound_of_reachable hcfg h
  refine ⟨fun hforever => ?_, ?_, fun es s' hrun hd => ?_⟩
  · obtain ⟨t, ht, hall⟩ := hforever
    have hstep : ∀ s ev s', Sound cfg s → Event.Delivers s ev → (machine n V cfg).step s ev = .ok s' →
        Sound cfg s' ∧ s'.toDo < s.toDo := fun s ev s' hs hd hok =>
      ⟨(sound_step hcfg hs (spares_of_ok hok)).of_ok hok, delivery_less hcfg.hasPlace hs hd (hs.expected hcfg ev) hok⟩
    exact (machine n V cfg).not_forever State.toDo hstep (ht ▸ hs) hall
  · refine (machine n V cfg).exists_settled (P := Sound cfg) State.toDo (fun s ev hs hd => ?_) hs
    obtain ⟨s', hok, hs'⟩ := (sound_step hcfg hs hd.spares).exists_ok
    exact ⟨s', hok, hs', delivery_less hcfg.hasPlace hs hd (hs.expected hcfg ev) hok⟩
  · have hend : Sound cfg s' := (machine n V cfg).run_induction
      (fun _ _ _ ht hstep => (sound_step hcfg ht (spares_of_ok hstep)).of_ok hstep) hs hrun
    exact hend.atRest hd

/-- One cache wants to read and another one to write, and the first request is at the directory. -/
theorem comesToRest_twoRequests : ∃ s es s', (machine 2 ℕ ⟨.mesi, .fullMap, 2, false, none⟩).run (initial 0)
      [.access 0 .read, .access 1 (.write 5), .toDir 1 ⟨0, false⟩] = .ok s ∧ s.queue.length = 1 ∧
    (machine 2 ℕ ⟨.mesi, .fullMap, 2, false, none⟩).run s es = .ok s' ∧ AtRest s' := by
  have hok : ((machine 2 ℕ ⟨.mesi, .fullMap, 2, false, none⟩).run (initial 0)
      [.access 0 .read, .access 1 (.write 5), .toDir 1 ⟨0, false⟩]).isOk = true := by decide +kernel
  have hrun := Machine.run_final _ hok
  obtain ⟨-, ⟨es, s', -, hes, hquiet⟩, hrest⟩ := comesToRest ⟨.mesi, .fullMap, 2, false, none⟩
    (fun h => by cases h) 0 _ ⟨_, hrun⟩
  exact ⟨_, es, s', hrun, by decide +kernel, hes, hrest es s' hes hquiet⟩

end LifeSim.Directory
