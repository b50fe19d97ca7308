import LifeSim.Directory.Views

/-!
# Single writer, multiple readers

The invariant of the whole line: the directory entry is consistent, and every cache meets its own
invariant against the view the directory has of it. What the request at the front of the
queue waits for is a parameter of the invariant, so that the steps of a handler can be followed
one by one.

Every handler is covered by the same few changes: a request is queued, the caches
are asked for their copies, a copy comes back, a line is downgraded, a sharer is added, and
a request is answered.
-/

namespace LifeSim.Directory

open LifeSim.Lib DirMsg LlcMsg

variable {n : ℕ} {V : Type}

/-- The message reads from memory. -/
def DramMsg.isRead : DramMsg V → Bool
  | readReq => true
  | _ => false

/-- The cache to which the request at the front has been granted, but not yet answered. -/
def ShmemReq.granted (f : ShmemReq n) : Option (Fin n) :=
  if f.waitForData || f.forwardingFrom.isSome then some f.requester else none

/-- A request that has not been worked on. -/
structure ShmemReq.Fresh (f : ShmemReq n) : Prop where
  msgType : f.msgType ≠ .nullifyReq
  waitForData : f.waitForData = false
  forwardingFrom : f.forwardingFrom = none
  dataBuf : f.dataBuf = false
  victim : f.victim = none

namespace State

def dstate (s : State n V) : DirectoryState :=
  match s.entry with
  | some e => e.dstate
  | none => .uncached

def sharer (s : State n V) (x : Fin n) : Bool :=
  match s.entry with
  | some e => e.sharers x
  | none => false

def owner (s : State n V) : Option (Fin n) :=
  match s.entry with
  | some e => e.owner
  | none => none

/-- The requests of a cache in a queue. -/
def queuedBy (queue : List (ShmemReq n)) (x : Fin n) : List ReqType :=
  (queue.filter fun f => f.msgType ≠ .nullifyReq && f.requester = x).map (·.msgType)

/-- The reads that DRAM has not answered, or whose answers are on their way. -/
def reads (s : State n V) : ℕ := s.toDram.countP DramMsg.isRead + s.fromDram.length

/-- What the directory knows about a cache. -/
def view (granted : Option (Fin n)) (wb : Fin n → Bool) (fl : Bool) (s : State n V) (x : Fin n) : View where
  dstate := s.dstate
  sharer := s.sharer x
  pending := granted = some x
  queued := queuedBy s.queue x
  writeBack := wb x
  flush := fl

@[simp] theorem sendMsg_entry (x : Fin n) (m : DirMsg V) (s : State n V) :
    (s.sendMsg x m).entry = s.entry := rfl

@[simp] theorem sendMsg_queue (x : Fin n) (m : DirMsg V) (s : State n V) :
    (s.sendMsg x m).queue = s.queue := rfl

@[simp] theorem sendMsg_reads (x : Fin n) (m : DirMsg V) (s : State n V) :
    (s.sendMsg x m).reads = s.reads := rfl

theorem sendMsg_llc (x y : Fin n) (m : DirMsg V) (s : State n V) :
    (s.sendMsg x m).llc y = if y = x then (s.llc y).push m else s.llc y := by
  by_cases h : y = x
  · subst h
    rw [if_pos rfl]
    exact Function.update_self ..
  · rw [if_neg h]
    exact Function.update_of_ne h ..

@[simp] theorem sendMsgs_entry (msgs : List (Fin n × DirMsg V)) (s : State n V) :
    (s.sendMsgs msgs).entry = s.entry := by
  unfold sendMsgs
  induction msgs generalizing s with
  | nil => rfl
  | cons p msgs ih => rw [List.foldl_cons, ih, sendMsg_entry]

@[simp] theorem sendMsgs_queue (msgs : List (Fin n × DirMsg V)) (s : State n V) :
    (s.sendMsgs msgs).queue = s.queue := by
  unfold sendMsgs
  induction msgs generalizing s with
  | nil => rfl
  | cons p msgs ih => rw [List.foldl_cons, ih, sendMsg_queue]

@[simp] theorem sendMsgs_reads (msgs : List (Fin n × DirMsg V)) (s : State n V) :
    (s.sendMsgs msgs).reads = s.reads := by
  unfold sendMsgs
  induction msgs generalizing s with
  | nil => rfl
  | cons p msgs ih => rw [List.foldl_cons, ih, sendMsg_reads]

@[simp] theorem sendMsgs_dstate (msgs : List (Fin n × DirMsg V)) (s : State n V) :
    (s.sendMsgs msgs).dstate = s.dstate := by
  simp only [dstate, sendMsgs_entry]

@[simp] theorem sendMsgs_sharer (msgs : List (Fin n × DirMsg V)) (s : State n V) :
    (s.sendMsgs msgs).sharer = s.sharer := by
  funext x
  simp only [sharer, sendMsgs_entry]

/-- Messages to different caches: each gets its own. -/
theorem sendMsgs_llc {msgs : List (Fin n × DirMsg V)} (hnd : (msgs.map Prod.fst).Nodup) (s : State n V)
    (x : Fin n) : (∃ m, (x, m) ∈ msgs ∧ (s.sendMsgs msgs).llc x = (s.llc x).push m) ∨
      (x ∉ msgs.map Prod.fst ∧ (s.sendMsgs msgs).llc x = s.llc x) := by
  induction msgs generalizing s with
  | nil => exact .inr ⟨by simp, rfl⟩
  | cons p msgs ih =>
    obtain ⟨y, m⟩ := p
    rw [List.map_cons, List.nodup_cons] at hnd
    change (∃ m', _ ∧ ((s.sendMsg y m).sendMsgs msgs).llc x = _) ∨
      (_ ∧ ((s.sendMsg y m).sendMsgs msgs).llc x = _)
    rcases ih hnd.2 (s.sendMsg y m) with ⟨m', hm', heq⟩ | ⟨hne, heq⟩
    · have hxy : x ≠ y := by
        rintro rfl
        exact hnd.1 (List.mem_map.mpr ⟨(x, m'), hm', rfl⟩)
      exact .inl ⟨m', List.mem_cons_of_mem _ hm', by rw [heq, sendMsg_llc, if_neg hxy]⟩
    · by_cases hxy : x = y
      · subst hxy
        exact .inl ⟨m, List.mem_cons_self .., by rw [heq, sendMsg_llc, if_pos rfl]⟩
      · exact .inr ⟨by simp [hxy] at hne ⊢; exact hne, by rw [heq, sendMsg_llc, if_neg hxy]⟩

/-- A change of nothing the views depend on. -/
theorem view_congr {s s' : State n V} (he : s'.entry = s.entry) (hq : s'.queue = s.queue)
    (p : Option (Fin n)) (wb : Fin n → Bool) (fl : Bool) (x : Fin n) :
    s'.view p wb fl x = s.view p wb fl x := by
  simp only [view, dstate, sharer, he, hq]

end State

open State

/-- The invariant of the line, where the request at the front is granted to `granted`, may wait for
a `WB_REP` of the caches in `wb`, and waits for a `FLUSH_REP` if `fl`. -/
structure Coherent (granted : Option (Fin n)) (wb : Fin n → Bool) (fl : Bool) (s : State n V) : Prop where
  uncached : s.dstate = .uncached ↔ ∀ x, s.sharer x = false
  owned : s.dstate.isOwned = true →
    ∃ o, s.owner = some o ∧ s.sharer o = true ∧ ∀ x, s.sharer x = true → x = o
  node : ∀ x, NodeInv (s.view granted wb fl x) (s.llc x)

namespace Coherent

variable {s : State n V} {p : Option (Fin n)} {wb : Fin n → Bool} {fl : Bool}

/-- Parts of the state that the invariant does not speak about. -/
theorem congr (h : Coherent p wb fl s) {s' : State n V} (he : s'.entry = s.entry)
    (hq : s'.queue = s.queue) (hl : s'.llc = s.llc) : Coherent p wb fl s' where
  uncached := by simpa only [dstate, sharer, he] using h.uncached
  owned := by simpa only [dstate, sharer, owner, he] using h.owned
  node := fun x => by
    rw [view_congr he hq, hl]
    exact h.node x

/-- A cache does something that keeps its own invariant. -/
theorem setLlc (h : Coherent p wb fl s) {x : Fin n} {r : Llc V × V}
    (hr : NodeInv (s.view p wb fl x) r.1) : Coherent p wb fl (s.setLlc x r) where
  uncached := h.uncached
  owned := h.owned
  node := fun y => by
    have hview : (s.setLlc x r).view p wb fl y = s.view p wb fl y := rfl
    rw [hview]
    by_cases hy : y = x
    · subst hy
      simpa [State.setLlc] using hr
    · simpa [State.setLlc, hy] using h.node y

/-- The caches are asked for their copies. -/
theorem askAll (h : Coherent none (fun _ => false) false s) {msgs : List (Fin n × DirMsg V)}
    (hnd : (msgs.map Prod.fst).Nodup) (hmsgs : ∀ q ∈ msgs, q.2 = .invReq ∨ (q.2 = .flushReq ∧ fl = true)) :
    Coherent none (fun _ => false) fl (s.sendMsgs msgs) where
  uncached := by simpa only [dstate, sharer, sendMsgs_entry] using h.uncached
  owned := by simpa only [dstate, sharer, owner, sendMsgs_entry] using h.owned
  node := fun x => by
    rw [view_congr (sendMsgs_entry msgs s) (sendMsgs_queue msgs s)]
    have hx : NodeInv (s.view none (fun _ => false) fl x) (s.llc x) :=
      (h.node x).weaken (by simp [view]) (by simp [view]) (by simp)
    rcases sendMsgs_llc hnd s x with ⟨m, hm, heq⟩ | ⟨-, heq⟩
    · rw [heq]
      rcases hmsgs _ hm with hm | ⟨hm, hfl⟩
      · simp only at hm
        subst hm
        exact hx.pushDemand rfl rfl (by simp [isFlushReq])
      · simp only at hm
        subst hm
        exact hx.pushDemand rfl rfl fun _ => hfl
    · rw [heq]
      exact hx

/-- One cache is asked to write back. -/
theorem askWriteBack (h : Coherent p (fun _ => false) false s) {y : Fin n}
    (hy : wb y = true ∨ (s.llc y).copies = 0) : Coherent p wb false (s.sendMsg y .wbReq) where
  uncached := h.uncached
  owned := h.owned
  node := fun x => by
    rw [view_congr (sendMsg_entry y .wbReq s) (sendMsg_queue y .wbReq s), sendMsg_llc]
    split
    · rename_i hxy
      subst hxy
      exact (h.node x).pushWriteBack rfl rfl hy
    · exact (h.node x).weaken (by simp [view]) (by simp [view]) (by simp)

/-- Nobody has a copy of a line that is not cached. -/
theorem copies_of_uncached (h : Coherent p wb fl s) (hd : s.dstate = .uncached) (x : Fin n) :
    (s.llc x).copies = 0 :=
  (h.node x).copies_of_notSharer (h.uncached.mp hd x)

/-- Of a line that is owned only the owner has a copy. -/
theorem copies_of_owned (h : Coherent p wb fl s) (hd : s.dstate.isOwned = true) {x y : Fin n}
    (hx : s.sharer x = true) (hy : y ≠ x) : (s.llc y).copies = 0 := by
  obtain ⟨o, -, -, hall⟩ := h.owned hd
  refine (h.node y).copies_of_notSharer ?_
  by_contra hs
  exact hy ((hall y (by simpa [view] using hs)).trans (hall x hx).symm)

/-- A new sharer. The line was not cached, or it is and stays shared. -/
theorem grant (h : Coherent none (fun _ => false) false s) {r : Fin n} {e : DirectoryEntry n}
    (hr : s.sharer r = false) (he : e.sharers = Function.update s.sharer r true)
    (hd : (s.dstate = .uncached ∧ e.dstate ≠ .uncached) ∨ (s.dstate = .shared ∧ e.dstate = .shared))
    (ho : e.dstate.isOwned = true → e.owner = some r) :
    Coherent (some r) (fun _ => false) false (s.setEntry e) where
  uncached := by
    constructor
    · intro hd'
      rcases hd with ⟨-, hd⟩ | ⟨-, hd⟩
      · exact absurd hd' hd
      · simp [dstate, setEntry, hd] at hd'
    · intro hall
      have := hall r
      simp [sharer, setEntry, he] at this
  owned := fun hown => by
    have hd' : s.dstate = .uncached := by
      rcases hd with ⟨hd, -⟩ | ⟨-, hd⟩
      · exact hd
      · simp [dstate, setEntry, hd, DirectoryState.isOwned] at hown
    refine ⟨r, ho hown, by simp [sharer, setEntry, he], fun x hx => ?_⟩
    by_contra hne
    have := h.uncached.mp hd' x
    simp [sharer, setEntry, he, hne] at hx
    simp [sharer] at this
    rw [hx] at this
    cases this
  node := fun x => by
    have hx := h.node x
    have hview : (s.setEntry e).view (some r) (fun _ => false) false x =
        { s.view none (fun _ => false) false x with
          dstate := e.dstate, sharer := Function.update s.sharer r true x, pending := some r = some x } := by
      simp only [view, dstate, sharer, setEntry, he]
    rw [hview]
    change NodeInv _ (s.llc x)
    by_cases hxr : x = r
    · subst hxr
      have hgrant := hx.grant hr
      have := hgrant.of_noCopy (hx.copies_of_notSharer hr) e.dstate false false
        (by simp [(hx.quiet rfl).2]) (by simp)
      simpa [view] using this
    · have hne : ¬ r = x := fun h => hxr h.symm
      rcases hd with ⟨hd, -⟩ | ⟨hd, hd'⟩
      · have := hx.of_noCopy (h.copies_of_uncached hd x) e.dstate false false
          (by simp [(hx.quiet rfl).2]) (by simp)
        simpa [view, hxr, hne] using this
      · simpa [view, hxr, hne, hd, hd'] using hx

end Coherent

/-- The requests of a cache when the request at the front is gone. -/
theorem queuedBy_cons {f : ShmemReq n} {rest : List (ShmemReq n)} (hf : f.msgType ≠ .nullifyReq) (x : Fin n) :
    queuedBy (f :: rest) x = (if f.requester = x then [f.msgType] else []) ++ queuedBy rest x := by
  unfold queuedBy
  rw [List.filter_cons]
  by_cases hx : f.requester = x <;> simp [hf, hx]

/-- What a request waits for does not matter for the queue. -/
theorem queuedBy_front {f g : ShmemReq n} {rest : List (ShmemReq n)} (hm : g.msgType = f.msgType)
    (hr : g.requester = f.requester) (x : Fin n) : queuedBy (g :: rest) x = queuedBy (f :: rest) x := by
  unfold queuedBy
  rw [List.filter_cons, List.filter_cons, hm, hr]
  split
  · rw [List.map_cons, List.map_cons, hm]
  · rfl

/-- A nullification is no request of a cache. -/
theorem queuedBy_nullify {f : ShmemReq n} {rest : List (ShmemReq n)} (hf : f.msgType = .nullifyReq)
    (x : Fin n) : queuedBy (f :: rest) x = queuedBy rest x := by
  simp [queuedBy, hf]

namespace Coherent

variable {s s' : State n V} {p : Option (Fin n)} {wb : Fin n → Bool} {fl : Bool} {f : ShmemReq n}
  {rest : List (ShmemReq n)} {x r : Fin n}

/-- The request at the front is answered with data. -/
theorem reply (h : Coherent (some r) (fun _ => false) false s) (hq : s.queue = f :: rest)
    (hf : f.msgType ≠ .nullifyReq) (hr : f.requester = r) {m : DirMsg V} (hm : m.isDataRep = true)
    (hex : m.isExRep = true → s.dstate.isOwned = true) (he' : s'.entry = s.entry) (hq' : s'.queue = rest)
    (hl' : ∀ x, s'.llc x = if x = r then (s.llc x).push m else s.llc x) :
    Coherent none (fun _ => false) false s' where
  uncached := by simpa only [dstate, sharer, he'] using h.uncached
  owned := by simpa only [dstate, sharer, owner, he'] using h.owned
  node := fun x => by
    have hx := h.node x
    have hview : s'.view none (fun _ => false) false x =
        { s.view (some r) (fun _ => false) false x with pending := false, queued := queuedBy rest x } := by
      simp [view, dstate, sharer, he', hq']
    have hqueued : (s.view (some r) (fun _ => false) false x).queued =
        (if f.requester = x then [f.msgType] else []) ++ queuedBy rest x := by
      simp only [view, hq, queuedBy_cons hf]
    rw [hview, hl']
    by_cases hxr : x = r
    · subst hxr
      rw [if_pos rfl]
      rw [hr, if_pos rfl, List.singleton_append] at hqueued
      exact hx.pushData hqueued (by simp [view]) hm hex rfl
    · have hne : ¬ r = x := fun h => hxr h.symm
      rw [if_neg hxr]
      rw [hr, if_neg hne, List.nil_append] at hqueued
      have hsame : ({ s.view (some r) (fun _ => false) false x with
          pending := false, queued := queuedBy rest x } : View) =
          s.view (some r) (fun _ => false) false x := by
        rw [← hqueued]
        simp [view, hne]
      rw [hsame]
      exact hx

/-- The request at the front is an upgrade of the only sharer. -/
theorem upgrade (h : Coherent none (fun _ => false) false s) (hq : s.queue = f :: rest)
    (hf : f.msgType ≠ .nullifyReq) (hr : f.requester = r) {e : DirectoryEntry n}
    (hsh : ∀ x, s.sharer x = true ↔ x = r) (he : e.sharers = s.sharer) (hd : e.dstate.isOwned = true)
    (ho : e.owner = some r) (he' : s'.entry = some e) (hq' : s'.queue = rest)
    (hl' : ∀ x, s'.llc x = if x = r then (s.llc x).push .upgradeRep else s.llc x) :
    Coherent none (fun _ => false) false s' where
  uncached := by
    refine ⟨fun hd' => ?_, fun hall => ?_⟩
    · simp only [dstate, he'] at hd'
      rw [hd'] at hd
      cases hd
    · have := hall r
      simp only [sharer, he', he] at this
      rw [← sharer.eq_def, (hsh r).mpr rfl] at this
      cases this
  owned := fun _ => by
    refine ⟨r, by simp [owner, he', ho], ?_, fun x hx => ?_⟩
    · simp only [sharer, he', he]
      exact (hsh r).mpr rfl
    · simp only [sharer, he', he] at hx
      exact (hsh x).mp hx
  node := fun x => by
    have hx := h.node x
    have hview : s'.view none (fun _ => false) false x =
        { s.view none (fun _ => false) false x with dstate := e.dstate, queued := queuedBy rest x } := by
      simp only [view, he', hq', dstate]
      congr 1
      simp only [sharer, he']
      exact congrFun he x
    have hqueued : (s.view none (fun _ => false) false x).queued =
        (if f.requester = x then [f.msgType] else []) ++ queuedBy rest x := by
      simp only [view, hq, queuedBy_cons hf]
    rw [hview, hl']
    by_cases hxr : x = r
    · subst hxr
      rw [if_pos rfl]
      rw [hr, if_pos rfl, List.singleton_append] at hqueued
      have hown : NodeInv { s.view none (fun _ => false) false x with dstate := e.dstate } (s.llc x) :=
        hx.own hd
      exact hown.pushUpgrade hqueued hd rfl
    · have hne : ¬ r = x := fun h => hxr h.symm
      rw [if_neg hxr]
      rw [hr, if_neg hne, List.nil_append] at hqueued
      rw [← hqueued]
      have hs : s.sharer x = false := by
        by_contra hs
        exact hxr ((hsh x).mp (by simpa using hs))
      have hwbs := (hx.quiet rfl).2
      exact hx.of_noCopy (hx.copies_of_notSharer hs) e.dstate _ _ hwbs.le (by simp [view])

/-- A request of a cache is queued. -/
theorem enqueue (h : Coherent p wb fl s) {m : LlcMsg V} {tx : List (LlcMsg V)} {k : ReqType}
    (htx : (s.llc x).tx = m :: tx) (hk : k ≠ .nullifyReq)
    (hm : (m.isMissReq = true ∧ k ≠ .upgradeReq) ∨ (m.isUpgradeReq = true ∧ k = .upgradeReq))
    (he' : s'.entry = s.entry) (hq' : s'.queue = s.queue ++ [ShmemReq.new k x])
    (hl' : s'.llc = Function.update s.llc x { s.llc x with tx := tx }) : Coherent p wb fl s' where
  uncached := by simpa only [dstate, sharer, he'] using h.uncached
  owned := by simpa only [dstate, sharer, owner, he'] using h.owned
  node := fun y => by
    have hy := h.node y
    have hqueued : queuedBy s'.queue y = queuedBy s.queue y ++ if y = x then [k] else [] := by
      rw [hq', queuedBy, List.filter_append, List.map_append]
      congr 1
      by_cases hyx : y = x
      · simp [ShmemReq.new, hk, hyx]
      · have hne : ¬ x = y := fun h => hyx h.symm
        simp [ShmemReq.new, hne, hyx]
    have hview : s'.view p wb fl y = { s.view p wb fl y with queued := queuedBy s'.queue y } := by
      simp only [view, dstate, sharer, he']
    rw [hview, hqueued, hl']
    by_cases hyx : y = x
    · subst hyx
      rw [if_pos rfl, Function.update_self]
      exact hy.popReq htx hm
    · rw [if_neg hyx, List.append_nil, Function.update_of_ne hyx]
      exact hy

/-- A copy has come back. Without sharers the line is not cached any more. -/
theorem leave (h : Coherent p wb fl s) {m : LlcMsg V} {tx : List (LlcMsg V)} {e : DirectoryEntry n}
    (htx : (s.llc x).tx = m :: tx) (hm : m.isLeave = true) (he' : s'.entry = some e)
    (hs : e.sharers = Function.update s.sharer x false)
    (hd : e.dstate = if ∀ y, e.sharers y = false then .uncached else s.dstate)
    (hq' : s'.queue = s.queue) (hl' : s'.llc = Function.update s.llc x { s.llc x with tx := tx }) :
    Coherent p (Function.update wb x false) fl s' := by
  have hpop := (h.node x).popLeave htx hm s'.dstate fl
  have hsx : s.sharer x = true := by
    have := (h.node x).copies
    have hpos : 0 < (s.llc x).copies := by
      simp only [Llc.copies, htx, List.countP_cons_of_pos hm]
      omega
    by_contra hne
    have hz : (s.view p wb fl x).sharer.toNat = 0 := by simpa [view] using hne
    omega
  have hsh : ∀ y, s'.sharer y = Function.update s.sharer x false y := fun y => by
    simp only [sharer, he', hs]
  have hdst : s'.dstate = if ∀ y, s'.sharer y = false then .uncached else s.dstate := by
    simp only [dstate, sharer, he']
    exact hd
  have howned : s.dstate.isOwned = true → ∀ y, s'.sharer y = false := fun hown y => by
    obtain ⟨o, -, -, hall⟩ := h.owned hown
    rw [hsh]
    by_cases hyx : y = x
    · simp [hyx]
    · rw [Function.update_of_ne hyx]
      by_contra hne
      exact hyx ((hall y (by simpa using hne)).trans (hall x hsx).symm)
  have hnew : s'.dstate.isOwned = false := by
    rw [hdst]
    split
    · rfl
    · rename_i hne
      by_contra hown
      exact hne (howned (by simpa using hown))
  refine ⟨⟨fun hu => ?_, fun hall => ?_⟩, fun hown => ?_, fun y => ?_⟩
  · by_contra hne
    rw [hdst, if_neg hne] at hu
    have := h.uncached.mp hu x
    rw [hsx] at this
    cases this
  · rw [hdst, if_pos hall]
  · rw [hnew] at hown
    cases hown
  · by_cases hyx : y = x
    · subst hyx
      have hview : s'.view p (Function.update wb y false) fl y =
          { s.view p wb fl y with dstate := s'.dstate, sharer := false, writeBack := false, flush := fl } := by
        simp [view, hsh, hq']
      rw [hview, hl', Function.update_self]
      exact hpop.1
    · have hview : s'.view p (Function.update wb x false) fl y =
          { s.view p wb fl y with dstate := s'.dstate } := by
        simp [view, hsh, hq', hyx]
      rw [hview, hl', Function.update_of_ne hyx]
      have hy := h.node y
      by_cases hall : ∀ y, s'.sharer y = false
      · have hc : (s.llc y).copies = 0 := by
          refine hy.copies_of_notSharer ?_
          have := hall y
          rw [hsh, Function.update_of_ne hyx] at this
          exact this
        refine hy.of_noCopy hc s'.dstate _ _ ?_ hy.notBoth
        have := hy.writeBacks
        omega
      · have : s'.dstate = s.dstate := by rw [hdst, if_neg hall]
        rw [this]
        exact hy

/-- A cache has written back. -/
theorem downgrade (h : Coherent p wb fl s) {d : Option V} {tx : List (LlcMsg V)} {e : DirectoryEntry n}
    (htx : (s.llc x).tx = .wbRep d :: tx) (hsx : s.sharer x = true) (he' : s'.entry = some e)
    (hs : e.sharers = s.sharer) (hd : e.dstate = .shared)
    (hq' : s'.queue = s.queue) (hl' : s'.llc = Function.update s.llc x { s.llc x with tx := tx }) :
    Coherent p (Function.update wb x false) false s' := by
  have hsh : s'.sharer = s.sharer := by
    funext y
    simp only [sharer, he', hs]
  have hdst : s'.dstate = .shared := by simp only [dstate, he', hd]
  refine ⟨⟨fun hu => ?_, fun hall => ?_⟩, fun hown => ?_, fun y => ?_⟩
  · rw [hdst] at hu
    cases hu
  · have := hall x
    rw [hsh, hsx] at this
    cases this
  · rw [hdst] at hown
    cases hown
  · have hy := h.node y
    by_cases hyx : y = x
    · subst hyx
      have hview : s'.view p (Function.update wb y false) false y =
          { s.view p wb fl y with dstate := .shared, writeBack := false, flush := false } := by
        simp [view, hsh, hq', hdst]
      rw [hview, hl', Function.update_self]
      exact hy.popWbRep htx
    · have hview : s'.view p (Function.update wb x false) false y =
          { s.view p wb fl y with dstate := .shared, flush := false } := by
        simp [view, hsh, hq', hyx, hdst]
      rw [hview, hl', Function.update_of_ne hyx]
      -- a line that was owned has no other copies, and one that was shared stays as it is
      cases hold : s.dstate with
      | uncached =>
        have := h.uncached.mp hold x
        rw [hsx] at this
        cases this
      | shared =>
        have hfl : fl = false := by
          have hx := h.node x
          have hwb : wb x = true := by
            have := hx.writeBacks
            rw [htx, List.countP_cons_of_pos rfl] at this
            by_contra hne
            have hz : (s.view p wb fl x).writeBack.toNat = 0 := by simpa [view] using hne
            omega
          exact hx.notBoth hwb
        simpa [view, hold, hfl] using hy
      | exclusive =>
        have hc := h.copies_of_owned (by simp [hold, DirectoryState.isOwned]) hsx hyx
        refine hy.of_noCopy hc .shared _ _ ?_ (by simp)
        have := hy.writeBacks
        omega
      | modified =>
        have hc := h.copies_of_owned (by simp [hold, DirectoryState.isOwned]) hsx hyx
        refine hy.of_noCopy hc .shared _ _ ?_ (by simp)
        have := hy.writeBacks
        omega

/-- Nothing is waited for when nobody has a copy. -/
theorem relax (h : Coherent p (fun _ => false) fl s) (hd : s.dstate = .uncached) :
    Coherent p (fun _ => false) false s where
  uncached := h.uncached
  owned := h.owned
  node := fun x =>
    (h.node x).of_noCopy (h.copies_of_uncached hd x) s.dstate _ _ (by simp [((h.node x).quiet rfl).2]) (by simp)

/-- The entry of a line that is not cached is given up. -/
theorem nullified (h : Coherent none (fun _ => false) false s) (hd : s.dstate = .uncached)
    (hq : s.queue = f :: rest) (hf : f.msgType = .nullifyReq) (he' : s'.entry = none)
    (hq' : s'.queue = rest) (hl' : s'.llc = s.llc) : Coherent none (fun _ => false) false s' where
  uncached := by simp [dstate, sharer, he']
  owned := by simp [dstate, he', DirectoryState.isOwned]
  node := fun x => by
    have hview : s'.view none (fun _ => false) false x = s.view none (fun _ => false) false x := by
      have hsx := h.uncached.mp hd x
      have hd' : s'.dstate = s.dstate := by rw [hd]; simp only [dstate, he']
      have hs' : s'.sharer x = s.sharer x := by rw [hsx]; simp only [sharer, he']
      simp only [view, hd', hs', hq', hq, queuedBy_nullify hf]
    rw [hview, hl']
    exact h.node x

end Coherent

end LifeSim.Directory
