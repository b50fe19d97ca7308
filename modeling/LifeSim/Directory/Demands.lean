import LifeSim.Directory.Prompt
import LifeSim.Directory.Entry

/-!
# What the directory waits for is under way

What the directory does to a cache, by a message or by a change of the entry, and why the
cache still owes it nothing else than before. For the whole line: the request at the front of the queue
waits for the copies of some caches, for the data of one, or for memory, and in each of
these cases a message is on its way.
-/

namespace LifeSim.Directory

open LifeSim.Lib DirMsg LlcMsg State

variable {n : ℕ} {V : Type}

namespace Llc

/-- A message that enters the channel of a cache with a copy, or behind one, will find it. -/
theorem hot_push {l : Llc V} (m : DirMsg V) (h : 0 < l.held + l.rx.countP isDataRep) :
    (l.push m).hot = l.hot ++ [m] := by
  by_cases hc : l.cstate = .invalid
  · simp only [hot, push_cstate, push_rx, if_pos hc, List.dropWhile_append]
    rw [if_neg]
    simp only [List.isEmpty_iff, List.dropWhile_eq_nil_iff, not_forall]
    have hpos : 0 < l.rx.countP isDataRep := by simpa [held, hc] using h
    obtain ⟨d, hd, hdata⟩ := List.countP_pos_iff.mp hpos
    exact ⟨d, hd, by simp [hdata]⟩
  · rw [hot_of_held hc, hot_of_held (l := l.push m) hc, push_rx]

end Llc

namespace Prompt

variable {dstate dstate' : DirectoryState} {queued : List ReqType} {leave wb : Bool} {l : Llc V}

/-- A cache without a copy owes nothing, whatever the state of the line. -/
theorem of_noCopy (h : Prompt dstate queued leave wb l) (hc : l.copies = 0) :
    Prompt dstate' queued false false l := by
  have hhot := Llc.hot_eq_nil_of_copies hc
  unfold Llc.copies at hc
  have hinv : l.cstate = .invalid := by
    by_contra hne
    simp [Llc.held, hne] at hc
  have hle : l.tx.countP isInvRep ≤ l.tx.countP isLeave :=
    List.countP_mono_left fun a _ ha => by simp [isLeave, ha]
  exact
    { leaves := by simp
      writesBack := by simp
      invReq := by simp [hhot]
      flushReq := by simp [hhot]
      upgradeRep := h.upgradeRep
      upgrading := h.upgrading
      lost := fun _ hpos => by omega
      write := h.write
      modified := fun _ => .inl hinv
      exRep := fun _ hpos => by omega
      invRep := fun _ hpos => by omega
      read := h.read
      shRep := h.shRep }

/-- The cache is asked for something. -/
theorem ask {m : DirMsg V} {leave' wb' : Bool} (h : Prompt dstate queued leave wb l)
    (hm : m.isRep = false) (hlv : leave = true → leave' = true)
    (hleaves : leave' = true → 0 < l.tx.countP isLeave + (l.push m).hot.countP isDemand)
    (hwritesBack : wb' = true →
      0 < l.tx.countP isLeave + l.tx.countP isWbRep + (l.push m).hot.countP isWbReq)
    (hinv : m = .invReq → leave' = true ∧ dstate = .shared) (hflush : m = .flushReq → leave' = true) :
    Prompt dstate queued leave' wb' (l.push m) := by
  have hkind : m.isDataRep = false ∧ m.isExRep = false ∧ m.isUpgradeRep = false ∧ m.isShRep = false := by
    cases m <;> simp_all [isRep, isDataRep, isUpgradeRep, isExRep, isShRep]
  have hsub := Llc.hot_push_sublist l m
  exact
    { leaves := hleaves
      writesBack := hwritesBack
      invReq := fun hpos => by
        have hle := hsub.countP_le (p := isInvReq)
        rw [List.countP_append, List.countP_singleton] at hle
        by_cases hi : m.isInvReq = true
        · exact hinv (by cases m <;> simp_all [isInvReq])
        · rw [if_neg hi] at hle
          exact (h.invReq (by omega)).imp_left hlv
      flushReq := fun hpos => by
        have hle := hsub.countP_le (p := isFlushReq)
        rw [List.countP_append, List.countP_singleton] at hle
        by_cases hi : m.isFlushReq = true
        · exact hflush (by cases m <;> simp_all [isFlushReq])
        · rw [if_neg hi] at hle
          exact hlv (h.flushReq (by omega))
      upgradeRep := fun hpos => by
        simp only [Llc.push_rx, List.countP_append, List.countP_singleton, hkind] at hpos
        obtain ⟨hc, hhead⟩ := h.upgradeRep (by simpa using hpos)
        exact ⟨hc, by simp [hhead]⟩
      upgrading := h.upgrading
      lost := fun hu hpos => hlv (h.lost hu hpos)
      write := h.write
      modified := fun hd => by simpa [hkind] using h.modified hd
      exRep := by simpa [hkind] using h.exRep
      invRep := h.invRep
      read := h.read
      shRep := by simpa [hkind] using h.shRep }

/-- The cache is asked for its copy. -/
theorem pushDemand {m : DirMsg V} (h : Prompt dstate queued leave wb l) (hc : 0 < l.copies)
    (hm : (m = .invReq ∧ dstate = .shared) ∨ m = .flushReq) :
    Prompt dstate queued true false (l.push m) := by
  refine h.ask (by rcases hm with ⟨rfl, -⟩ | rfl <;> rfl) (fun _ => rfl) (fun _ => ?_) (by simp)
    (fun hi => ⟨rfl, ?_⟩) fun _ => rfl
  · by_cases hheld : 0 < l.held + l.rx.countP isDataRep
    · have hd : m.isDemand = true := by rcases hm with ⟨rfl, -⟩ | rfl <;> rfl
      rw [Llc.hot_push m hheld, List.countP_append, List.countP_singleton, if_pos hd]
      omega
    · unfold Llc.copies at hc
      omega
  · rcases hm with ⟨-, hd⟩ | rfl
    · exact hd
    · cases hi

/-- The cache is asked to write back. -/
theorem pushWriteBack (h : Prompt dstate queued false wb l) (hc : 0 < l.copies) :
    Prompt dstate queued false true (l.push .wbReq) := by
  refine h.ask rfl id (by simp) (fun _ => ?_) (by simp) (by simp)
  by_cases hheld : 0 < l.held + l.rx.countP isDataRep
  · rw [Llc.hot_push _ hheld, List.countP_append, List.countP_singleton,
      if_pos (show (wbReq : DirMsg V).isWbReq = true from rfl)]
    omega
  · unfold Llc.copies at hc
    omega

variable {v : View}

/-- The request is answered with data. -/
theorem pushData {m : DirMsg V} {k : ReqType} {ks : List ReqType}
    (h : Prompt v.dstate v.queued false false l) (hi : NodeInv v l) (hq : v.queued = k :: ks)
    (hp : v.pending = true) (hm : m.isDataRep = true)
    (hmod : v.dstate = .modified → m.isExRep = true ∧ (k = .exReq ∨ k = .upgradeReq))
    (hsh : m.isShRep = true → k = .shReq) : Prompt v.dstate ks false false (l.push m) := by
  obtain ⟨hcopies, -⟩ := hi.copies_of_pending hp
  obtain ⟨hks, hrep, hreq, -⟩ := hi.queued_singleton hq
  have hhot : (l.push m).hot.Sublist [m] := by
    have := Llc.hot_push_sublist l m
    rwa [Llc.hot_eq_nil_of_copies hcopies, List.nil_append] at this
  have hkind : m.isInvReq = false ∧ m.isFlushReq = false ∧ m.isUpgradeRep = false := by
    cases m <;> simp_all [isDataRep, isInvReq, isFlushReq, isUpgradeRep]
  have hasked : (l.push m).asked ks = [] := asked_eq_nil hreq hks
  have hup := NodeInv.upgrade_of_rep hrep
  unfold Llc.copies at hcopies
  have hinv : l.cstate = .invalid := by
    by_contra hne
    simp [Llc.held, hne] at hcopies
  have hle : l.tx.countP isInvRep ≤ l.tx.countP isLeave :=
    List.countP_mono_left fun a _ ha => by simp [isLeave, ha]
  exact
    { leaves := by simp
      writesBack := by simp
      invReq := fun hpos => by
        have := hhot.countP_le (p := isInvReq)
        rw [List.countP_singleton, hkind.1] at this
        simp only [Bool.false_eq_true, if_false] at this
        omega
      flushReq := fun hpos => by
        have := hhot.countP_le (p := isFlushReq)
        rw [List.countP_singleton, hkind.2.1] at this
        simp only [Bool.false_eq_true, if_false] at this
        omega
      upgradeRep := fun hpos => by simp [hup, hkind] at hpos
      upgrading := by simp [hasked]
      lost := by simp [hasked]
      write := by simp [hasked]
      modified := fun _ => .inl hinv
      exRep := fun hd _ => by
        obtain ⟨hex, hk⟩ := hmod hd
        refine ⟨by simp [hex], h.write ?_⟩
        rw [hq]
        rcases hk with rfl | rfl
        · exact .inr (by simp [Llc.asked])
        · exact .inl (by simp [Llc.asked])
      invRep := fun _ hpos => by simp only [Llc.push_tx] at hpos; omega
      read := by simp [hasked]
      shRep := fun hpos => by
        have hnone := countP_isShRep_le l.rx
        have hdata : l.rx.countP isDataRep = 0 := by omega
        have hm' : m.isShRep = true := by
          by_contra hne
          rw [Llc.push_rx, List.countP_append, List.countP_singleton, if_neg hne] at hpos
          omega
        exact h.read (by simp [Llc.asked, hq, hsh hm']) }

/-- An upgrade is granted. The cache has a copy, and nothing has been asked of it. -/
theorem pushUpgrade {ks : List ReqType} (h : Prompt v.dstate v.queued false false l) (hi : NodeInv v l)
    (hq : v.queued = .upgradeReq :: ks) (hs : v.sharer = true) (hp : v.pending = false)
    (hwb : v.writeBack = false) : Prompt dstate' ks false false (l.push .upgradeRep) := by
  obtain ⟨hks, hrep, hreq, -⟩ := hi.queued_singleton hq
  have hup : ReqType.upgradeReq ∈ l.asked v.queued := by simp [Llc.asked, hq]
  have hasked : (l.push .upgradeRep).asked ks = [] := asked_eq_nil hreq hks
  have hleave : l.tx.countP isLeave = 0 := by
    by_contra hne
    cases h.lost hup (by omega)
  have hdata := NodeInv.data_of_rep hrep
  have hcopies := hi.copies
  simp only [Llc.copies, hdata, hleave, hp, hs, Bool.toNat_false, Bool.toNat_true] at hcopies
  have hheld : l.cstate ≠ .invalid := fun hc => by simp [Llc.held, hc] at hcopies
  have hc := (h.upgrading hup).resolve_left hheld
  have hhot := Llc.hot_of_held hheld
  have hrx : l.rx = [] := by
    rw [List.eq_nil_iff_forall_not_mem]
    intro m hm
    have hwbr := (hi.quiet hwb).1
    rw [hhot, List.countP_eq_zero] at hwbr
    have hinvr : l.rx.countP isInvReq = 0 := by
      by_contra hne
      cases (h.invReq (by rw [hhot]; omega)).1
    have hflr : l.rx.countP isFlushReq = 0 := by
      by_contra hne
      cases h.flushReq (by rw [hhot]; omega)
    rw [List.countP_eq_zero] at hrep hinvr hflr
    have h₁ := hrep m hm
    have h₂ := hwbr m hm
    have h₃ := hinvr m hm
    have h₄ := hflr m hm
    cases m <;> simp_all [isRep, isDataRep, isUpgradeRep, isWbReq, isInvReq, isFlushReq]
  have hle : l.tx.countP isInvRep ≤ l.tx.countP isLeave :=
    List.countP_mono_left fun a _ ha => by simp [isLeave, ha]
  have hhot' : (l.push .upgradeRep).hot = [.upgradeRep] := by
    rw [Llc.hot_of_held (l := l.push .upgradeRep) hheld, Llc.push_rx, hrx, List.nil_append]
  exact
    { leaves := by simp
      writesBack := by simp
      invReq := by simp [hhot', isInvReq]
      flushReq := by simp [hhot', isFlushReq]
      upgradeRep := fun _ => ⟨hc, by simp [hrx]⟩
      upgrading := by simp [hasked]
      lost := by simp [hasked]
      write := by simp [hasked]
      modified := fun _ => .inr (.inr (.inl ⟨hc, by simp [isUpgradeRep]⟩))
      exRep := fun _ hpos => by simp [hrx, isDataRep] at hpos
      invRep := fun _ hpos => by simp only [Llc.push_tx] at hpos; omega
      read := by simp [hasked]
      shRep := fun hpos => by simp [hrx, isShRep] at hpos }

/-- A request of the cache enters the queue. -/
theorem popReq {m : LlcMsg V} {tx : List (LlcMsg V)} {k : ReqType} (h : Prompt dstate queued leave wb l)
    (htx : l.tx = m :: tx) (hk : m.reqType = some k) :
    Prompt dstate (queued ++ [k]) leave wb { l with tx := tx } := by
  have hkind : m.isLeave = false ∧ m.isWbRep = false ∧ m.isInvRep = false := by
    cases m <;> simp_all [reqType, isLeave, isInvRep, isFlushRep, isWbRep]
  have hasked : ∀ k', k' ∈ ({ l with tx := tx } : Llc V).asked (queued ++ [k]) ↔ k' ∈ l.asked queued := by
    intro k'
    simp only [Llc.asked, htx, List.filterMap_cons, hk, List.mem_append, List.mem_cons, List.not_mem_nil,
      or_false]
    tauto
  have hhot : ({ l with tx := tx } : Llc V).hot = l.hot := rfl
  exact
    { leaves := by simpa [hhot, htx, hkind] using h.leaves
      writesBack := by simpa [hhot, htx, hkind] using h.writesBack
      invReq := h.invReq
      flushReq := h.flushReq
      upgradeRep := h.upgradeRep
      upgrading := by rw [hasked]; exact h.upgrading
      lost := by rw [hasked]; simpa [htx, hkind] using h.lost
      write := by rw [hasked, hasked]; exact h.write
      modified := fun hd => by simpa [htx, hkind] using h.modified hd
      exRep := h.exRep
      invRep := fun hd => by simpa [htx, hkind] using h.invRep hd
      read := by rw [hasked]; exact h.read
      shRep := h.shRep }

/-- The copy has come back. -/
theorem popLeave {m : LlcMsg V} {tx : List (LlcMsg V)} (h : Prompt dstate queued leave wb l)
    (htx : l.tx = m :: tx) (hm : m.isLeave = true) (hc : ({ l with tx := tx } : Llc V).copies = 0) :
    Prompt dstate' queued false false { l with tx := tx } := by
  have hhot := Llc.hot_eq_nil_of_copies hc
  unfold Llc.copies at hc
  have hinv : l.cstate = .invalid := by
    by_contra hne
    simp [Llc.held, hne] at hc
  have hle : tx.countP isInvRep ≤ tx.countP isLeave :=
    List.countP_mono_left fun a _ ha => by simp [isLeave, ha]
  have hasked : ({ l with tx := tx } : Llc V).asked queued = l.asked queued := by
    have : m.reqType = none := by cases m <;> simp_all [isLeave, isInvRep, isFlushRep, reqType]
    simp [Llc.asked, htx, this]
  simp only at hc
  exact
    { leaves := by simp
      writesBack := by simp
      invReq := by simp [hhot]
      flushReq := by simp [hhot]
      upgradeRep := h.upgradeRep
      upgrading := by rw [hasked]; exact h.upgrading
      lost := fun _ hpos => by simp only at hpos; omega
      write := by rw [hasked]; exact h.write
      modified := fun _ => .inl hinv
      exRep := fun _ hpos => by simp only at hpos; omega
      invRep := fun _ hpos => by simp only at hpos; omega
      read := by rw [hasked]; exact h.read
      shRep := h.shRep }

/-- The copy has been written back. -/
theorem popWbRep {d : Option V} {tx : List (LlcMsg V)} (h : Prompt dstate queued false wb l)
    (htx : l.tx = .wbRep d :: tx) : Prompt .shared queued false false { l with tx := tx } := by
  have hasked : ({ l with tx := tx } : Llc V).asked queued = l.asked queued := by
    rw [Llc.asked, Llc.asked, htx]
    rfl
  exact
    { leaves := by simp
      writesBack := by simp
      invReq := fun hpos => absurd (h.invReq hpos).1 (by simp)
      flushReq := h.flushReq
      upgradeRep := h.upgradeRep
      upgrading := by rw [hasked]; exact h.upgrading
      lost := by
        rw [hasked]
        simpa [htx, isLeave, isInvRep, isFlushRep] using h.lost
      write := by rw [hasked]; exact h.write
      modified := by simp
      exRep := by simp
      invRep := by simp
      read := by rw [hasked]; exact h.read
      shRep := h.shRep }

end Prompt

/-- A read for which the directory had no room. It waits until one of the sharers has left. -/
def State.refused (s : State n V) (f : ShmemReq n) : Bool :=
  f.msgType = .shReq && !f.waitForData && f.forwardingFrom = none && s.dstate = .shared

/-- The request at the front waits for the copy of the cache. -/
def State.demands (s : State n V) (f : ShmemReq n) (x : Fin n) : Bool :=
  !f.waitForData && s.sharer x &&
    if f.msgType = .shReq then s.refused f && f.victim = some x else !(f.msgType = .upgradeReq && f.requester = x)

/-- No cache loses what the directory waits for: the copies of `leave`, the data of `wb`. -/
def Prompts (leave wb : Fin n → Bool) (s : State n V) : Prop :=
  ∀ x, Prompt s.dstate (queuedBy s.queue x) (leave x) (wb x) (s.llc x)

namespace Prompts

variable {s s' : State n V} {p : Option (Fin n)} {leave wb wb' : Fin n → Bool} {fl : Bool} {f : ShmemReq n}
  {rest : List (ShmemReq n)} {x r : Fin n}

/-- Of the entry only the state matters. -/
theorem congr (h : Prompts leave wb s) (hd : s'.dstate = s.dstate)
    (hq : ∀ x, queuedBy s'.queue x = queuedBy s.queue x) (hl : s'.llc = s.llc) :
    Prompts leave wb s' := fun x => by
  rw [hd, hq, hl]
  exact h x

/-- A cache does something that keeps its own invariant. -/
theorem setLlc (h : Prompts leave wb s) {r : Llc V × V}
    (hr : Prompt s.dstate (queuedBy s.queue x) (leave x) (wb x) r.1) :
    Prompts leave wb (s.setLlc x r) := fun y => by
  change Prompt s.dstate (queuedBy s.queue y) _ _ (Function.update s.llc x r.1 y)
  by_cases hy : y = x
  · subst hy
    rwa [Function.update_self]
  · rw [Function.update_of_ne hy]
    exact h y

/-- The caches are asked for their copies. -/
theorem askAll (h : Prompts (fun _ => false) (fun _ => false) s) {msgs : List (Fin n × DirMsg V)}
    (hnd : (msgs.map Prod.fst).Nodup) (hmem : ∀ x, leave x = true ↔ x ∈ msgs.map Prod.fst)
    (hcopies : ∀ x, leave x = true → 0 < (s.llc x).copies)
    (hmsgs : ∀ q ∈ msgs, (q.2 = .invReq ∧ s.dstate = .shared) ∨ q.2 = .flushReq) :
    Prompts leave (fun _ => false) (s.sendMsgs msgs) := fun x => by
  rw [sendMsgs_dstate, sendMsgs_queue]
  rcases sendMsgs_llc hnd s x with ⟨m, hm, heq⟩ | ⟨hne, heq⟩
  · have hx : leave x = true := (hmem x).mpr (List.mem_map.mpr ⟨_, hm, rfl⟩)
    rw [heq, hx]
    exact (h x).pushDemand (hcopies x hx) (hmsgs _ hm)
  · have hx : leave x = false := by
      by_contra hx
      exact hne ((hmem x).mp (by simpa using hx))
    rw [heq, hx]
    exact h x

/-- One cache is asked to write back. -/
theorem askWriteBack (h : Prompts (fun _ => false) (fun _ => false) s) (hwb : ∀ y, wb y = true ↔ y = x)
    (hc : 0 < (s.llc x).copies) : Prompts (fun _ => false) wb (s.sendMsg x .wbReq) := fun y => by
  have hd : (s.sendMsg x .wbReq).dstate = s.dstate := rfl
  rw [hd, sendMsg_queue, sendMsg_llc]
  split
  · rename_i hy
    subst hy
    rw [(hwb y).mpr rfl]
    exact (h y).pushWriteBack hc
  · rename_i hy
    have hy' : wb y = false := by
      by_contra hne
      exact hy ((hwb y).mp (by simpa using hne))
    rw [hy']
    exact h y

/-- The state of a line without copies changes. -/
theorem setEntry (h : Prompts leave wb s) {e : DirectoryEntry n}
    (hc : ∀ x, (s.llc x).copies = 0) : Prompts (fun _ => false) (fun _ => false) (s.setEntry e) :=
  fun x => (h x).of_noCopy (hc x)

/-- The request at the front is answered with data. -/
theorem reply (h : Prompts (fun _ => false) (fun _ => false) s)
    (hc : Coherent (some r) (fun _ => false) false s) (hq : s.queue = f :: rest)
    (hf : f.msgType ≠ .nullifyReq) (hr : f.requester = r) {m : DirMsg V} (hm : m.isDataRep = true)
    (hmod : s.dstate = .modified → m.isExRep = true ∧ (f.msgType = .exReq ∨ f.msgType = .upgradeReq))
    (hsh : m.isShRep = true → f.msgType = .shReq) (he' : s'.entry = s.entry) (hq' : s'.queue = rest)
    (hl' : ∀ x, s'.llc x = if x = r then (s.llc x).push m else s.llc x) :
    Prompts (fun _ => false) (fun _ => false) s' := fun x => by
  have hx := h x
  have hd : s'.dstate = s.dstate := by simp only [dstate, he']
  rw [hd, hq', hl']
  rw [hq, queuedBy_cons hf, hr] at hx
  by_cases hxr : x = r
  · subst hxr
    rw [if_pos rfl] at hx ⊢
    refine Prompt.pushData (v := s.view (some x) (fun _ => false) false x) (k := f.msgType) ?_ (hc.node x)
      ?_ (by simp [view]) hm hmod hsh
    · simpa [view, hq, queuedBy_cons hf, hr] using hx
    · simp [view, hq, queuedBy_cons hf, hr]
  · have hne : ¬ r = x := fun h => hxr h.symm
    rw [if_neg hxr]
    rwa [if_neg hne, List.nil_append] at hx

/-- The request at the front is an upgrade of the only sharer. -/
theorem upgrade (h : Prompts (fun _ => false) (fun _ => false) s)
    (hc : Coherent none (fun _ => false) false s) (hq : s.queue = f :: rest)
    (hf : f.msgType = .upgradeReq) (hr : f.requester = r) (hsh : ∀ x, s.sharer x = true ↔ x = r)
    (hq' : s'.queue = rest) (hl' : ∀ x, s'.llc x = if x = r then (s.llc x).push .upgradeRep else s.llc x) :
    Prompts (fun _ => false) (fun _ => false) s' := fun x => by
  have hx := h x
  rw [hq', hl']
  rw [hq, queuedBy_cons (by simp [hf]), hr] at hx
  by_cases hxr : x = r
  · subst hxr
    rw [if_pos rfl] at hx ⊢
    have hnull : f.msgType ≠ .nullifyReq := by simp [hf]
    refine Prompt.pushUpgrade (v := s.view none (fun _ => false) false x) ?_ (hc.node x) ?_
      ((hsh x).mpr rfl) (by simp [view]) rfl
    · simpa [view, hq, queuedBy_cons hnull, hr] using hx
    · simp [view, hq, queuedBy_cons hnull, hr, hf]
  · have hne : ¬ r = x := fun h => hxr h.symm
    rw [if_neg hxr]
    rw [if_neg hne, List.nil_append] at hx
    refine hx.of_noCopy ((hc.node x).copies_of_notSharer ?_)
    by_contra hs
    exact hxr ((hsh x).mp (by simpa [view] using hs))

/-- A request of a cache is queued. -/
theorem enqueue (h : Prompts leave wb s) {m : LlcMsg V} {tx : List (LlcMsg V)} {k : ReqType}
    (htx : (s.llc x).tx = m :: tx) (hk : m.reqType = some k) (hnull : k ≠ .nullifyReq)
    (he' : s'.entry = s.entry) (hq' : s'.queue = s.queue ++ [ShmemReq.new k x])
    (hl' : s'.llc = Function.update s.llc x { s.llc x with tx := tx }) : Prompts leave wb s' := fun y => by
  have hy := h y
  have hd : s'.dstate = s.dstate := by simp only [dstate, he']
  have hqueued : queuedBy s'.queue y = queuedBy s.queue y ++ if y = x then [k] else [] := by
    rw [hq', queuedBy, List.filter_append, List.map_append]
    congr 1
    by_cases hyx : y = x
    · simp [ShmemReq.new, hnull, hyx]
    · have hne : ¬ x = y := fun h => hyx h.symm
      simp [ShmemReq.new, hne, hyx]
  rw [hd, hqueued, hl']
  by_cases hyx : y = x
  · subst hyx
    rw [if_pos rfl, Function.update_self]
    exact hy.popReq htx hk
  · rw [if_neg hyx, List.append_nil, Function.update_of_ne hyx]
    exact hy

/-- A copy has come back. What is waited for of the other sharers stays. -/
theorem left (h : Prompts leave wb s) {m : LlcMsg V} {tx : List (LlcMsg V)}
    (htx : (s.llc x).tx = m :: tx) (hm : m.isLeave = true) (hleft : Left x s s')
    (hc : Coherent p wb' fl s') (hl' : s'.llc = Function.update s.llc x { s.llc x with tx := tx }) :
    Prompts (fun y => leave y && s'.sharer y) (fun y => wb y && s'.sharer y) s' := fun y => by
  change Prompt s'.dstate (queuedBy s'.queue y) (leave y && s'.sharer y) (wb y && s'.sharer y) (s'.llc y)
  rw [hleft.queue]
  cases hs : s'.sharer y with
  | true =>
    have hyx : y ≠ x := by
      rintro rfl
      simp [hleft.sharer] at hs
    rw [hleft.dstate_of_sharer hs, hl', Function.update_of_ne hyx, Bool.and_true, Bool.and_true]
    exact h y
  | false =>
    have hcopies := (hc.node y).copies_of_notSharer hs
    rw [Bool.and_false, Bool.and_false]
    by_cases hyx : y = x
    · subst hyx
      rw [hl', Function.update_self] at hcopies ⊢
      exact (h y).popLeave htx hm hcopies
    · rw [hl', Function.update_of_ne hyx] at hcopies ⊢
      exact (h y).of_noCopy hcopies

/-- A cache has written back what was asked of no other one. -/
theorem downgrade (h : Prompts (fun _ => false) wb s) {d : Option V} {tx : List (LlcMsg V)}
    (htx : (s.llc x).tx = .wbRep d :: tx) (hwb : ∀ y, wb y = true → y = x)
    (hc : ∀ y, y ≠ x → s.dstate = .shared ∨ (s.llc y).copies = 0) (hd : s'.dstate = .shared)
    (hq' : s'.queue = s.queue) (hl' : s'.llc = Function.update s.llc x { s.llc x with tx := tx }) :
    Prompts (fun _ => false) (fun _ => false) s' := fun y => by
  rw [hd, hq', hl']
  by_cases hyx : y = x
  · subst hyx
    rw [Function.update_self]
    exact (h y).popWbRep htx
  · rw [Function.update_of_ne hyx]
    have hy := h y
    rcases hc y hyx with hc | hc
    · have hwby : wb y = false := by
        by_contra hne
        exact hyx (hwb y (by simpa using hne))
      rwa [hc, hwby] at hy
    · exact hy.of_noCopy hc

end Prompts

/-- Only the limited directory may be too small for all caches. -/
def Config.HasRoom (cfg : Config n) : Prop :=
  cfg.directoryType = .limitedNoBroadcast → n ≤ cfg.maxHwSharers

/-- The directory has room for every sharer. -/
theorem not_refused {cfg : Config n} (hcfg : cfg.HasRoom) {e : DirectoryEntry n} {x : Fin n}
    (hx : e.sharers x = false) : e.refusesSharer cfg = false := by
  have hlt : e.getSharersList.length < (List.finRange n).length :=
    List.length_filter_lt_length_iff_exists.mpr ⟨x, List.mem_finRange x, by simp [hx]⟩
  rw [List.length_finRange] at hlt
  unfold DirectoryEntry.refusesSharer Config.useMaxHwSharers
  cases ht : cfg.directoryType with
  | limitless => rfl
  | limitedNoBroadcast => exact decide_eq_false (Nat.not_le.mpr (hlt.trans_le (hcfg ht)))
  | fullMap => exact decide_eq_false (Nat.not_le.mpr hlt)

/-- The request at the front waits for something that is under way. -/
structure Pending (cfg : Config n) (f : ShmemReq n) (s : State n V) : Prop where
  prompts : Prompts (s.demands f) (s.waitsForWb f) s
  waits : f.waitForData = false → ∃ x, s.demands f x = true ∨ s.waitsForWb f x = true
  sharer : ∀ x, s.waitsForWb f x = true → s.sharer x = true
  refused : s.refused f = true → ¬ cfg.HasRoom
  /-- No sharer is asked to leave a line that one cache has for itself. -/
  unasked : f.msgType = .shReq → f.waitForData = false → f.forwardingFrom = none → s.dstate.isOwned = true →
    f.victim = none

/-- The line between two steps: what the request at the front waits for is under way. -/
def Alive (cfg : Config n) (s : State n V) : Prop :=
  (s.queue = [] ∧ Prompts (fun _ => false) (fun _ => false) s) ∨
    ∃ f rest, s.queue = f :: rest ∧ Pending cfg f s

/-- A handler leaves the request waiting for something that is under way, or it has answered the request
and nothing is asked for. -/
def Served (cfg : Config n) (r : Outcome n V) : Prop :=
  if r.2 = true then ∀ s', s'.entry = r.1.entry → s'.llc = r.1.llc → s'.queue = r.1.queue.tail →
    Prompts (fun _ => false) (fun _ => false) s'
  else Alive cfg r.1

end LifeSim.Directory
