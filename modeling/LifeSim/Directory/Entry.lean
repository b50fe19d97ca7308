import LifeSim.Directory.Swmr

/-!
# The directory entry

The state, the sharers, the owner and the forwarder of an entry are set apart from one another.
Here they are shown to agree after every handler, and a `WB_REQ` is shown to go to a sharer only.

The constructor of an entry does not set the forwarder. It is set with the first data that one
cache gets from another one, which is before the line is `SHARED`, unless the second sharer is refused.
-/

namespace LifeSim.Directory

open LifeSim.Lib DirMsg LlcMsg State

variable {n : ℕ} {V : Type}

/-- The forwarder is never read before it is set: it is set from the start, or the directory has room
for the second sharer of a line. -/
def Config.SetsForwarder (cfg : Config n) : Prop :=
  cfg.protocol = .mesif → cfg.newForwarder = none ∨
    ¬ (cfg.directoryType = .limitedNoBroadcast ∧ cfg.maxHwSharers = 1 ∧ 2 ≤ n)

/-- State, sharers and owner agree. -/
structure Shape (cfg : Config n) (e : DirectoryEntry n) : Prop where
  uncached : e.dstate = .uncached ↔ ∀ x, e.sharers x = false
  owned : e.dstate.isOwned = true → ∃ x, e.owner = some x ∧ ∀ y, e.sharers y = true ↔ y = x
  room : cfg.directoryType = .limitedNoBroadcast → e.getNumSharers ≤ cfg.maxHwSharers

/-- The forwarder is a sharer. It is only certain to be set while the line is `SHARED`. -/
def ForwarderOk (cfg : Config n) (e : DirectoryEntry n) : Prop :=
  cfg.newForwarder = none ∨ (cfg.protocol = .mesif ∧ e.dstate = .shared) →
    ∀ y, e.forwarder = some y → e.sharers y = true

/-- The entry of the line is well formed. -/
def EntryInv (cfg : Config n) (s : State n V) : Prop :=
  ∀ e, s.entry = some e → Shape cfg e ∧ ForwarderOk cfg e

/-- The write-back requests on their way to a cache. -/
def State.wbReqs (s : State n V) (x : Fin n) : ℕ := (s.llc x).rx.countP isWbReq

/-- A handler keeps the entry well formed, and a `WB_REQ` is the last thing it sends, to a sharer. -/
def Safe (cfg : Config n) (s : State n V) (r : Outcome n V) : Prop :=
  EntryInv cfg r.1 ∧ ∀ x, s.wbReqs x < r.1.wbReqs x → r.2 = false ∧ r.1.sharer x = true

section Entries

variable {cfg : Config n} {e : DirectoryEntry n} {x : Fin n}

/-- A new entry is well formed. -/
theorem shape_createDirectoryEntry : Shape cfg cfg.createDirectoryEntry where
  uncached := by simp [Config.createDirectoryEntry]
  owned := by simp [Config.createDirectoryEntry, DirectoryState.isOwned]
  room := fun _ => (DirectoryEntry.getNumSharers_eq_zero.mpr fun _ => rfl).trans_le (Nat.zero_le _)

/-- The forwarder of a new entry is not looked at. -/
theorem forwarderOk_createDirectoryEntry : ForwarderOk cfg cfg.createDirectoryEntry := by
  intro h y hy
  rcases h with h | ⟨-, h⟩
  · simp [Config.createDirectoryEntry, h] at hy
  · simp [Config.createDirectoryEntry] at h

/-- The entry a handler works with. -/
theorem EntryInv.getDirectoryEntry {s : State n V} (h : EntryInv cfg s) :
    Shape cfg (s.getDirectoryEntry cfg) ∧ ForwarderOk cfg (s.getDirectoryEntry cfg) := by
  unfold State.getDirectoryEntry
  cases he : s.entry with
  | none => exact ⟨shape_createDirectoryEntry, forwarderOk_createDirectoryEntry⟩
  | some e => exact h e he

/-- A limited directory refuses a sharer only when it is full. -/
theorem lt_of_not_refused (ht : cfg.directoryType = .limitedNoBroadcast) (hroom : e.refusesSharer cfg = false) :
    e.getNumSharers < cfg.maxHwSharers := by
  simpa [DirectoryEntry.refusesSharer, Config.useMaxHwSharers, ht] using hroom

/-- A sharer is added, or it is refused. -/
theorem addSharer_ensures : Ensures (e.addSharer cfg x)
    (fun r => e.sharers x = false ∧ ((r = none ∧ e.refusesSharer cfg = true) ∨
      (r = some { e with sharers := Function.update e.sharers x true } ∧ e.refusesSharer cfg = false)))
    fun _ => True := by
  unfold DirectoryEntry.addSharer
  split
  · exact Ensures.error trivial
  · rename_i hx
    split
    · rename_i hr
      exact Ensures.ok ⟨by simpa using hx, .inl ⟨rfl, hr⟩⟩
    · rename_i hr
      exact Ensures.ok ⟨by simpa using hx, .inr ⟨rfl, by simpa using hr⟩⟩

/-- The first sharer is added only where there is room. -/
theorem addFirstSharer_room : Ensures (e.addFirstSharer cfg x)
    (fun e' => e' = { e with sharers := Function.update e.sharers x true } ∧ e.refusesSharer cfg = false)
    fun _ => True := by
  unfold DirectoryEntry.addFirstSharer
  refine addSharer_ensures.bind fun r hr => ?_
  obtain ⟨-, ⟨rfl, -⟩ | ⟨rfl, hroom⟩⟩ := hr
  · exact Ensures.error trivial
  · exact Ensures.ok ⟨rfl, hroom⟩

/-- The first sharer of a line becomes its owner. -/
theorem Shape.first (h : Shape cfg e) (hd : e.dstate = .uncached) (hroom : e.refusesSharer cfg = false)
    {d : DirectoryState} (hd' : d ≠ .uncached) :
    Shape cfg { e with dstate := d, sharers := Function.update e.sharers x true, owner := some x } where
  uncached := by
    refine ⟨fun hu => absurd hu hd', fun hall => ?_⟩
    have := hall x
    simp at this
  owned := by
    intro _
    refine ⟨x, rfl, fun y => ?_⟩
    by_cases hy : y = x
    · simp [hy]
    · simp [hy, h.uncached.mp hd y]
  room := fun ht =>
    (DirectoryEntry.getNumSharers_add (h.uncached.mp hd x) rfl).trans_le (lt_of_not_refused ht hroom)

/-- Another sharer of a `SHARED` line. -/
theorem shape_add (hd : e.dstate = .shared) (hx : e.sharers x = false) (hroom : e.refusesSharer cfg = false) :
    Shape cfg { e with sharers := Function.update e.sharers x true } where
  uncached := by
    refine ⟨fun hu => ?_, fun hall => ?_⟩
    · rw [hd] at hu
      cases hu
    · have := hall x
      simp at this
  owned := by simp [hd, DirectoryState.isOwned]
  room := fun ht => (DirectoryEntry.getNumSharers_add hx rfl).trans_le (lt_of_not_refused ht hroom)

/-- The forwarder stays a sharer when there is one more. -/
theorem ForwarderOk.add (h : ForwarderOk cfg e) :
    ForwarderOk cfg { e with sharers := Function.update e.sharers x true } := by
  intro hc y hy
  by_cases hyx : y = x
  · simp [hyx]
  · simpa [hyx] using h hc y hy

/-- A copy has left. Where there are other sharers the line is `SHARED`. -/
theorem Shape.remove (h : Shape cfg e) (hx : e.sharers x = true) {e' : DirectoryEntry n}
    (hs : e'.sharers = Function.update e.sharers x false) (hd : e'.dstate = e.dstate)
    (hst : (∃ y, e'.sharers y = true) → e.dstate = .shared) : Shape cfg (uncacheIfEmpty e') where
  uncached := by
    rw [uncacheIfEmpty_dstate, uncacheIfEmpty_sharers]
    refine ⟨fun hu => ?_, fun hall => by rw [if_pos hall]⟩
    split at hu
    · assumption
    · rw [hd, h.uncached] at hu
      rw [hu x] at hx
      cases hx
  owned := by
    rw [uncacheIfEmpty_dstate]
    split
    · simp [DirectoryState.isOwned]
    · rename_i hne
      have hex : ∃ y, e'.sharers y = true := by simpa using hne
      simp [hd, hst hex, DirectoryState.isOwned]
  room := fun ht => by
    rw [DirectoryEntry.getNumSharers_congr (uncacheIfEmpty_sharers e')]
    have hless := DirectoryEntry.getNumSharers_remove hx hs
    have hroom := h.room ht
    omega

@[simp] theorem uncacheIfEmpty_forwarder (e : DirectoryEntry n) :
    (uncacheIfEmpty e).forwarder = e.forwarder := by
  unfold uncacheIfEmpty
  split <;> rfl

/-- The list of the only sharer. -/
theorem getSharersList_eq_singleton (h : ∀ y, e.sharers y = true ↔ y = x) : e.getSharersList = [x] := by
  refine List.perm_singleton.mp ((List.perm_ext_iff_of_nodup ?_ (List.nodup_singleton x)).mpr fun y => ?_)
  · exact DirectoryEntry.nodup_getSharersList
  · rw [DirectoryEntry.mem_getSharersList, h, List.mem_singleton]

/-- The owner of a line gives its copy up: no sharer is left. -/
theorem Shape.shared_of_left (h : Shape cfg e) (hx : e.sharers x = true) {y : Fin n}
    (hy : Function.update e.sharers x false y = true) : e.dstate = .shared := by
  have hyx : y ≠ x := by
    intro heq
    simp [heq] at hy
  rw [Function.update_of_ne hyx] at hy
  cases hd : e.dstate with
  | shared => rfl
  | uncached =>
    rw [h.uncached.mp hd x] at hx
    cases hx
  | exclusive =>
    obtain ⟨o, -, ho⟩ := h.owned (by simp [hd, DirectoryState.isOwned])
    exact absurd (((ho y).mp hy).trans ((ho x).mp hx).symm) hyx
  | modified =>
    obtain ⟨o, -, ho⟩ := h.owned (by simp [hd, DirectoryState.isOwned])
    exact absurd (((ho y).mp hy).trans ((ho x).mp hx).symm) hyx

end Entries

section Sending

variable {cfg : Config n} {s s' : State n V} {x : Fin n}

/-- A message other than a `WB_REQ`. -/
theorem wbReqs_sendMsg {m : DirMsg V} (hm : m.isWbReq = false) (y : Fin n) :
    (s.sendMsg x m).wbReqs y = s.wbReqs y := by
  unfold wbReqs
  rw [sendMsg_llc]
  split
  · simp [hm]
  · rfl

/-- Messages none of which is a `WB_REQ`. -/
theorem wbReqs_sendMsgs {msgs : List (Fin n × DirMsg V)} (hm : ∀ q ∈ msgs, q.2.isWbReq = false)
    (y : Fin n) : (s.sendMsgs msgs).wbReqs y = s.wbReqs y := by
  induction msgs generalizing s with
  | nil => rfl
  | cons q msgs ih =>
    have hrest := ih (s := s.sendMsg q.1 q.2) fun p hp => hm p (List.mem_cons_of_mem _ hp)
    exact hrest.trans (wbReqs_sendMsg (hm q (List.mem_cons_self ..)) y)

/-- Nothing is asked to be written back. -/
theorem safe_of_le {completed : Bool} (h : EntryInv cfg s') (hle : ∀ y, s'.wbReqs y ≤ s.wbReqs y) :
    Safe cfg s (s', completed) :=
  ⟨h, fun y hy => absurd hy (Nat.not_lt.mpr (hle y))⟩

/-- What is safe after a state that asks for nothing more. -/
theorem Safe.trans {r : Outcome n V} (h : Safe cfg s' r) (hle : ∀ y, s'.wbReqs y ≤ s.wbReqs y) :
    Safe cfg s r :=
  ⟨h.1, fun y hy => h.2 y ((hle y).trans_lt hy)⟩

/-- A sharer is asked to write back. -/
theorem safe_wbReq (h : EntryInv cfg s) (hx : s.sharer x = true) :
    Safe cfg s (s.sendMsg x .wbReq, false) := by
  refine ⟨fun e he => h e he, fun y hy => ⟨rfl, ?_⟩⟩
  have hsame : (s.sendMsg x .wbReq).sharer = s.sharer := rfl
  rw [hsame]
  by_cases hyx : y = x
  · rw [hyx]
    exact hx
  · unfold wbReqs at hy
    rw [sendMsg_llc, if_neg hyx] at hy
    exact absurd hy (Nat.lt_irrefl _)

/-- A message other than a `WB_REQ` is sent. -/
theorem EntryInv.sendMsg {completed : Bool} {m : DirMsg V} (h : EntryInv cfg s) (hm : m.isWbReq = false) :
    Safe cfg s (s.sendMsg x m, completed) :=
  safe_of_le (fun e he => h e he) fun y => (wbReqs_sendMsg hm y).le

/-- A request is answered. -/
theorem EntryInv.sendReply {completed : Bool} {m : DirMsg V} (h : EntryInv cfg s) (hm : m.isWbReq = false) :
    Safe cfg s (s.sendReply x m, completed) :=
  safe_of_le (fun e he => h e he) fun y => (wbReqs_sendMsg (x := x) hm y).le

/-- Messages other than `WB_REQ`s are sent. -/
theorem EntryInv.sendMsgs {completed : Bool} {msgs : List (Fin n × DirMsg V)} (h : EntryInv cfg s)
    (hm : ∀ q ∈ msgs, q.2.isWbReq = false) : Safe cfg s (s.sendMsgs msgs, completed) := by
  refine safe_of_le (fun e he => h e ?_) fun y => (wbReqs_sendMsgs hm y).le
  rwa [sendMsgs_entry] at he

/-- All sharers are invalidated. -/
theorem EntryInv.invalidateSharers {completed : Bool} (h : EntryInv cfg s) (e : DirectoryEntry n) :
    Safe cfg s (s.invalidateSharers e, completed) := by
  refine h.sendMsgs fun q hq => ?_
  obtain ⟨y, -, rfl⟩ := List.mem_map.mp hq
  rfl

/-- An entry replaces the one of the line. -/
theorem entryInv_setEntry {e : DirectoryEntry n} (h : Shape cfg e) (hf : ForwarderOk cfg e) :
    EntryInv cfg (s.setEntry e) := by
  intro e' he'
  cases he'
  exact ⟨h, hf⟩

/-- The forwarder is the cache that gets the data. -/
theorem forwarderOk_receiver {e : DirectoryEntry n} (hx : e.sharers x = true) :
    ForwarderOk cfg { e with forwarder := some x } := by
  intro _ y hy
  cases hy
  exact hx

end Sending

section Handlers

variable {cfg : Config n} {env : Env} {s s' : State n V} {x : Fin n} {e : DirectoryEntry n}

/-- The data is looked for elsewhere, in the forwarder or in memory. -/
theorem fetchData_safe (he : s.entry = some e) (h : Shape cfg e) (hf : ForwarderOk cfg e) :
    Ensures (s.fetchData cfg e) (Safe cfg s) fun _ => True := by
  have hinv : ∀ q, EntryInv cfg { s with queue := q } := fun q e' he' => by
    rw [show e' = e from Option.some.inj (he'.symm.trans he)]
    exact ⟨h, hf⟩
  unfold fetchData
  split
  · exact Ensures.error trivial
  · split
    · rename_i y hy
      -- only MESIF forwards, and only a line that is `SHARED`
      unfold forwardCandidate at hy
      split at hy
      · rename_i hc
        have hsy := hf (.inr ⟨hc.1, hc.2.2⟩) y hy
        refine Ensures.ok ((safe_wbReq (hinv _) ?_).trans fun _ => Nat.le_refl _)
        simpa only [sharer, he] using hsy
      · cases hy
    · refine Ensures.ok (safe_of_le (fun e' he' => ?_) fun _ => Nat.le_refl _)
      exact hinv s.queue e' he'

/-- `retrieveDataAndSendToL2Cache`: data at hand makes the receiver the forwarder. -/
theorem retrieveData_safe {rep : Option V → DirMsg V} {buf : Option (Option V)} (h : Shape cfg e)
    (hx : e.sharers x = true) (hf : buf = none → ForwarderOk cfg e) (hrep : ∀ d, (rep d).isWbReq = false) :
    Ensures (s.retrieveDataAndSendToL2Cache cfg rep x buf e) (Safe cfg s) fun _ => True := by
  unfold retrieveDataAndSendToL2Cache
  split
  · have hset : EntryInv cfg (s.setEntry { e with forwarder := some x }) :=
      entryInv_setEntry ⟨h.uncached, h.owned, h.room⟩ (forwarderOk_receiver hx)
    exact Ensures.ok ((hset.sendReply (hrep _)).trans fun _ => Nat.le_refl _)
  · have hset : EntryInv cfg (s.setEntry e) := entryInv_setEntry h (hf rfl)
    split
    · exact Ensures.ok ((hset.sendReply (hrep _)).trans fun _ => Nat.le_refl _)
    · exact (fetchData_safe rfl h (hf rfl)).mono (fun r hr => hr.trans fun _ => Nat.le_refl _) fun _ => id

/-- A request for a line that is not cached: the requester becomes its owner. -/
theorem grantFirst_safe {rep : Option V → DirMsg V} {buf : Option (Option V)} {d : DirectoryState}
    (h : Shape cfg e) (hf : ForwarderOk cfg e) (hd : e.dstate = .uncached) (hd' : d ≠ .uncached)
    (hms : d = .shared → cfg.protocol = .msi) (hrep : ∀ d, (rep d).isWbReq = false) :
    Ensures (e.addFirstSharer cfg x >>= fun e => e.setOwner x >>= fun e =>
      s.retrieveDataAndSendToL2Cache cfg rep x buf { e with dstate := d }) (Safe cfg s) fun _ => True := by
  refine addFirstSharer_room.bind fun e₁ h₁ => ?_
  obtain ⟨rfl, hroom⟩ := h₁
  refine DirectoryEntry.setOwner_ensures.bind fun e₂ h₂ => ?_
  obtain ⟨-, rfl⟩ := h₂
  refine retrieveData_safe (h.first hd hroom hd') (by simp) (fun _ hc y hy => ?_) hrep
  rcases hc with hc | ⟨hc, hs⟩
  · -- nobody shares the line, so that nobody can be its forwarder
    have := hf (.inl hc) y hy
    rw [h.uncached.mp hd y] at this
    cases this
  · rw [hms hs] at hc
    cases hc

/-- The owner of the line is asked for it. -/
theorem askOwner_safe (h : EntryInv cfg s) :
    Ensures (e.getOwner >>= fun o => .ok (s.sendMsg o .flushReq, false)) (Safe cfg s) fun _ => True := by
  refine DirectoryEntry.getOwner_ensures.bind fun o _ => Ensures.ok (h.sendMsg rfl)

/-- `processExReqFromL2Cache`. -/
theorem processExReq_safe {req : ShmemReq n} {buf : Option (Option V)} (h : EntryInv cfg s) :
    Ensures (s.processExReqFromL2Cache cfg req buf) (Safe cfg s) fun _ => True := by
  obtain ⟨hshape, hf⟩ := h.getDirectoryEntry
  unfold processExReqFromL2Cache
  dsimp only
  split
  · split
    · exact Ensures.error trivial
    · exact askOwner_safe h
  · split
    · exact Ensures.error trivial
    · exact askOwner_safe h
  · split
    · exact Ensures.error trivial
    · exact Ensures.ok (h.invalidateSharers _)
  · rename_i hd
    exact grantFirst_safe hshape hf hd (by simp) (by simp) fun _ => rfl

/-- An `SH_REQ` for a line with an owner, who is asked to write it back. -/
theorem writeBackOwner_safe {buf : Option (Option V)} (h : EntryInv cfg s)
    (hd : (s.getDirectoryEntry cfg).dstate.isOwned = true) :
    Ensures (s.writeBackOwner buf (s.getDirectoryEntry cfg)) (Safe cfg s) fun _ => True := by
  unfold writeBackOwner
  split
  · exact Ensures.error trivial
  · refine DirectoryEntry.getOwner_ensures.bind fun o ho => Ensures.ok (safe_wbReq h ?_)
    obtain ⟨y, hy, hsh⟩ := h.getDirectoryEntry.1.owned hd
    rw [← getDirectoryEntry_sharers cfg s, hsh]
    rw [ho] at hy
    exact Option.some.inj hy

/-- A sharer is asked to make room. -/
theorem makeRoom_safe (h : EntryInv cfg s) :
    Ensures (s.makeRoom env e) (Safe cfg s) fun _ => True := by
  unfold makeRoom
  split
  · exact Ensures.error trivial
  · rename_i req rest hq
    refine DirectoryEntry.getOneSharer_ensures.bind fun y _ => Ensures.ok ?_
    have hq' : EntryInv cfg { s with queue := { req with victim := some y } :: rest } := fun e he => h e he
    exact (hq'.sendMsg rfl).trans fun _ => Nat.le_refl _

/-- An `SH_REQ` for a line that is `SHARED`. The forwarder need not be set if there is data at hand and
the requester is not refused. -/
theorem processShReq_shared {req : ShmemReq n} {buf : Option (Option V)}
    (hd : (s.getDirectoryEntry cfg).dstate = .shared) (hshape : Shape cfg (s.getDirectoryEntry cfg))
    (hf : EntryInv cfg s ∨ (buf ≠ none ∧ ((s.getDirectoryEntry cfg).sharers req.requester = false →
      (s.getDirectoryEntry cfg).refusesSharer cfg = false))) :
    Ensures (s.processShReqFromL2Cache cfg env req buf) (Safe cfg s) fun _ => True := by
  have hnone : buf = none → ForwarderOk cfg (s.getDirectoryEntry cfg) := by
    intro hbuf
    rcases hf with hf | ⟨hne, -⟩
    · exact hf.getDirectoryEntry.2
    · exact absurd hbuf hne
  unfold processShReqFromL2Cache
  dsimp only
  rw [hd]
  dsimp only
  split
  · rename_i hx
    exact retrieveData_safe hshape hx hnone fun _ => rfl
  · rename_i hx
    refine addSharer_ensures.bind fun r hr => ?_
    obtain ⟨hx, ⟨rfl, href⟩ | ⟨rfl, hroom⟩⟩ := hr
    · rcases hf with hf | ⟨-, hroom⟩
      · exact makeRoom_safe hf
      · rw [hroom hx] at href
        cases href
    · exact retrieveData_safe (shape_add hd hx hroom) (by simp) (fun hbuf => (hnone hbuf).add) fun _ => rfl

/-- `processShReqFromL2Cache`. -/
theorem processShReq_safe {req : ShmemReq n} {buf : Option (Option V)} (h : EntryInv cfg s) :
    Ensures (s.processShReqFromL2Cache cfg env req buf) (Safe cfg s) fun _ => True := by
  obtain ⟨hshape, hf⟩ := h.getDirectoryEntry
  cases hd : (s.getDirectoryEntry cfg).dstate with
  | shared => exact processShReq_shared hd hshape (.inl h)
  | exclusive =>
    unfold processShReqFromL2Cache
    simp only [hd]
    split
    · exact Ensures.error trivial
    · exact writeBackOwner_safe h (by rw [hd]; rfl)
  | modified =>
    unfold processShReqFromL2Cache
    simp only [hd]
    exact writeBackOwner_safe h (by rw [hd]; rfl)
  | uncached =>
    unfold processShReqFromL2Cache
    simp only [hd]
    by_cases hp : cfg.protocol = .msi
    · simp only [hp, if_true]
      exact grantFirst_safe hshape hf hd (by simp) (fun _ => hp) fun _ => rfl
    · simp only [hp, if_false]
      exact grantFirst_safe hshape hf hd (by simp) (by simp) fun _ => rfl

/-- An upgrade of a line with an owner. -/
theorem upgradeOwned_safe {r : Fin n} (h : EntryInv cfg s) (hshape : Shape cfg e) (hf : ForwarderOk cfg e)
    (hd : e.dstate.isOwned = true) :
    Ensures (s.upgradeOwned r e) (Safe cfg s) fun _ => True := by
  unfold upgradeOwned
  split
  · exact Ensures.error trivial
  · split
    · split
      · have hset : EntryInv cfg (s.setEntry { e with dstate := .modified }) := by
          obtain ⟨y, hy, hsh⟩ := hshape.owned hd
          refine entryInv_setEntry ⟨⟨by simp, fun hall => ?_⟩, fun _ => ⟨y, hy, hsh⟩, hshape.room⟩ ?_
          · have hyy := (hsh y).mpr rfl
            rw [show e.sharers y = false from hall y] at hyy
            cases hyy
          · intro hc z hz
            rcases hc with hc | ⟨-, hc⟩
            · exact hf (.inl hc) z hz
            · cases hc
        exact Ensures.ok ((hset.sendReply rfl).trans fun _ => Nat.le_refl _)
      · exact Ensures.error trivial
    · exact askOwner_safe h

/-- An upgrade of a line that is `SHARED`. -/
theorem upgradeShared_safe {r : Fin n} (h : EntryInv cfg s) (hshape : Shape cfg e) (hf : ForwarderOk cfg e) :
    Ensures (s.upgradeShared r e) (Safe cfg s) fun _ => True := by
  unfold upgradeShared
  split
  · rename_i hl
    refine DirectoryEntry.setOwner_ensures.bind fun e' he' => ?_
    obtain ⟨hr, rfl⟩ := he'
    have hset : EntryInv cfg (s.setEntry { e with owner := some r, dstate := .modified }) := by
      refine entryInv_setEntry ⟨⟨by simp, fun hall => ?_⟩, fun _ => ⟨r, rfl, fun y => ?_⟩, hshape.room⟩ ?_
      · have := hall r
        simp [hr] at this
      · rw [← DirectoryEntry.mem_getSharersList (e := e), hl, List.mem_singleton]
      · intro hc z hz
        rcases hc with hc | ⟨-, hc⟩
        · exact hf (.inl hc) z hz
        · cases hc
    exact Ensures.ok ((hset.sendReply rfl).trans fun _ => Nat.le_refl _)
  · refine Ensures.ok (h.sendMsgs fun q hq => ?_)
    obtain ⟨p, -, rfl⟩ := List.mem_map.mp hq
    dsimp only
    split <;> rfl

/-- `processUpgradeReqFromL2Cache`. -/
theorem processUpgradeReq_safe {req : ShmemReq n} {buf : Option (Option V)} (h : EntryInv cfg s) :
    Ensures (s.processUpgradeReqFromL2Cache cfg req buf) (Safe cfg s) fun _ => True := by
  obtain ⟨hshape, hf⟩ := h.getDirectoryEntry
  unfold processUpgradeReqFromL2Cache
  dsimp only
  split
  · rename_i hd
    exact upgradeOwned_safe h hshape hf (by rw [hd]; rfl)
  · rename_i hd
    exact upgradeOwned_safe h hshape hf (by rw [hd]; rfl)
  · exact upgradeShared_safe h hshape hf
  · rename_i hd
    split
    · exact Ensures.error trivial
    · exact grantFirst_safe hshape hf hd (by simp) (by simp) fun _ => rfl

/-- `processNullifyReq`. -/
theorem processNullifyReq_safe (h : EntryInv cfg s) :
    Ensures s.processNullifyReq (Safe cfg s) fun _ => True := by
  unfold processNullifyReq
  split
  · exact Ensures.error trivial
  · split
    · exact askOwner_safe h
    · exact askOwner_safe h
    · exact Ensures.ok (h.invalidateSharers _)
    · refine Ensures.ok (safe_of_le (fun e he => ?_) fun _ => Nat.le_refl _)
      cases he

/-- The first work on a request. -/
theorem processReq_safe {req : ShmemReq n} (h : EntryInv cfg s) :
    Ensures (s.processReq cfg env req) (Safe cfg s) fun _ => True := by
  unfold processReq
  split
  · exact processExReq_safe h
  · exact processShReq_safe h
  · exact processUpgradeReq_safe h
  · exact Ensures.error trivial

/-- The state after a step: the entry is well formed, and only a sharer has been asked to write back. -/
def SafeStep (cfg : Config n) (s s' : State n V) : Prop :=
  EntryInv cfg s' ∧ ∀ x, s.wbReqs x < s'.wbReqs x → s'.sharer x = true

/-- `processNextReqFromL2Cache`, where nothing has been asked for since `s`. -/
theorem processNextReq_safe (k : ℕ) (h : EntryInv cfg s') (hle : ∀ y, s'.wbReqs y ≤ s.wbReqs y) :
    Ensures (processNextReqFromL2Cache cfg env k s') (SafeStep cfg s) fun _ => True := by
  induction k generalizing s' with
  | zero => exact Ensures.error trivial
  | succ k ih =>
    unfold processNextReqFromL2Cache
    split
    · exact Ensures.error trivial
    · exact Ensures.ok ⟨fun e he => h e he, fun y hy => absurd hy (Nat.not_lt.mpr (hle y))⟩
    · rename_i req rest _
      have hq : EntryInv cfg { s' with queue := req :: rest } := fun e he => h e he
      refine (processReq_safe hq).bind fun r hr => ?_
      have hr' : Safe cfg s r := hr.trans hle
      obtain ⟨t, completed⟩ := r
      dsimp only
      cases completed with
      | true =>
        refine ih hr'.1 fun y => Nat.not_lt.mp fun hlt => ?_
        cases (hr'.2 y hlt).1
      | false => exact Ensures.ok ⟨hr'.1, fun y hy => (hr'.2 y hy).2⟩

/-- The end of a handler. -/
theorem finish_safe {r : Outcome n V} (h : Safe cfg s r) :
    Ensures (finish cfg env r) (SafeStep cfg s) fun _ => True := by
  obtain ⟨t, completed⟩ := r
  unfold finish
  cases completed with
  | true =>
    refine processNextReq_safe _ h.1 fun y => Nat.not_lt.mp fun hlt => ?_
    cases (h.2 y hlt).1
  | false => exact Ensures.ok ⟨h.1, fun y hy => (h.2 y hy).2⟩

/-- A request arrives. -/
theorem enqueueReq_safe {k : ReqType} (h : EntryInv cfg s) :
    Ensures (s.enqueueReq cfg env k x) (Safe cfg s) fun _ => True := by
  unfold enqueueReq
  dsimp only
  have hq : EntryInv cfg { s with
      queue := s.queue ++ [ShmemReq.new k x], arrived := s.arrived ++ [x] } := fun e he => h e he
  split
  · exact (processReq_safe hq).mono (fun r hr => hr.trans fun _ => Nat.le_refl _) fun _ => id
  · exact Ensures.ok (safe_of_le hq fun _ => Nat.le_refl _)

/-- The request at the front goes on after an `INV_REP`. -/
theorem resumeAfterInv_safe (h : EntryInv cfg s) (he : s.entry = some e) :
    Ensures (s.resumeAfterInv cfg env x e) (Safe cfg s) fun _ => True := by
  have hsame : ∀ b, Safe cfg s (s, b) := fun b => safe_of_le h fun _ => Nat.le_refl _
  unfold resumeAfterInv
  split
  · exact Ensures.ok (hsame _)
  · split
    · split
      · exact processExReq_safe h
      · exact Ensures.ok (hsame _)
    · split
      · split
        · exact processUpgradeReq_safe h
        · exact Ensures.ok (hsame _)
      · split
        · rename_i hzero
          -- without sharers the line is `UNCACHED` already
          have hd := (h e he).1.uncached.mpr (DirectoryEntry.getNumSharers_eq_zero.mp hzero)
          have heq : ({ e with dstate := .uncached } : DirectoryEntry n) = e := by rw [← hd]
          rw [heq]
          have hset : EntryInv cfg (s.setEntry e) := entryInv_setEntry (h e he).1 (h e he).2
          exact (processUpgradeReq_safe hset).mono (fun r hr => hr.trans fun _ => Nat.le_refl _) fun _ => id
        · exact Ensures.ok (hsame _)
    · split
      · exact Ensures.ok (hsame _)
      · split
        · exact Ensures.ok (hsame _)
        · exact processShReq_safe h
    · split
      · exact processNullifyReq_safe h
      · exact Ensures.ok (hsame _)

/-- A forwarder that leaves is no forwarder any more. -/
theorem ForwarderOk.remove (h : ForwarderOk cfg e) : ForwarderOk cfg (uncacheIfEmpty
    { e with sharers := Function.update e.sharers x false
             forwarder := if e.forwarder = some x then none else e.forwarder }) := by
  intro hc y hy
  rw [uncacheIfEmpty_forwarder] at hy
  rw [uncacheIfEmpty_sharers]
  by_cases hx : e.forwarder = some x
  · simp [hx] at hy
  · simp only [hx, if_false] at hy
    have hyx : y ≠ x := fun heq => hx (heq ▸ hy)
    dsimp only
    rw [Function.update_of_ne hyx]
    refine h (hc.imp_right fun hc => ⟨hc.1, ?_⟩) y hy
    have hd := hc.2
    rw [uncacheIfEmpty_dstate] at hd
    by_cases hall : ∀ z, Function.update e.sharers x false z = false
    · simp [hall] at hd
    · simpa [hall] using hd

/-- The entry after an `INV_REP`. -/
theorem EntryInv.remove (h : EntryInv cfg s) (he : s.entry = some e) (hx : e.sharers x = true) :
    EntryInv cfg (s.setEntry (uncacheIfEmpty
      { e with sharers := Function.update e.sharers x false
               forwarder := if e.forwarder = some x then none else e.forwarder })) := by
  obtain ⟨hshape, hf⟩ := h e he
  have hleft : ∀ e' : DirectoryEntry n, e'.sharers = Function.update e.sharers x false →
      e'.dstate = e.dstate → Shape cfg (uncacheIfEmpty e') := fun e' hs hd =>
    hshape.remove hx hs hd fun ⟨y, hy⟩ => hshape.shared_of_left hx (hs ▸ hy)
  exact entryInv_setEntry (hleft _ rfl rfl) hf.remove

/-- Where a sharer has left there is room for another one. -/
theorem Shape.not_refused_left (h : Shape cfg e) (hx : e.sharers x = true) {e' : DirectoryEntry n}
    (hs : e'.sharers = Function.update e.sharers x false) : e'.refusesSharer cfg = false := by
  have hless := DirectoryEntry.getNumSharers_remove hx hs
  unfold DirectoryEntry.refusesSharer Config.useMaxHwSharers
  cases ht : cfg.directoryType with
  | limitless => rfl
  | limitedNoBroadcast =>
    have hlt : e'.getNumSharers < cfg.maxHwSharers := Nat.lt_of_succ_le (hless.trans_le (h.room ht))
    exact decide_eq_false (Nat.not_le.mpr hlt)
  | fullMap =>
    have hle : e.getNumSharers ≤ n := by
      rw [DirectoryEntry.getNumSharers, DirectoryEntry.getSharersList]
      exact (List.length_filter_le _ _).trans (List.length_finRange (n := n)).le
    exact decide_eq_false (Nat.not_le.mpr (Nat.lt_of_succ_le (hless.trans_le hle)))

/-- `processInvRepFromL2Cache`. -/
theorem processInvRep_safe (h : EntryInv cfg s) :
    Ensures (s.processInvRepFromL2Cache cfg env x) (Safe cfg s) fun _ => True := by
  unfold processInvRepFromL2Cache
  split
  · exact Ensures.error trivial
  · rename_i e he
    split
    · refine removeSharer_ensures.bind fun e' he' => ?_
      obtain ⟨hx, rfl⟩ := he'
      exact (resumeAfterInv_safe (h.remove he hx) rfl).mono (fun r hr => hr.trans fun _ => Nat.le_refl _) fun _ => id
    · exact Ensures.error trivial

/-- The memory is written. -/
theorem EntryInv.sendDataToDram (h : EntryInv cfg s) (env : Env) (d : Option V) :
    EntryInv cfg (s.sendDataToDram cfg env d) ∧
      ∀ y, (s.sendDataToDram cfg env d).wbReqs y = s.wbReqs y := by
  obtain ⟨he, -, hl, -⟩ := sendDataToDram_same cfg env d s
  refine ⟨fun e hse => h e (he ▸ hse), fun y => ?_⟩
  unfold wbReqs
  rw [hl]

/-- The request at the front goes on with the data of a `FLUSH_REP`. -/
theorem resumeAfterFlush_safe {d : Option V} (h : EntryInv cfg s) :
    Ensures (s.resumeAfterFlush cfg env d e) (Safe cfg s) fun _ => True := by
  obtain ⟨hdram, hsame⟩ := h.sendDataToDram env d
  unfold resumeAfterFlush
  split
  · exact Ensures.ok (safe_of_le hdram fun y => (hsame y).le)
  · split
    · exact processExReq_safe h
    · exact (processShReq_safe hdram).mono (fun r hr => hr.trans fun y => (hsame y).le) fun _ => id
    · split
      · exact processUpgradeReq_safe h
      · exact Ensures.ok (safe_of_le (fun e he => h e he) fun _ => Nat.le_refl _)
    · exact (processNullifyReq_safe hdram).mono (fun r hr => hr.trans fun y => (hsame y).le) fun _ => id

/-- `processFlushRepFromL2Cache`. -/
theorem processFlushRep_safe {d : Option V} (h : EntryInv cfg s) :
    Ensures (s.processFlushRepFromL2Cache cfg env x d) (Safe cfg s) fun _ => True := by
  unfold processFlushRepFromL2Cache
  split
  · exact Ensures.error trivial
  · rename_i e he
    split
    · refine removeSharer_ensures.bind fun e' he' => ?_
      obtain ⟨hx, rfl⟩ := he'
      dsimp only
      split
      · exact Ensures.error trivial
      · have hshape := (h e he).1
        have hinv : EntryInv cfg (s.setEntry (uncacheIfEmpty
            { e with sharers := Function.update e.sharers x false, owner := none, forwarder := none })) := by
          refine entryInv_setEntry (hshape.remove hx rfl rfl fun ⟨y, hy⟩ => hshape.shared_of_left hx hy) ?_
          intro _ y hy
          simp at hy
        exact (resumeAfterFlush_safe hinv).mono (fun r hr => hr.trans fun _ => Nat.le_refl _) fun _ => id
    · exact Ensures.error trivial

/-- The second sharer of a line is refused only by a directory with room for one. -/
theorem Shape.not_refused (h : Shape cfg e) (hd : e.dstate.isOwned = true) (hx : e.sharers x = true)
    {r : Fin n} (hr : e.sharers r = false)
    (hroom : ¬ (cfg.directoryType = .limitedNoBroadcast ∧ cfg.maxHwSharers = 1 ∧ 2 ≤ n)) :
    e.refusesSharer cfg = false := by
  obtain ⟨o, -, ho⟩ := h.owned hd
  have hxo : x = o := (ho x).mp hx
  have hlist : e.getSharersList = [x] := getSharersList_eq_singleton (hxo ▸ ho)
  have hrx : r ≠ x := by
    intro heq
    rw [heq, hx] at hr
    cases hr
  have hn : 2 ≤ n := by
    by_contra hlt
    exact hrx (Fin.ext (by omega))
  unfold DirectoryEntry.refusesSharer DirectoryEntry.getNumSharers Config.useMaxHwSharers
  rw [hlist]
  cases ht : cfg.directoryType with
  | fullMap =>
    simp only [List.length_singleton, decide_eq_false_iff_not]
    omega
  | limitless => rfl
  | limitedNoBroadcast =>
    have hne : cfg.maxHwSharers ≠ 0 := by
      have hle := h.room ht
      rw [DirectoryEntry.getNumSharers, hlist, List.length_singleton] at hle
      omega
    have hne' : cfg.maxHwSharers ≠ 1 := fun hm => hroom ⟨ht, hm, hn⟩
    simp only [List.length_singleton, decide_eq_false_iff_not]
    omega

/-- `processWbRepFromL2Cache`: the line is `SHARED` from here on. -/
theorem processWbRep_safe {d : Option V} (hcfg : cfg.SetsForwarder) (h : EntryInv cfg s) :
    Ensures (s.processWbRepFromL2Cache cfg env x d) (Safe cfg s) fun _ => True := by
  unfold processWbRepFromL2Cache
  split
  · exact Ensures.error trivial
  · rename_i e he
    obtain ⟨hshape, hf⟩ := h e he
    split
    · rename_i hx
      dsimp only
      split
      · exact Ensures.error trivial
      · rename_i req rest hq
        split
        · generalize hs' : s.setEntry { e with owner := none, dstate := .shared } = s'
          have hget : s'.getDirectoryEntry cfg = { e with owner := none, dstate := .shared } := by
            rw [← hs']
            rfl
          have hle : ∀ y, s'.wbReqs y ≤ s.wbReqs y := fun y => by
            rw [← hs']
            exact Nat.le_refl _
          have hshape' : Shape cfg { e with owner := none, dstate := .shared } := by
            refine ⟨⟨by simp, fun hall => ?_⟩, by simp [DirectoryState.isOwned], hshape.room⟩
            rw [show e.sharers x = false from hall x] at hx
            cases hx
          refine (processShReq_shared (s := s') (by rw [hget]) (by rw [hget]; exact hshape') ?_).mono
            (fun r hr => hr.trans hle) fun _ => id
          rw [hget]
          by_cases hold : cfg.newForwarder = none ∨ (cfg.protocol = .mesif → e.dstate = .shared)
          · -- the forwarder has been looked after before, or nobody asks for it
            refine .inl fun e' he' => ?_
            rw [← hs'] at he'
            cases he'
            refine ⟨hshape', fun hc y hy => ?_⟩
            rcases hc with hc | ⟨hm, -⟩
            · exact hf (.inl hc) y hy
            · rcases hold with hold | hold
              · exact hf (.inl hold) y hy
              · exact hf (.inr ⟨hm, hold hm⟩) y hy
          · rw [not_or] at hold
            obtain ⟨hnew, hne⟩ := hold
            have hmesif : cfg.protocol = .mesif := by
              by_contra hp
              exact hne fun hp' => absurd hp' hp
            have hroom := (hcfg hmesif).resolve_left hnew
            have hown : e.dstate.isOwned = true := by
              cases hd : e.dstate with
              | shared => exact absurd (fun _ => hd) hne
              | uncached =>
                rw [hshape.uncached.mp hd x] at hx
                cases hx
              | exclusive => rfl
              | modified => rfl
            exact .inr ⟨by simp, fun hr => hshape.not_refused hown hx hr hroom⟩
        · exact Ensures.error trivial
    · exact Ensures.error trivial

/-- `handleMsgFromL2Cache`. -/
theorem handleMsg_safe {m : LlcMsg V} (hcfg : cfg.SetsForwarder) (h : EntryInv cfg s) :
    Ensures (s.handleMsgFromL2Cache cfg env x m) (Safe cfg s) fun _ => True := by
  unfold handleMsgFromL2Cache
  cases m with
  | exReq => exact enqueueReq_safe h
  | shReq => exact enqueueReq_safe h
  | upgradeReq => exact enqueueReq_safe h
  | invRep => exact processInvRep_safe h
  | flushRep d => exact processFlushRep_safe h
  | wbRep d => exact processWbRep_safe hcfg h

/-- `processDRAMReply`. -/
theorem processDRAMReply_safe {d : Option V} (h : EntryInv cfg s) :
    Ensures (s.processDRAMReply cfg env d) (Safe cfg s) fun _ => True := by
  unfold processDRAMReply
  split
  · exact Ensures.error trivial
  · exact Ensures.error trivial
  · rename_i req _ e _ he
    have hrep : Ensures (dramReplyType req.msgType e.dstate : Except Fault (Option V → DirMsg V))
        (fun rep => ∀ d, (rep d).isWbReq = false) fun _ => True := by
      cases req.msgType <;> cases e.dstate <;> simp [dramReplyType, Ensures, isWbReq]
    refine hrep.bind fun rep hr => Ensures.ok ?_
    obtain ⟨hme, -, hml, -⟩ := sendDataToNUCA_same cfg env d (s.sendReply req.requester (rep d))
    refine safe_of_le (fun e' he' => h e' (hme ▸ he')) fun y => ?_
    unfold wbReqs
    rw [hml]
    exact (wbReqs_sendMsg (s := s) (x := req.requester) (hr d) y).le

end Handlers

/-- Waking the waiters sends messages to the directory only. -/
theorem Llc.wakeWaiters_rx (ws : List (Access V)) (l : Llc V) (last : V) :
    (Llc.wakeWaiters ws l last).1.rx = l.rx := by
  induction ws generalizing l last with
  | nil => rfl
  | cons a ws ih =>
    cases a with
    | read => exact ih l last
    | write v =>
      unfold Llc.wakeWaiters
      split
      · rfl
      · exact ih _ v

/-- What a last-level cache does with a message leaves the others alone. -/
theorem Llc.handleMsg_rx (m : DirMsg V) (l : Llc V) (last : V) :
    Ensures (l.handleMsg m last) (fun r => r.1.rx = l.rx) fun _ => True := by
  have hreply : ∀ process : Llc V → Except Fault (Llc V),
      Ensures (process l) (fun l' => l'.rx = l.rx) (fun _ => True) →
      Ensures (l.handleReply process last) (fun r => r.1.rx = l.rx) fun _ => True := by
    intro process hp
    unfold Llc.handleReply
    split
    · exact Ensures.error trivial
    · cases hl : process l with
      | error f => exact Ensures.error trivial
      | ok l' =>
        rw [hl] at hp
        exact (Llc.wakeWaiters_rx l'.waiters l' last).trans hp
  unfold Llc.handleMsg
  cases m with
  | shRep d =>
    refine hreply _ ?_
    unfold Llc.insertCacheBlock
    split
    · exact Ensures.ok rfl
    · exact Ensures.error trivial
  | exRep d =>
    refine hreply _ ?_
    unfold Llc.insertCacheBlock
    split
    · exact Ensures.ok rfl
    · exact Ensures.error trivial
  | upgradeRep =>
    refine hreply _ ?_
    unfold Llc.processUpgradeRep
    cases l.cstate <;> simp [Ensures]
  | invReq =>
    unfold Llc.processInvReq
    cases l.cstate <;> simp [Ensures, Except.map]
  | flushReq =>
    unfold Llc.processFlushReq
    cases l.cstate <;> exact Ensures.ok rfl
  | wbReq =>
    unfold Llc.processWbReq
    cases l.cstate <;> exact Ensures.ok rfl

/-- An access or its first message leaves the messages to the cache alone. -/
theorem Llc.access_rx (a : Access V) (l : Llc V) (last : V) :
    Ensures (l.access a last) (fun r => r.1.rx = l.rx) fun _ => True := by
  have hinit : Ensures ((l.initiateDirectoryAccess a).map fun l' => (l', last))
      (fun r => r.1.rx = l.rx) fun _ => True := by
    unfold Llc.initiateDirectoryAccess Llc.processExReqToDirectory
    dsimp only
    split
    · cases a with
      | read => exact Ensures.ok rfl
      | write v =>
        dsimp only
        split
        · exact Ensures.ok rfl
        · split
          · exact Ensures.ok rfl
          · exact Ensures.error trivial
    · exact Ensures.ok rfl
  unfold Llc.access
  split
  · exact Ensures.ok rfl
  · exact Ensures.ok rfl
  · exact Ensures.ok rfl
  · exact Ensures.ok rfl
  · exact Ensures.ok rfl
  · exact hinit

/-- So does an eviction. -/
theorem Llc.evict_rx (l : Llc V) : Ensures l.evict (fun l' => l'.rx = l.rx) fun _ => True := by
  unfold Llc.evict
  split
  · exact Ensures.ok rfl
  · exact Ensures.ok rfl
  · exact Ensures.ok rfl
  · exact Ensures.ok rfl
  · exact Ensures.error trivial

section Run

variable {cfg : Config n} {s : State n V} {x : Fin n}

/-- What a last-level cache does asks nobody to write back. -/
theorem EntryInv.setLlc (h : EntryInv cfg s) {r : Llc V × V}
    (hr : r.1.rx.countP isWbReq ≤ (s.llc x).rx.countP isWbReq) : SafeStep cfg s (s.setLlc x r) := by
  refine ⟨fun e he => h e he, fun y hy => absurd hy (Nat.not_lt.mpr ?_)⟩
  unfold wbReqs State.setLlc
  by_cases hyx : y = x
  · subst hyx
    simpa using hr
  · simp [hyx]

/-- Every step keeps the entry well formed and asks only sharers to write back. -/
theorem safeStep (hcfg : cfg.SetsForwarder) (h : EntryInv cfg s) (ev : Event n V) :
    Ensures (step cfg s ev) (SafeStep cfg s) fun _ => True := by
  have hsame : ∀ s' : State n V, s'.entry = s.entry → s'.llc = s.llc → SafeStep cfg s s' := by
    intro s' he hl
    refine ⟨fun e hse => h e (he ▸ hse), fun y hy => ?_⟩
    unfold wbReqs at hy
    rw [hl] at hy
    exact absurd hy (Nat.lt_irrefl _)
  cases ev with
  | access x a =>
    dsimp only [step]
    have hrx := (s.llc x).access_rx a s.lastWrite
    cases hr : (s.llc x).access a s.lastWrite with
    | error f => exact Ensures.error trivial
    | ok r => exact Ensures.ok (h.setLlc (by rw [hrx.of_ok hr]))
  | evict x =>
    dsimp only [step]
    have hrx := (s.llc x).evict_rx
    cases hr : (s.llc x).evict with
    | error f => exact Ensures.error trivial
    | ok l => exact Ensures.ok (h.setLlc (by rw [hrx.of_ok hr]))
  | toLlc x =>
    dsimp only [step]
    split
    · exact hsame s rfl rfl
    · rename_i m rx hrx
      have hkeep := ({ s.llc x with rx := rx } : Llc V).handleMsg_rx m s.lastWrite
      cases hr : ({ s.llc x with rx := rx } : Llc V).handleMsg m s.lastWrite with
      | error f => exact Ensures.error trivial
      | ok r =>
        refine Ensures.ok (h.setLlc ?_)
        rw [hkeep.of_ok hr, hrx]
        exact (List.sublist_cons_self m rx).countP_le
  | toDir x env =>
    dsimp only [step]
    split
    · exact hsame s rfl rfl
    · rename_i m tx htx
      have hpop : EntryInv cfg (s.popTx x tx) := fun e he => h e he
      have hle : ∀ y, (s.popTx x tx).wbReqs y ≤ s.wbReqs y := by
        intro y
        unfold wbReqs popTx
        by_cases hyx : y = x
        · subst hyx
          simp
        · simp [hyx]
      exact (handleMsg_safe hcfg hpop).bind fun r hr => finish_safe (hr.trans hle)
  | dram =>
    dsimp only [step]
    split
    · exact hsame s rfl rfl
    · rename_i m rest _
      refine Ensures.ok (hsame _ ?_ ?_) <;> cases m <;> rfl
  | fromDram env =>
    dsimp only [step]
    split
    · exact hsame s rfl rfl
    · rename_i d rest _
      have hpop : EntryInv cfg { s with fromDram := rest } := fun e he => h e he
      exact (processDRAMReply_safe hpop).bind fun r hr => finish_safe (hr.trans fun _ => Nat.le_refl _)
  | nullify x env =>
    dsimp only [step]
    split
    · have hq : EntryInv cfg { s with queue := s.queue ++ [ShmemReq.new .nullifyReq x] } :=
        fun e he => h e he
      exact (processNullifyReq_safe hq).bind fun r hr => finish_safe (hr.trans fun _ => Nat.le_refl _)
    · exact hsame s rfl rfl
  | evictNuca =>
    refine Ensures.ok (hsame _ ?_ ?_) <;> unfold State.evictNuca <;> split <;> rfl

/-- The entry is well formed in every reachable state. -/
theorem entryInv_of_reachable {v : V} (hcfg : cfg.SetsForwarder)
    (h : (machine n V cfg).Reachable (initial v) s) : EntryInv cfg s := by
  refine h.invariant (fun e he => ?_) fun t ev t' ht hstep => ((safeStep hcfg ht ev).of_ok hstep).1
  cases he

end Run

/-- **The directory entry.** Where the forwarder is set before it is read, in every state that the protocol
can reach an entry is `UNCACHED` exactly if it has no sharers, the owner of an `EXCLUSIVE` or `MODIFIED`
entry is its only sharer and the forwarder of a `SHARED` one is a sharer, if there is one; and the
next step sends a `WB_REQ` to a sharer only. -/
theorem directoryEntry_ok (cfg : Config n) (hcfg : cfg.SetsForwarder) (v : V) (s : State n V)
    (h : (machine n V cfg).Reachable (initial v) s) :
    (∀ e, s.entry = some e →
      (e.dstate = .uncached ↔ e.getSharersList = []) ∧
      (e.dstate = .modified ∨ e.dstate = .exclusive → ∃ x, e.owner = some x ∧ e.getSharersList = [x]) ∧
      (cfg.protocol = .mesif → e.dstate = .shared → ∀ y, e.forwarder = some y → y ∈ e.getSharersList)) ∧
    ∀ ev s', (machine n V cfg).step s ev = .ok s' → ∀ x, s.wbReqs x < s'.wbReqs x →
      ∃ e, s'.entry = some e ∧ x ∈ e.getSharersList := by
  have hinv := entryInv_of_reachable hcfg h
  refine ⟨fun e he => ?_, fun ev s' hstep x hx => ?_⟩
  · obtain ⟨hshape, hf⟩ := hinv e he
    refine ⟨?_, fun hd => ?_, fun hm hd y hy => ?_⟩
    · rw [hshape.uncached, ← DirectoryEntry.getNumSharers_eq_zero, DirectoryEntry.getNumSharers,
        List.length_eq_zero_iff]
    · have hown : e.dstate.isOwned = true := by rcases hd with hd | hd <;> rw [hd] <;> rfl
      obtain ⟨x, hx, hsh⟩ := hshape.owned hown
      exact ⟨x, hx, getSharersList_eq_singleton hsh⟩
    · exact DirectoryEntry.mem_getSharersList.mpr (hf (.inr ⟨hm, hd⟩) y hy)
  · have hsx := ((safeStep hcfg hinv ev).of_ok hstep).2 x hx
    unfold sharer at hsx
    split at hsx
    · rename_i e he
      exact ⟨e, he, DirectoryEntry.mem_getSharersList.mpr hsx⟩
    · cases hsx

/-- One cache reads, then another one. The first one has written the line back. -/
def secondReader : List (Event 2 ℕ) :=
  let first : Fin 2 := ⟨0, Nat.zero_lt_two⟩
  let second : Fin 2 := ⟨1, Nat.one_lt_two⟩
  [.access first .read, .toDir first ⟨0, false⟩, .dram, .fromDram ⟨0, false⟩, .toLlc first,
   .access second .read, .toDir second ⟨0, false⟩, .toLlc first, .toDir first ⟨0, false⟩]

theorem directoryEntry_secondReader :
    (((machine 2 ℕ ⟨.mesif, .fullMap, 2, false, some 0⟩).final (initial 0) secondReader).entry.map
      fun e => (e.dstate, e.forwarder)) = some (.shared, some 1) ∧
    ∀ e, ((machine 2 ℕ ⟨.mesif, .fullMap, 2, false, some 0⟩).final (initial 0) secondReader).entry = some e →
      e.dstate = .shared → ∀ y, e.forwarder = some y → y ∈ e.getSharersList := by
  have hcfg : Config.SetsForwarder (⟨.mesif, .fullMap, 2, false, some 0⟩ : Config 2) := fun _ => .inr (by simp)
  have hrun : (machine 2 ℕ ⟨.mesif, .fullMap, 2, false, some 0⟩).Reachable (initial 0)
      ((machine 2 ℕ ⟨.mesif, .fullMap, 2, false, some 0⟩).final (initial 0) secondReader) :=
    ⟨secondReader, Machine.run_final _ (by decide +kernel)⟩
  exact ⟨by decide +kernel, fun e he => ((directoryEntry_ok _ hcfg 0 _ hrun).1 e he).2.2 rfl⟩

/-- A directory with room for one sharer refuses the second one, and what the new entry
happened to hold as its forwarder is the forwarder of a `SHARED` line. -/
theorem directoryEntry_unsetForwarder :
    (((machine 2 ℕ ⟨.mesif, .limitedNoBroadcast, 1, false, some 1⟩).final (initial 0) secondReader).entry.map
      fun e => (e.dstate, e.forwarder, e.getSharersList)) = some (.shared, some 1, [0]) := by
  decide +kernel

end LifeSim.Directory
