import LifeSim.Rob.Safety
import LifeSim.Rob.SmtDispatch

/-!
# The dependencies to remove

While a micro-op enters the buffer, the dependencies whose producers have issued are collected in `deps_to_remove`, an
array of eight elements, and the number of them is checked after the loop. With several hardware threads, dependencies
that have left the buffer are collected too.

The number can be told before the micro-op gets its dependencies, from its source registers, its address and the micro-ops
that have issued. The check compares it with sixteen: the size of the array in bytes is divided by the size of the
constant `8`, which is an `int`.
-/

namespace LifeSim.Rob

open LifeSim.Lib

/-- `MAXIMUM_NUMBER_OF_SOURCE_REGISTERS`. -/
def maximumNumberOfSourceRegisters : ℕ := 14

/-- The assertion after the loop: `num_dtr < sizeof(deps_to_remove)/sizeof(8)`. -/
def removalAssertion (num : ℕ) : Bool := decide (num < removalCapacity * 8 / 4)

/-- All elements are stored within the array, and the assertion on their number holds exactly if they are. -/
def StoredInBounds {α : Type} (x : Except Fault α) (num : ℕ) : Prop :=
  x ≠ .error .depsToRemove ∧ (removalAssertion num = true ↔ x ≠ .error .depsToRemove)

/-- A number for which there is room meets the assertion. -/
theorem storedInBounds_of_le {α : Type} {x : Except Fault α} {num : ℕ} (hne : x ≠ .error .depsToRemove)
    (hle : num ≤ removalCapacity) : StoredInBounds x num := by
  refine ⟨hne, iff_of_true (decide_eq_true ?_) hne⟩
  rw [removalCapacity] at hle ⊢
  omega

/-! ### One hardware thread -/

section

variable {cfg : Config} {s : RobTimer} {u : DynamicMicroOp}

/-- The number of dependencies that the loop has to remove, whether there is room for them or not. -/
def numToRemove (cfg : Config) (s : RobTimer) (u : DynamicMicroOp) : ℕ :=
  let front := frontNumber s.rob s.nextSequenceNumber
  match depend cfg s front (newEntry s u) with
  | .ok (_, _, v) => v.getDependencies.countP (hasIssued s.rob front)
  | .error _ => 0

/-- When a micro-op enters, the array is large enough exactly if at most eight of the micro-ops that it waits for have
issued. -/
theorem Steady.storedInBounds_iff (h : Steady cfg s) (hdecoded : u.Decoded) (hsquashed : u.squashed = false)
    (hasserted : enter cfg s u ≠ .error .assertion) :
    StoredInBounds (enter cfg s u) (numToRemove cfg s u) ↔ FewIssued cfg s u := by
  have hok (hne : enter cfg s u ≠ .error .depsToRemove) : ∃ s', enter cfg s u = .ok s' := by
    cases henter : enter cfg s u with
    | ok s' => exact ⟨s', rfl⟩
    | error fault =>
      cases fault with
      | assertion => exact absurd henter hasserted
      | depsToRemove => exact absurd henter hne
  constructor
  · intro hbounds
    obtain ⟨s', henter⟩ := hok hbounds.1
    exact h.sound.fewIssued_of_enter h.known hdecoded hsquashed henter
  · intro hfew
    have hne : enter cfg s u ≠ .error .depsToRemove := fun henter =>
      h.sound.enter_overflow h.known hdecoded henter hfew
    obtain ⟨s', henter⟩ := hok hne
    refine storedInBounds_of_le hne ?_
    cases enter_cases henter with
    | squashed htrue =>
      rw [hsquashed] at htrue
      cases htrue
    | @entered registers stores v l e _ hdepend hlinks hresolve =>
      have hfits := (collects_link _ s.nextSequenceNumber s.rob).fits v.getDependencies rfl (Nat.zero_le _) hlinks
      rw [List.length_nil, Nat.zero_add] at hfits
      rw [numToRemove, hdepend]
      exact hfits

end

/-! ### Several hardware threads -/

/-- The producer of a dependency has issued, or it has left the buffer. -/
def hasFinished (rob : List RobEntry) (front dependency : ℕ) : Bool :=
  decide (dependency < front) || hasIssued rob front dependency

/-- A micro-op has left the buffer, or it is in the buffer and has issued. -/
def finished (rob : List RobEntry) (front n : ℕ) : Bool :=
  decide (n < front) || rob.any fun p => decide (p.uop.sequenceNumber = n) && decide (p.done ≠ ⊤)

/-- The search by position finds the producers by their numbers. -/
theorem Consecutive.hasFinished_eq {first : ℕ} {rob : List RobEntry} (h : Consecutive first rob) :
    hasFinished rob first = finished rob first := by
  funext n
  rw [hasFinished, finished]
  refine congrArg (decide (n < first) || ·) (Bool.eq_iff_iff.2 ?_)
  rw [hasIssued, Option.any_eq_true, List.any_eq_true]
  constructor
  · rintro ⟨p, hp, hdone⟩
    obtain ⟨hmem, hnumber⟩ := h.number_of_find hp
    exact ⟨p, hmem, by simp [hnumber, of_decide_eq_true hdone]⟩
  · rintro ⟨p, hmem, htest⟩
    obtain ⟨hnumber, hdone⟩ := Bool.and_eq_true_iff.1 htest
    have hfind := @Consecutive.findEntry_self first n rob p h hmem
    rw [h.frontNumber (List.ne_nil_of_mem hmem), of_decide_eq_true hnumber] at hfind
    exact ⟨p, hfind, hdone⟩

namespace RobSmtTimer

variable {cfg : SmtConfig} {v : RobTimer} {e : RobEntry}

/-- `setDependencies` collects the dependencies that have finished. -/
theorem collects_link (front n : ℕ) (rob : List RobEntry) : Collects (link front n) rob (hasFinished rob front) := by
  have hrob := Rob.collects_link front n rob
  have htest {d : ℕ} (hd : front ≤ d) : hasFinished rob front d = hasIssued rob front d := by
    rw [hasFinished, decide_eq_false (not_lt.2 hd), Bool.false_or]
  refine ⟨fun l d l' => map_link, fun l d l' hl h => ?_, fun l d hl h => ?_, fun l d l' h hle => ?_⟩
  · obtain ⟨hleft, -, rfl⟩ | ⟨hd, h⟩ := link_cases h
    · rw [hasFinished, decide_eq_true hleft, Bool.true_or, if_pos rfl, List.length_append, List.length_singleton]
    · rw [htest hd]
      exact hrob.stored l d l' hl h
  · rw [link] at h
    split_ifs at h with hleft
    · rw [Linking.remove] at h
      split_ifs at h with hroom
      exact ⟨by rw [hasFinished, decide_eq_true hleft, Bool.true_or], not_lt.1 hroom⟩
    · rw [htest (not_lt.1 hleft)]
      exact hrob.full l d hl h
  · obtain ⟨-, hroom, rfl⟩ | ⟨-, h⟩ := link_cases h
    · rwa [List.length_append, List.length_singleton]
    · exact hrob.room l d l' h hle

/-- The number of dependencies that the loop has to remove, whether there is room for them or not. -/
def numToRemove (cfg : SmtConfig) (v : RobTimer) (e : RobEntry) : ℕ :=
  let front := frontNumber v.rob e.uop.sequenceNumber
  match depend cfg.toConfig v front (setAddress v front e) with
  | .ok (_, _, u) => u.getDependencies.countP (hasFinished v.rob front)
  | .error _ => 0

/-- At most eight of the micro-ops that a micro-op waits for when it is dispatched have finished. -/
def FewFinished (cfg : SmtConfig) (v : RobTimer) (e : RobEntry) : Prop :=
  let front := frontNumber v.rob e.uop.sequenceNumber
  awaitedCount cfg.toConfig v v.numInRob front e.uop (finished v.rob front) ≤ removalCapacity

instance (cfg : SmtConfig) (v : RobTimer) (e : RobEntry) : Decidable (FewFinished cfg v e) :=
  inferInstanceAs (Decidable (_ ≤ _))

/-- How an element is stored behind the end of `deps_to_remove`. -/
theorem setDependencies_overflow (h : setDependencies cfg v e = .error .depsToRemove) :
    ∃ registers stores u, depend cfg.toConfig v (frontNumber v.rob e.uop.sequenceNumber)
        (setAddress v (frontNumber v.rob e.uop.sequenceNumber) e) = .ok (registers, stores, u) ∧
      u.getDependencies.foldlM (link (frontNumber v.rob e.uop.sequenceNumber) e.uop.sequenceNumber)
        ⟨v.rob, [], (setAddress v (frontNumber v.rob e.uop.sequenceNumber) e).readyMax⟩ = .error .depsToRemove := by
  rcases cases_of_bind_error h with hdepend | ⟨⟨registers, stores, u⟩, hdepend, h⟩
  · exact absurd hdepend (depend_ne_depsToRemove _ _)
  refine ⟨registers, stores, u, hdepend, ?_⟩
  rcases cases_of_bind_error h with hlinks | ⟨l, -, h⟩
  · exact hlinks
  rcases cases_of_bind_error h with hresolve | ⟨e, -, h⟩
  · exact absurd hresolve (resolve_ne_depsToRemove _ _ _)
  · cases h

end RobSmtTimer

namespace KnowsWindow

variable {cfg : SmtConfig} {v : RobTimer} {e : RobEntry}

open RobSmtTimer

/-- The number of dependencies to remove can be told before the dependencies are set. -/
theorem numToRemove_eq (h : KnowsWindow v) (he : v.rob[v.numInRob]? = some e) {registers : RegisterDependencies}
    {stores : MemoryDependencies} {u : DynamicMicroOp}
    (hdepend : depend cfg.toConfig v (frontNumber v.rob e.uop.sequenceNumber)
      (setAddress v (frontNumber v.rob e.uop.sequenceNumber) e) = .ok (registers, stores, u)) :
    u.getDependencies.countP (hasFinished v.rob (frontNumber v.rob e.uop.sequenceNumber)) =
      awaitedCount cfg.toConfig v v.numInRob (frontNumber v.rob e.uop.sequenceNumber) e.uop
        (finished v.rob (frontNumber v.rob e.uop.sequenceNumber)) := by
  obtain ⟨first, hfront, -, hknows, hnext⟩ := h.depends he hdepend
  rw [← hfront, hknows.consecutive.hasFinished_eq, hknows.countP hnext, (setAddress_fields _ _).1]

/-- A micro-op needs more room than there is only if too many of the micro-ops that it waits for have finished. -/
theorem setDependencies_ne (h : KnowsWindow v) (he : v.rob[v.numInRob]? = some e) (hfew : FewFinished cfg v e) :
    setDependencies cfg v e ≠ .error .depsToRemove := by
  intro hset
  obtain ⟨registers, stores, u, hdepend, hlinks⟩ := setDependencies_overflow hset
  have hoverflow := (RobSmtTimer.collects_link _ _ v.rob).overflow u.getDependencies rfl hlinks
  rw [h.numToRemove_eq he hdepend, List.length_nil, Nat.zero_add] at hoverflow
  exact absurd hfew (Nat.not_le_of_lt hoverflow)

/-- When a micro-op is dispatched, the array is large enough exactly if at most eight of the micro-ops that it waits for
have issued or left the buffer. -/
theorem storedInBounds_iff (h : KnowsWindow v) (he : v.rob[v.numInRob]? = some e)
    (hasserted : setDependencies cfg v e ≠ .error .assertion) :
    StoredInBounds (setDependencies cfg v e) (RobSmtTimer.numToRemove cfg v e) ↔ FewFinished cfg v e := by
  have hok (hne : setDependencies cfg v e ≠ .error .depsToRemove) :
      RobSmtTimer.numToRemove cfg v e ≤ removalCapacity ∧ FewFinished cfg v e := by
    cases hset : setDependencies cfg v e with
    | error fault =>
      cases fault with
      | assertion => exact absurd hset hasserted
      | depsToRemove => exact absurd hset hne
    | ok x =>
      obtain ⟨v', e'⟩ := x
      obtain ⟨registers, stores, u, l, hsets⟩ := setDependencies_cases hset
      have hfits := (RobSmtTimer.collects_link _ _ v.rob).fits u.getDependencies rfl (Nat.zero_le _) hsets.links
      rw [List.length_nil, Nat.zero_add] at hfits
      rw [RobSmtTimer.numToRemove, hsets.depend]
      refine ⟨hfits, ?_⟩
      rw [h.numToRemove_eq he hsets.depend] at hfits
      exact hfits
  constructor
  · exact fun hbounds => (hok hbounds.1).2
  · intro hfew
    have hne := h.setDependencies_ne he hfew
    exact storedInBounds_of_le hne (hok hne).1

end KnowsWindow

/-! ### Whole runs -/

/-- In a run of the timer in which no other assertion fails, the array is large enough exactly if at most eight of the
micro-ops that each micro-op waits for have issued when it enters. With several hardware threads, it is large enough
exactly if at most eight have issued or left the buffer when the micro-op is dispatched. -/
theorem removal_exact (cfg : Config) (skipping : Bool) (calls : List Call)
    (hdecoded : ∀ call ∈ calls, ∀ u ∈ entered call, u.Decoded)
    (hasserted : (timer cfg skipping).run (.new cfg) calls ≠ .error .assertion)
    (smt : SmtConfig) (smtCalls : List SmtCall) (hpushed : ∀ call ∈ smtCalls, ∀ u ∈ pushed call, u.Decoded)
    (hsmtAsserted : (smtTimer smt).run (.new smt) smtCalls ≠ .error .assertion) :
    ((timer cfg skipping).Guarded
          (fun s call => ∀ u ∈ entered call, StoredInBounds (enter cfg s u) (numToRemove cfg s u)) (.new cfg) calls ↔
        (timer cfg skipping).Guarded (fun s call => ∀ u ∈ entered call, FewIssued cfg s u) (.new cfg) calls) ∧
    ((smtTimer smt).Guarded
          (fun s call => ∀ x ∈ s.dependencyCalls smt call,
            StoredInBounds (RobSmtTimer.setDependencies smt x.1 x.2) (RobSmtTimer.numToRemove smt x.1 x.2))
          (.new smt) smtCalls ↔
        (smtTimer smt).Guarded
          (fun s call => ∀ x ∈ s.dependencyCalls smt call, RobSmtTimer.FewFinished smt x.1 x.2) (.new smt) smtCalls) := by
  constructor
  · have hguard := ((timer cfg skipping).guarded_of_run_ne hasserted).and_forall hdecoded
    refine Machine.guarded_congr _ (P := Steady cfg)
      (fun s call s' hs hg hcall => hs.call hg.2 hcall) (fun s call hs hg => ?_) .new hguard
    refine forall_congr' fun u => imp_congr_right fun hu => ?_
    cases call with
    | enter w =>
      have hsquashed : w.squashed = false := by
        by_contra hne
        simp [entered, Bool.eq_true_of_not_eq_false hne] at hu
      have huw : u = w := by simpa [entered, hsquashed] using hu
      subst huw
      exact hs.storedInBounds_iff (hg.2 u hu) hsquashed hg.1
    | execute => cases hu
    | synchronize time => cases hu
  · have hguard := ((smtTimer smt).guarded_of_run_ne hsmtAsserted).and_forall hpushed
    refine Machine.guarded_congr _ (P := fun s => s.All RobThread.Known)
      (fun s call s' hs hg hcall => (RobSmtTimer.known_call hs hg.2).1 s' hcall) (fun s call hs hg => ?_)
      (RobSmtTimer.known_new smt) hguard
    refine forall_congr' fun x => imp_congr_right fun hx => ?_
    obtain ⟨hknows, he⟩ := (RobSmtTimer.known_call hs hg.2).2 x hx
    exact hknows.storedInBounds_iff he fun hset => hg.1 (RobSmtTimer.call_error_iff call |>.2 ⟨x, hx, hset⟩)

/-- The core of `nineProducers` with a hardware thread of its own. -/
def nineThread : SmtConfig :=
  { nineProducers with numThreads := 1, windowRepartition := false, simultaneousIssue := true }

/-- The nine producers are pushed with a micro-op that reads some of them, and dispatched before it. -/
def nineSmtCalls (registers : ℕ) : List SmtCall :=
  [.setRunning 0 true, .push 0 (nineWriters ++ reader registers :: List.replicate 30 slow)] ++
    List.replicate 6 .execute

/-- Eight of the nine are read, with one hardware thread and with several. -/
theorem removal_exact_eightRead :
    (timer nineProducers true).Guarded
        (fun s call => ∀ u ∈ entered call, StoredInBounds (enter nineProducers s u) (numToRemove nineProducers s u))
        (.new nineProducers) (nineCalls ++ [.enter (reader 8)]) ∧
      (smtTimer nineThread).Guarded
        (fun s call => ∀ x ∈ s.dependencyCalls nineThread call,
          StoredInBounds (RobSmtTimer.setDependencies nineThread x.1 x.2) (RobSmtTimer.numToRemove nineThread x.1 x.2))
        (.new nineThread) (nineSmtCalls 8) := by
  have hok : ((timer nineProducers true).run (.new nineProducers) (nineCalls ++ [.enter (reader 8)])).isOk = true := by
    decide +kernel
  have hsmtOk : ((smtTimer nineThread).run (.new nineThread) (nineSmtCalls 8)).isOk = true := by decide +kernel
  have hexact := removal_exact nineProducers true (nineCalls ++ [.enter (reader 8)]) (by decide +kernel)
    (by rw [Machine.run_final _ hok]; exact fun h => by cases h) nineThread (nineSmtCalls 8) (by decide +kernel)
    (by rw [Machine.run_final _ hsmtOk]; exact fun h => by cases h)
  exact ⟨hexact.1.2 (Machine.Guarded.of_decide (by decide +kernel)),
    hexact.2.2 (Machine.Guarded.of_decide (by decide +kernel))⟩

/-- The nine producers have issued. -/
def nineIssued : RobTimer := (timer nineProducers true).final (.new nineProducers) nineCalls

/-- A micro-op with nine source registers, fewer than the decoder admits, has nine dependencies to remove. The assertion
on their number would hold, but the ninth is stored behind the end of the array. -/
theorem nineReader_outOfBounds : (reader 9).sourceRegisters.length ≤ maximumNumberOfSourceRegisters ∧
    removalAssertion (numToRemove nineProducers nineIssued (reader 9)) = true ∧
    ¬ (timer nineProducers true).Guarded
      (fun s call => ∀ u ∈ entered call, StoredInBounds (enter nineProducers s u) (numToRemove nineProducers s u))
      (.new nineProducers) (nineCalls ++ [.enter (reader 9)]) := by
  refine ⟨by decide, by decide +kernel, fun h => ?_⟩
  have hok : ((timer nineProducers true).run (.new nineProducers) nineCalls).isOk = true := by decide +kernel
  have hbounds := h.at_event (Machine.run_final _ hok) (reader 9) (List.mem_singleton.2 rfl)
  have hfault : faultOf (enter nineProducers nineIssued (reader 9)) = some .depsToRemove := by decide +kernel
  exact hbounds.1 (faultOf_eq_some.1 hfault)

end LifeSim.Rob
