import LifeSim.Rob.Smt
import LifeSim.Rob.Window

/-!
# Dispatch of several hardware threads

With several hardware threads, dependencies are set when a micro-op is dispatched. `dependencyCalls` lists the calls of
`setDependencies` in a cycle, and the cycle stops if one of them does.

What each of these calls keeps, the stage keeps. So in every reachable core the tables of a thread know the micro-ops in
its window, and those in front of the window are as they were pushed.
-/

namespace LifeSim.Rob

open LifeSim.Lib

namespace RobSmtTimer

/-! ### The calls of setDependencies -/

section

variable (cfg : SmtConfig) (s : RobSmtTimer)

/-- The local variables after a micro-op has been dispatched. -/
def DispatchLocals.after (l : DispatchLocals) (v : RobTimer) (e : RobEntry) : DispatchLocals :=
  let next := min l.nextEvent (max e.ready (v.now + 1 : ℕ))
  ⟨l.dispatched + 1, next, min l.threadNextEvent next⟩

/-- The calls of `setDependencies` in the loop of `tryDispatch`, which ends with one that stops. -/
def dispatchLoopCalls : ℕ → DispatchLocals → RobTimer → List (RobTimer × RobEntry)
  | 0, _, _ => []
  | places + 1, l, v =>
    match v.rob[v.numInRob]? with
    | none => []
    | some e =>
      if l.dispatched = cfg.dispatchWidth then []
      else if e.uop.iCacheMiss ∧ v.inIcacheMiss = false then []
      else
        let v := if e.uop.iCacheMiss then { v with inIcacheMiss := false } else v
        if v.rsEntriesUsed = cfg.rsEntries then []
        else
          (v, e) :: match setDependencies cfg v e with
            | .error _ => []
            | .ok (v, e) =>
              if e.uop.isBranch ∧ e.uop.branchMispredicted then []
              else dispatchLoopCalls places (l.after v e) (dispatchEntry e v)

/-- The calls of `setDependencies` in the loop of `doDispatch`. -/
def dispatchRoundCalls : List ℕ → Time → RobSmtTimer → List (RobTimer × RobEntry)
  | [], _, _ => []
  | i :: is, next, s =>
    match s.threads[i]? with
    | none => dispatchRoundCalls is next s
    | some t =>
      if s.mayDispatch t then
        dispatchLoopCalls cfg (s.currentWindowSize - t.numInRob) ⟨0, next, t.nextEvent⟩ (s.view t) ++
          match s.tryDispatch cfg i t next with
          | .ok (s, false, next) => dispatchRoundCalls is next s
          | _ => []
      else dispatchRoundCalls is next s

/-- The calls of `setDependencies` during a call from outside. -/
def dependencyCalls : SmtCall → List (RobTimer × RobEntry)
  | .execute => if s.canExecute cfg then dispatchRoundCalls cfg (s.order s.dispatchThread) ⊤ s else []
  | _ => []

/-- A property of all threads. -/
def All (Q : RobThread → Prop) : Prop := ∀ (i : ℕ) (t : RobThread), s.threads[i]? = some t → Q t

end

variable {cfg : SmtConfig} {s : RobSmtTimer} {f : Fault}

/-- A stage of a thread changes this thread only. -/
theorem All.update {Q : RobThread → Prop} (h : s.All Q) {i : ℕ} {v : RobTimer} {nextEvent : Time}
    (hQ : ∀ t, s.threads[i]? = some t → Q (RobThread.update t v nextEvent)) : (s.update i v nextEvent).All Q := by
  intro j u hu
  change (s.threads.modify i _)[j]? = some u at hu
  rw [List.getElem?_modify] at hu
  obtain ⟨t, ht, rfl⟩ := Option.map_eq_some_iff.1 hu
  by_cases hj : i = j
  · rw [if_pos hj]
    exact hQ t (hj ▸ ht)
  · rw [if_neg hj]
    exact h j t ht

/-- A thread changes from outside. -/
theorem All.modify {Q : RobThread → Prop} (h : s.All Q) {i : ℕ} {f : RobThread → RobThread} (hQ : ∀ t, Q t → Q (f t))
    (j : ℕ) (u : RobThread) (hu : (s.threads.modify i f)[j]? = some u) : Q u := by
  rw [List.getElem?_modify] at hu
  obtain ⟨t, ht, rfl⟩ := Option.map_eq_some_iff.1 hu
  split_ifs
  · exact hQ t (h j t ht)
  · exact h j t ht

/-- The loop of `tryDispatch` ends, or it dispatches a micro-op. -/
theorem dispatchLoop_succ (places : ℕ) (l : DispatchLocals) (v : RobTimer) :
    (∃ stalled miss, dispatchLoop cfg (places + 1) l v =
        .ok ({ v with frontendStalledUntil := stalled, inIcacheMiss := miss }, l) ∧
      dispatchLoopCalls cfg (places + 1) l v = []) ∨
    ∃ e miss, v.rob[v.numInRob]? = some e ∧
      (dispatchLoop cfg (places + 1) l v = do
        let (v, e) ← setDependencies cfg { v with inIcacheMiss := miss } e
        if e.uop.isBranch ∧ e.uop.branchMispredicted then
          .ok ({ dispatchEntry e v with frontendStalledUntil := ⊤ }, l.after v e)
        else dispatchLoop cfg places (l.after v e) (dispatchEntry e v)) ∧
      dispatchLoopCalls cfg (places + 1) l v = ({ v with inIcacheMiss := miss }, e) ::
        match setDependencies cfg { v with inIcacheMiss := miss } e with
        | .error _ => []
        | .ok (v, e) =>
          if e.uop.isBranch ∧ e.uop.branchMispredicted then []
          else dispatchLoopCalls cfg places (l.after v e) (dispatchEntry e v) := by
  rw [dispatchLoop, dispatchLoopCalls]
  cases he : v.rob[v.numInRob]? with
  | none => exact .inl ⟨v.frontendStalledUntil, v.inIcacheMiss, rfl, rfl⟩
  | some e =>
    dsimp only
    by_cases hwidth : l.dispatched = cfg.dispatchWidth
    · rw [if_pos hwidth, if_pos hwidth]
      exact .inl ⟨v.frontendStalledUntil, v.inIcacheMiss, rfl, rfl⟩
    rw [if_neg hwidth, if_neg hwidth]
    by_cases hmiss : e.uop.iCacheMiss = true ∧ v.inIcacheMiss = false
    · rw [if_pos hmiss, if_pos hmiss]
      exact .inl ⟨_, true, rfl, rfl⟩
    rw [if_neg hmiss, if_neg hmiss]
    -- the micro-op may have waited for the instruction cache
    have hreturn : ∃ miss, (if e.uop.iCacheMiss = true then { v with inIcacheMiss := false } else v) =
        { v with inIcacheMiss := miss } := by
      split_ifs
      · exact ⟨false, rfl⟩
      · exact ⟨v.inIcacheMiss, rfl⟩
    obtain ⟨miss, hreturn⟩ := hreturn
    rw [hreturn]
    by_cases hstations : v.rsEntriesUsed = cfg.rsEntries
    · rw [if_pos hstations, if_pos hstations]
      exact .inl ⟨v.frontendStalledUntil, miss, rfl, rfl⟩
    rw [if_neg hstations, if_neg hstations]
    exact .inr ⟨e, miss, rfl, rfl, rfl⟩

/-- What every micro-op that is dispatched keeps, the loop of `tryDispatch` keeps. -/
theorem dispatchLoop_invariant {P : Time → RobTimer → Prop}
    (hfrontend : ∀ next v stalled miss, P next v →
      P next { v with frontendStalledUntil := stalled, inIcacheMiss := miss })
    (hentry : ∀ next next' v e v' e', P next v → v.rob[v.numInRob]? = some e → setDependencies cfg v e = .ok (v', e') →
      next' ≤ next → next' ≤ max e'.ready (v'.now + 1 : ℕ) → P next' (dispatchEntry e' v'))
    (places : ℕ) (l : DispatchLocals) (v : RobTimer) (hv : P l.threadNextEvent v) :
    (∀ x, dispatchLoop cfg places l v = .ok x → P x.2.threadNextEvent x.1) ∧
      ∀ x ∈ dispatchLoopCalls cfg places l v, (∃ next, P next x.1) ∧ x.1.rob[x.1.numInRob]? = some x.2 := by
  induction places generalizing l v with
  | zero => exact ⟨fun x hx => by cases hx; exact hv, fun x hx => absurd hx List.not_mem_nil⟩
  | succ places ih =>
    rcases @dispatchLoop_succ cfg places l v with ⟨stalled, miss, hloop, hcalls⟩ | ⟨e, miss, he, hloop, hcalls⟩
    · rw [hloop, hcalls]
      exact ⟨fun x hx => by cases hx; exact hfrontend _ v stalled miss hv, fun x hx => absurd hx List.not_mem_nil⟩
    · have hhere : P l.threadNextEvent { v with inIcacheMiss := miss } := hfrontend _ v v.frontendStalledUntil miss hv
      rw [hloop, hcalls, List.forall_mem_cons]
      cases hset : setDependencies cfg { v with inIcacheMiss := miss } e with
      | error fault =>
        refine ⟨fun x hx => ?_, ⟨⟨_, hhere⟩, he⟩, fun x hx => absurd hx List.not_mem_nil⟩
        cases hx
      | ok x =>
        obtain ⟨v', e'⟩ := x
        have hnext : (l.after v' e').threadNextEvent ≤ l.threadNextEvent := min_le_left _ _
        have hready : (l.after v' e').threadNextEvent ≤ max e'.ready (v'.now + 1 : ℕ) :=
          (min_le_right _ _).trans (min_le_right _ _)
        have hafter := hentry _ _ _ _ _ _ hhere he hset hnext hready
        rw [ok_bind]
        dsimp only
        split_ifs
        · refine ⟨fun x hx => ?_, ⟨⟨_, hhere⟩, he⟩, fun x hx => absurd hx List.not_mem_nil⟩
          cases hx
          exact hfrontend _ _ ⊤ _ hafter
        · obtain ⟨hrest, hlater⟩ := ih (l.after v' e') (dispatchEntry e' v') hafter
          exact ⟨hrest, ⟨⟨_, hhere⟩, he⟩, hlater⟩

/-- The loop of `tryDispatch` stops with a call of `setDependencies`. -/
theorem dispatchLoop_error_iff (places : ℕ) (l : DispatchLocals) (v : RobTimer) :
    dispatchLoop cfg places l v = .error f ↔
      ∃ x ∈ dispatchLoopCalls cfg places l v, setDependencies cfg x.1 x.2 = .error f := by
  induction places generalizing l v with
  | zero =>
    constructor
    · intro h
      cases h
    · rintro ⟨x, hx, -⟩
      cases hx
  | succ places ih =>
    rcases @dispatchLoop_succ cfg places l v with ⟨stalled, miss, hloop, hcalls⟩ | ⟨e, miss, he, hloop, hcalls⟩
    · rw [hloop, hcalls]
      constructor
      · intro h
        cases h
      · rintro ⟨x, hx, -⟩
        cases hx
    · rw [hloop, hcalls]
      cases hset : setDependencies cfg { v with inIcacheMiss := miss } e with
      | error fault =>
        simp only [error_bind, List.mem_singleton, exists_eq_left, hset, Except.error.injEq]
      | ok x =>
        obtain ⟨v', e'⟩ := x
        rw [ok_bind]
        dsimp only
        have hne : setDependencies cfg { v with inIcacheMiss := miss } e ≠ .error f := by
          rw [hset]
          exact fun h => by cases h
        split_ifs
        · simp [hset]
        · simp only [List.mem_cons, or_and_right, exists_or, exists_eq_left, hne, false_or]
          exact ih _ _

/-- `tryDispatch` stops where its loop does. -/
theorem tryDispatch_cases (i : ℕ) (t : RobThread) (next : Time) :
    (∃ x, dispatchLoop cfg (s.currentWindowSize - t.numInRob) ⟨0, next, t.nextEvent⟩ (s.view t) = .ok x ∧
      ∃ dispatched next', s.tryDispatch cfg i t next = .ok (s.update i x.1 x.2.threadNextEvent, dispatched, next')) ∨
    ∃ f, dispatchLoop cfg (s.currentWindowSize - t.numInRob) ⟨0, next, t.nextEvent⟩ (s.view t) = .error f ∧
      s.tryDispatch cfg i t next = .error f := by
  rw [tryDispatch]
  cases dispatchLoop cfg (s.currentWindowSize - t.numInRob) ⟨0, next, t.nextEvent⟩ (s.view t) with
  | ok x => exact .inl ⟨x, rfl, _, _, rfl⟩
  | error f => exact .inr ⟨f, rfl, rfl⟩

/-- The loop of `doDispatch` keeps what dispatching from one thread keeps. -/
theorem dispatchRound_invariant {Q : RobThread → Prop} {R : RobTimer × RobEntry → Prop}
    (hthread : ∀ (s : RobSmtTimer) (t : RobThread) (places : ℕ) (next : Time), Q t →
      (∀ x, dispatchLoop cfg places ⟨0, next, t.nextEvent⟩ (s.view t) = .ok x →
        Q (RobThread.update t x.1 x.2.threadNextEvent)) ∧
      ∀ x ∈ dispatchLoopCalls cfg places ⟨0, next, t.nextEvent⟩ (s.view t), R x)
    (is : List ℕ) (next : Time) (s : RobSmtTimer) (hs : s.All Q) :
    (∀ x, dispatchRound cfg is next s = .ok x → x.1.All Q ∧ x.1.now = s.now) ∧
      ∀ x ∈ dispatchRoundCalls cfg is next s, R x := by
  induction is generalizing next s with
  | nil =>
    refine ⟨fun x hx => ?_, fun x hx => absurd hx List.not_mem_nil⟩
    cases hx
    exact ⟨hs, rfl⟩
  | cons i is ih =>
    rw [dispatchRound, dispatchRoundCalls]
    cases ht : s.threads[i]? with
    | none => exact ih next s hs
    | some t =>
      dsimp only
      by_cases hmay : s.mayDispatch t = true
      · rw [if_pos hmay, if_pos hmay, List.forall_mem_append]
        obtain ⟨hloop, hcalls⟩ := hthread s t (s.currentWindowSize - t.numInRob) next (hs i t ht)
        obtain ⟨x, hx, dispatched, next', htry⟩ | ⟨f, -, htry⟩ := @tryDispatch_cases cfg s i t next
        · have hafter : (s.update i x.1 x.2.threadNextEvent).All Q := hs.update fun u hu => by
            rw [ht] at hu
            exact Option.some.inj hu ▸ hloop x hx
          rw [htry, ok_bind]
          cases dispatched with
          | true =>
            refine ⟨fun y hy => ?_, hcalls, fun y hy => absurd hy List.not_mem_nil⟩
            cases hy
            exact ⟨hafter, rfl⟩
          | false =>
            obtain ⟨hrest, hlater⟩ := ih next' (s.update i x.1 x.2.threadNextEvent) hafter
            exact ⟨hrest, hcalls, hlater⟩
        · rw [htry]
          refine ⟨fun y hy => ?_, hcalls, fun y hy => absurd hy List.not_mem_nil⟩
          cases hy
      · rw [if_neg hmay, if_neg hmay]
        exact ih next s hs

/-- The loop of `doDispatch` stops with a call of `setDependencies`. -/
theorem dispatchRound_error_iff (is : List ℕ) (next : Time) (s : RobSmtTimer) :
    dispatchRound cfg is next s = .error f ↔
      ∃ x ∈ dispatchRoundCalls cfg is next s, setDependencies cfg x.1 x.2 = .error f := by
  induction is generalizing next s with
  | nil =>
    constructor
    · intro h
      cases h
    · rintro ⟨x, hx, -⟩
      cases hx
  | cons i is ih =>
    rw [dispatchRound, dispatchRoundCalls]
    cases s.threads[i]? with
    | none => exact ih next s
    | some t =>
      dsimp only
      by_cases hmay : s.mayDispatch t = true
      · rw [if_pos hmay, if_pos hmay]
        simp only [List.mem_append, or_and_right, exists_or]
        have hiff (f : Fault) :=
          @dispatchLoop_error_iff cfg f (s.currentWindowSize - t.numInRob) ⟨0, next, t.nextEvent⟩ (s.view t)
        obtain ⟨x, hx, dispatched, next', htry⟩ | ⟨g, hg, htry⟩ := @tryDispatch_cases cfg s i t next
        · have hnone : ¬ ∃ x ∈ dispatchLoopCalls cfg (s.currentWindowSize - t.numInRob) ⟨0, next, t.nextEvent⟩
              (s.view t), setDependencies cfg x.1 x.2 = .error f := by
            rw [← hiff, hx]
            exact fun h => by cases h
          rw [htry, ok_bind, or_iff_right hnone]
          cases dispatched with
          | true => simp
          | false => exact ih next' (s.update i x.1 x.2.threadNextEvent)
        · rw [htry, error_bind, ← hiff, hg]
          simp
      · rw [if_neg hmay, if_neg hmay]
        exact ih next s

/-- A call from outside stops with a call of `setDependencies`. -/
theorem call_error_iff (call : SmtCall) : s.call cfg call = .error f ↔
    ∃ x ∈ s.dependencyCalls cfg call, setDependencies cfg x.1 x.2 = .error f := by
  cases call with
  | execute =>
    rw [RobSmtTimer.call, execute, dependencyCalls]
    by_cases hexecute : s.canExecute cfg = true
    · rw [if_pos hexecute, if_pos hexecute, ← dispatchRound_error_iff, executeCycle, doDispatch]
      cases dispatchRound cfg (s.order s.dispatchThread) ⊤ s with
      | error g => simp only [error_bind, Except.error.injEq]
      | ok x =>
        constructor
        · intro h
          cases h
        · intro h
          cases h
    · rw [if_neg hexecute, if_neg hexecute]
      simp
  | _ =>
    constructor
    · intro h
      cases h
    · rintro ⟨x, hx, -⟩
      cases hx

/-! ### What setDependencies does -/

/-- A dependency has left the buffer, or it is treated as in `RobTimer`. -/
theorem link_cases {front n d : ℕ} {l l' : Linking} (h : link front n l d = .ok l') :
    (d < front ∧ l.toRemove.length < removalCapacity ∧ l' = { l with toRemove := l.toRemove ++ [d] }) ∨
      (front ≤ d ∧ Rob.link front n l d = .ok l') := by
  rw [link] at h
  split_ifs at h with hleft
  · obtain ⟨hroom, rfl⟩ := Linking.remove_cases h
    exact .inl ⟨hleft, hroom, rfl⟩
  · exact .inr ⟨not_lt.1 hleft, h⟩

theorem map_link {front n d : ℕ} {l l' : Linking} (h : link front n l d = .ok l') :
    l'.rob.map RobEntry.forget = l.rob.map RobEntry.forget := by
  obtain ⟨-, -, rfl⟩ | ⟨-, h⟩ := link_cases h
  · rfl
  · exact Rob.map_link h

/-- A call of `setDependencies` that does not stop. -/
structure Sets (cfg : SmtConfig) (v : RobTimer) (e : RobEntry) (v' : RobTimer) (e' : RobEntry) (front : ℕ)
    (registers : RegisterDependencies) (stores : MemoryDependencies) (u : DynamicMicroOp) (l : Linking) : Prop where
  depend : depend cfg.toConfig v front (setAddress v front e) = .ok (registers, stores, u)
  links : u.getDependencies.foldlM (link front e.uop.sequenceNumber) ⟨v.rob, [], (setAddress v front e).readyMax⟩ = .ok l
  resolve : resolve (setAddress v front e) u l = .ok e'
  after : v' = { v with rob := l.rob, registerDependencies := registers, memoryDependencies := stores }

theorem setDependencies_cases {v v' : RobTimer} {e e' : RobEntry} (h : setDependencies cfg v e = .ok (v', e')) :
    ∃ registers stores u l, Sets cfg v e v' e' (frontNumber v.rob e.uop.sequenceNumber) registers stores u l := by
  obtain ⟨⟨registers, stores, u⟩, hdepend, h⟩ := exists_of_bind_ok h
  obtain ⟨l, hlinks, h⟩ := exists_of_bind_ok h
  obtain ⟨e'', hresolve, h⟩ := exists_of_bind_ok h
  cases h
  exact ⟨registers, stores, u, l, hdepend, hlinks, hresolve, rfl⟩

namespace Sets

variable {v v' : RobTimer} {e e' : RobEntry} {front : ℕ} {registers : RegisterDependencies}
  {stores : MemoryDependencies} {u : DynamicMicroOp} {l : Linking}

/-- The other entries only learn of a dependant. -/
theorem forget (h : Sets cfg v e v' e' front registers stores u l) :
    l.rob.map RobEntry.forget = v.rob.map RobEntry.forget :=
  foldlM_ok_invariant (P := fun m => m.rob.map RobEntry.forget = v.rob.map RobEntry.forget)
    (fun _ _ _ hm hlink => (map_link hlink).trans hm) rfl h.links

/-- The entry gets dependencies, and it is not done. -/
theorem entry (h : Sets cfg v e v' e' front registers stores u l) :
    e'.uop.traits = e.uop.traits ∧ e'.done = e.done ∧ e'.dependants = e.dependants := by
  obtain ⟨huop, -, hdone, -, hdependants⟩ := setAddress_fields (s := v) front e
  obtain ⟨hdone', hdependants'⟩ := resolve_fields h.resolve
  have hbare := (resolve_bare h.resolve).trans (depend_bare h.depend)
  rw [huop] at hbare
  exact ⟨traits_eq_of_bare hbare, hdone'.trans hdone, hdependants'.trans hdependants⟩

/-- Dependants have numbers before that of the entry, or are the entry itself. -/
theorem dependants (h : Sets cfg v e v' e' front registers stores u l) {bound : ℕ} (hn : e.uop.sequenceNumber < bound)
    (hv : ∀ f ∈ v.rob, ∀ d ∈ f.dependants, d < bound) : ∀ f ∈ l.rob, ∀ d ∈ f.dependants, d < bound := by
  refine foldlM_ok_invariant (P := fun m => ∀ f ∈ m.rob, ∀ d ∈ f.dependants, d < bound)
    (fun m d m' hm hlink => ?_) hv h.links
  obtain ⟨-, -, rfl⟩ | ⟨-, hlink⟩ := link_cases hlink
  · exact hm
  · exact link_dependants hlink hn hm

end Sets

/-! ### The windows are known -/

end RobSmtTimer

/-- The tables of a thread know its window. -/
structure KnowsWindow (v : RobTimer) : Prop where
  placed : Placed v
  known : ∃ first, v.nextSequenceNumber = first + v.rob.length ∧ Knows first v.numInRob v

namespace KnowsWindow

variable {cfg : SmtConfig} {v v' : RobTimer} {e e' : RobEntry}

/-- The buffer and the tables are all that counts. -/
theorem congr (h : KnowsWindow v) (hrob : v'.rob = v.rob) (hnum : v'.numInRob = v.numInRob)
    (hnext : v'.nextSequenceNumber = v.nextSequenceNumber)
    (hregisters : v'.registerDependencies = v.registerDependencies)
    (hmemory : v'.memoryDependencies = v.memoryDependencies) : KnowsWindow v' := by
  obtain ⟨first, hnumber, hknows⟩ := h.known
  refine ⟨⟨?_, ?_⟩, first, ?_, ?_⟩
  · rw [hrob, hnum]
    exact h.placed.inside
  · rw [hrob, hnum]
    exact h.placed.outside
  · rw [hnext, hrob]
    exact hnumber
  · rw [hnum]
    refine hknows.congr (by rw [hrob]) hregisters hmemory ?_ ?_
    · rw [hrob]
      exact hknows.fresh
    · rw [hrob]
      exact hknows.dependants

/-- What is known when dependencies are set. -/
theorem depends (h : KnowsWindow v) (he : v.rob[v.numInRob]? = some e) {registers : RegisterDependencies}
    {stores : MemoryDependencies} {u : DynamicMicroOp}
    (hdepend : depend cfg.toConfig v (frontNumber v.rob e.uop.sequenceNumber)
      (setAddress v (frontNumber v.rob e.uop.sequenceNumber) e) = .ok (registers, stores, u)) :
    ∃ first, first = frontNumber v.rob e.uop.sequenceNumber ∧ v.nextSequenceNumber = first + v.rob.length ∧
      Knows first v.numInRob v ∧
      Depends cfg.toConfig v first v.numInRob (setAddress v first e) registers stores u := by
  obtain ⟨first, hnumber, hknows⟩ := h.known
  have hfront : frontNumber v.rob e.uop.sequenceNumber = first :=
    hknows.consecutive.frontNumber (List.ne_nil_of_mem (List.mem_of_getElem? he)) _
  have huop := (setAddress_fields (s := v) first e).1
  refine ⟨first, hfront.symm, hnumber, hknows, ?_, ?_, hfront ▸ hdepend⟩
  · rw [huop]
    exact hknows.consecutive.number he
  · rw [huop]
    exact hknows.fresh _ e le_rfl he

/-- A micro-op that is dispatched is known then. -/
theorem dispatch (h : KnowsWindow v) (he : v.rob[v.numInRob]? = some e)
    (hset : RobSmtTimer.setDependencies cfg v e = .ok (v', e')) : KnowsWindow (dispatchEntry e' v') := by
  obtain ⟨registers, stores, u, l, hsets⟩ := RobSmtTimer.setDependencies_cases hset
  obtain ⟨first, hfront, hnumber, hknows, hnext⟩ := h.depends he hsets.depend
  rw [← hfront] at hsets
  obtain ⟨htraits, hdone, hdependants⟩ := hsets.entry
  have hforget := hsets.forget
  have hlength := length_of_map hforget
  have hsame (i : ℕ) : l.rob[i]?.map RobEntry.forget = v.rob[i]?.map RobEntry.forget := by
    rw [← List.getElem?_map, ← List.getElem?_map, hforget]
  obtain ⟨f, hf, hfe⟩ : ∃ f, l.rob[v.numInRob]? = some f ∧ f.forget = e.forget := by
    have hmap := hsame v.numInRob
    rwa [he, Option.map_some, Option.map_eq_some_iff] at hmap
  have hinside : v.numInRob < v.rob.length := (List.getElem?_eq_some_iff.1 he).1
  have hne : e.uop.sequenceNumber = first + v.numInRob := hknows.consecutive.number he
  have huop : f.uop = e.uop := RobEntry.uop_eq_of_forget hfe
  cases hsets.after
  have hall : (dispatchEntry e' { v with
      rob := l.rob, registerDependencies := registers, memoryDependencies := stores }).rob.map
        (fun e => e.uop.traits) = v.rob.map fun e => e.uop.traits := by
    rw [← traits_of_forget hforget]
    refine map_set_of_eq hf ?_
    rw [huop]
    exact htraits
  have hout (i : ℕ) (hi : v.numInRob + 1 ≤ i) (g : RobEntry)
      (hg : (l.rob.set v.numInRob { e' with
        dispatched := v.now, ready := max e'.ready (v.now + 1 : ℕ) })[i]? = some g) :
      ∃ g', v.rob[i]? = some g' ∧ g'.uop = g.uop ∧ g'.done = g.done := by
    rw [List.getElem?_set_ne (by omega)] at hg
    have hmap := hsame i
    rw [hg, Option.map_some, eq_comm, Option.map_eq_some_iff] at hmap
    obtain ⟨g', hg', hforget'⟩ := hmap
    exact ⟨g', hg', RobEntry.uop_eq_of_forget hforget', RobEntry.done_eq_of_forget hforget'⟩
  refine ⟨⟨?_, ?_⟩, first, ?_, ?_⟩
  · change v.numInRob + 1 ≤ (l.rob.set _ _).length
    rw [List.length_set, hlength]
    exact hinside
  · intro i g hi hg
    obtain ⟨g', hg', -, hdone'⟩ := hout i hi g hg
    exact hdone' ▸ h.placed.outside i g' (Nat.le_of_succ_le hi) hg'
  · change v.nextSequenceNumber = first + (l.rob.set _ _).length
    rw [List.length_set, hlength]
    exact hnumber
  · constructor
    · exact hknows.consecutive.congr (numbers_of_traits hall)
    · change v.numInRob + 1 ≤ (l.rob.set _ _).length
      rw [List.length_set, hlength]
      exact hinside
    · intro i g hi hg
      obtain ⟨g', hg', huop', -⟩ := hout i hi g hg
      exact huop' ▸ hknows.fresh i g' (Nat.le_of_succ_le hi) hg'
    · intro g hg d hd
      have hbound (f : RobEntry) (hf : f ∈ v.rob) (d : ℕ) (hd : d ∈ f.dependants) : d < first + (v.numInRob + 1) :=
        (hknows.dependants f hf d hd).trans (Nat.lt_succ_self _)
      rcases List.mem_or_eq_of_mem_set hg with hg | rfl
      · exact hsets.dependants (by omega) hbound g hg d hd
      · exact hbound e (List.mem_of_getElem? he) d (hdependants ▸ hd)
    · obtain ⟨w, -, -, earlier, lowest, hle, htables, hknown⟩ := hknows.setDependencies hnext
      refine ⟨earlier, lowest, hle, htables, ?_⟩
      have htake := congrArg (List.take (v.numInRob + 1)) hall
      rw [← List.map_take, ← List.map_take, List.take_add_one (l := v.rob), he, List.map_append] at htake
      rw [(setAddress_fields (s := v) first e).1] at hknown
      rw [hknown]
      exact congrArg List.reverse htake.symm

/-- A micro-op of the window issues. -/
theorem issue (h : KnowsWindow v) {i : ℕ} (hi : i < v.numInRob) (he : v.rob[i]? = some e) (hdone : e.done = ⊤)
    (hready : e.ready ≤ v.now) : KnowsWindow (issueInstruction cfg.toConfig i e v).1 := by
  obtain ⟨first, hnumber, hknows⟩ := h.known
  have hmove : Move cfg.toConfig v (issueInstruction cfg.toConfig i e v).1 := .issue hi he hdone hready
  refine ⟨h.placed.move hmove, first, ?_, hknows.issue hi he⟩
  rw [length_issueInstruction]
  exact hnumber

/-- The micro-op at the front is committed. -/
theorem commit (cfg : SmtConfig) (h : KnowsWindow v) {rest : List RobEntry} (hrob : v.rob = e :: rest) (hdone : e.done ≤ v.now) :
    KnowsWindow (commitEntry e rest v) := by
  obtain ⟨first, hnumber, hknows⟩ := h.known
  have hmove : Move cfg.toConfig v (commitEntry e rest v) := .commit hrob hdone
  have hpos : 0 < v.numInRob := by
    by_contra hzero
    -- micro-ops outside the window are not done
    have htop := h.placed.outside 0 e (by omega) (by rw [hrob]; rfl)
    rw [htop] at hdone
    exact absurd hdone (by simp)
  have hlength : v.rob.length = rest.length + 1 := by rw [hrob, List.length_cons]
  refine ⟨h.placed.move hmove, first + 1, ?_, hknows.commit hrob hpos rfl rfl rfl⟩
  change v.nextSequenceNumber = first + 1 + rest.length
  omega

/-- The issue stage of a thread. -/
theorem issueLoop (h : KnowsWindow v) (n : ℕ) (l : IssueLocals) (hn : n ≤ v.numInRob) :
    KnowsWindow (Rob.issueLoop cfg.toConfig n 0 l v).1 := by
  have hboth := @issueLoop_invariant cfg.toConfig v (fun t => KnowsWindow t ∧ t.numInRob = v.numInRob) v.numInRob
    (fun t i e ht hi he hdone hready => ⟨ht.1.issue (ht.2.symm ▸ hi) he hdone hready, ht.2⟩) n 0 l (by omega) ⟨h, rfl⟩
  exact hboth.1

/-- The commit stage of a thread. -/
theorem commitLoop (h : KnowsWindow v) : KnowsWindow (Rob.commitLoop cfg.toConfig v.rob 0 v) :=
  commitLoop_invariant (fun _ _ _ ht hrob hdone => ht.commit cfg hrob hdone) v.rob 0 rfl h

/-- A micro-op is pushed. -/
theorem push (h : KnowsWindow v) {u : DynamicMicroOp} (hdecoded : u.Decoded) (hrob : v'.rob = v.rob ++ [.init
      { u with sequenceNumber := v.nextSequenceNumber }]) (hnum : v'.numInRob = v.numInRob)
    (hnext : v'.nextSequenceNumber = v.nextSequenceNumber + 1)
    (hregisters : v'.registerDependencies = v.registerDependencies)
    (hmemory : v'.memoryDependencies = v.memoryDependencies) : KnowsWindow v' := by
  obtain ⟨first, hnumber, hknows⟩ := h.known
  have hlength : v'.rob.length = v.rob.length + 1 := by rw [hrob, List.length_append, List.length_singleton]
  refine ⟨⟨?_, ?_⟩, first, ?_, ?_⟩
  · rw [hnum, hlength]
    exact h.placed.inside.trans (Nat.le_succ _)
  · intro i f hi hf
    rw [hnum] at hi
    rw [hrob] at hf
    rcases Nat.lt_or_ge i v.rob.length with hlt | hge
    · rw [List.getElem?_append_left hlt] at hf
      exact h.placed.outside i f hi hf
    · rw [List.getElem?_append_right hge] at hf
      obtain rfl := List.mem_singleton.1 (List.mem_of_getElem? hf)
      rfl
  · omega
  · rw [hnum]
    exact hknows.push (u := { u with sequenceNumber := v.nextSequenceNumber })
      ⟨hdecoded.dependencies, hdecoded.load⟩ hnumber hrob hregisters hmemory

end KnowsWindow

/-- Whatever the other threads do, the tables of a thread know its window. -/
def RobThread.Known (t : RobThread) : Prop := ∀ s : RobSmtTimer, KnowsWindow (s.view t)

/-- The micro-ops that a call brings. -/
def pushed : SmtCall → List DynamicMicroOp
  | .push _ uops => uops.filter fun u => !u.squashed
  | _ => []

namespace RobSmtTimer

variable {cfg : SmtConfig} {s : RobSmtTimer} {t : RobThread}

/-- A stage of a thread that leaves its window known. -/
theorem known_update {v : RobTimer} (h : KnowsWindow v) (nextEvent : Time) :
    (RobThread.update t v nextEvent).Known := fun _ => h.congr rfl rfl rfl rfl rfl

theorem known_pushInstructions (h : t.Known) {uops : List DynamicMicroOp}
    (hdecoded : ∀ u ∈ uops.filter fun u => !u.squashed, u.Decoded) : (uops.foldl pushInstruction t).Known := by
  induction uops generalizing t with
  | nil => exact h
  | cons u uops ih =>
    refine ih ?_ fun u' hu' => hdecoded u' ?_
    · rw [pushInstruction]
      split_ifs with hsquashed
      · exact h
      · have hu := hdecoded u (List.mem_filter.2 ⟨List.mem_cons_self, by simp [hsquashed]⟩)
        exact fun s => (h s).push hu rfl rfl rfl rfl rfl
    · obtain ⟨hmem, hsquashed⟩ := List.mem_filter.1 hu'
      exact List.mem_filter.2 ⟨List.mem_cons_of_mem u hmem, hsquashed⟩

/-- Dispatching from a thread, and the calls of `setDependencies`. -/
theorem known_dispatchLoop (ht : t.Known) (places : ℕ) (next : Time) :
    (∀ x, dispatchLoop cfg places ⟨0, next, t.nextEvent⟩ (s.view t) = .ok x →
      (RobThread.update t x.1 x.2.threadNextEvent).Known) ∧
    ∀ x ∈ dispatchLoopCalls cfg places ⟨0, next, t.nextEvent⟩ (s.view t),
      KnowsWindow x.1 ∧ x.1.rob[x.1.numInRob]? = some x.2 := by
  obtain ⟨hloop, hcalls⟩ := @dispatchLoop_invariant cfg (fun _ v => KnowsWindow v)
    (fun _ v _ _ hv => hv.congr rfl rfl rfl rfl rfl)
    (fun _ _ v e v' e' hv he hset _ _ => hv.dispatch he hset) places ⟨0, next, t.nextEvent⟩ (s.view t) (ht s)
  refine ⟨fun x hx => known_update (hloop x hx) _, fun x hx => ?_⟩
  obtain ⟨⟨-, hknows⟩, he⟩ := hcalls x hx
  exact ⟨hknows, he⟩

theorem known_issueRound (is : List ℕ) (ports : Ports) (next : Time) (hs : s.All RobThread.Known) :
    (issueRound cfg is ports next s).1.All RobThread.Known := by
  induction is generalizing s ports next with
  | nil => exact hs
  | cons i is ih =>
    rw [issueRound]
    cases ht : s.threads[i]? with
    | none => exact ih _ _ hs
    | some t =>
      have hafter : (s.tryIssue cfg i t ports).1.All RobThread.Known :=
        hs.update fun u hu => known_update ((hs i t ht s).issueLoop t.numInRob _ le_rfl) _
      dsimp only
      split_ifs
      · exact ih _ _ hs
      · exact hafter
      · exact ih _ _ hafter

theorem known_doCommit (hs : s.All RobThread.Known) : (s.doCommit cfg).1.All RobThread.Known := by
  change ((List.range s.threads.length).foldl (commitThread cfg) s).All RobThread.Known
  generalize List.range s.threads.length = l
  induction l generalizing s with
  | nil => exact hs
  | cons i l ih =>
    refine ih ?_
    rw [commitThread]
    cases ht : s.threads[i]? with
    | none => exact hs
    | some t => exact hs.update fun u hu => known_update (hs i t ht s).commitLoop _

/-- In a new core nothing is to be known. -/
theorem known_new (cfg : SmtConfig) : (new cfg).All RobThread.Known := by
  intro i t ht
  have hthreads : (new cfg).threads = List.replicate cfg.numThreads .new := by
    rw [new, computeCurrentWindowsize]
    split_ifs <;> rfl
  rw [hthreads] at ht
  obtain rfl := List.eq_of_mem_replicate (List.mem_of_getElem? ht)
  refine fun s => ⟨⟨le_rfl, fun _ _ _ h => absurd h (by simp [view, RobThread.new])⟩, 0, rfl, ?_⟩
  exact ⟨rfl, le_rfl, fun _ _ _ h => absurd h (by simp [view, RobThread.new]), fun _ h => absurd h List.not_mem_nil,
    [], 0, le_rfl, .new 0, rfl⟩

/-- Every call keeps the windows known, and they are known whenever dependencies are set. -/
theorem known_call (hs : s.All RobThread.Known) {call : SmtCall} (hdecoded : ∀ u ∈ pushed call, u.Decoded) :
    (∀ s', s.call cfg call = .ok s' → s'.All RobThread.Known) ∧
      ∀ x ∈ s.dependencyCalls cfg call, KnowsWindow x.1 ∧ x.1.rob[x.1.numInRob]? = some x.2 := by
  cases call with
  | push i uops =>
    refine ⟨fun s' hs' => ?_, fun x hx => absurd hx List.not_mem_nil⟩
    cases hs'
    exact hs.modify fun t ht => known_pushInstructions ht hdecoded
  | execute =>
    rw [RobSmtTimer.call, execute, dependencyCalls]
    by_cases hexecute : s.canExecute cfg = true
    · rw [if_pos hexecute, if_pos hexecute]
      obtain ⟨hround, hcalls⟩ := dispatchRound_invariant (Q := RobThread.Known)
        (R := fun x => KnowsWindow x.1 ∧ x.1.rob[x.1.numInRob]? = some x.2)
        (fun s t places next ht => known_dispatchLoop ht places next) (s.order s.dispatchThread) ⊤ s hs
      refine ⟨fun s' hs' => ?_, hcalls⟩
      obtain ⟨⟨a, nextDispatch⟩, ha, hs'⟩ := exists_of_bind_ok hs'
      obtain ⟨⟨b, dispatched, next⟩, hb, ha⟩ := exists_of_bind_ok ha
      cases ha
      cases hs'
      obtain ⟨hdispatched, -⟩ := hround _ hb
      exact known_doCommit (known_issueRound _ _ _ hdispatched)
    · rw [if_neg hexecute, if_neg hexecute]
      refine ⟨fun s' hs' => ?_, fun x hx => absurd hx List.not_mem_nil⟩
      cases hs'
      exact hs
  | returnLatency i =>
    refine ⟨fun s' hs' => ?_, fun x hx => absurd hx List.not_mem_nil⟩
    cases hs'
    exact hs.modify fun t ht s => (ht s).congr rfl rfl rfl rfl rfl
  | synchronize i time =>
    refine ⟨fun s' hs' => ?_, fun x hx => absurd hx List.not_mem_nil⟩
    cases hs'
    exact hs.modify fun t ht s => (ht s).congr rfl rfl rfl rfl rfl
  | setRunning i running =>
    refine ⟨fun s' hs' => ?_, fun x hx => absurd hx List.not_mem_nil⟩
    cases hs'
    have hthreads (s : RobSmtTimer) : (s.computeCurrentWindowsize cfg).threads = s.threads := by
      rw [computeCurrentWindowsize]
      split_ifs <;> rfl
    rw [setRunning, All, hthreads]
    exact hs.modify fun t ht s => (ht s).congr rfl rfl rfl rfl rfl

end RobSmtTimer

end LifeSim.Rob
