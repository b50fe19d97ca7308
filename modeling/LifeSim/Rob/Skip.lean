import LifeSim.Lib.Stutter
import LifeSim.Rob.Safety

/-!
# Skipping cycles is exact

`Idle` says that a timer has nothing to do before a certain cycle. Whenever the stages of a cycle agree that the next
event is later than the next cycle, the timer is idle until then: a cycle in which anything issues or commits has
an event in the past, and after a dispatch either the window is full or the front-end's own time counts.

A simulation that goes through the idle cycles one by one may ask for new micro-ops earlier than one that skips them. What
enters the buffer in an idle cycle does not depend on the cycle, so that both simulations meet again.
-/

namespace LifeSim.Rob

open LifeSim.Lib

variable {cfg : Config} {s : RobTimer} {limit : Time}

/-! ### Idle timers -/

/-- Nothing is considered after the first entry that does not issue. -/
def Config.OnlyFirst (cfg : Config) : Prop :=
  cfg.inorder = true ∨ (cfg.issueContention = false ∧ cfg.dispatchWidth = 0)

/-- The entry is through, or not ready before the limit, or behind an entry that is not and that it must wait for. -/
def Held (cfg : Config) (limit : Time) (rob : List RobEntry) (i : ℕ) : Prop :=
  ∀ e, rob[i]? = some e → e.done ≠ ⊤ ∨ limit ≤ e.ready ∨
    (cfg.OnlyFirst ∧ ∃ j < i, ∃ e', rob[j]? = some e' ∧ e'.done = ⊤ ∧ limit ≤ e'.ready)

/-- No stage has anything to do before the limit. -/
structure Idle (cfg : Config) (limit : Time) (s : RobTimer) : Prop where
  frontend : s.numInRob = cfg.windowSize ∨ limit ≤ s.frontendStalledUntil
  held : ∀ i < s.numInRob, Held cfg limit s.rob i
  front : ∀ e, s.rob.head? = some e → limit ≤ e.done

/-- Dispatch has nothing to do. -/
theorem Idle.doDispatch (h : Idle cfg limit s) (hnow : (s.now : Time) < limit) : (doDispatch cfg s).1 = s := by
  rw [Rob.doDispatch]
  rcases h.frontend with hfull | hstalled
  · rw [hfull, Nat.sub_self]
    by_cases hfrontend : s.frontendStalledUntil ≤ s.now
    · rw [if_pos hfrontend]
      rfl
    · rw [if_neg hfrontend]
  · rw [if_neg (not_le_of_gt (lt_of_lt_of_le hnow hstalled))]

/-- The loop of `doIssue` passes entries that are held. -/
theorem issueLoop_held {n i : ℕ} {l : IssueLocals} (hnow : (s.now : Time) < limit)
    (hheld : ∀ k < i + n, Held cfg limit s.rob k)
    (hfirst : cfg.OnlyFirst → ∀ k < i, ∀ e, s.rob[k]? = some e → e.done ≠ ⊤) (hissued : l.numIssued = 0) :
    (issueLoop cfg n i l s).1 = s ∧ (issueLoop cfg n i l s).2.numIssued = 0 := by
  induction n generalizing i l with
  | zero => exact ⟨rfl, hissued⟩
  | succ n ih =>
    rw [issueLoop]
    cases he : s.rob[i]? with
    | none => exact ⟨rfl, hissued⟩
    | some e =>
      dsimp only
      by_cases hdone : e.done = ⊤
      · have hready : limit ≤ e.ready := by
          rcases hheld i (by omega) e he with hne | hready | ⟨honly, j, hj, e', he', hdone', -⟩
          · exact absurd hdone hne
          · exact hready
          · exact absurd hdone' (hfirst honly j hj e' he')
        rw [if_neg (not_not.2 hdone), canIssue_notReady (lt_of_lt_of_le hnow hready)]
        dsimp only
        split
        · exact ⟨rfl, hissued⟩
        · rename_i hgo
          refine ih (fun k hk => hheld k (by omega)) (fun honly => ?_) hissued
          -- the loop would have ended here
          rw [noMore, Bool.or_eq_true, not_or] at hgo
          rcases honly with hinorder | ⟨hcontention, hwidth⟩
          · exact absurd hinorder hgo.1
          · simp [hcontention, hwidth, hissued] at hgo
      · rw [if_pos hdone]
        refine ih (fun k hk => hheld k (by omega)) (fun honly k hk e' he' => ?_) hissued
        rcases Nat.lt_succ_iff_lt_or_eq.1 hk with hlt | rfl
        · exact hfirst honly k hlt e' he'
        · rw [he] at he'
          exact Option.some.inj he' ▸ hdone

/-- Issue has nothing to do. -/
theorem Idle.doIssue (h : Idle cfg limit s) (hnow : (s.now : Time) < limit) : (doIssue cfg s).1 = s := by
  refine (issueLoop_held hnow (fun k hk => h.held k ?_) (fun _ k hk => absurd hk (Nat.not_lt_zero k)) rfl).1
  rwa [Nat.zero_add] at hk

/-- Commit has nothing to do. -/
theorem Idle.doCommit (h : Idle cfg limit s) (hnow : (s.now : Time) < limit) : (doCommit cfg s).1 = s := by
  rw [Rob.doCommit]
  cases hrob : s.rob with
  | nil => rfl
  | cons e rest =>
    have hdone := h.front e (by rw [hrob]; rfl)
    rw [commitLoop, if_neg (not_le_of_gt (lt_of_lt_of_le hnow hdone))]

/-- An idle cycle changes nothing. -/
theorem Idle.cycle (h : Idle cfg limit s) (hnow : (s.now : Time) < limit) : (cycle cfg s).1 = s := by
  simp only [Rob.cycle, h.doDispatch hnow, h.doIssue hnow, h.doCommit hnow]

/-! ### A cycle without events -/

/-- Structural hazards and waiting say nothing about the next event. -/
theorem tryIssue_nextEvent (e : RobEntry) (l : IssueLocals) :
    (tryIssue cfg s e (canIssue cfg s e l)).2.nextEvent = l.nextEvent := by
  have hcan : (canIssue cfg s e l).2.nextEvent = l.nextEvent := by
    rw [canIssue]
    split_ifs <;> rfl
  rw [tryIssue]
  split
  · split_ifs
    · exact hcan
    · exact hcan
  · exact hcan

/-- The next event only gets earlier in the course of `doIssue`, and it is not later than an entry that is not done
becomes ready. -/
theorem issueLoop_le (n i : ℕ) (l : IssueLocals) : (issueLoop cfg n i l s).2.nextEvent ≤ l.nextEvent ∧
    ∀ e, 0 < n → s.rob[i]? = some e → e.done = ⊤ → (issueLoop cfg n i l s).2.nextEvent ≤ e.ready := by
  induction n generalizing i l s with
  | zero => exact ⟨le_refl _, fun _ hpos => absurd hpos (lt_irrefl 0)⟩
  | succ n ih =>
    rw [issueLoop]
    cases he : s.rob[i]? with
    | none => exact ⟨le_refl _, fun _ _ h => by cases h⟩
    | some e =>
      dsimp only
      by_cases hdone : e.done = ⊤
      · rw [if_neg (not_not.2 hdone)]
        have hnext := @tryIssue_nextEvent cfg s e { l with nextEvent := min l.nextEvent e.ready }
        suffices hmin : _ ≤ min l.nextEvent e.ready from
          ⟨hmin.trans (min_le_left _ _), fun e' _ he' _ => Option.some.inj he' ▸ hmin.trans (min_le_right _ _)⟩
        split
        · rename_i l' hdecision
          rw [hdecision] at hnext
          exact le_of_eq hnext
        · rename_i l' hdecision
          rw [hdecision] at hnext
          have hissue : min l'.nextEvent (issueInstruction cfg i e s).2 ≤ min l.nextEvent e.ready :=
            (min_le_left _ _).trans (le_of_eq hnext)
          split_ifs
          · exact hissue
          · exact (ih _ _).1.trans hissue
        · rename_i l' hdecision
          rw [hdecision] at hnext
          split_ifs
          · exact le_of_eq hnext
          · exact (ih _ _).1.trans (le_of_eq hnext)
      · rw [if_pos hdone]
        refine ⟨(ih _ _).1.trans (min_le_left _ _), fun e' _ he' hdone' => ?_⟩
        cases he'
        exact absurd hdone' hdone

/-- The entry has no event before the limit, or is behind an entry that has none and that it must wait for. -/
def Quiet (cfg : Config) (limit : Time) (rob : List RobEntry) (first i : ℕ) : Prop :=
  ∀ e, rob[i]? = some e → (e.done ≠ ⊤ ∧ limit ≤ e.done) ∨ (e.done = ⊤ ∧ limit ≤ e.ready) ∨
    (cfg.OnlyFirst ∧ ∃ j, first ≤ j ∧ j < i ∧ ∃ e', rob[j]? = some e' ∧ e'.done = ⊤ ∧ limit ≤ e'.ready)

/-- If the next event is not before the limit, nothing has issued and all entries are quiet. -/
theorem issueLoop_quiet {n i : ℕ} {l : IssueLocals} (hnow : (s.now : Time) < limit)
    (hlimit : limit ≤ (issueLoop cfg n i l s).2.nextEvent) (hissued : l.numIssued = 0)
    (hports : cfg.issueContention = true → cfg.inorder = true ∨ l.ports.noMore = false) :
    (issueLoop cfg n i l s).1 = s ∧ ∀ k, i ≤ k → k < i + n → Quiet cfg limit s.rob i k := by
  induction n generalizing i l with
  | zero => exact ⟨rfl, fun k hge hlt => by omega⟩
  | succ n ih =>
    have hready := (@issueLoop_le cfg s (n + 1) i l).2
    rw [issueLoop] at hlimit hready ⊢
    cases he : s.rob[i]? with
    | none =>
      refine ⟨rfl, fun k hge hlt e' he' => ?_⟩
      -- there are no entries behind the end
      have hend := List.getElem?_eq_none_iff.1 he
      rw [List.getElem?_eq_none (by omega)] at he'
      cases he'
    | some e =>
      simp only [he] at hlimit hready
      dsimp only
      have hrest (hgo : ∀ k, i + 1 ≤ k → k < i + 1 + n → Quiet cfg limit s.rob (i + 1) k)
          (hhere : Quiet cfg limit s.rob i i) : ∀ k, i ≤ k → k < i + (n + 1) → Quiet cfg limit s.rob i k := by
        intro k hge hlt
        rcases Nat.eq_or_lt_of_le hge with rfl | hgt
        · exact hhere
        · intro e' he'
          rcases hgo k hgt (by omega) e' he' with hdone | hready | ⟨honly, j, hj, hrest⟩
          · exact .inl hdone
          · exact .inr (.inl hready)
          · exact .inr (.inr ⟨honly, j, by omega, hrest⟩)
      by_cases hdone : e.done = ⊤
      · have hlate := hlimit.trans (hready e (Nat.succ_pos n) rfl hdone)
        have hhere : Quiet cfg limit s.rob i i := by
          intro e' he'
          rw [he] at he'
          cases he'
          exact .inr (.inl ⟨hdone, hlate⟩)
        rw [if_neg (not_not.2 hdone), canIssue_notReady (lt_of_lt_of_le hnow hlate)] at hlimit ⊢
        dsimp only at hlimit ⊢
        split_ifs at hlimit ⊢ with hstop
        · refine ⟨rfl, fun k hge hlt => ?_⟩
          rcases Nat.eq_or_lt_of_le hge with rfl | hgt
          · exact hhere
          · refine fun e' _ => .inr (.inr ⟨?_, i, le_refl i, hgt, e, he, hdone, hlate⟩)
            rcases Bool.or_eq_true_iff.1 hstop with hinorder | hmore
            · exact .inl hinorder
            · rw [noMore] at hmore
              cases hcontention : cfg.issueContention with
              | true =>
                refine .inl ((hports hcontention).resolve_right fun hfree => ?_)
                simp [hcontention, hfree] at hmore
              | false => exact .inr ⟨hcontention, by simpa [hcontention, hissued, eq_comm] using hmore⟩
        · obtain ⟨hsame, hgo⟩ := ih hlimit hissued hports
          exact ⟨hsame, hrest hgo hhere⟩
      · rw [if_pos hdone] at hlimit ⊢
        obtain ⟨hsame, hgo⟩ := ih hlimit hissued hports
        refine ⟨hsame, hrest hgo fun e' he' => ?_⟩
        rw [he] at he'
        cases he'
        exact .inl ⟨hdone, hlimit.trans ((issueLoop_le _ _ _).1.trans (min_le_right _ _))⟩

/-- Time does not pass in the course of a cycle. -/
theorem doDispatch_now : (doDispatch cfg s).1.now = s.now := by
  have hloop (places dispatched : ℕ) (next : Time) (s : RobTimer) :
      (dispatchLoop cfg places dispatched next s).1.now = s.now := by
    induction places generalizing dispatched next s with
    | zero => rfl
    | succ places ih =>
      rw [dispatchLoop]
      cases s.rob[s.numInRob]? with
      | none => rfl
      | some e =>
        dsimp only
        split_ifs <;> first | rfl | exact ih _ _ _
  rw [doDispatch]
  by_cases hfrontend : s.frontendStalledUntil ≤ s.now
  · rw [if_pos hfrontend]
    exact hloop _ _ _ _
  · rw [if_neg hfrontend]

theorem doIssue_now : (doIssue cfg s).1.now = s.now := by
  have hloop (n i : ℕ) (l : IssueLocals) (s : RobTimer) : (issueLoop cfg n i l s).1.now = s.now := by
    induction n generalizing i l s with
    | zero => rfl
    | succ n ih =>
      rw [issueLoop]
      cases s.rob[i]? with
      | none => rfl
      | some e =>
        dsimp only
        split_ifs
        · exact ih _ _ _
        · split
          · rfl
          · split_ifs
            · rfl
            · exact ih _ _ (issueInstruction cfg i e s).1
          · split_ifs
            · rfl
            · exact ih _ _ _
  exact hloop _ _ _ _

theorem doCommit_now : (doCommit cfg s).1.now = s.now := by
  have hloop (rob : List RobEntry) (committed : ℕ) (s : RobTimer) : (commitLoop cfg rob committed s).now = s.now := by
    induction rob generalizing committed s with
    | nil => rfl
    | cons e rest ih =>
      rw [commitLoop]
      split_ifs
      · rfl
      · exact ih _ (commitEntry e rest s)
      · rfl
  exact hloop _ _ _

theorem cycle_now : (cycle cfg s).1.now = s.now :=
  doCommit_now.trans (doIssue_now.trans doDispatch_now)

/-- If no stage has an event before the limit, the timer is idle until then. -/
theorem cycle_idle (hplaced : Placed s) (hnow : (s.now : Time) < limit) (hlimit : limit ≤ (cycle cfg s).2) :
    Idle cfg limit (cycle cfg s).1 := by
  have hplaced' := hplaced.moves (@doDispatch_moves cfg s)
  have hdispatch : limit ≤ (doDispatch cfg s).2 := hlimit.trans (min_le_left _ _)
  have hissue : limit ≤ (doIssue cfg (doDispatch cfg s).1).2 :=
    hlimit.trans ((min_le_right _ _).trans (min_le_left _ _))
  have hcycle : (cycle cfg s).1 = (doCommit cfg (doIssue cfg (doDispatch cfg s).1).1).1 := rfl
  have hfrontend : (doDispatch cfg s).1.numInRob = cfg.windowSize ∨
      limit ≤ (doDispatch cfg s).1.frontendStalledUntil := by
    by_cases hfull : (doDispatch cfg s).1.numInRob = cfg.windowSize
    · exact .inl hfull
    · have hresult : (doDispatch cfg s).2 ≤ (doDispatch cfg s).1.frontendStalledUntil := by
        have hmin : (doDispatch cfg s).2 = min (doDispatch cfg s).1.frontendStalledUntil _ := if_neg hfull
        exact hmin ▸ min_le_left _ _
      exact .inr (hdispatch.trans hresult)
  have hnow' : ((doDispatch cfg s).1.now : Time) < limit := by
    rw [doDispatch_now]
    exact hnow
  rw [hcycle]
  generalize (doDispatch cfg s).1 = t at *
  obtain ⟨hsame, hquiet⟩ := issueLoop_quiet hnow' hissue rfl fun _ => .inr rfl
  have hissued : (doIssue cfg t).1 = t := hsame
  rw [hissued]
  -- an entry that could be committed would be an event in the past
  have hfirst : ∀ e, t.rob.head? = some e → limit ≤ e.done := by
    intro e he
    by_cases hpos : 0 < t.numInRob
    · rcases hquiet 0 (le_refl 0) (by omega) e (by rwa [← List.head?_eq_getElem?]) with
        ⟨-, hdone⟩ | ⟨hdone, -⟩ | ⟨-, j, -, hj, -⟩
      · exact hdone
      · exact hdone ▸ le_top
      · exact absurd hj (Nat.not_lt_zero j)
    · rw [hplaced'.outside 0 e (by omega) (by rwa [← List.head?_eq_getElem?])]
      exact le_top
  have hidle : Idle cfg limit t := by
    refine ⟨hfrontend, fun i hi e he => ?_, hfirst⟩
    rcases hquiet i (Nat.zero_le i) (by omega) e he with ⟨hdone, -⟩ | ⟨-, hready⟩ | ⟨honly, j, -, hj, hentry⟩
    · exact .inl hdone
    · exact .inr (.inl hready)
    · exact .inr (.inr ⟨honly, j, hj, hentry⟩)
  rw [hidle.doCommit hnow']
  exact hidle

/-! ### Entering at another time -/

/-- What enters does not depend on the cycle. -/
theorem addAddressProducer_withNow (now front : ℕ) :
    addAddressProducer { s with now := now } front = addAddressProducer s front := by
  funext e reg
  rfl

theorem enter_withNow (now : ℕ) (u : DynamicMicroOp) :
    enter cfg { s with now := now } u = (enter cfg s u).map fun s' => { s' with now := now } := by
  have haddress (front : ℕ) (e : RobEntry) : setAddress { s with now := now } front e = setAddress s front e := by
    simp only [setAddress, addAddressProducer_withNow]
  have hdepend (front : ℕ) (e : RobEntry) : depend cfg { s with now := now } front e = depend cfg s front e := rfl
  rw [enter, enter]
  split_ifs
  · rfl
  · simp only [haddress, hdepend, map_bind_eq]
    rfl

theorem foldlM_enter_withNow (now : ℕ) (uops : List DynamicMicroOp) :
    uops.foldlM (enter cfg) { s with now := now } = (uops.foldlM (enter cfg) s).map fun s' => { s' with now := now } := by
  induction uops generalizing s with
  | nil => rfl
  | cons u uops ih =>
    rw [List.foldlM_cons, List.foldlM_cons, enter_withNow]
    cases enter cfg s u with
    | error fault => rfl
    | ok s' => exact ih

/-- Being held is a matter of when the entries are done and ready. -/
theorem Held.congr {rob rob' : List RobEntry} {i : ℕ} (h : Held cfg limit rob i)
    (hsame : ∀ j ≤ i, rob'[j]?.map RobEntry.forget = rob[j]?.map RobEntry.forget) : Held cfg limit rob' i := by
  intro e' he'
  have hi := hsame i (le_refl i)
  rw [he', Option.map_some, eq_comm, Option.map_eq_some_iff] at hi
  obtain ⟨e, he, hforget⟩ := hi
  have hdone : e.done = e'.done := RobEntry.done_eq_of_forget hforget
  have hready : e.ready = e'.ready := RobEntry.ready_eq_of_forget hforget
  rw [← hdone, ← hready]
  rcases h e he with hd | hr | ⟨honly, j, hj, f, hf, hfdone, hfready⟩
  · exact .inl hd
  · exact .inr (.inl hr)
  · have hjsame := hsame j hj.le
    rw [hf, Option.map_some, Option.map_eq_some_iff] at hjsame
    obtain ⟨f', hf', hforget'⟩ := hjsame
    have hfdone' : f'.done = f.done := RobEntry.done_eq_of_forget hforget'
    have hfready' : f'.ready = f.ready := RobEntry.ready_eq_of_forget hforget'
    exact .inr (.inr ⟨honly, j, hj, f', hf', hfdone'.trans hfdone, hfready' ▸ hfready⟩)

/-- A timer stays idle when a micro-op enters. -/
theorem Idle.enter (h : Idle cfg limit s) (hplaced : Placed s) {u : DynamicMicroOp} {s' : RobTimer}
    (henter : Rob.enter cfg s u = .ok s') : Idle cfg limit s' := by
  have hentered := enter_cases henter
  obtain ⟨hwindow, -, -, hstalled, -⟩ := hentered.rest
  by_cases hsquashed : u.squashed = true
  · have hsame : Rob.enter cfg s u = .ok s := if_pos hsquashed
    cases hsame.symm.trans henter
    exact h
  · obtain ⟨rob, e, hrob, hforget, hdone⟩ := hentered.rob (Bool.eq_false_of_not_eq_true hsquashed)
    have hlength : rob.length = s.rob.length := by
      simpa using congrArg List.length hforget
    have hsame (j : ℕ) : rob[j]?.map RobEntry.forget = s.rob[j]?.map RobEntry.forget := by
      rw [← List.getElem?_map, ← List.getElem?_map, hforget]
    constructor
    · rw [hwindow, hstalled]
      exact h.frontend
    · intro i hi
      rw [hwindow] at hi
      have hinside := hplaced.inside
      rw [hrob]
      refine (h.held i hi).congr fun j hj => ?_
      rw [List.getElem?_append_left (by omega)]
      exact hsame j
    · intro e' he'
      rw [hrob] at he'
      cases hnil : rob with
      | nil =>
        rw [hnil] at he'
        cases he'
        exact hdone ▸ le_top
      | cons first rest =>
        rw [hnil, List.cons_append, List.head?_cons, Option.some.injEq] at he'
        subst he'
        have hfirst := hsame 0
        rw [hnil, List.getElem?_cons_zero, Option.map_some, eq_comm, Option.map_eq_some_iff] at hfirst
        obtain ⟨f, hf, hfirst⟩ := hfirst
        rw [← RobEntry.done_eq_of_forget hfirst]
        exact h.front f (by rwa [List.head?_eq_getElem?])

/-- What several micro-ops that enter keep. -/
theorem enters_keep (limit : Time) {uops : List DynamicMicroOp} {s' : RobTimer} (hplaced : Placed s)
    (h : uops.foldlM (enter cfg) s = .ok s') : Placed s' ∧ s'.now = s.now ∧ (Idle cfg limit s → Idle cfg limit s') := by
  refine foldlM_ok_invariant
    (P := fun t => Placed t ∧ t.now = s.now ∧ (Idle cfg limit s → Idle cfg limit t)) (fun t u t' ht henter => ?_)
    ⟨hplaced, rfl, id⟩ h
  obtain ⟨-, -, hnow, -⟩ := (enter_cases henter).rest
  exact ⟨ht.1.enter henter, hnow.trans ht.2.1, fun hidle => (ht.2.2 hidle).enter ht.1 henter⟩

/-! ### Two simulations -/

theorem advance_false (now : ℕ) (next : Time) : advance false now next = now + 1 := by
  rw [advance.eq_def]
  split
  · rfl
  · rw [if_neg (by simp)]

/-- With skipping time goes to the next event, or to the next cycle. -/
theorem advance_true (now : ℕ) (next : Time) :
    advance true now next = now + 1 ∨ (now + 1 < advance true now next ∧ (advance true now next : Time) = next) := by
  rw [advance.eq_def]
  split
  · exact .inl rfl
  · split_ifs with hskip
    · exact .inr ⟨hskip.2, rfl⟩
    · exact .inl rfl

/-- One simulation is in an earlier cycle of the time in which the other one is idle. -/
structure Behind (cfg : Config) (x y : Simulation) : Prop where
  calls : y.calls = x.calls
  timer : y.timer = { x.timer with now := y.timer.now }
  now : y.timer.now ≤ x.timer.now
  placed : Placed x.timer
  idle : y.timer.now < x.timer.now → Idle cfg x.timer.now x.timer

namespace Behind

variable {x y : Simulation}

theorem refl (hplaced : Placed x.timer) : Behind cfg x x :=
  ⟨rfl, rfl, le_refl _, hplaced, fun h => absurd h (lt_irrefl _)⟩

/-- If the simulation that is behind is starved, so is the other one. -/
theorem starved (h : Behind cfg x y) (hy : y.timer.Starved cfg) : x.timer.Starved cfg := by
  obtain ⟨hstalled, hlength⟩ := hy
  rw [h.timer] at hstalled hlength
  exact ⟨le_trans hstalled (by exact_mod_cast h.now), hlength⟩

/-- Both ask for micro-ops, and both stop if a micro-op cannot enter. -/
theorem feed (h : Behind cfg x y) : Agree (Behind cfg) (x.feed cfg) (y.feed cfg) := by
  rw [Simulation.feed, Simulation.feed, h.calls]
  cases x.calls with
  | nil => exact h
  | cons uops calls =>
    have htimer : uops.foldlM (enter cfg) y.timer =
        (uops.foldlM (enter cfg) x.timer).map fun s => { s with now := y.timer.now } := by
      rw [← foldlM_enter_withNow, ← h.timer]
    dsimp only
    rw [htimer]
    cases henters : uops.foldlM (enter cfg) x.timer with
    | error fault => rfl
    | ok s =>
      obtain ⟨hplaced, hnow, hidle⟩ := enters_keep x.timer.now h.placed henters
      refine ⟨rfl, rfl, ?_, hplaced, fun hlt => ?_⟩
      · exact h.now.trans (le_of_eq hnow.symm)
      · change y.timer.now < s.now at hlt
        change Idle cfg s.now s
        rw [hnow] at hlt ⊢
        exact hidle (h.idle hlt)

/-- One that is behind goes through an idle cycle. -/
theorem idleStep (h : Behind cfg x y) (hlt : y.timer.now < x.timer.now) (hy : ¬ y.timer.Starved cfg) :
    ∃ y', step cfg false y = .ok y' ∧ Behind cfg x y' ∧ y'.timer.now = y.timer.now + 1 := by
  have hidle : Idle cfg x.timer.now y.timer := by
    rw [h.timer]
    obtain ⟨hfrontend, hheld, hfront⟩ := h.idle hlt
    exact ⟨hfrontend, hheld, hfront⟩
  have hcycle := hidle.cycle (by exact_mod_cast hlt)
  have hexecute : execute cfg false y.timer = { y.timer with now := y.timer.now + 1 } := by
    rw [execute, if_neg hy]
    dsimp only
    rw [hcycle, advance_false]
  rw [step, if_neg hy, hexecute]
  refine ⟨_, rfl, ⟨h.calls, ?_, hlt, h.placed, fun _ => h.idle hlt⟩, rfl⟩
  dsimp only
  rw [h.timer]

/-- Both execute the same cycle. -/
theorem bothStep (h : Behind cfg x y) (heq : y.timer.now = x.timer.now) (hx : ¬ x.timer.Starved cfg) :
    Agree (Behind cfg) (step cfg true x) (step cfg false y) := by
  have htimer : y.timer = x.timer := by
    rw [h.timer, heq]
  rw [step, step, htimer, if_neg hx, if_neg hx, execute, execute, if_neg hx, if_neg hx]
  have hplaced := h.placed.moves (@cycle_moves cfg x.timer)
  have hnow := @cycle_now cfg x.timer
  have hidle (limit : Time) : _ → _ → Idle cfg limit (cycle cfg x.timer).1 := cycle_idle h.placed
  generalize cycle cfg x.timer = result at *
  obtain ⟨s, next⟩ := result
  dsimp only at hplaced hnow hidle ⊢
  have hfast := advance_true s.now next
  rw [advance_false]
  refine ⟨h.calls, rfl, ?_, ⟨hplaced.inside, hplaced.outside⟩, fun hlt => ?_⟩
  · change s.now + 1 ≤ advance true s.now next
    omega
  · change s.now + 1 < advance true s.now next at hlt
    rcases hfast with hone | ⟨_, hnext⟩
    · omega
    · have hlater : (x.timer.now : Time) < (advance true s.now next : ℕ) := by
        exact_mod_cast (by omega : x.timer.now < advance true s.now next)
      obtain ⟨hfrontend, hheld, hfront⟩ := hidle _ hlater (le_of_eq hnext)
      exact ⟨hfrontend, hheld, hfront⟩

/-- One that is behind catches up, or it asks for micro-ops on the way. -/
theorem catchUp (h : Behind cfg x y) : ∃ n y', (fun z => z >>= step cfg false)^[n] (.ok y) = .ok y' ∧
    Behind cfg x y' ∧ (y'.timer.now = x.timer.now ∨ y'.timer.Starved cfg) := by
  induction hd : x.timer.now - y.timer.now generalizing y with
  | zero =>
    have hnow := h.now
    exact ⟨0, y, rfl, h, .inl (by omega)⟩
  | succ d ih =>
    by_cases hy : y.timer.Starved cfg
    · exact ⟨0, y, rfl, h, .inr hy⟩
    · obtain ⟨y', hstep, hbehind, hnow⟩ := h.idleStep (by omega) hy
      obtain ⟨n, z, hz, hrest⟩ := ih hbehind (by omega)
      refine ⟨n + 1, z, ?_, hrest⟩
      rw [Function.iterate_succ_apply, ok_bind, hstep]
      exact hz

/-- Each step of one simulation is matched by steps of the other. -/
theorem stuttering (cfg : Config) : Lib.Stuttering (fun x => x >>= step cfg true) (fun y => y >>= step cfg false)
    (fun x => x.map fun x => x.timer.log) (fun y => y.map fun y => y.timer.log) (Agree (Behind cfg)) where
  same x y h := h.map_eq fun x y h => by rw [h.timer]
  left x y h := by
    obtain ⟨x, y, rfl, rfl, h⟩ | ⟨fault, rfl, rfl⟩ := h.cases
    · obtain ⟨n, y', hy', hbehind, hstop⟩ := h.catchUp
      refine ⟨n + 1, ?_⟩
      rw [Function.iterate_succ_apply', hy', ok_bind, ok_bind]
      by_cases hx : x.timer.Starved cfg
      · by_cases hy : y'.timer.Starved cfg
        · rw [step, if_pos hx, step, if_pos hy]
          exact hbehind.feed
        · have heq := hstop.resolve_right hy
          have htimer : y'.timer = x.timer := by
            rw [hbehind.timer, heq]
          exact absurd (htimer ▸ hx) hy
      · exact hbehind.bothStep (hstop.resolve_right fun hy => hx (hbehind.starved hy)) hx
    · exact ⟨0, rfl⟩
  right x y h := by
    obtain ⟨x, y, rfl, rfl, h⟩ | ⟨fault, rfl, rfl⟩ := h.cases
    · by_cases hy : y.timer.Starved cfg
      · refine ⟨1, ?_⟩
        rw [Function.iterate_one, ok_bind, ok_bind, step, if_pos (h.starved hy), step, if_pos hy]
        exact h.feed
      · rcases Nat.lt_or_eq_of_le h.now with hlt | heq
        · obtain ⟨y', hstep, hbehind, -⟩ := h.idleStep hlt hy
          refine ⟨0, ?_⟩
          rw [ok_bind, hstep]
          exact hbehind
        · have htimer : y.timer = x.timer := by
            rw [h.timer, heq]
          exact ⟨1, h.bothStep heq (htimer ▸ hy)⟩
    · exact ⟨0, rfl⟩

end Behind

/-! ### Whole simulations -/

/-- The log of a simulation after a number of steps, or the fault with which it has ended. -/
def logAfter (cfg : Config) (skipping : Bool) (calls : List (List DynamicMicroOp)) (n : ℕ) : Except Fault (List Event) :=
  (simulation cfg skipping calls n).map fun x => x.timer.log

/-- An event happens in a simulation of some calls. -/
def Happens (cfg : Config) (skipping : Bool) (calls : List (List DynamicMicroOp)) (event : Event) : Prop :=
  ∃ n log, logAfter cfg skipping calls n = .ok log ∧ event ∈ log

/-- Each micro-op of the next call of `simulate` enters when at most eight of those that it waits for have issued. -/
def Simulation.FewIssued (cfg : Config) (x : Simulation) : Prop :=
  (Rob.timer cfg true).Guarded (fun s call => ∀ u ∈ entered call, Rob.FewIssued cfg s u) x.timer
    ((x.calls.head?.getD []).map Call.enter)

/-- What holds in the course of a simulation. -/
structure Simulation.Steady (cfg : Config) (x : Simulation) : Prop where
  timer : Rob.Steady cfg x.timer
  decoded : ∀ uops ∈ x.calls, ∀ u ∈ uops, u.Decoded

/-- The micro-ops of a call enter one after another. -/
theorem run_enter (skipping : Bool) (uops : List DynamicMicroOp) (s : RobTimer) :
    (timer cfg skipping).run s (uops.map Call.enter) = uops.foldlM (enter cfg) s := by
  induction uops generalizing s with
  | nil => rfl
  | cons u uops ih =>
    have hstep : (timer cfg skipping).step s (.enter u) = enter cfg s u := rfl
    rw [List.map_cons, Machine.run, List.foldlM_cons, hstep]
    cases enter cfg s u with
    | error fault => rfl
    | ok s' => exact ih s'

/-- One step of a simulation. -/
theorem Simulation.Steady.step {x : Simulation} (h : x.Steady cfg) {skipping : Bool} :
    (∀ x', Rob.step cfg skipping x = .ok x' → x'.Steady cfg) ∧
      ((x.timer.Starved cfg → x.FewIssued cfg) → Rob.step cfg skipping x ≠ .error .depsToRemove) := by
  rw [Rob.step]
  split_ifs with hstarved
  · rw [Simulation.feed]
    have hdecoded := h.decoded
    cases hcalls : x.calls with
    | nil => exact ⟨fun x' hx' => by cases hx'; exact h, fun _ hfault => by cases hfault⟩
    | cons uops calls =>
      rw [hcalls] at hdecoded
      have huops : ∀ call ∈ uops.map Call.enter, ∀ u ∈ entered call, u.Decoded := by
        intro call hcall u hu
        obtain ⟨v, hv, rfl⟩ := List.mem_map.1 hcall
        rw [entered] at hu
        split_ifs at hu
        · cases hu
        · exact List.mem_singleton.1 hu ▸ hdecoded uops List.mem_cons_self v hv
      have hkeep (s : RobTimer) (call : Call) (s' : RobTimer) (hs : Rob.Steady cfg s)
          (hguard : True ∧ ∀ u ∈ entered call, u.Decoded) (hcall : s.call cfg true call = .ok s') :
          Rob.Steady cfg s' := hs.call hguard.2 hcall
      refine ⟨fun x' hx' => ?_, fun hfew hfault => ?_⟩
      · obtain ⟨s, hs, hx'⟩ := exists_of_bind_ok hx'
        cases hx'
        rw [← run_enter true] at hs
        exact ⟨Machine.guarded_induction _ hkeep h.timer ((Machine.guarded_true _ _ _).and_forall huops) hs,
          fun uops' huops' => hdecoded uops' (List.mem_cons_of_mem uops huops')⟩
      · have hnext := hfew hstarved
        rw [Simulation.FewIssued, hcalls] at hnext
        rcases cases_of_bind_error hfault with hs | ⟨s, -, hs⟩
        · rw [← run_enter true] at hs
          exact Machine.guarded_run_ne _ (fun s call s' hs hguard hcall => hs.call hguard.2 hcall)
            (fun s call hs hguard => hs.call_ne hguard.2 hguard.1) h.timer (hnext.and_forall huops) hs
        · cases hs
  · refine ⟨fun x' hx' => ?_, fun _ hfault => by cases hfault⟩
    cases hx'
    have hcall : x.timer.call cfg skipping .execute = .ok (execute cfg skipping x.timer) := rfl
    exact ⟨h.timer.call (fun u hu => absurd hu List.not_mem_nil) hcall, h.decoded⟩

/-- With and without skipping, the log of events goes through the same states, and the same micro-ops are dispatched,
issued, done and committed at the same times. This holds as long as at most eight of the micro-ops that a micro-op waits
for have issued when it enters. -/
theorem skipping_exact (cfg : Config) (calls : List (List DynamicMicroOp))
    (hdecoded : ∀ uops ∈ calls, ∀ u ∈ uops, u.Decoded)
    (hfew : ∀ n x, simulation cfg true calls n = .ok x → x.timer.Starved cfg → x.FewIssued cfg) :
    (∀ skipping n, simulation cfg skipping calls n ≠ .error .depsToRemove) ∧
      Set.range (logAfter cfg true calls) = Set.range (logAfter cfg false calls) ∧
      ∀ event, Happens cfg true calls event ↔ Happens cfg false calls event := by
  have hstart : Behind cfg (.start cfg calls) (.start cfg calls) := .refl .new
  have hrange : Set.range (logAfter cfg true calls) = Set.range (logAfter cfg false calls) :=
    (Behind.stuttering cfg).range_eq (s := .ok (.start cfg calls)) (t := .ok (.start cfg calls)) hstart
  have hsteady (n : ℕ) : (∀ x, simulation cfg true calls n = .ok x → x.Steady cfg) ∧
      simulation cfg true calls n ≠ .error .depsToRemove := by
    induction n with
    | zero => exact ⟨fun x hx => by cases hx; exact ⟨.new, hdecoded⟩, fun h => by cases h⟩
    | succ n ih =>
      rw [simulation, Function.iterate_succ_apply', ← simulation]
      refine ⟨fun x' hx' => ?_, fun hfault => ?_⟩
      · obtain ⟨x, hx, hstep⟩ := exists_of_bind_ok hx'
        exact (ih.1 x hx).step.1 x' hstep
      · rcases cases_of_bind_error hfault with hfault | ⟨x, hx, hfault⟩
        · exact ih.2 hfault
        · exact (ih.1 x hx).step.2 (hfew n x hx) hfault
  refine ⟨fun skipping n hfault => ?_, hrange, fun event => ?_⟩
  · cases skipping with
    | true => exact (hsteady n).2 hfault
    | false =>
      have hmem : Except.error Fault.depsToRemove ∈ Set.range (logAfter cfg true calls) :=
        hrange ▸ ⟨n, map_eq_error_iff.2 hfault⟩
      obtain ⟨m, hm⟩ := hmem
      exact (hsteady m).2 (map_eq_error_iff.1 hm)
  · have hmem (logs : ℕ → Except Fault (List Event)) :
        (∃ n log, logs n = .ok log ∧ event ∈ log) ↔ ∃ log, .ok log ∈ Set.range logs ∧ event ∈ log := by
      constructor
      · rintro ⟨n, log, hlog, hevent⟩
        exact ⟨log, ⟨n, hlog⟩, hevent⟩
      · rintro ⟨log, ⟨n, hlog⟩, hevent⟩
        exact ⟨n, log, hlog, hevent⟩
    rw [Happens, Happens, hmem, hmem, hrange]

/-- A simulation that has started all calls does not start one again. -/
theorem simulation_calls {skipping : Bool} {calls : List (List DynamicMicroOp)} {m : ℕ}
    (h : ∀ x, simulation cfg skipping calls m = .ok x → x.calls = []) {n : ℕ} (hle : m ≤ n) :
    ∀ x, simulation cfg skipping calls n = .ok x → x.calls = [] := by
  induction n, hle using Nat.le_induction with
  | base => exact h
  | succ n hle ih =>
    intro x' hx'
    rw [simulation, Function.iterate_succ_apply', ← simulation] at hx'
    obtain ⟨x, hx, hstep⟩ := exists_of_bind_ok hx'
    have hcalls := ih x hx
    rw [step] at hstep
    split_ifs at hstep
    · rw [Simulation.feed, hcalls] at hstep
      cases hstep
      exact hcalls
    · cases hstep
      exact hcalls

/-- The condition can be evaluated while there are calls. -/
theorem fewIssued_of_evaluated {calls : List (List DynamicMicroOp)} (m : ℕ)
    (hfirst : ∀ n < m, (match simulation cfg true calls n with
      | .ok x => !decide (x.timer.Starved cfg) || (timer cfg true).follows
        (fun s call => decide (∀ u ∈ entered call, FewIssued cfg s u)) x.timer ((x.calls.head?.getD []).map Call.enter)
      | .error _ => true) = true)
    (hlast : ((simulation cfg true calls m).map fun x => x.calls.isEmpty).toOption.getD true = true) :
    ∀ n x, simulation cfg true calls n = .ok x → x.timer.Starved cfg → x.FewIssued cfg := by
  intro n x hx hstarved
  rcases Nat.lt_or_ge n m with hlt | hge
  · have hn := hfirst n hlt
    rw [hx] at hn
    simp only [hstarved, decide_true, Bool.not_true, Bool.false_or] at hn
    exact Machine.Guarded.of_decide hn
  · have hcalls := simulation_calls (m := m) (fun y hy => ?_) hge x hx
    · rw [Simulation.FewIssued, hcalls]
      exact trivial
    · rw [hy] at hlast
      exact List.isEmpty_iff.1 hlast

/-- A micro-op that reads the results of eight others issues after ninety idle cycles. -/
theorem skipping_exact_eightRead : Happens nineProducers true
      [nineWriters, reader 8 :: List.replicate 30 slow] (.issued 22 104 105 106) ∧
    Happens nineProducers false [nineWriters, reader 8 :: List.replicate 30 slow] (.issued 22 104 105 106) := by
  have hexact := skipping_exact nineProducers [nineWriters, reader 8 :: List.replicate 30 slow] (by decide +kernel)
    (fewIssued_of_evaluated 7 (by decide +kernel) (by decide +kernel))
  have hok : (logAfter nineProducers true [nineWriters, reader 8 :: List.replicate 30 slow] 15).isOk = true := by
    decide +kernel
  have hevent : Event.issued 22 104 105 106 ∈
      (logAfter nineProducers true [nineWriters, reader 8 :: List.replicate 30 slow] 15).toOption.getD [] := by
    decide +kernel
  obtain ⟨log, hlog⟩ := exists_of_isOk hok
  rw [hlog] at hevent
  have hhappens : Happens nineProducers true [nineWriters, reader 8 :: List.replicate 30 slow]
      (.issued 22 104 105 106) := ⟨15, log, hlog, hevent⟩
  exact ⟨hhappens, (hexact.2.2 _).1 hhappens⟩

/-- A call that reads all nine ends the simulation. -/
theorem nineReadCall_overflows : ¬ ∀ (calls : List (List DynamicMicroOp)) (n : ℕ),
    (∀ uops ∈ calls, ∀ u ∈ uops, u.Decoded) → simulation nineProducers true calls n ≠ .error .depsToRemove := by
  intro h
  have hfault : faultOf (simulation nineProducers true [nineWriters, [reader 9]] 6) = some .depsToRemove := by
    decide +kernel
  exact h [nineWriters, [reader 9]] 6 (by decide +kernel) (faultOf_eq_some.1 hfault)

end LifeSim.Rob
