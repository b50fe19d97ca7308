import LifeSim.Rob.Window

/-!
# Safety of the reorder buffer

In every reachable timer the counters agree with the log, the numbers of the entries are consecutive, no micro-op has
issued before the results that it depends on were available, and the committed micro-ops are the first ones in program
order. Each move keeps this, whatever it dispatches, issues or commits.
-/

namespace LifeSim.Rob

open LifeSim.Lib

variable {cfg : Config} {s : RobTimer}

/-- Every micro-op of the log has issued when the results of all its recorded dependencies were available. -/
def IssueOrder (recorded : List (List ℕ)) (log : List Event) : Prop :=
  ∀ before after n (t depend done : ℕ), log = before ++ .issued n t depend done :: after →
    ∀ d ∈ recorded.getD n [], Available before d t

theorem IssueOrder.append {recorded : List (List ℕ)} {log : List Event} {event : Event} (h : IssueOrder recorded log)
    (hevent : ∀ n (t depend done : ℕ), event = .issued n t depend done → ∀ d ∈ recorded.getD n [], Available log d t) :
    IssueOrder recorded (log ++ [event]) := by
  intro before after n t depend done hlog
  rcases List.eq_nil_or_concat after with rfl | ⟨after, last, rfl⟩
  · obtain ⟨rfl, hlast⟩ := List.append_inj' hlog rfl
    exact hevent n t depend done (List.singleton_inj.1 hlast)
  · rw [List.concat_eq_append, ← List.cons_append, ← List.append_assoc] at hlog
    exact h before after n t depend done (List.append_inj' hlog rfl).1

/-- What holds of a timer between moves. -/
structure Sound (cfg : Config) (s : RobTimer) : Prop where
  placed : Placed s
  window : s.numInRob ≤ cfg.windowSize
  stations : s.rsEntriesUsed ≤ cfg.rsEntries
  used : s.rsEntriesUsed = ((doneTimes s.rob).take s.numInRob).count ⊤
  recorded : s.dependencies.length = s.nextSequenceNumber
  order : committedOf s.log ++ numbers s.rob = List.range s.nextSequenceNumber
  dispatched : dispatchedOf s.log = committedOf s.log ++ (numbers s.rob).take s.numInRob
  waits : ∀ e ∈ s.rob, Waits s.dependencies s.log e
  pending : ∀ e ∈ s.rob, Pending s.log e
  issued : ∀ n ∈ issuedOf s.log, n < s.nextSequenceNumber
  committed : ∀ n ∈ committedOf s.log, n ∈ issuedOf s.log
  history : IssueOrder s.dependencies s.log

/-- A new timer is sound. -/
theorem Sound.new : Sound cfg (.new cfg) where
  placed := .new
  window := Nat.zero_le _
  stations := Nat.zero_le _
  used := rfl
  recorded := rfl
  order := rfl
  dispatched := rfl
  waits := fun _ h => absurd h List.not_mem_nil
  pending := fun _ h => absurd h List.not_mem_nil
  issued := fun _ h => absurd h List.not_mem_nil
  committed := fun _ h => absurd h List.not_mem_nil
  history := by
    intro before after n t depend done hlog
    exact absurd hlog (by simp [RobTimer.new])

/-- The numbers of the entries follow those that have committed. -/
theorem Sound.consecutive (h : Sound cfg s) : Consecutive (committedOf s.log).length s.rob := by
  have hlength := congrArg List.length h.order
  have hdrop := congrArg (List.drop (committedOf s.log).length) h.order
  rw [List.length_append, List.length_range, numbers, List.length_map] at hlength
  rw [List.drop_left, List.range_eq_range', List.drop_range'] at hdrop
  rw [Consecutive, hdrop, ← hlength]
  simp

theorem Sound.number_lt (h : Sound cfg s) {e : RobEntry} (he : e ∈ s.rob) :
    e.uop.sequenceNumber < s.nextSequenceNumber := by
  have hmem : e.uop.sequenceNumber ∈ committedOf s.log ++ numbers s.rob :=
    List.mem_append_right _ (List.mem_map_of_mem he)
  rw [h.order] at hmem
  exact List.mem_range.1 hmem

/-! ### Entering -/

/-- What the loop over the dependencies keeps. -/
structure Linked (s : RobTimer) (l : Linking) : Prop where
  numbers : numbers l.rob = numbers s.rob
  waits : ∀ e ∈ l.rob, Waits s.dependencies s.log e
  pending : ∀ e ∈ l.rob, Pending s.log e
  removed : ∀ d ∈ l.toRemove, Available s.log d l.readyMax

theorem Linked.link (h : Sound cfg s) {l l' : Linking} (hl : Linked s l) {d : ℕ}
    (hlink : link (frontNumber s.rob s.nextSequenceNumber) s.nextSequenceNumber l d = .ok l') : Linked s l' := by
  have hconsecutive := h.consecutive.congr hl.numbers
  rw [← frontNumber_congr hl.numbers] at hlink
  obtain ⟨p, hp, ⟨hdone, -, rfl⟩ | ⟨hdone, rfl⟩⟩ := link_cases hlink
  · obtain ⟨hmem, hnumber⟩ := hconsecutive.findEntry hp
    refine ⟨hl.numbers, hl.waits, hl.pending, fun d' hd' => ?_⟩
    rcases List.mem_append.1 hd' with hd' | hd'
    · exact (hl.removed d' hd').mono (List.Subset.refl _) (le_max_left _ _)
    · rw [List.mem_singleton.1 hd', ← hnumber]
      exact ((hl.waits p hmem).done.resolve_left hdone).mono (List.Subset.refl _) (le_max_right _ _)
  · refine ⟨?_, ?_, ?_, hl.removed⟩
    · rw [← hl.numbers]
      exact map_changeEntry (f := fun p => { p with dependants := p.dependants ++ [s.nextSequenceNumber] })
        (fun _ => rfl) _ _ _
    · exact forall_mem_changeEntry (fun e he => ⟨he.left, he.ready, he.done⟩) hl.waits _ _
    · exact forall_mem_changeEntry (f := fun p => { p with dependants := p.dependants ++ [s.nextSequenceNumber] })
        (fun _ he => he) hl.pending _ _

theorem Linked.links (h : Sound cfg s) {dependencies : List ℕ} {readyMax : Time} {l : Linking}
    (hlinks : dependencies.foldlM (Rob.link (frontNumber s.rob s.nextSequenceNumber) s.nextSequenceNumber)
      ⟨s.rob, [], readyMax⟩ = .ok l) : Linked s l :=
  foldlM_ok_invariant (P := Linked s) (fun _ _ _ hm hlink => hm.link h hlink)
    ⟨rfl, h.waits, h.pending, fun _ hd => absurd hd List.not_mem_nil⟩ hlinks

/-- A new entry waits for the recorded dependencies that have not issued. -/
theorem Sound.waits_resolve (h : Sound cfg s) {u v : DynamicMicroOp} {l : Linking} {e : RobEntry}
    (hnumber : v.sequenceNumber = s.nextSequenceNumber) (hlinks : Linked s l)
    (hresolve : resolve (newEntry s u) v l = .ok e) :
    Waits (s.dependencies ++ [v.getDependencies]) s.log e := by
  have hfields := setAddress_fields (s := s) (frontNumber s.rob s.nextSequenceNumber)
    (.init { u with sequenceNumber := s.nextSequenceNumber })
  have hnumber' : e.uop.sequenceNumber = s.nextSequenceNumber := (number_eq_of_bare (resolve_bare hresolve)).trans hnumber
  obtain ⟨w, hremove, rfl⟩ := resolve_cases hresolve
  constructor
  · intro d hd
    rw [hnumber', ← h.recorded, List.getD_append_right _ _ _ _ (le_refl _), Nat.sub_self] at hd
    rcases mem_removeDependencies hremove hd with hremoved | hleft
    · exact .inr (hlinks.removed d hremoved)
    · exact .inl hleft
  · dsimp only
    split_ifs with hzero
    · exact .inr ⟨hzero, le_refl _⟩
    · exact .inl hfields.2.1
  · exact .inl hfields.2.2.1

/-- Entering keeps soundness. -/
theorem Sound.enter (h : Sound cfg s) {u : DynamicMicroOp} {s' : RobTimer} (henter : enter cfg s u = .ok s') :
    Sound cfg s' := by
  have hplaced := h.placed.enter henter
  have hentered := enter_cases henter
  have htimes := hentered.doneTimes
  cases hentered with
  | squashed _ => exact h
  | @entered registers stores v l e hsquashed hdepend hlinks hresolve =>
    have hlinked := Linked.links h hlinks
    have hnumber : v.sequenceNumber = s.nextSequenceNumber := by
      rw [number_eq_of_bare (depend_bare hdepend), newEntry_uop]
    have hinside : s.numInRob ≤ (doneTimes s.rob).length := by
      rw [doneTimes, List.length_map]
      exact h.placed.inside
    have hlast : numbers [e] = [s.nextSequenceNumber] := by
      rw [numbers, List.map_singleton, number_eq_of_bare (resolve_bare hresolve), hnumber]
    have hnumbers : numbers (l.rob ++ [e]) = numbers s.rob ++ [s.nextSequenceNumber] := by
      rw [← hlast, ← hlinked.numbers, numbers, numbers, numbers, List.map_append]
    have hinside' : s.numInRob ≤ (numbers s.rob).length := by
      rw [numbers, List.length_map]
      exact h.placed.inside
    have hgetD {n : ℕ} (hn : n < s.nextSequenceNumber) :
        (s.dependencies ++ [v.getDependencies]).getD n [] = s.dependencies.getD n [] :=
      List.getD_append _ _ _ _ (h.recorded ▸ hn)
    have hold : ∀ e ∈ l.rob, Waits (s.dependencies ++ [v.getDependencies]) s.log e := by
      intro e he
      have hwaits := hlinked.waits e he
      have hmem : e.uop.sequenceNumber ∈ numbers s.rob := by
        rw [← hlinked.numbers]
        exact List.mem_map_of_mem he
      have hlt : e.uop.sequenceNumber < s.nextSequenceNumber := by
        have hrange := List.mem_append_right (committedOf s.log) hmem
        rwa [h.order, List.mem_range] at hrange
      exact ⟨fun d hd => hwaits.left d (hgetD hlt ▸ hd), hwaits.ready, hwaits.done⟩
    constructor
    · exact hplaced
    · exact h.window
    · exact h.stations
    · rw [htimes hsquashed, List.take_append_of_le_length hinside]
      exact h.used
    · change (s.dependencies ++ [_]).length = s.nextSequenceNumber + 1
      rw [List.length_append, h.recorded, List.length_singleton]
    · change committedOf s.log ++ numbers (l.rob ++ [e]) = List.range (s.nextSequenceNumber + 1)
      rw [hnumbers, ← List.append_assoc, h.order]
      exact List.range_succ.symm
    · change dispatchedOf s.log = committedOf s.log ++ (numbers (l.rob ++ [e])).take s.numInRob
      rw [hnumbers, List.take_append_of_le_length hinside']
      exact h.dispatched
    · intro e' he
      rcases List.mem_append.1 he with he | he
      · exact hold e' he
      · rw [List.mem_singleton.1 he]
        exact h.waits_resolve hnumber hlinked hresolve
    · intro e' he
      rcases List.mem_append.1 he with he | he
      · exact hlinked.pending e' he
      · rw [List.mem_singleton.1 he, Pending, number_eq_of_bare (resolve_bare hresolve), hnumber]
        exact fun _ hn => absurd (h.issued _ hn) (lt_irrefl _)
    · exact fun n hn => (h.issued n hn).trans (Nat.lt_succ_self _)
    · exact h.committed
    · intro before after n t depend done hlog d hd
      have hn : n ∈ issuedOf s.log := by
        change s.log = _ at hlog
        rw [hlog, issuedOf, List.filterMap_append]
        exact List.mem_append_right _ List.mem_cons_self
      rw [hgetD (h.issued n hn)] at hd
      exact h.history before after n t depend done hlog d hd

/-! ### Dispatch, issue and commit -/

/-- Dispatching keeps soundness. -/
theorem Sound.dispatch (h : Sound cfg s) {e : RobEntry} (hentry : s.rob[s.numInRob]? = some e)
    (hwindow : s.numInRob < cfg.windowSize) (hstations : s.rsEntriesUsed ≠ cfg.rsEntries) :
    Sound cfg (dispatchEntry e s) := by
  have hmove : Move cfg s (dispatchEntry e s) := .dispatch hentry hwindow hstations
  have hplaced := h.placed.move hmove
  have hmem := List.mem_of_getElem? hentry
  have htop := h.placed.outside _ e (le_refl _) hentry
  have hnumbers : numbers (dispatchEntry e s).rob = numbers s.rob := map_set_of_eq hentry rfl
  have htimes : doneTimes (dispatchEntry e s).rob = doneTimes s.rob := map_set_of_eq hentry rfl
  have hcommitted : committedOf (dispatchEntry e s).log = committedOf s.log := by
    rw [dispatchEntry, committedOf, List.filterMap_append]
    exact List.append_nil _
  have hdispatched : dispatchedOf (dispatchEntry e s).log = dispatchedOf s.log ++ [e.uop.sequenceNumber] := by
    rw [dispatchEntry, dispatchedOf, List.filterMap_append]
    rfl
  have hissued : issuedOf (dispatchEntry e s).log = issuedOf s.log := by
    rw [dispatchEntry, issuedOf, List.filterMap_append]
    exact List.append_nil _
  have hlog : s.log ⊆ (dispatchEntry e s).log := List.subset_append_left _ _
  constructor
  · exact hplaced
  · exact hwindow
  · exact Nat.lt_of_le_of_ne h.stations hstations
  · have htime : (doneTimes s.rob)[s.numInRob]? = some ⊤ := by
      rw [doneTimes, List.getElem?_map, hentry, Option.map_some, htop]
    rw [htimes]
    change s.rsEntriesUsed + 1 = ((doneTimes s.rob).take (s.numInRob + 1)).count ⊤
    rw [List.take_add_one, htime, List.count_append, ← h.used]
    simp
  · exact h.recorded
  · rw [hcommitted, hnumbers]
    exact h.order
  · have hnumber : (numbers s.rob)[s.numInRob]? = some e.uop.sequenceNumber := by
      rw [numbers, List.getElem?_map, hentry, Option.map_some]
    rw [hdispatched, hcommitted, hnumbers, h.dispatched]
    change _ = committedOf s.log ++ (numbers s.rob).take (s.numInRob + 1)
    rw [List.take_add_one, hnumber, List.append_assoc]
    rfl
  · intro e' he'
    rcases List.mem_or_eq_of_mem_set he' with he' | rfl
    · exact (h.waits e' he').mono hlog
    · have hwaits := (h.waits e hmem).mono hlog
      refine ⟨hwaits.left, ?_, hwaits.done⟩
      rcases hwaits.ready with hlate | ⟨hlength, hmax⟩
      · exact .inl (by rw [hlate, max_eq_left le_top])
      · exact .inr ⟨hlength, hmax.trans (le_max_left _ _)⟩
  · intro e' he'
    rw [Pending, hissued]
    rcases List.mem_or_eq_of_mem_set he' with he' | rfl
    · exact h.pending e' he'
    · exact h.pending e hmem
  · rw [hissued]
    exact h.issued
  · rw [hissued, hcommitted]
    exact h.committed
  · exact h.history.append fun _ _ _ _ heq => by cases heq

/-- Issuing keeps soundness. -/
theorem Sound.issue (h : Sound cfg s) {i : ℕ} {e : RobEntry} (hinside : i < s.numInRob) (hentry : s.rob[i]? = some e)
    (hdone : e.done = ⊤) (hready : e.ready ≤ s.now) : Sound cfg (issueInstruction cfg i e s).1 := by
  have hmove : Move cfg s (issueInstruction cfg i e s).1 := .issue hinside hentry hdone hready
  have hplaced := h.placed.move hmove
  have hmem := List.mem_of_getElem? hentry
  have hwaitsEntry := h.waits e hmem
  have htimes := @doneTimes_issueInstruction cfg s i e
  obtain ⟨u, depend, done, htraits, hdependencies, hle, htime, hrob, hlogEq⟩ := @issueInstruction_spec cfg s i e
  have hnumber := number_eq_of_traits htraits
  have hnumbers : numbers (issueInstruction cfg i e s).1.rob = numbers s.rob := by
    rw [hrob, numbers_wake]
    exact map_set_of_eq hentry hnumber
  have hcommitted : committedOf (issueInstruction cfg i e s).1.log = committedOf s.log := by
    rw [hlogEq, committedOf, List.filterMap_append]
    exact List.append_nil _
  have hdispatched : dispatchedOf (issueInstruction cfg i e s).1.log = dispatchedOf s.log := by
    rw [hlogEq, dispatchedOf, List.filterMap_append]
    exact List.append_nil _
  have hissued : issuedOf (issueInstruction cfg i e s).1.log = issuedOf s.log ++ [e.uop.sequenceNumber] := by
    rw [hlogEq, issuedOf, List.filterMap_append]
    rfl
  have hlog : s.log ⊆ (issueInstruction cfg i e s).1.log := hlogEq ▸ List.subset_append_left _ _
  have hlast : Event.issued e.uop.sequenceNumber s.now depend done ∈ (issueInstruction cfg i e s).1.log := by
    rw [hlogEq]
    exact List.mem_append_right _ List.mem_cons_self
  have havailable : Available (issueInstruction cfg i e s).1.log e.uop.sequenceNumber depend :=
    ⟨s.now, depend, done, hlast, le_refl _⟩
  constructor
  · exact hplaced
  · exact h.window
  · exact (Nat.sub_le _ _).trans h.stations
  · have hlt : i < ((doneTimes s.rob).take s.numInRob).length := by
      rw [List.length_take, doneTimes, List.length_map]
      exact lt_min hinside (List.getElem?_eq_some_iff.1 hentry).1
    have htop : ((doneTimes s.rob).take s.numInRob)[i] = ⊤ := by
      rw [← hdone]
      simp [doneTimes, (List.getElem?_eq_some_iff.1 hentry).2]
    have hfinite : ((done : ℕ) : Time) ≠ ⊤ := WithTop.coe_ne_top
    rw [htimes, htime]
    change s.rsEntriesUsed - 1 = (((doneTimes s.rob).set i (done : Time)).take s.numInRob).count ⊤
    rw [List.take_set, List.count_set hlt, htop, h.used]
    simp [hfinite]
  · exact h.recorded
  · rw [hcommitted, hnumbers]
    exact h.order
  · rw [hdispatched, hcommitted, hnumbers]
    exact h.dispatched
  · rw [hrob]
    refine forall_mem_wake (fun e₁ e₂ hwoken hwaits => hwaits.wake havailable hwoken) _ fun e' he' => ?_
    rcases List.mem_or_eq_of_mem_set he' with he' | rfl
    · exact (h.waits e' he').mono hlog
    · have hwaits := hwaitsEntry.mono hlog
      refine ⟨?_, ?_, .inr ?_⟩
      · intro d hd
        dsimp only at hd ⊢
        rw [hnumber] at hd
        rw [hdependencies]
        exact hwaits.left d hd
      · dsimp only
        rw [← DynamicMicroOp.length_getDependencies, hdependencies, DynamicMicroOp.length_getDependencies]
        exact hwaits.ready
      · dsimp only
        rw [hnumber]
        exact havailable.mono (List.Subset.refl _) (WithTop.coe_le_coe.2 hle)
  · rw [hrob]
    refine forall_mem_wake (fun e₁ e₂ hwoken hpending => hpending.wake hwoken) _ fun e' he' hdone' => ?_
    obtain ⟨j, hj⟩ := List.mem_iff_getElem?.1 he'
    by_cases hij : i = j
    · rw [← hij, List.getElem?_set_self (List.getElem?_eq_some_iff.1 hentry).1] at hj
      cases hj
      exact absurd hdone' WithTop.coe_ne_top
    · rw [List.getElem?_set_ne hij] at hj
      have hne : e'.uop.sequenceNumber ≠ e.uop.sequenceNumber := by
        rw [h.consecutive.number hj, h.consecutive.number hentry]
        omega
      rw [hissued, List.mem_append, List.mem_singleton, not_or]
      exact ⟨h.pending e' (List.mem_of_getElem? hj) hdone', hne⟩
  · rw [hissued]
    intro n hn
    rcases List.mem_append.1 hn with hn | hn
    · exact h.issued n hn
    · rw [List.mem_singleton.1 hn]
      exact h.number_lt hmem
  · rw [hissued, hcommitted]
    exact fun n hn => List.mem_append_left _ (h.committed n hn)
  · rw [hlogEq]
    refine h.history.append fun n t depend' done' heq d hd => ?_
    cases heq
    exact hwaitsEntry.available hready d hd

theorem Sound.commit (h : Sound cfg s) {e : RobEntry} {rest : List RobEntry} (hrob : s.rob = e :: rest)
    (hdone : e.done ≤ s.now) : Sound cfg (commitEntry e rest s) := by
  have hmove : Move cfg s (commitEntry e rest s) := .commit hrob hdone
  have hplaced := h.placed.move hmove
  have hne : e.done ≠ ⊤ := by
    intro htop
    rw [htop] at hdone
    exact absurd hdone (by simp)
  have hpos : 0 < s.numInRob := by
    by_contra hzero
    exact hne (h.placed.outside 0 e (by omega) (by rw [hrob]; rfl))
  obtain ⟨k, hk⟩ := Nat.exists_eq_succ_of_ne_zero (Nat.ne_of_gt hpos)
  have hmem : e ∈ s.rob := hrob ▸ List.mem_cons_self
  have hissued := (((h.waits e hmem).done).resolve_left hne).issued
  have hcommitted : committedOf (commitEntry e rest s).log = committedOf s.log ++ [e.uop.sequenceNumber] := by
    rw [commitEntry, committedOf, List.filterMap_append]
    rfl
  have hdispatched : dispatchedOf (commitEntry e rest s).log = dispatchedOf s.log := by
    rw [commitEntry, dispatchedOf, List.filterMap_append]
    exact List.append_nil _
  have hissuedOf : issuedOf (commitEntry e rest s).log = issuedOf s.log := by
    rw [commitEntry, issuedOf, List.filterMap_append]
    exact List.append_nil _
  have hnumbers : numbers s.rob = e.uop.sequenceNumber :: numbers rest := by
    rw [hrob]
    rfl
  have hlog : s.log ⊆ (commitEntry e rest s).log := List.subset_append_left _ _
  have hsub : rest ⊆ s.rob := hrob ▸ List.subset_cons_self e rest
  constructor
  · exact hplaced
  · change s.numInRob - 1 ≤ cfg.windowSize
    have hwindow := h.window
    omega
  · exact h.stations
  · have hused := h.used
    rw [hk, hrob] at hused
    change s.rsEntriesUsed = ((doneTimes rest).take (s.numInRob - 1)).count ⊤
    rw [hused, hk, doneTimes, List.map_cons, List.take_succ_cons, List.count_cons_of_ne hne]
    rfl
  · exact h.recorded
  · rw [hcommitted, List.append_assoc]
    change committedOf s.log ++ ([e.uop.sequenceNumber] ++ numbers rest) = List.range s.nextSequenceNumber
    rw [List.singleton_append, ← hnumbers]
    exact h.order
  · rw [hdispatched, hcommitted, h.dispatched, hnumbers, hk, List.take_succ_cons, List.append_assoc]
    change _ = committedOf s.log ++ ([e.uop.sequenceNumber] ++ (numbers rest).take (s.numInRob - 1))
    rw [hk]
    rfl
  · exact fun e' he' => (h.waits e' (hsub he')).mono hlog
  · intro e' he'
    rw [Pending, hissuedOf]
    exact h.pending e' (hsub he')
  · rw [hissuedOf]
    exact h.issued
  · rw [hissuedOf, hcommitted]
    intro n hn
    rcases List.mem_append.1 hn with hn | hn
    · exact h.committed n hn
    · rwa [List.mem_singleton.1 hn]
  · exact h.history.append fun _ _ _ _ heq => by cases heq

/-- Every move keeps soundness. -/
theorem Sound.move {s' : RobTimer} (h : Sound cfg s) (hmove : Move cfg s s') : Sound cfg s' := by
  cases hmove with
  | frontend stalled miss =>
    have hmove : Move cfg s { s with frontendStalledUntil := stalled, inIcacheMiss := miss } := .frontend stalled miss
    exact ⟨h.placed.move hmove, h.window, h.stations, h.used, h.recorded, h.order,
      h.dispatched, h.waits, h.pending, h.issued, h.committed, h.history⟩
  | dispatch hentry hwindow hstations => exact h.dispatch hentry hwindow hstations
  | issue hinside hentry hdone hready => exact h.issue hinside hentry hdone hready
  | commit hrob hdone => exact h.commit hrob hdone
  | time now =>
    have hmove : Move cfg s { s with now := now } := .time now
    exact ⟨h.placed.move hmove, h.window, h.stations, h.used, h.recorded, h.order, h.dispatched,
      h.waits, h.pending, h.issued, h.committed, h.history⟩

theorem Sound.moves {s' : RobTimer} (h : Sound cfg s) (hmoves : Moves cfg s s') : Sound cfg s' :=
  hmoves.invariant h fun _ _ hsound hmove => hsound.move hmove

/-- Every call keeps soundness. -/
theorem Sound.call (h : Sound cfg s) {skipping : Bool} {call : Call} {s' : RobTimer}
    (hcall : s.call cfg skipping call = .ok s') : Sound cfg s' := by
  cases call with
  | enter u => exact h.enter hcall
  | execute =>
    cases hcall
    exact h.moves (execute_moves skipping)
  | synchronize time =>
    cases hcall
    exact h.move (.time time)

/-! ### What is reachable -/

/-- The micro-ops that have been dispatched and have not issued. -/
def waitingOf (log : List Event) : List ℕ := (dispatchedOf log).filter fun n => n ∉ issuedOf log

/-- The counter of the reservation stations is the number of micro-ops that wait in them. -/
theorem Sound.rsEntriesUsed_eq (h : Sound cfg s) : s.rsEntriesUsed = (waitingOf s.log).length := by
  have hcommitted : (committedOf s.log).countP (fun n => n ∉ issuedOf s.log) = 0 :=
    List.countP_eq_zero.2 fun n hn => by simp [h.committed n hn]
  rw [waitingOf, ← List.countP_eq_length_filter, h.dispatched, List.countP_append, hcommitted, Nat.zero_add, numbers,
    ← List.map_take, List.countP_map, h.used, doneTimes, ← List.map_take, List.count, List.countP_map]
  apply List.countP_congr
  intro e he
  have hmem := List.mem_of_mem_take he
  simp only [Function.comp_apply, beq_iff_eq, decide_eq_true_eq]
  constructor
  · exact h.pending e hmem
  · intro hn
    by_contra hdone
    exact hn (((h.waits e hmem).done).resolve_left hdone).issued

/-- What the model of the reorder buffer promises. -/
structure Safe (cfg : Config) (s : RobTimer) : Prop where
  window : s.numInRob ≤ cfg.windowSize
  used : s.rsEntriesUsed = (waitingOf s.log).length
  stations : s.rsEntriesUsed ≤ cfg.rsEntries
  consecutive : Consecutive (committedOf s.log).length s.rob
  find : ∀ n e, findEntry s.rob (frontNumber s.rob s.nextSequenceNumber) n = some e ↔
    e ∈ s.rob ∧ e.uop.sequenceNumber = n
  issued : IssueOrder s.dependencies s.log
  committed : committedOf s.log = List.range (s.nextSequenceNumber - s.rob.length)

theorem Sound.safe (h : Sound cfg s) : Safe cfg s where
  window := h.window
  used := h.rsEntriesUsed_eq
  stations := h.stations
  consecutive := h.consecutive
  find := by
    intro n e
    constructor
    · exact h.consecutive.findEntry
    · rintro ⟨he, rfl⟩
      exact h.consecutive.findEntry_self he
  issued := h.history
  committed := by
    have hlength := congrArg List.length h.order
    have htake := congrArg (List.take (committedOf s.log).length) h.order
    rw [List.length_append, List.length_range, numbers, List.length_map] at hlength
    rw [List.take_left, List.take_range] at htake
    rw [htake]
    congr 1
    omega

/-! ### What is recorded -/

/-- A micro-op with the number that it gets when it enters. -/
def RobTimer.numbered (s : RobTimer) (u : DynamicMicroOp) : DynamicMicroOp :=
  { u with sequenceNumber := s.nextSequenceNumber }

/-- What a micro-op depends on when it enters: the micro-ops within its instruction and its producers in the buffer. -/
def RobTimer.producers (s : RobTimer) (u : DynamicMicroOp) : List ℕ :=
  (s.numbered u).intraDependencies ++ producersIn s.rob (frontNumber s.rob s.nextSequenceNumber) (s.numbered u)

/-- The dependencies of a micro-op are recorded when it enters. With forwarding a load may depend on what a store still
waits for instead of the store. -/
def Recorded (cfg : Config) (s : RobTimer) (u : DynamicMicroOp) (s' : RobTimer) : Prop :=
  ∃ ns, s'.dependencies = s.dependencies ++ [ns] ∧
    ∀ d ∈ s.producers u, d ∈ ns ∨
      cfg.storeToLoadForwarding ∧ u.isLoad ∧ ∃ p ∈ s.rob, p.uop.sequenceNumber = d ∧ p.uop.isStore ∧
        ∀ n ∈ s.dependencies.getD d [], n ∈ issuedOf s.log ∨ n ∈ ns

/-- What is known of the tables when a micro-op enters. -/
theorem Known.depends (h : Known s) {u v : DynamicMicroOp} (hdecoded : u.Decoded) {registers : RegisterDependencies}
    {stores : MemoryDependencies}
    (hdepend : depend cfg s (frontNumber s.rob s.nextSequenceNumber) (newEntry s u) = .ok (registers, stores, v)) :
    ∃ first, first = frontNumber s.rob s.nextSequenceNumber ∧ Knows first s.rob.length s ∧
      Depends cfg s first s.rob.length (newEntry s u) registers stores v := by
  obtain ⟨first, hnumber, hknows⟩ := h
  have hfront : frontNumber s.rob s.nextSequenceNumber = first := by rw [hnumber, hknows.front]
  refine ⟨first, hfront.symm, hknows, ?_, ?_, hfront ▸ hdepend⟩
  · rw [newEntry_uop]
    exact hnumber
  · rw [newEntry_uop]
    exact ⟨hdecoded.dependencies, hdecoded.load⟩

/-- The first store is an entry of the buffer. -/
theorem Consecutive.firstStore {first : ℕ} {rob : List RobEntry} (h : Consecutive first rob) {ns : List ℕ} {p : RobEntry}
    (hfirst : Rob.firstStore rob first ns = some p) : p ∈ rob ∧ p.uop.isStore = true := by
  obtain ⟨n, -, hn⟩ := List.exists_of_findSome?_eq_some hfirst
  obtain ⟨hfind, hstore⟩ := Option.filter_eq_some_iff.1 hn
  exact ⟨(h.number_of_find hfind).1, hstore⟩

theorem Sound.recorded_enter (h : Sound cfg s) (hknown : Known s) {u : DynamicMicroOp} (hdecoded : u.Decoded)
    (hsquashed : u.squashed = false) {s' : RobTimer} (henter : Rob.enter cfg s u = .ok s') : Recorded cfg s u s' := by
  cases enter_cases henter with
  | squashed htrue =>
    rw [hsquashed] at htrue
    cases htrue
  | @entered registers stores v l e _ hdepend hlinks hresolve =>
    obtain ⟨first, hfront, hknows, hnext⟩ := hknown.depends hdecoded hdepend
    obtain ⟨hintra, -, hset⟩ := hknows.dependencies hnext
    rw [newEntry_uop] at hintra hset
    rw [awaited, List.take_length] at hset
    have hmem (n : ℕ) : n ∈ v.getDependencies ↔ n ∈ (s.numbered u).intraDependencies ∨ n ∈ v.dependencies := by
      rw [DynamicMicroOp.getDependencies_eq, List.mem_append, hintra]
      rfl
    refine ⟨v.getDependencies, rfl, fun d hd => ?_⟩
    rw [hmem]
    rw [RobTimer.producers, ← hfront, List.mem_append, ← List.mem_toFinset (l := producersIn _ _ _)] at hd
    rcases hd with hd | hd
    · exact .inl (.inl hd)
    by_cases hload : (cfg.storeToLoadForwarding && u.isLoad) = true
    · rw [if_pos hload] at hset
      split at hset
      · exact .inl (.inr (List.mem_toFinset.1 (hset ▸ hd)))
      · rename_i p hp
        obtain ⟨hentry, hstore⟩ := hknows.consecutive.firstStore hp
        by_cases hne : d = p.uop.sequenceNumber
        · obtain ⟨hforward, hisLoad⟩ := Bool.and_eq_true_iff.1 hload
          refine .inr ⟨hforward, hisLoad, p, hentry, hne.symm, hstore, fun n hn => ?_⟩
          rw [hmem]
          rcases (h.waits p hentry).left n (hne ▸ hn) with hleft | hissued
          · -- what the store still waits for is awaited instead
            have hadded := Finset.mem_union_right ((producersIn s.rob first (s.numbered u)).toFinset.erase
              p.uop.sequenceNumber) (List.mem_toFinset.2 hleft)
            exact .inr (.inr (List.mem_toFinset.1 (hset ▸ hadded)))
          · exact .inl hissued.issued
        · have hkept := Finset.mem_union_left p.uop.getDependencies.toFinset (Finset.mem_erase.2 ⟨hne, hd⟩)
          exact .inl (.inr (List.mem_toFinset.1 (hset ▸ hkept)))
    · rw [if_neg hload] at hset
      exact .inl (.inr (List.mem_toFinset.1 (hset ▸ hd)))

/-! ### The dependencies to remove -/

/-- What a call enters. -/
def entered : Call → List DynamicMicroOp
  | .enter u => if u.squashed then [] else [u]
  | _ => []

/-- At most eight of the micro-ops that a micro-op waits for when it enters have issued. -/
def FewIssued (cfg : Config) (s : RobTimer) (u : DynamicMicroOp) : Prop :=
  awaitedCount cfg s s.rob.length (frontNumber s.rob s.nextSequenceNumber) (s.numbered u)
    (fun n => n ∈ issuedOf s.log) ≤ removalCapacity

instance (cfg : Config) (s : RobTimer) (u : DynamicMicroOp) : Decidable (FewIssued cfg s u) :=
  inferInstanceAs (Decidable (_ ≤ _))

/-- The entries that have issued are those that have issued in the log. -/
theorem Sound.issued_iff (h : Sound cfg s) {first n : ℕ} (hconsecutive : Consecutive first s.rob) {p : RobEntry}
    (hp : findEntry s.rob first n = some p) : p.done ≠ ⊤ ↔ n ∈ issuedOf s.log := by
  obtain ⟨hmem, hnumber⟩ := hconsecutive.number_of_find hp
  constructor
  · intro hdone
    exact hnumber ▸ ((h.waits p hmem).done.resolve_left hdone).issued
  · intro hissued hdone
    exact h.pending p hmem hdone (hnumber ▸ hissued)

/-- A micro-op needs more room than there is only if too many of the micro-ops that it waits for have issued. -/
theorem Sound.enter_overflow (h : Sound cfg s) (hknown : Known s) {u : DynamicMicroOp} (hdecoded : u.Decoded)
    (henter : Rob.enter cfg s u = .error .depsToRemove) : ¬ FewIssued cfg s u := by
  obtain ⟨-, registers, stores, v, hdepend, hlinks⟩ := Rob.enter_overflow henter
  obtain ⟨first, hfront, hknows, hnext⟩ := hknown.depends hdecoded hdepend
  rw [← hfront] at hlinks
  have hoverflow := (collects_link first s.nextSequenceNumber s.rob).overflow v.getDependencies rfl hlinks
  have hle : v.getDependencies.countP (hasIssued s.rob first) ≤ v.getDependencies.countP fun n => n ∈ issuedOf s.log := by
    refine List.countP_mono_left fun n _ hn => ?_
    rw [hasIssued, Option.any_eq_true] at hn
    obtain ⟨p, hp, hdone⟩ := hn
    exact decide_eq_true ((h.issued_iff hknows.consecutive hp).1 (of_decide_eq_true hdone))
  rw [hknows.countP hnext fun n => n ∈ issuedOf s.log, newEntry_uop] at hle
  rw [List.length_nil, Nat.zero_add] at hoverflow
  rw [FewIssued, ← hfront]
  exact Nat.not_le_of_lt (hoverflow.trans_le hle)

/-- A micro-op that enters has found room for all of them. -/
theorem Sound.fewIssued_of_enter (h : Sound cfg s) (hknown : Known s) {u : DynamicMicroOp} (hdecoded : u.Decoded)
    (hsquashed : u.squashed = false) {s' : RobTimer} (henter : Rob.enter cfg s u = .ok s') : FewIssued cfg s u := by
  cases enter_cases henter with
  | squashed htrue =>
    rw [hsquashed] at htrue
    cases htrue
  | @entered registers stores v l e _ hdepend hlinks hresolve =>
    obtain ⟨first, hfront, hknows, hnext⟩ := hknown.depends hdecoded hdepend
    rw [← hfront] at hlinks
    have hfits := (collects_link first s.nextSequenceNumber s.rob).fits v.getDependencies rfl (Nat.zero_le _) hlinks
    have hsame : v.getDependencies.countP (hasIssued s.rob first) =
        v.getDependencies.countP fun n => n ∈ issuedOf s.log := by
      refine List.countP_congr fun n hn => ?_
      obtain ⟨p, hp⟩ := found_of_links hlinks n hn
      rw [hasIssued, hp, Option.any_some, decide_eq_true_iff, decide_eq_true_iff]
      exact h.issued_iff hknows.consecutive hp
    rw [hsame, hknows.countP hnext, newEntry_uop, List.length_nil, Nat.zero_add] at hfits
    rw [FewIssued, ← hfront]
    exact hfits

/-! ### Whole runs -/

/-- What holds between the calls. -/
structure Steady (cfg : Config) (s : RobTimer) : Prop where
  sound : Sound cfg s
  known : Known s

theorem Steady.new : Steady cfg (.new cfg) := ⟨.new, .new⟩

theorem Steady.call (h : Steady cfg s) {skipping : Bool} {call : Call} (hdecoded : ∀ u ∈ entered call, u.Decoded)
    {s' : RobTimer} (hcall : s.call cfg skipping call = .ok s') : Steady cfg s' := by
  refine ⟨h.sound.call hcall, ?_⟩
  cases call with
  | enter u =>
    by_cases hsquashed : u.squashed = true
    · have hsame : Rob.enter cfg s u = .ok s := if_pos hsquashed
      cases hsame.symm.trans hcall
      exact h.known
    · exact h.known.enter (hdecoded u (by simp [entered, hsquashed])) hcall
  | execute =>
    cases hcall
    exact h.known.moves (execute_moves skipping)
  | synchronize time =>
    cases hcall
    have hmove : Move cfg s { s with now := time } := .time time
    exact h.known.move hmove

/-- A call whose micro-op finds at most eight producers that have issued stays within `deps_to_remove`. -/
theorem Steady.call_ne (h : Steady cfg s) {skipping : Bool} {call : Call}
    (hdecoded : ∀ u ∈ entered call, u.Decoded) (hfew : ∀ u ∈ entered call, FewIssued cfg s u) :
    s.call cfg skipping call ≠ .error .depsToRemove := by
  cases call with
  | enter u =>
    intro hcall
    have hsquashed := (enter_overflow hcall).1
    have hmem : u ∈ entered (.enter u) := by simp [entered, hsquashed]
    exact h.sound.enter_overflow h.known (hdecoded u hmem) hcall (hfew u hmem)
  | execute => exact fun hcall => by cases hcall
  | synchronize time => exact fun hcall => by cases hcall

/-- A core with one hardware thread. -/
def nineProducers : Config :=
  { dispatchWidth := 4, commitWidth := 4, windowSize := 32, rsEntries := 32, mispredictionPenalty := 10
    storeToLoadForwarding := true, noAddressDisambiguation := false, inorder := false, issueContention := false
    outstandingLoads := 8, outstandingStores := 8, memory := fun _ _ => 0 }

/-- A micro-op of a hundred cycles. -/
def slow : DynamicMicroOp := { DynamicMicroOp.plain with execLatency := 100 }

/-- Nine of these micro-ops each write a register, and the others fill the window. -/
def nineWriters : List DynamicMicroOp :=
  slow :: (List.range 9).map (fun i => { slow with destinationRegisters := [i + 1] }) ++ List.replicate 12 slow

/-- A micro-op that reads some of the registers. -/
def reader (registers : ℕ) : DynamicMicroOp :=
  { DynamicMicroOp.plain with sourceRegisters := (List.range registers).map (· + 1) }

/-- The writers enter and are executed: all nine have issued, and none has left the buffer. -/
def nineCalls : List Call := nineWriters.map Call.enter ++ List.replicate 5 Call.execute

/-- Whatever micro-ops enter, whenever the timer executes and wherever its time is set, the window and the reservation
stations are not exceeded, numbers find their entries, micro-ops issue after their dependencies and they commit in
program order, each one once. This holds as long as at most eight of the micro-ops that a micro-op waits for have issued
when it enters. -/
theorem robTimer_safe (cfg : Config) (skipping : Bool) (calls : List Call)
    (hdecoded : ∀ call ∈ calls, ∀ u ∈ entered call, u.Decoded)
    (hfew : (timer cfg skipping).Guarded (fun s call => ∀ u ∈ entered call, FewIssued cfg s u) (.new cfg) calls) :
    (timer cfg skipping).run (.new cfg) calls ≠ .error .depsToRemove ∧
      ∀ s, (timer cfg skipping).run (.new cfg) calls = .ok s → Safe cfg s ∧
        ∀ u s', u.Decoded → u.squashed = false → enter cfg s u = .ok s' → Recorded cfg s u s' := by
  have hboth := hfew.and_forall hdecoded
  have hstep (s : RobTimer) (call : Call) (s' : RobTimer) (hs : Steady cfg s)
      (hguard : (∀ u ∈ entered call, FewIssued cfg s u) ∧ ∀ u ∈ entered call, u.Decoded)
      (hcall : s.call cfg skipping call = .ok s') : Steady cfg s' := hs.call hguard.2 hcall
  refine ⟨Machine.guarded_run_ne _ hstep (fun s call hs hguard => hs.call_ne hguard.2 hguard.1) .new hboth, ?_⟩
  intro s hs
  have hsteady := Machine.guarded_induction _ hstep .new hboth hs
  exact ⟨hsteady.sound.safe, fun u s' hu hsquashed => hsteady.sound.recorded_enter hsteady.known hu hsquashed⟩

/-- Eight of the nine are read. -/
theorem robTimer_safe_eightRead : ∃ s,
    (timer nineProducers true).run (.new nineProducers) (nineCalls ++ [.enter (reader 8), .execute]) = .ok s ∧
      Safe nineProducers s := by
  have hok : ((timer nineProducers true).run (.new nineProducers)
      (nineCalls ++ [.enter (reader 8), .execute])).isOk = true := by decide +kernel
  have hsafe := robTimer_safe nineProducers true (nineCalls ++ [.enter (reader 8), .execute]) (by decide +kernel)
    (Machine.Guarded.of_decide (by decide +kernel))
  exact ⟨_, Machine.run_final _ hok, (hsafe.2 _ (Machine.run_final _ hok)).1⟩

/-- A micro-op that reads all nine stores an element behind the end of the array. -/
theorem nineRead_overflows : ¬ ∀ calls : List Call, (∀ call ∈ calls, ∀ u ∈ entered call, u.Decoded) →
    (timer nineProducers true).run (.new nineProducers) calls ≠ .error .depsToRemove := by
  intro h
  have hdecoded : ∀ call ∈ nineCalls ++ [.enter (reader 9)], ∀ u ∈ entered call, u.Decoded := by decide +kernel
  have hfault : faultOf ((timer nineProducers true).run (.new nineProducers) (nineCalls ++ [.enter (reader 9)])) =
      some .depsToRemove := by decide +kernel
  exact h _ hdecoded (faultOf_eq_some.1 hfault)

end LifeSim.Rob
