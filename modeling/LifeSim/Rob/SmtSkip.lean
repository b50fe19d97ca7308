import LifeSim.Rob.Removal
import LifeSim.Rob.Skip

/-!
# Threads that the issue stage passes over

The next event of a thread is kept from one cycle to the next, and `doIssue` passes over a thread whose next event is
later. As in `RobTimer`, a scan in which anything issues leaves an event in the past, and one in which nothing issues
has seen all entries, unless it ended early. With contention for ports it ends at the first entry that does not issue
when other threads have used up all ports, and then it may not have seen an entry that becomes ready first.
-/

namespace LifeSim.Rob

open LifeSim.Lib

variable {limit limit' bound bound' : Time} {rob rob' : List RobEntry} {n : ℕ}

/-! ### Entries without an event -/

theorem Held.mono {cfg : Config} {i : ℕ} (h : Held cfg limit rob i) (hle : limit' ≤ limit) : Held cfg limit' rob i := by
  intro e he
  rcases h e he with hdone | hready | ⟨honly, j, hj, e', he', hdone, hready⟩
  · exact .inl hdone
  · exact .inr (.inl (hle.trans hready))
  · exact .inr (.inr ⟨honly, j, hj, e', he', hdone, hle.trans hready⟩)

/-- The next event of a thread is in the past, or nothing in its window has an event before it. -/
structure Timely (cfg : Config) (bound limit : Time) (rob : List RobEntry) (numInRob : ℕ) : Prop where
  inside : numInRob ≤ rob.length
  held : limit ≤ bound ∨ ∀ i < numInRob, Held cfg limit rob i

namespace Timely

variable {cfg : Config} {numInRob : ℕ}

theorem mono (h : Timely cfg bound limit rob numInRob) (hle : bound ≤ bound') : Timely cfg bound' limit rob numInRob :=
  ⟨h.inside, h.held.imp_left fun hlimit => hlimit.trans hle⟩

/-- More micro-ops are in front of the window. -/
theorem append (h : Timely cfg bound limit rob numInRob) (new : List RobEntry) :
    Timely cfg bound limit (rob ++ new) numInRob := by
  refine ⟨h.inside.trans (List.length_append ▸ Nat.le_add_right _ _), h.held.imp_right fun hheld i hi => ?_⟩
  refine (hheld i hi).congr fun j hj => ?_
  rw [List.getElem?_append_left ((hj.trans_lt hi).trans_le h.inside)]

/-- One more micro-op is in the window, and the next event is not later than it becomes ready. -/
theorem dispatch (h : Timely cfg bound limit rob numInRob) {e : RobEntry} (hinside : numInRob < rob.length)
    (hle : limit' ≤ limit) (hready : limit' ≤ e.ready) :
    Timely cfg bound limit' (rob.set numInRob e) (numInRob + 1) := by
  refine ⟨by rw [List.length_set]; exact hinside, ?_⟩
  rcases h.held with hpast | hheld
  · exact .inl (hle.trans hpast)
  · refine .inr fun i hi => ?_
    rcases Nat.lt_succ_iff_lt_or_eq.1 hi with hlt | rfl
    · refine ((hheld i hlt).mono hle).congr fun j hj => ?_
      rw [List.getElem?_set_ne (hj.trans_lt hlt).ne']
    · intro f hf
      rw [List.getElem?_set_self hinside] at hf
      obtain rfl := Option.some.inj hf
      exact .inr (.inl hready)

/-- The micro-op at the front is done and leaves. -/
theorem commit {e : RobEntry} {rest : List RobEntry} (h : Timely cfg bound limit (e :: rest) numInRob)
    (hdone : e.done ≠ ⊤) : Timely cfg bound limit rest (numInRob - 1) := by
  have hinside := h.inside
  rw [List.length_cons] at hinside
  refine ⟨by omega, h.held.imp_right fun hheld i hi f hf => ?_⟩
  refine (hheld (i + 1) (by omega) f hf).imp_right (Or.imp_right fun hbehind => ?_)
  obtain ⟨honly, j, hj, e', he', hdone', hready⟩ := hbehind
  cases j with
  | zero =>
    obtain rfl := Option.some.inj he'
    exact absurd hdone' hdone
  | succ j => exact ⟨honly, j, Nat.lt_of_succ_lt_succ hj, e', he', hdone', hready⟩

theorem congr (h : Timely cfg bound limit rob numInRob) (hrob : rob'.map RobEntry.forget = rob.map RobEntry.forget) :
    Timely cfg bound limit rob' numInRob := by
  have hlength := congrArg List.length hrob
  rw [List.length_map, List.length_map] at hlength
  refine ⟨h.inside.trans_eq hlength.symm, h.held.imp_right fun hheld i hi => (hheld i hi).congr fun j _ => ?_⟩
  rw [← List.getElem?_map, ← List.getElem?_map, hrob]

end Timely

/-! ### A scan with all ports taken -/

/-- When something next happens to an entry in the window: it becomes ready, or it is done. -/
def RobEntry.event (e : RobEntry) : Time := if e.done = ⊤ then e.ready else e.done

/-- If the next event is not before the limit, and all ports are taken, the scan has seen the entries up to the first one
that has not issued. -/
theorem issueLoop_first {cfg : Config} {v : RobTimer} {i : ℕ} {l : IssueLocals} (hnow : (v.now : Time) < limit)
    (hlimit : limit ≤ (issueLoop cfg n i l v).2.nextEvent) (hcontention : cfg.issueContention = true)
    (hports : l.ports.noMore = true) :
    (issueLoop cfg n i l v).1 = v ∧ ∃ m, (∀ k, i ≤ k → k < m → ∀ e, v.rob[k]? = some e → e.done ≠ ⊤) ∧
      (∀ k, i ≤ k → k ≤ m → k < i + n → ∀ e, v.rob[k]? = some e → limit ≤ e.event) ∧
      (m < i + n → ∃ e, v.rob[m]? = some e ∧ e.done = ⊤) := by
  induction n generalizing i l with
  | zero => exact ⟨rfl, i, fun k hge hlt => by omega, fun k _ _ hlt => by omega, fun hlt => by omega⟩
  | succ n ih =>
    have hready := (@issueLoop_le cfg v (n + 1) i l).2
    rw [issueLoop] at hlimit hready ⊢
    cases he : v.rob[i]? with
    | none =>
      -- there are no entries behind the end
      have hend := List.getElem?_eq_none_iff.1 he
      have hnone (k : ℕ) (hk : i ≤ k) : v.rob[k]? = none := List.getElem?_eq_none (hend.trans hk)
      refine ⟨rfl, i + (n + 1), fun k hge _ e hk => ?_, fun k hge _ _ e hk => ?_, fun hlt => by omega⟩
      · rw [hnone k hge] at hk
        cases hk
      · rw [hnone k hge] at hk
        cases hk
    | some e =>
      simp only [he] at hlimit hready
      dsimp only
      by_cases hdone : e.done = ⊤
      · have hlate := hlimit.trans (hready e (Nat.succ_pos n) rfl hdone)
        rw [if_neg (not_not.2 hdone), canIssue_notReady (lt_of_lt_of_le hnow hlate)] at hlimit ⊢
        dsimp only at hlimit ⊢
        have hstop (l' : IssueLocals) (hl : l'.ports = l.ports) : (cfg.inorder || noMore cfg l') = true := by
          rw [noMore, if_pos hcontention, hl, hports, Bool.or_true]
        split_ifs at hlimit ⊢ with hgo
        · refine ⟨rfl, i, fun k hge hlt => by omega, fun k hge hle _ f hf => ?_, fun _ => ⟨e, he, hdone⟩⟩
          obtain rfl := Nat.le_antisymm hle hge
          rw [he] at hf
          obtain rfl := Option.some.inj hf
          rw [RobEntry.event, if_pos hdone]
          exact hlate
        · exact absurd (hstop _ rfl) hgo
      · rw [if_pos hdone] at hlimit ⊢
        obtain ⟨hsame, m, hbefore, hseen, hfirst⟩ := ih hlimit hports
        have hevent : limit ≤ e.event := by
          rw [RobEntry.event, if_neg hdone]
          exact hlimit.trans ((issueLoop_le _ _ _).1.trans (min_le_right _ _))
        refine ⟨hsame, m, fun k hge hlt f hf => ?_, fun k hge hle hlt f hf => ?_, fun hlt => hfirst (by omega)⟩
        · rcases Nat.eq_or_lt_of_le hge with rfl | hgt
          · rw [he] at hf
            exact Option.some.inj hf ▸ hdone
          · exact hbefore k hgt hlt f hf
        · rcases Nat.eq_or_lt_of_le hge with rfl | hgt
          · rw [he] at hf
            exact Option.some.inj hf ▸ hevent
          · exact hseen k hgt hle (by omega) f hf

/-- Issuing keeps the size of the buffer and of the window. -/
theorem issueLoop_length {cfg : Config} {v : RobTimer} (n i : ℕ) (l : IssueLocals) :
    (issueLoop cfg n i l v).1.rob.length = v.rob.length ∧ (issueLoop cfg n i l v).1.numInRob = v.numInRob := by
  induction n generalizing i l v with
  | zero => exact ⟨rfl, rfl⟩
  | succ n ih =>
    rw [issueLoop]
    cases v.rob[i]? with
    | none => exact ⟨rfl, rfl⟩
    | some e =>
      have hissue : (issueInstruction cfg i e v).1.rob.length = v.rob.length := by
        have hlength := congrArg List.length (@doneTimes_issueInstruction cfg v i e)
        rwa [doneTimes, doneTimes, List.length_map, List.length_set, List.length_map] at hlength
      dsimp only
      split_ifs
      · exact ih _ _
      · split
        · exact ⟨rfl, rfl⟩
        · split_ifs
          · exact ⟨hissue, rfl⟩
          · obtain ⟨hlength, hnum⟩ := @ih (issueInstruction cfg i e v).1 (i + 1) _
            exact ⟨hlength.trans hissue, hnum⟩
        · split_ifs
          · exact ⟨rfl, rfl⟩
          · exact ih _ _

/-- The scan ends at the first entry that has not issued, and another one behind it becomes ready before anything happens
to the entries that the scan has seen. -/
def ReadyBehind (now : ℕ) (rob : List RobEntry) (first later : ℕ) : Prop :=
  ∃ e ∈ rob[later]?, e.done = ⊤ ∧ (∀ j < first, ∀ f ∈ rob[j]?, f.done ≠ ⊤) ∧ (∃ f ∈ rob[first]?, f.done = ⊤) ∧
    ∀ j ≤ first, ∀ f ∈ rob[j]?, max e.ready (now + 1 : ℕ) < f.event

instance (now : ℕ) (rob : List RobEntry) (first later : ℕ) : Decidable (ReadyBehind now rob first later) :=
  inferInstanceAs (Decidable (∃ _ ∈ _, _))

/-- The ports are all taken, and the scan overlooks an entry of the window. -/
def Overlooks (cfg : Config) (ports : Ports) (now : ℕ) (rob : List RobEntry) (numInRob : ℕ) : Prop :=
  cfg.issueContention = true ∧ cfg.inorder = false ∧ ports.noMore = true ∧
    ∃ later < numInRob, ∃ first < later, ReadyBehind now rob first later

instance (cfg : Config) (ports : Ports) (now : ℕ) (rob : List RobEntry) (numInRob : ℕ) :
    Decidable (Overlooks cfg ports now rob numInRob) := inferInstanceAs (Decidable (_ ∧ _))

/-- A scan that overlooks nothing leaves the right next event for the cycles to come. -/
theorem issueLoop_timely {cfg : Config} {v : RobTimer} {ports : Ports} (hinside : v.numInRob ≤ v.rob.length)
    (hports : ¬ Overlooks cfg ports v.now v.rob v.numInRob) :
    let (v', l) := issueLoop cfg v.numInRob 0 { IssueLocals.init with ports := ports } v
    Timely cfg (v.now + 1 : ℕ) l.nextEvent v'.rob v'.numInRob := by
  obtain ⟨hlength, hnum⟩ := @issueLoop_length cfg v v.numInRob 0 { IssueLocals.init with ports := ports }
  have hquiet := fun limit => @issueLoop_quiet cfg v limit v.numInRob 0 { IssueLocals.init with ports := ports }
  have hfirst := fun limit => @issueLoop_first limit v.numInRob cfg v 0 { IssueLocals.init with ports := ports }
  generalize issueLoop cfg v.numInRob 0 { IssueLocals.init with ports := ports } v = x at hlength hnum hquiet hfirst
  obtain ⟨v', l⟩ := x
  dsimp only at hlength hnum hquiet hfirst ⊢
  refine ⟨by rw [hnum, hlength]; exact hinside, ?_⟩
  by_cases hsoon : l.nextEvent ≤ (v.now + 1 : ℕ)
  · exact .inl hsoon
  · have hlate := not_le.1 hsoon
    have hnow : (v.now : Time) < l.nextEvent := lt_of_le_of_lt (by exact_mod_cast Nat.le_succ v.now) hlate
    refine .inr ?_
    by_cases hfree : cfg.issueContention = true → cfg.inorder = true ∨ ports.noMore = false
    · obtain ⟨rfl, hall⟩ := hquiet _ hnow le_rfl rfl hfree
      intro k hk e he
      rcases hall k (Nat.zero_le k) (by omega) e he with ⟨hdone, -⟩ | ⟨-, hready⟩ | ⟨honly, j, -, hj, hentry⟩
      · exact .inl hdone
      · exact .inr (.inl hready)
      · exact .inr (.inr ⟨honly, j, hj, hentry⟩)
    · obtain ⟨hcontention, hstop⟩ := Classical.not_imp.1 hfree
      obtain ⟨hinorder, hnoMore⟩ := not_or.1 hstop
      have hnoMore := Bool.of_not_eq_false hnoMore
      obtain ⟨rfl, m, hbefore, hseen, hfirst⟩ := hfirst _ hnow le_rfl hcontention hnoMore
      intro k hk e he
      by_cases hdone : e.done = ⊤
      · rcases Nat.lt_or_ge m k with hmk | hkm
        · -- the scan has not come here
          refine .inr (.inl ?_)
          by_contra hearly
          refine hports ⟨hcontention, Bool.eq_false_iff.2 hinorder, hnoMore, k, hk, m, hmk, e, he, hdone,
            fun j hj => hbefore j (Nat.zero_le j) hj, hfirst (by omega), fun j hj f hf => ?_⟩
          refine lt_of_lt_of_le (max_lt (not_le.1 hearly) hlate) ?_
          exact hseen j (Nat.zero_le j) hj (by omega) f hf
        · have hevent := hseen k (Nat.zero_le k) hkm (by omega) e he
          rw [RobEntry.event, if_pos hdone] at hevent
          exact .inr (.inl hevent)
      · exact .inl hdone

/-! ### The threads of a core -/

/-- The next event of the thread is right from some cycle on. -/
def RobThread.Timely (cfg : SmtConfig) (bound : Time) (t : RobThread) : Prop :=
  Rob.Timely cfg.toConfig bound t.nextEvent t.rob t.numInRob

/-- A thread has its turn in the issue stage. -/
structure IssueTurn where
  state : RobSmtTimer
  index : ℕ
  thread : RobThread
  ports : Ports

namespace RobSmtTimer

variable (cfg : SmtConfig) (s : RobSmtTimer)

/-- The turns in the loop of `doIssue`. -/
def issueTurns : List ℕ → Ports → RobSmtTimer → List IssueTurn
  | [], _, _ => []
  | i :: is, ports, s =>
    match s.threads[i]? with
    | none => issueTurns is ports s
    | some t =>
      ⟨s, i, t, ports⟩ ::
        if s.skips t ∨ t.numInRob = 0 then issueTurns is ports s
        else
          let (s, l) := s.tryIssue cfg i t ports
          if 0 < l.numIssued ∧ cfg.simultaneousIssue = false then [] else issueTurns is l.ports s

/-- The turns during a call from outside. -/
def turns : SmtCall → List IssueTurn
  | .execute =>
    if s.canExecute cfg then
      match s.doDispatch cfg with
      | .ok (s, _) => issueTurns cfg (s.order s.issueThread) .init s
      | .error _ => []
    else []
  | _ => []

/-- The next events of all threads are right. -/
def AllTimely (bound : Time) : Prop := s.All (RobThread.Timely cfg bound)

end RobSmtTimer

/-- If the thread is passed over, nothing of it would have issued. -/
def IssueTurn.SkipsExactly (cfg : SmtConfig) (x : IssueTurn) : Prop :=
  x.state.skips x.thread → (x.state.tryIssue cfg x.index x.thread x.ports).2.numIssued = 0

instance (cfg : SmtConfig) (x : IssueTurn) : Decidable (x.SkipsExactly cfg) := inferInstanceAs (Decidable (_ → _))

/-- If the thread is not passed over, its scan overlooks no micro-op. -/
def IssueTurn.SeesAll (cfg : SmtConfig) (x : IssueTurn) : Prop :=
  ¬ x.state.skips x.thread →
    ¬ Overlooks cfg.toConfig x.ports x.state.now x.thread.rob x.thread.numInRob

instance (cfg : SmtConfig) (x : IssueTurn) : Decidable (x.SeesAll cfg) := inferInstanceAs (Decidable (_ → _))

namespace RobSmtTimer

variable {cfg : SmtConfig} {s : RobSmtTimer} {i : ℕ} {t : RobThread} {ports : Ports}

/-- Nothing of a thread whose next event is later can issue. -/
theorem tryIssue_skipped (h : RobThread.Timely cfg (s.now : Time) t) (hskip : s.skips t) :
    (s.tryIssue cfg i t ports).2.numIssued = 0 := by
  rcases h.held with hpast | hheld
  · exact absurd hskip (not_lt.2 hpast)
  · refine (issueLoop_held (s := s.view t) hskip (fun k hk => hheld k ?_)
      (fun _ k hk => absurd hk (Nat.not_lt_zero k)) rfl).2
    rwa [Nat.zero_add] at hk

/-- The thread after its turn. -/
theorem tryIssue_timely (h : t.numInRob ≤ t.rob.length)
    (hports : ¬ Overlooks cfg.toConfig ports s.now t.rob t.numInRob) (ht : s.threads[i]? = some t) (j : ℕ) (u : RobThread)
    (hu : (s.tryIssue cfg i t ports).1.threads[j]? = some u) :
    j = i ∧ RobThread.Timely cfg (s.now + 1 : ℕ) u ∨ j ≠ i ∧ s.threads[j]? = some u := by
  have htimely := @issueLoop_timely cfg.toConfig (s.view t) ports h hports
  change (s.threads.modify i _)[j]? = some u at hu
  rw [List.getElem?_modify] at hu
  by_cases hj : i = j
  · subst hj
    rw [ht] at hu
    change some (if i = i then _ else _) = some u at hu
    rw [if_pos rfl] at hu
    obtain rfl := Option.some.inj hu
    exact .inl ⟨rfl, htimely⟩
  · simp only [if_neg hj] at hu
    refine .inr ⟨Ne.symm hj, ?_⟩
    rwa [Option.map_eq_map, Option.map_id'] at hu

/-- In the loop over the threads, those that have not had their turn have the right next event now. -/
theorem issueRound_timely {l : List ℕ} (next : Time) (hnodup : l.Nodup) (hall : s.AllTimely cfg (s.now + 1 : ℕ))
    (hahead : ∀ i ∈ l, ∀ t, s.threads[i]? = some t → RobThread.Timely cfg (s.now : Time) t)
    (hsees : ∀ x ∈ issueTurns cfg l ports s, x.SeesAll cfg) :
    (∀ x ∈ issueTurns cfg l ports s, x.SkipsExactly cfg) ∧
      (issueRound cfg l ports next s).1.AllTimely cfg (s.now + 1 : ℕ) ∧ (issueRound cfg l ports next s).1.now = s.now := by
  induction l generalizing s ports next with
  | nil => exact ⟨fun x hx => absurd hx List.not_mem_nil, hall, rfl⟩
  | cons i l ih =>
    obtain ⟨hi, hnodup⟩ := List.nodup_cons.1 hnodup
    have hrest := fun j hj => hahead j (List.mem_cons_of_mem i hj)
    rw [issueTurns] at hsees ⊢
    rw [issueRound]
    cases ht : s.threads[i]? with
    | none =>
      simp only [ht] at hsees
      exact ih next hnodup hall hrest hsees
    | some t =>
      simp only [ht] at hsees
      have htimely := hahead i List.mem_cons_self t ht
      have hfirst : IssueTurn.SkipsExactly cfg ⟨s, i, t, ports⟩ := fun hskip => tryIssue_skipped htimely hskip
      have hturn := hsees _ List.mem_cons_self
      have hlater := fun x hx => hsees x (List.mem_cons_of_mem _ hx)
      dsimp only
      by_cases hpass : s.skips t ∨ t.numInRob = 0
      · rw [if_pos hpass] at hlater ⊢
        rw [if_pos hpass]
        obtain ⟨hskips, hround⟩ := ih next hnodup hall hrest hlater
        exact ⟨List.forall_mem_cons.2 ⟨hfirst, hskips⟩, hround⟩
      · rw [if_neg hpass] at hlater ⊢
        rw [if_neg hpass]
        obtain ⟨hskip, -⟩ := not_or.1 hpass
        have hafter := tryIssue_timely htimely.inside (hturn hskip) ht
        have hnow : (s.tryIssue cfg i t ports).1.now = s.now := rfl
        generalize s.tryIssue cfg i t ports = x at hafter hnow hlater
        obtain ⟨a, m⟩ := x
        dsimp only at hafter hnow hlater ⊢
        have hall' : a.AllTimely cfg (a.now + 1 : ℕ) := by
          intro j u hu
          rw [hnow]
          rcases hafter j u hu with ⟨-, hu⟩ | ⟨-, hu⟩
          · exact hu
          · exact hall j u hu
        by_cases hend : 0 < m.numIssued ∧ cfg.simultaneousIssue = false
        · rw [if_pos hend, if_pos hend]
          refine ⟨List.forall_mem_cons.2 ⟨hfirst, fun x hx => absurd hx List.not_mem_nil⟩, ?_, hnow⟩
          rw [← hnow]
          exact hall'
        · rw [if_neg hend] at hlater ⊢
          rw [if_neg hend]
          have hahead' (j : ℕ) (hj : j ∈ l) (u : RobThread) (hu : a.threads[j]? = some u) : RobThread.Timely cfg
            (a.now : Time) u := by
            rw [hnow]
            rcases hafter j u hu with ⟨rfl, -⟩ | ⟨-, hu⟩
            · exact absurd hj hi
            · exact hrest j hj u hu
          obtain ⟨hskips, hround, hnow'⟩ := ih (min next m.nextEvent) hnodup hall' hahead' hlater
          rw [hnow] at hround
          exact ⟨List.forall_mem_cons.2 ⟨hfirst, hskips⟩, hround, hnow'.trans hnow⟩

/-- Every thread has one turn. -/
theorem order_nodup (s : RobSmtTimer) (first : ℕ) : (s.order first).Nodup := by
  refine List.Nodup.map_on (fun a ha b hb hab => ?_) List.nodup_range
  rw [List.mem_range] at ha hb
  exact Nat.ModEq.eq_of_lt_of_lt (Nat.ModEq.add_left_cancel' first hab) ha hb

theorem doIssue_timely (hall : s.AllTimely cfg (s.now : Time))
    (hsees : ∀ x ∈ issueTurns cfg (s.order s.issueThread) .init s, x.SeesAll cfg) :
    (∀ x ∈ issueTurns cfg (s.order s.issueThread) .init s, x.SkipsExactly cfg) ∧
      (s.doIssue cfg).1.AllTimely cfg (s.now + 1 : ℕ) ∧ (s.doIssue cfg).1.now = s.now :=
  issueRound_timely _ (s.order_nodup s.issueThread)
    (fun i t ht => (hall i t ht).mono (by exact_mod_cast Nat.le_succ s.now)) (fun i _ t ht => hall i t ht) hsees

/-! ### The other stages -/

/-- What enters the window is not ready before the thread's next event. -/
theorem dispatchEntry_timely {v v' : RobTimer} {e e' : RobEntry} {next next' : Time}
    (h : Rob.Timely cfg.toConfig bound next v.rob v.numInRob) (he : v.rob[v.numInRob]? = some e)
    (hset : setDependencies cfg v e = .ok (v', e')) (hle : next' ≤ next)
    (hready : next' ≤ max e'.ready (v'.now + 1 : ℕ)) :
    Rob.Timely cfg.toConfig bound next' (dispatchEntry e' v').rob (dispatchEntry e' v').numInRob := by
  obtain ⟨registers, stores, u, l, hsets⟩ := setDependencies_cases hset
  have hforget := hsets.forget
  have hlength := congrArg List.length hforget
  rw [List.length_map, List.length_map] at hlength
  have hinside := (List.getElem?_eq_some_iff.1 he).1
  cases hsets.after
  exact (h.congr hforget).dispatch (hlength ▸ hinside) hle hready

theorem dispatchLoop_timely {t : RobThread} (ht : RobThread.Timely cfg bound t) (places : ℕ) (next : Time) :
    ∀ x, dispatchLoop cfg places ⟨0, next, t.nextEvent⟩ (s.view t) = .ok x →
      RobThread.Timely cfg bound (RobThread.update t x.1 x.2.threadNextEvent) :=
  (@dispatchLoop_invariant cfg (fun next v => Rob.Timely cfg.toConfig bound next v.rob v.numInRob)
    (fun _ _ _ _ hv => hv) (fun _ _ _ _ _ _ hv he hset hle hready => dispatchEntry_timely hv he hset hle hready)
    places ⟨0, next, t.nextEvent⟩ (s.view t) ht).1

theorem doDispatch_timely (hall : s.AllTimely cfg bound) {s' : RobSmtTimer} {next : Time}
    (h : s.doDispatch cfg = .ok (s', next)) : s'.AllTimely cfg bound ∧ s'.now = s.now := by
  obtain ⟨⟨a, dispatched, next'⟩, ha, h⟩ := exists_of_bind_ok h
  cases h
  exact (dispatchRound_invariant (R := fun _ => True)
    (fun s t places next ht => ⟨dispatchLoop_timely ht places next, fun _ _ => trivial⟩) (s.order s.dispatchThread) ⊤ s
    hall).1 _ ha

theorem commitLoop_timely {nextEvent : Time} (l : List RobEntry) (committed : ℕ) {v : RobTimer} (hl : v.rob = l)
    (h : Rob.Timely cfg.toConfig bound nextEvent v.rob v.numInRob) :
    Rob.Timely cfg.toConfig bound nextEvent (commitLoop cfg.toConfig l committed v).rob
      (commitLoop cfg.toConfig l committed v).numInRob := by
  induction l generalizing v committed with
  | nil => exact h
  | cons e l ih =>
    rw [commitLoop]
    by_cases hdone : e.done ≤ v.now
    · rw [hl] at h
      have hentry := h.commit (ne_top_of_le_ne_top (ENat.natCast_ne_top v.now) hdone)
      rw [if_pos hdone]
      split_ifs
      · exact hentry
      · exact ih _ rfl hentry
    · rw [if_neg hdone]
      exact h

theorem commitThread_timely (i : ℕ) (hall : s.AllTimely cfg bound) :
    (commitThread cfg s i).AllTimely cfg bound ∧ (commitThread cfg s i).now = s.now := by
  rw [commitThread]
  cases ht : s.threads[i]? with
  | none => exact ⟨hall, rfl⟩
  | some t =>
    have hcommit := commitLoop_timely (v := s.view t) t.rob 0 rfl (hall i t ht)
    refine ⟨All.update hall fun u hu => ?_, rfl⟩
    rw [ht] at hu
    exact Option.some.inj hu ▸ hcommit

theorem doCommit_timely (hall : s.AllTimely cfg bound) :
    (s.doCommit cfg).1.AllTimely cfg bound ∧ (s.doCommit cfg).1.now = s.now := by
  change ((List.range s.threads.length).foldl (commitThread cfg) s).AllTimely cfg bound ∧
    ((List.range s.threads.length).foldl (commitThread cfg) s).now = s.now
  generalize List.range s.threads.length = l
  induction l generalizing s with
  | nil => exact ⟨hall, rfl⟩
  | cons i l ih =>
    obtain ⟨hafter, hnow⟩ := commitThread_timely i hall
    obtain ⟨hrest, hnow'⟩ := ih hafter
    exact ⟨hrest, hnow'.trans hnow⟩

/-! ### Runs -/

/-- Time goes on. -/
theorem lt_advance (skipping : Bool) (now : ℕ) (next : Time) : now < advance skipping now next := by
  cases skipping with
  | false => exact advance_false now next ▸ Nat.lt_succ_self now
  | true => rcases advance_true now next with h | ⟨h, -⟩ <;> omega

theorem AllTimely.mono (hall : s.AllTimely cfg bound) (hle : bound ≤ bound') : s.AllTimely cfg bound' :=
  fun j u hu => (hall j u hu).mono hle

/-- A cycle leaves the threads as its last stage does, and time goes on. -/
theorem executeCycle_cases {s' : RobSmtTimer} (h : s.executeCycle cfg = .ok s') : ∃ a next,
    s.doDispatch cfg = .ok (a, next) ∧ s'.threads = ((a.doIssue cfg).1.doCommit cfg).1.threads ∧
      ((a.doIssue cfg).1.doCommit cfg).1.now < s'.now := by
  obtain ⟨⟨a, next⟩, ha, h⟩ := exists_of_bind_ok h
  cases h
  exact ⟨a, next, ha, rfl, lt_advance _ _ _⟩

/-- The turns in a cycle, and the next events after it. -/
theorem executeCycle_timely (hall : s.AllTimely cfg (s.now : Time)) {a : RobSmtTimer} {next : Time}
    (ha : s.doDispatch cfg = .ok (a, next))
    (hsees : ∀ x ∈ issueTurns cfg (a.order a.issueThread) .init a, x.SeesAll cfg) :
    (∀ x ∈ issueTurns cfg (a.order a.issueThread) .init a, x.SkipsExactly cfg) ∧
      ∀ s', s.executeCycle cfg = .ok s' → s'.AllTimely cfg (s'.now : Time) := by
  obtain ⟨hdispatch, hnow⟩ := doDispatch_timely hall ha
  rw [← hnow] at hdispatch
  obtain ⟨hskips, hissue, hnow⟩ := doIssue_timely hdispatch hsees
  obtain ⟨hcommit, hnow'⟩ := doCommit_timely hissue
  refine ⟨hskips, fun s' hs' j u hu => ?_⟩
  obtain ⟨a', next', ha', hthreads, hlt⟩ := executeCycle_cases hs'
  cases ha.symm.trans ha'
  rw [hthreads] at hu
  rw [hnow', hnow] at hlt
  exact (hcommit j u hu).mono (by exact_mod_cast Nat.succ_le_of_lt hlt)

theorem pushInstruction_timely {t : RobThread} (h : RobThread.Timely cfg bound t) (uops : List DynamicMicroOp) :
    RobThread.Timely cfg bound (uops.foldl pushInstruction t) := by
  induction uops generalizing t with
  | nil => exact h
  | cons u uops ih =>
    refine ih ?_
    rw [pushInstruction]
    split_ifs
    · exact h
    · exact h.append _

theorem computeCurrentWindowsize_threads :
    (s.computeCurrentWindowsize cfg).threads = s.threads ∧ (s.computeCurrentWindowsize cfg).now = s.now := by
  rw [computeCurrentWindowsize]
  split_ifs <;> exact ⟨rfl, rfl⟩

theorem new_timely (cfg : SmtConfig) : (new cfg).AllTimely cfg ((new cfg).now : Time) := by
  intro i t ht
  rw [new, computeCurrentWindowsize_threads.1] at ht
  obtain rfl := List.eq_of_mem_replicate (List.mem_of_getElem? ht)
  exact ⟨Nat.zero_le _, .inl bot_le⟩

/-- One call keeps the next events right, and what is passed over would not have issued. -/
theorem call_timely (hall : s.AllTimely cfg (s.now : Time)) (call : SmtCall)
    (hsees : ∀ x ∈ s.turns cfg call, x.SeesAll cfg) : (∀ x ∈ s.turns cfg call, x.SkipsExactly cfg) ∧
      ∀ s', s.call cfg call = .ok s' → s'.AllTimely cfg (s'.now : Time) := by
  have hnothing : ∀ x ∈ ([] : List IssueTurn), x.SkipsExactly cfg := fun x hx => absurd hx List.not_mem_nil
  cases call with
  | push i uops =>
    refine ⟨hnothing, fun s' hs' => ?_⟩
    cases hs'
    exact All.modify hall fun t ht => pushInstruction_timely ht uops
  | execute =>
    rw [turns] at hsees ⊢
    rw [call, execute]
    by_cases hexecute : s.canExecute cfg = true
    · rw [if_pos hexecute] at hsees ⊢
      rw [if_pos hexecute]
      cases ha : s.doDispatch cfg with
      | error fault =>
        refine ⟨hnothing, fun s' hs' => ?_⟩
        rw [executeCycle, ha] at hs'
        cases hs'
      | ok x =>
        rw [ha] at hsees
        exact executeCycle_timely hall ha hsees
    · rw [if_neg hexecute, if_neg hexecute]
      refine ⟨hnothing, fun s' hs' => ?_⟩
      cases hs'
      exact hall
  | returnLatency i =>
    refine ⟨hnothing, fun s' hs' => ?_⟩
    cases hs'
    exact All.modify hall fun t ht => ht
  | synchronize i time =>
    refine ⟨hnothing, fun s' hs' => ?_⟩
    cases hs'
    have hnow : s.now ≤ (s.synchronize i time).now := by
      rw [synchronize]
      dsimp only
      split
      · exact le_rfl
      · exact le_max_left _ _
    refine AllTimely.mono ?_ (Nat.cast_le.2 hnow)
    exact All.modify hall fun t ht => ht
  | setRunning i running =>
    refine ⟨hnothing, fun s' hs' => ?_⟩
    cases hs'
    rw [setRunning, AllTimely, All, computeCurrentWindowsize_threads.1, computeCurrentWindowsize_threads.2]
    exact All.modify hall fun t ht => ht

end RobSmtTimer

/-- In a run in which no scan of a thread overlooks a micro-op, a thread that the issue stage passes over would not have
issued anything. This holds as long as at most eight of the micro-ops that a micro-op waits for have finished when it is
dispatched. -/
theorem smt_skipping_exact (cfg : SmtConfig) (calls : List SmtCall)
    (hpushed : ∀ call ∈ calls, ∀ u ∈ pushed call, u.Decoded)
    (h : (smtTimer cfg).Guarded (fun s call => (∀ x ∈ s.turns cfg call, x.SeesAll cfg) ∧
      ∀ x ∈ s.dependencyCalls cfg call, RobSmtTimer.FewFinished cfg x.1 x.2) (.new cfg) calls) :
    (smtTimer cfg).run (.new cfg) calls ≠ .error .depsToRemove ∧
      (smtTimer cfg).Guarded (fun s call => ∀ x ∈ s.turns cfg call, x.SkipsExactly cfg) (.new cfg) calls := by
  constructor
  · refine Machine.guarded_run_ne _ (P := fun s => s.All RobThread.Known)
      (fun s call s' hs hg hcall => (RobSmtTimer.known_call hs hg.2).1 s' hcall) (fun s call hs hg hcall => ?_)
      (RobSmtTimer.known_new cfg) (h.and_forall hpushed)
    obtain ⟨x, hx, hset⟩ := (RobSmtTimer.call_error_iff call).1 hcall
    obtain ⟨hknows, he⟩ := (RobSmtTimer.known_call hs hg.2).2 x hx
    exact hknows.setDependencies_ne he (hg.1.2 x hx) hset
  · exact Machine.Guarded.mono_of_kept (P := fun s : RobSmtTimer => s.AllTimely cfg (s.now : Time))
      (fun s call s' hs hg hcall => (RobSmtTimer.call_timely hs call hg.1).2 s' hcall)
      (fun s call hs hg => (RobSmtTimer.call_timely hs call hg.1).1) (RobSmtTimer.new_timely cfg) h

/-- A core with two hardware threads. -/
def sharedPorts : SmtConfig where
  dispatchWidth := 5
  commitWidth := 5
  windowSize := 64
  rsEntries := 64
  mispredictionPenalty := 10
  storeToLoadForwarding := true
  noAddressDisambiguation := false
  inorder := false
  issueContention := true
  outstandingLoads := 8
  outstandingStores := 8
  memory := fun _ _ => 0
  numThreads := 2
  windowRepartition := false
  simultaneousIssue := true

/-- A computation of some cycles, on whose result other micro-ops depend. -/
def producer (latency : ℕ) : DynamicMicroOp :=
  { DynamicMicroOp.plain with destinationRegisters := [1], execLatency := latency }

/-- A micro-op that depends on it. -/
def consumer : DynamicMicroOp := { DynamicMicroOp.plain with sourceRegisters := [1] }

/-- Consumers that use all ports in one cycle. -/
def allPorts : List DynamicMicroOp :=
  [{ consumer with isLoad := true, port := .port2 }, { consumer with isStore := true, port := .port34 },
    consumer, consumer, consumer]

/-- The first thread takes all ports in the fifth cycle, and the second thread has some other micro-ops. -/
def sharedCalls (other : List DynamicMicroOp) (cycles : ℕ) : List SmtCall :=
  [.setRunning 0 true, .setRunning 1 true,
    .push 0 (producer 2 :: List.replicate 4 .plain ++ allPorts ++ List.replicate 40 .plain), .push 1 other] ++
    List.replicate cycles .execute

/-- The core after these calls. -/
def shared (other : List DynamicMicroOp) (cycles : ℕ) : RobSmtTimer :=
  (smtTimer sharedPorts).final (.new sharedPorts) (sharedCalls other cycles)

/-- Some micro-ops that are ready, a computation of a hundred cycles, and micro-ops that depend on it. -/
def readyFirst : List DynamicMicroOp := List.replicate 6 .plain ++ producer 100 :: List.replicate 50 consumer

/-- The scan of the second thread that finds no port sees that a micro-op is ready. Later the thread waits for the
computation and is passed over. -/
theorem smt_skipping_exact_readyFirst :
    (∃ x ∈ (shared readyFirst 4).turns sharedPorts .execute, x.ports.noMore = true ∧ ¬ x.state.skips x.thread) ∧
      (∃ x ∈ (shared readyFirst 9).turns sharedPorts .execute, x.state.skips x.thread ∧ 0 < x.thread.numInRob) ∧
      (smtTimer sharedPorts).Guarded (fun s call => ∀ x ∈ s.turns sharedPorts call, x.SkipsExactly sharedPorts)
        (.new sharedPorts) (sharedCalls readyFirst 10) := by
  refine ⟨by decide +kernel, by decide +kernel, ?_⟩
  exact (smt_skipping_exact sharedPorts (sharedCalls readyFirst 10) (by decide +kernel)
    (Machine.Guarded.of_decide (by decide +kernel))).2

/-- A computation of a hundred cycles, a micro-op that depends on it, and micro-ops that are ready. -/
def readyBehind : List DynamicMicroOp := producer 100 :: consumer :: List.replicate 40 .plain

/-- When the first thread takes all ports, the scan of the second one ends at the consumer, and the thread is passed over
in the next cycle, though it has micro-ops that are ready. -/
theorem sharedPorts_overlooks : ¬ (smtTimer sharedPorts).Guarded
    (fun s call => ∀ x ∈ s.turns sharedPorts call, x.SkipsExactly sharedPorts)
    (.new sharedPorts) (sharedCalls readyBehind 5 ++ [.execute]) := by
  intro h
  have hok : ((smtTimer sharedPorts).run (.new sharedPorts) (sharedCalls readyBehind 5)).isOk = true := by
    decide +kernel
  have hlast : ∀ x ∈ (shared readyBehind 5).turns sharedPorts .execute, x.SkipsExactly sharedPorts :=
    h.at_event (Machine.run_final _ hok)
  exact absurd hlast (by decide +kernel)

end LifeSim.Rob
