import LifeSim.Lib.Modify
import LifeSim.Rob.Timer

/-!
# What a timer can do

Whatever the stages of a cycle decide, they change the timer by a few moves: a micro-op is dispatched, issues or commits,
the front-end stalls or goes on, and time passes. The loops of the stages are chains of moves, so that a property of all
reachable timers has to be shown for the moves and for a micro-op that enters.
-/

namespace LifeSim.Rob

open LifeSim.Lib

/-- One change of a timer. -/
inductive Move (cfg : Config) (s : RobTimer) : RobTimer → Prop
  | frontend (stalled : Time) (miss : Bool) : Move cfg s { s with frontendStalledUntil := stalled, inIcacheMiss := miss }
  | dispatch {e : RobEntry} (hentry : s.rob[s.numInRob]? = some e) (hwindow : s.numInRob < cfg.windowSize)
      (hstations : s.rsEntriesUsed ≠ cfg.rsEntries) : Move cfg s (dispatchEntry e s)
  | issue {i : ℕ} {e : RobEntry} (hinside : i < s.numInRob) (hentry : s.rob[i]? = some e) (hdone : e.done = ⊤)
      (hready : e.ready ≤ s.now) : Move cfg s (issueInstruction cfg i e s).1
  | commit {e : RobEntry} {rest : List RobEntry} (hrob : s.rob = e :: rest) (hdone : e.done ≤ s.now) :
      Move cfg s (commitEntry e rest s)
  | time (now : ℕ) : Move cfg s { s with now := now }

/-- Any number of moves. -/
abbrev Moves (cfg : Config) : RobTimer → RobTimer → Prop := Relation.ReflTransGen (Move cfg)

variable {cfg : Config} {s : RobTimer}

/-- A property that every move keeps holds after any number of moves. -/
theorem Moves.invariant {P : RobTimer → Prop} {s' : RobTimer} (h : Moves cfg s s') (hs : P s)
    (hmove : ∀ t t', P t → Move cfg t t' → P t') : P s' := by
  induction h with
  | refl => exact hs
  | tail _ hstep ih => exact hmove _ _ ih hstep

/-- The loop of `doDispatch`. -/
theorem dispatchLoop_moves (places dispatched : ℕ) (next : Time) (hplaces : s.numInRob + places ≤ cfg.windowSize) :
    Moves cfg s (dispatchLoop cfg places dispatched next s).1 := by
  induction places generalizing dispatched next s with
  | zero => exact .refl
  | succ places ih =>
    rw [dispatchLoop]
    cases he : s.rob[s.numInRob]? with
    | none => exact .refl
    | some e =>
      have hlt : s.numInRob < cfg.windowSize := by omega
      have hreturn : Moves cfg s { s with inIcacheMiss := false } := .single (.frontend s.frontendStalledUntil false)
      dsimp only
      split_ifs with hwidth hstall hmiss hstations hbranch hstations hbranch
      · exact .refl
      · exact .single (.frontend _ true)
      · exact hreturn
      · have hdispatch : Move cfg { s with inIcacheMiss := false } (dispatchEntry e { s with inIcacheMiss := false }) :=
          .dispatch he hlt hstations
        exact (hreturn.tail hdispatch).tail (.frontend ⊤ false)
      · have hdispatch : Move cfg { s with inIcacheMiss := false } (dispatchEntry e { s with inIcacheMiss := false }) :=
          .dispatch he hlt hstations
        refine (hreturn.tail hdispatch).trans (ih _ _ ?_)
        change s.numInRob + 1 + places ≤ cfg.windowSize
        omega
      · exact .refl
      · have hdispatch : Move cfg s (dispatchEntry e s) := .dispatch he hlt hstations
        exact (Relation.ReflTransGen.single hdispatch).tail (.frontend ⊤ s.inIcacheMiss)
      · have hdispatch : Move cfg s (dispatchEntry e s) := .dispatch he hlt hstations
        refine Relation.ReflTransGen.trans (.single hdispatch) (ih _ _ ?_)
        change s.numInRob + 1 + places ≤ cfg.windowSize
        omega

/-- `doDispatch`. -/
theorem doDispatch_moves : Moves cfg s (doDispatch cfg s).1 := by
  by_cases hwindow : s.numInRob ≤ cfg.windowSize
  · have hmoves := @dispatchLoop_moves cfg s (cfg.windowSize - s.numInRob) 0 ⊤ (by omega)
    by_cases hfrontend : s.frontendStalledUntil ≤ s.now
    · rw [doDispatch, if_pos hfrontend]
      exact hmoves
    · rw [doDispatch, if_neg hfrontend]
  · rw [doDispatch, Nat.sub_eq_zero_of_le (Nat.le_of_not_le hwindow)]
    by_cases hfrontend : s.frontendStalledUntil ≤ s.now
    · rw [if_pos hfrontend]
      exact .refl
    · rw [if_neg hfrontend]

/-- An entry that is not ready is not issued. -/
theorem canIssue_notReady {e : RobEntry} (h : (s.now : Time) < e.ready) (l : IssueLocals) :
    tryIssue cfg s e (canIssue cfg s e l) = (.wait, l) := by
  rw [canIssue, if_pos h]
  rfl

/-- What every entry that issues keeps, the loop of `doIssue` keeps. -/
theorem issueLoop_invariant {P : RobTimer → Prop} {bound : ℕ}
    (hissue : ∀ t i e, P t → i < bound → t.rob[i]? = some e → e.done = ⊤ → e.ready ≤ t.now →
      P (issueInstruction cfg i e t).1)
    (n i : ℕ) (l : IssueLocals) (hinside : i + n ≤ bound) (hs : P s) : P (issueLoop cfg n i l s).1 := by
  induction n generalizing i l s with
  | zero => exact hs
  | succ n ih =>
    rw [issueLoop]
    cases he : s.rob[i]? with
    | none => exact hs
    | some e =>
      dsimp only
      split_ifs with hdone
      · exact ih _ _ (by omega) hs
      · split
        · exact hs
        · rename_i l' hdecision
          have hready : e.ready ≤ s.now := by
            by_contra hlate
            rw [canIssue_notReady (not_le.1 hlate)] at hdecision
            cases congrArg Prod.fst hdecision
          have hafter := hissue s i e hs (by omega) he (not_not.1 hdone) hready
          split_ifs
          · exact hafter
          · exact ih _ _ (by omega) hafter
        · split_ifs
          · exact hs
          · exact ih _ _ (by omega) hs

/-- The loop of `doIssue`. -/
theorem issueLoop_moves (n i : ℕ) (l : IssueLocals) (hinside : i + n ≤ s.numInRob) :
    Moves cfg s (issueLoop cfg n i l s).1 := by
  have hboth := @issueLoop_invariant cfg s (fun t => Moves cfg s t ∧ t.numInRob = s.numInRob) s.numInRob
    (fun t i e ht hi he hdone hready => ⟨ht.1.tail (.issue (ht.2.symm ▸ hi) he hdone hready), ht.2⟩) n i l hinside
    ⟨.refl, rfl⟩
  exact hboth.1

/-- `doIssue`. -/
theorem doIssue_moves : Moves cfg s (doIssue cfg s).1 := issueLoop_moves _ _ _ (by omega)

/-- What every entry that is committed keeps, the loop of `doCommit` keeps. -/
theorem commitLoop_invariant {P : RobTimer → Prop}
    (hcommit : ∀ t e rest, P t → t.rob = e :: rest → e.done ≤ t.now → P (commitEntry e rest t))
    (rob : List RobEntry) (committed : ℕ) (hrob : s.rob = rob) (hs : P s) : P (commitLoop cfg rob committed s) := by
  induction rob generalizing committed s with
  | nil => exact hs
  | cons e rest ih =>
    rw [commitLoop]
    split_ifs with hdone hwidth
    · exact hcommit s e rest hs hrob hdone
    · exact ih _ rfl (hcommit s e rest hs hrob hdone)
    · exact hs

/-- The loop of `doCommit`. -/
theorem commitLoop_moves (rob : List RobEntry) (committed : ℕ) (hrob : s.rob = rob) :
    Moves cfg s (commitLoop cfg rob committed s) :=
  commitLoop_invariant (P := Moves cfg s) (fun _ _ _ ht hrob hdone => ht.tail (.commit hrob hdone)) rob committed hrob
    .refl

/-- `doCommit`. -/
theorem doCommit_moves : Moves cfg s (doCommit cfg s).1 := commitLoop_moves s.rob 0 rfl

/-- A cycle. -/
theorem cycle_moves : Moves cfg s (cycle cfg s).1 :=
  (doDispatch_moves.trans doIssue_moves).trans doCommit_moves

/-- `execute`. -/
theorem execute_moves (skipping : Bool) : Moves cfg s (execute cfg skipping s) := by
  rw [execute]
  split_ifs
  · exact .refl
  · exact cycle_moves.tail (.time _)

/-! ### Entering -/

/-- The entry without those that wait for it. -/
def RobEntry.forget (e : RobEntry) : RobEntry := { e with dependants := [] }

theorem RobEntry.done_eq_of_forget {e e' : RobEntry} (h : e.forget = e'.forget) : e.done = e'.done := by
  have hcongr := congrArg RobEntry.done h
  exact hcongr

theorem RobEntry.ready_eq_of_forget {e e' : RobEntry} (h : e.forget = e'.forget) : e.ready = e'.ready := by
  have hcongr := congrArg RobEntry.ready h
  exact hcongr

theorem RobEntry.uop_eq_of_forget {e e' : RobEntry} (h : e.forget = e'.forget) : e.uop = e'.uop := by
  have hcongr := congrArg RobEntry.uop h
  exact hcongr

theorem map_changeEntry {β : Type} {g : RobEntry → β} {f : RobEntry → RobEntry} (hf : ∀ e, g (f e) = g e)
    (rob : List RobEntry) (front n : ℕ) : (changeEntry rob front n f).map g = rob.map g := by
  rw [changeEntry]
  split
  · exact map_modify_of_eq hf rob _
  · rfl

/-- What a round of the loop over the dependencies does. -/
theorem link_cases {front n d : ℕ} {l l' : Linking} (h : link front n l d = .ok l') : ∃ p,
    findEntry l.rob front d = some p ∧
      (p.done ≠ ⊤ ∧ l.toRemove.length < removalCapacity ∧
          l' = { l with toRemove := l.toRemove ++ [d], readyMax := max l.readyMax p.done } ∨
        p.done = ⊤ ∧ l' = { l with rob := changeEntry l.rob front d fun p =>
          { p with dependants := p.dependants ++ [n] } }) := by
  rw [link] at h
  split at h
  · cases h
  · rename_i p hp
    refine ⟨p, hp, ?_⟩
    by_cases hdone : p.done = ⊤
    · rw [if_neg (not_not.2 hdone)] at h
      cases h
      exact .inr ⟨hdone, rfl⟩
    · rw [if_pos hdone, Linking.remove] at h
      split_ifs at h with hroom
      cases h
      exact .inl ⟨hdone, hroom, rfl⟩

/-- Other entries only learn of a new dependant. -/
theorem map_link {front n d : ℕ} {l l' : Linking} (h : link front n l d = .ok l') :
    l'.rob.map RobEntry.forget = l.rob.map RobEntry.forget := by
  obtain ⟨p, -, ⟨-, -, rfl⟩ | ⟨-, rfl⟩⟩ := link_cases h
  · rfl
  · exact map_changeEntry (f := fun p => { p with dependants := p.dependants ++ [n] }) (fun _ => rfl) _ _ _

theorem map_links {front n : ℕ} {dependencies : List ℕ} {l l' : Linking}
    (h : dependencies.foldlM (link front n) l = .ok l') : l'.rob.map RobEntry.forget = l.rob.map RobEntry.forget :=
  foldlM_ok_invariant (P := fun m => m.rob.map RobEntry.forget = l.rob.map RobEntry.forget)
    (fun _ _ _ hm hlink => (map_link hlink).trans hm) rfl h

/-- The search for address producers sets other fields only. -/
theorem addAddressProducer_fields (front : ℕ) (e : RobEntry) (reg : ℕ) :
    (addAddressProducer s front e reg).uop = e.uop ∧ (addAddressProducer s front e reg).ready = e.ready ∧
      (addAddressProducer s front e reg).done = e.done ∧ (addAddressProducer s front e reg).readyMax = e.readyMax ∧
      (addAddressProducer s front e reg).dependants = e.dependants := by
  rw [addAddressProducer]
  split
  · exact ⟨rfl, rfl, rfl, rfl, rfl⟩
  · split
    · exact ⟨rfl, rfl, rfl, rfl, rfl⟩
    · split_ifs <;> exact ⟨rfl, rfl, rfl, rfl, rfl⟩

/-- The address of a store does not change when it is done or ready. -/
theorem setAddress_fields (front : ℕ) (e : RobEntry) :
    (setAddress s front e).uop = e.uop ∧ (setAddress s front e).ready = e.ready ∧
      (setAddress s front e).done = e.done ∧ (setAddress s front e).readyMax = e.readyMax ∧
      (setAddress s front e).dependants = e.dependants := by
  have hfold (regs : List ℕ) (e : RobEntry) :
      (regs.foldl (addAddressProducer s front) e).uop = e.uop ∧
        (regs.foldl (addAddressProducer s front) e).ready = e.ready ∧
        (regs.foldl (addAddressProducer s front) e).done = e.done ∧
        (regs.foldl (addAddressProducer s front) e).readyMax = e.readyMax ∧
        (regs.foldl (addAddressProducer s front) e).dependants = e.dependants := by
    induction regs generalizing e with
    | nil => exact ⟨rfl, rfl, rfl, rfl, rfl⟩
    | cons reg regs ih =>
      have hreg := addAddressProducer_fields (s := s) front e reg
      have hrest := ih (addAddressProducer s front e reg)
      rw [List.foldl_cons, hrest.1, hrest.2.1, hrest.2.2.1, hrest.2.2.2.1, hrest.2.2.2.2]
      exact hreg
  rw [setAddress]
  split_ifs
  · dsimp only
    split_ifs <;> exact hfold _ _
  · exact ⟨rfl, rfl, rfl, rfl, rfl⟩

/-- The entry of a new micro-op, before its dependencies. -/
def newEntry (s : RobTimer) (u : DynamicMicroOp) : RobEntry :=
  setAddress s (frontNumber s.rob s.nextSequenceNumber) (.init { u with sequenceNumber := s.nextSequenceNumber })

/-- The timer after a micro-op has entered. -/
inductive Entered (cfg : Config) (s : RobTimer) (u : DynamicMicroOp) : RobTimer → Prop
  | squashed (hsquashed : u.squashed = true) : Entered cfg s u s
  | entered {registers : RegisterDependencies} {stores : MemoryDependencies} {v : DynamicMicroOp} {l : Linking}
      {e : RobEntry} (hsquashed : u.squashed = false)
      (hdepend : depend cfg s (frontNumber s.rob s.nextSequenceNumber) (newEntry s u) = .ok (registers, stores, v))
      (hlinks : v.getDependencies.foldlM (link (frontNumber s.rob s.nextSequenceNumber) s.nextSequenceNumber)
        ⟨s.rob, [], (newEntry s u).readyMax⟩ = .ok l)
      (hresolve : resolve (newEntry s u) v l = .ok e) :
      Entered cfg s u { s with
        rob := l.rob ++ [e], nextSequenceNumber := s.nextSequenceNumber + 1
        registerDependencies := registers, memoryDependencies := stores
        dependencies := s.dependencies ++ [v.getDependencies] }

theorem enter_cases {u : DynamicMicroOp} {s' : RobTimer} (h : enter cfg s u = .ok s') : Entered cfg s u s' := by
  rw [enter] at h
  by_cases hsquashed : u.squashed = true
  · rw [if_pos hsquashed] at h
    cases h
    exact .squashed hsquashed
  · rw [if_neg hsquashed] at h
    obtain ⟨⟨registers, stores, v⟩, hdepend, h⟩ := exists_of_bind_ok h
    obtain ⟨l, hlinks, h⟩ := exists_of_bind_ok h
    obtain ⟨e, hresolve, h⟩ := exists_of_bind_ok h
    cases h
    exact .entered (Bool.eq_false_of_not_eq_true hsquashed) hdepend hlinks hresolve

/-- Only the loop over the dependencies stores elements. -/
theorem asserted_ne_depsToRemove {α : Type} (x : Option α) : asserted x ≠ .error .depsToRemove := by
  cases x with
  | none => exact fun h => by cases h
  | some a => exact fun h => by cases h

theorem depend_ne_depsToRemove (front : ℕ) (e : RobEntry) : depend cfg s front e ≠ .error .depsToRemove := by
  intro h
  rcases cases_of_bind_error h with h | ⟨x, -, h⟩
  · exact asserted_ne_depsToRemove _ h
  rcases cases_of_bind_error h with h | ⟨y, -, h⟩
  · exact asserted_ne_depsToRemove _ h
  rcases cases_of_bind_error h with h | ⟨z, -, h⟩
  · exact asserted_ne_depsToRemove _ h
  · cases h

theorem resolve_ne_depsToRemove (e : RobEntry) (u : DynamicMicroOp) (l : Linking) :
    resolve e u l ≠ .error .depsToRemove := by
  intro h
  rcases cases_of_bind_error h with h | ⟨v, -, h⟩
  · exact asserted_ne_depsToRemove _ h
  · cases h

/-- How a micro-op stores an element behind the end of `deps_to_remove`. -/
theorem enter_overflow {u : DynamicMicroOp} (h : enter cfg s u = .error .depsToRemove) : u.squashed = false ∧
    ∃ registers stores v,
      depend cfg s (frontNumber s.rob s.nextSequenceNumber) (newEntry s u) = .ok (registers, stores, v) ∧
      v.getDependencies.foldlM (link (frontNumber s.rob s.nextSequenceNumber) s.nextSequenceNumber)
        ⟨s.rob, [], (newEntry s u).readyMax⟩ = .error .depsToRemove := by
  rw [enter] at h
  split_ifs at h with hsquashed
  refine ⟨Bool.eq_false_of_not_eq_true hsquashed, ?_⟩
  rcases cases_of_bind_error h with hdepend | ⟨⟨registers, stores, v⟩, hdepend, h⟩
  · exact absurd hdepend (depend_ne_depsToRemove _ _)
  refine ⟨registers, stores, v, hdepend, ?_⟩
  rcases cases_of_bind_error h with hlinks | ⟨l, -, h⟩
  · exact hlinks
  rcases cases_of_bind_error h with hresolve | ⟨e, -, h⟩
  · exact absurd hresolve (resolve_ne_depsToRemove _ _ _)
  · cases h

/-- What the removals leave alone. -/
theorem resolve_fields {e e' : RobEntry} {u : DynamicMicroOp} {l : Linking} (h : resolve e u l = .ok e') :
    e'.done = e.done ∧ e'.dependants = e.dependants := by
  obtain ⟨v, -, h⟩ := exists_of_bind_ok h
  cases h
  exact ⟨rfl, rfl⟩

namespace Entered

variable {u : DynamicMicroOp} {s' : RobTimer}

/-- The entries after a micro-op has entered: the old ones, which may have a new dependant, and a new one. -/
theorem rob (h : Entered cfg s u s') (hsquashed : u.squashed = false) : ∃ rob e, s'.rob = rob ++ [e] ∧
    rob.map RobEntry.forget = s.rob.map RobEntry.forget ∧ e.done = ⊤ := by
  cases h with
  | squashed hsquashed' => exact absurd hsquashed' (by simp [hsquashed])
  | entered _ hdepend hlinks hresolve =>
    exact ⟨_, _, rfl, map_links hlinks, (resolve_fields hresolve).1.trans (setAddress_fields _ _).2.2.1⟩

/-- Entering leaves the rest of the timer as it was. -/
theorem rest (h : Entered cfg s u s') : s'.numInRob = s.numInRob ∧ s'.rsEntriesUsed = s.rsEntriesUsed ∧
    s'.now = s.now ∧ s'.frontendStalledUntil = s.frontendStalledUntil ∧ s'.log = s.log := by
  cases h <;> exact ⟨rfl, rfl, rfl, rfl, rfl⟩

end Entered

/-! ### Places in the buffer -/

/-- The entries in the window are at the front, and the others have not issued. -/
structure Placed (s : RobTimer) : Prop where
  inside : s.numInRob ≤ s.rob.length
  outside : ∀ i e, s.numInRob ≤ i → s.rob[i]? = some e → e.done = ⊤

/-- The times at which the entries are done. -/
def doneTimes (rob : List RobEntry) : List Time := rob.map RobEntry.done

theorem doneTimes_wake (n : ℕ) (depend : Time) (rob : List RobEntry) (dependants : List ℕ) :
    doneTimes (dependants.foldl (wake n depend) rob) = doneTimes rob := by
  induction dependants generalizing rob with
  | nil => rfl
  | cons d dependants ih =>
    rw [List.foldl_cons, ih]
    apply map_changeEntry
    intro e
    dsimp only
    split_ifs <;> rfl

theorem Entered.doneTimes {u : DynamicMicroOp} {s' : RobTimer} (h : Entered cfg s u s') (hsquashed : u.squashed = false) :
    Rob.doneTimes s'.rob = Rob.doneTimes s.rob ++ [⊤] := by
  obtain ⟨rob, e, hrob, hforget, hdone⟩ := h.rob hsquashed
  have hmap : Rob.doneTimes rob = Rob.doneTimes s.rob := by
    have hcongr := congrArg (List.map RobEntry.done) hforget
    rwa [List.map_map, List.map_map] at hcongr
  rw [hrob, Rob.doneTimes, List.map_append, List.map_singleton, hdone]
  exact congrArg (· ++ [⊤]) hmap

/-- Issuing sets one time. -/
theorem doneTimes_issueInstruction (i : ℕ) (e : RobEntry) :
    doneTimes (issueInstruction cfg i e s).1.rob = (doneTimes s.rob).set i (issueInstruction cfg i e s).2 := by
  rw [issueInstruction]
  dsimp only
  rw [doneTimes_wake, doneTimes, List.map_set]
  rfl

theorem length_issueInstruction (i : ℕ) (e : RobEntry) :
    (issueInstruction cfg i e s).1.rob.length = s.rob.length := by
  have hlength := congrArg List.length (@doneTimes_issueInstruction cfg s i e)
  rwa [doneTimes, doneTimes, List.length_map, List.length_set, List.length_map] at hlength

/-- `Placed` is a matter of the times at which the entries are done. -/
theorem placed_iff : Placed s ↔ s.numInRob ≤ (doneTimes s.rob).length ∧
    ∀ i t, s.numInRob ≤ i → (doneTimes s.rob)[i]? = some t → t = ⊤ := by
  simp only [doneTimes, List.length_map, List.getElem?_map, Option.map_eq_some_iff]
  constructor
  · intro h
    exact ⟨h.inside, fun i t hi ⟨e, he, ht⟩ => ht ▸ h.outside i e hi he⟩
  · intro h
    exact ⟨h.1, fun i e hi he => h.2 i e.done hi ⟨e, he, rfl⟩⟩

/-- Every move keeps the places. -/
theorem Placed.move {s' : RobTimer} (h : Placed s) (hmove : Move cfg s s') : Placed s' := by
  cases hmove with
  | frontend stalled miss => exact ⟨h.inside, h.outside⟩
  | @dispatch e hentry hwindow hstations =>
    have hlt := (List.getElem?_eq_some_iff.1 hentry).1
    constructor
    · change s.numInRob + 1 ≤ (s.rob.set s.numInRob _).length
      rw [List.length_set]
      exact hlt
    · intro i e' hi he'
      change s.numInRob + 1 ≤ i at hi
      change (s.rob.set s.numInRob _)[i]? = some e' at he'
      rw [List.getElem?_set_ne (by omega)] at he'
      exact h.outside i e' (by omega) he'
  | @issue i e hinside hentry hdone hready =>
    obtain ⟨hlength, houtside⟩ := placed_iff.1 h
    rw [placed_iff, doneTimes_issueInstruction, List.length_set]
    refine ⟨hlength, fun j t hj ht => ?_⟩
    change s.numInRob ≤ j at hj
    rw [List.getElem?_set_ne (by omega)] at ht
    exact houtside j t hj ht
  | @commit e rest hrob hdone =>
    have hpos : 0 < s.numInRob := by
      by_contra hzero
      have htop := h.outside 0 e (by omega) (by rw [hrob]; rfl)
      rw [htop] at hdone
      exact absurd hdone (by simp)
    constructor
    · have hlength := h.inside
      rw [hrob, List.length_cons] at hlength
      change s.numInRob - 1 ≤ rest.length
      omega
    · intro i e' hi he'
      change s.numInRob - 1 ≤ i at hi
      refine h.outside (i + 1) e' (by omega) ?_
      rw [hrob, List.getElem?_cons_succ]
      exact he'
  | time now => exact ⟨h.inside, h.outside⟩

/-- A micro-op that enters keeps the places. -/
theorem Placed.enter {s' : RobTimer} (h : Placed s) {u : DynamicMicroOp} (henter : Rob.enter cfg s u = .ok s') :
    Placed s' := by
  have hentered := enter_cases henter
  cases hentered with
  | squashed _ => exact h
  | entered hsquashed _ _ _ =>
    obtain ⟨hinside, houtside⟩ := placed_iff.1 h
    rw [placed_iff, (enter_cases henter).doneTimes hsquashed, List.length_append]
    refine ⟨Nat.le_add_right_of_le hinside, fun i t hi ht => ?_⟩
    rcases Nat.lt_or_ge i (doneTimes s.rob).length with hlt | hge
    · rw [List.getElem?_append_left hlt] at ht
      exact houtside i t hi ht
    · rw [List.getElem?_append_right hge] at ht
      exact List.mem_singleton.1 (List.mem_of_getElem? ht)

/-- Every number of moves keeps the places. -/
theorem Placed.moves {s' : RobTimer} (h : Placed s) (hmoves : Moves cfg s s') : Placed s' :=
  hmoves.invariant h fun _ _ hplaced hmove => hplaced.move hmove

/-- A new timer is empty. -/
theorem Placed.new : Placed (.new cfg) := ⟨le_refl 0, fun _ _ _ h => absurd h (by simp [RobTimer.new])⟩

end LifeSim.Rob
