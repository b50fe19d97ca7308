import LifeSim.Interval.Ring

/-!
# The critical path of the old window

The critical path goes from its head to its tail in the steps that the micro-ops of the old window contribute. A
micro-op that contributes is executed at the end of its step, and any other one not after it. So when the oldest
micro-op leaves, the greatest of the head and its execution time is the new head, and the totals stay those of the old
window.
-/

namespace LifeSim.Interval

open LifeSim.Lib LifeSim.Rob

/-- The entries lead from one time to another one in the steps that they contribute. -/
def Along : ℕ → List WindowEntry → ℕ → Prop
  | head, [], tail => tail = head
  | head, e :: es, tail =>
    (e.execTime ≤ head + e.cpContr ∧ (0 < e.cpContr → e.execTime = head + e.cpContr)) ∧ Along (head + e.cpContr) es tail

/-- The contributions of some entries. -/
def contribution (es : List WindowEntry) : ℕ := (es.map WindowEntry.cpContr).sum

theorem contribution_cons (e : WindowEntry) (es : List WindowEntry) :
    contribution (e :: es) = e.cpContr + contribution es := by
  rw [contribution, List.map_cons, List.sum_cons]
  rfl

theorem contribution_append (es : List WindowEntry) (e : WindowEntry) :
    contribution (es ++ [e]) = contribution es + e.cpContr := by
  rw [contribution, List.map_append, List.sum_append, List.map_singleton, List.sum_singleton]
  rfl

/-- The contributions of the entries of a type. -/
def typeContribution (type : CpContrType) (es : List WindowEntry) : ℕ :=
  contribution (es.filter fun e => getCpContrType e = type)

theorem typeContribution_cons (type : CpContrType) (e : WindowEntry) (es : List WindowEntry) :
    typeContribution type (e :: es) = (if getCpContrType e = type then e.cpContr else 0) + typeContribution type es := by
  rw [typeContribution, typeContribution, List.filter_cons]
  by_cases htype : getCpContrType e = type
  · rw [if_pos (by simpa using htype), if_pos htype, contribution_cons]
  · rw [if_neg (by simpa using htype), if_neg htype, Nat.zero_add]

theorem typeContribution_append (type : CpContrType) (es : List WindowEntry) (e : WindowEntry) :
    typeContribution type (es ++ [e]) = typeContribution type es + if getCpContrType e = type then e.cpContr else 0 := by
  induction es with
  | nil =>
    rw [List.nil_append, typeContribution_cons]
    exact Nat.add_comm ..
  | cons e' es ih => rw [List.cons_append, typeContribution_cons, typeContribution_cons, ih, Nat.add_assoc]

/-- The contributions of all types. -/
theorem sum_typeContribution (es : List WindowEntry) : ∑ type, typeContribution type es = contribution es := by
  induction es with
  | nil => exact Finset.sum_const_zero
  | cons e es ih =>
    rw [Finset.sum_congr rfl fun type _ => typeContribution_cons type e es, Finset.sum_add_distrib, ih,
      Finset.sum_ite_eq, if_pos (Finset.mem_univ _), contribution_cons]

namespace Along

variable {head tail m : ℕ} {e : WindowEntry} {es : List WindowEntry}

theorem tail_eq (h : Along head es tail) : tail = head + contribution es := by
  induction es generalizing head with
  | nil => exact h
  | cons e es ih =>
    have hrest := ih h.2
    rw [contribution_cons]
    omega

theorem execTime_le (h : Along head es tail) (he : e ∈ es) : e.execTime ≤ tail := by
  induction es generalizing head with
  | nil => cases he
  | cons e' es ih =>
    rcases List.mem_cons.1 he with rfl | he
    · have hle := h.1.1
      have htail := h.2.tail_eq
      omega
    · exact ih h.2 he

/-- One more entry at the end. -/
theorem append (h : Along head es m) (hle : e.execTime ≤ m + e.cpContr)
    (hstep : 0 < e.cpContr → e.execTime = m + e.cpContr) : Along head (es ++ [e]) (m + e.cpContr) := by
  induction es generalizing head with
  | nil =>
    cases h
    exact ⟨⟨hle, hstep⟩, rfl⟩
  | cons e' es ih => exact ⟨h.1, ih h.2⟩

/-- Only the time and the contribution of the last entry count. -/
theorem congr_last {e' : WindowEntry} (h : Along head (es ++ [e]) tail) (htime : e'.execTime = e.execTime)
    (hcontr : e'.cpContr = e.cpContr) : Along head (es ++ [e']) tail := by
  induction es generalizing head with
  | nil =>
    rw [List.nil_append, Along, htime, hcontr]
    exact h
  | cons e'' es ih => exact ⟨h.1, ih h.2⟩

/-- The oldest entry leaves, and the head moves to the end of its step. -/
theorem retire (h : Along head (e :: es) tail) : Along (max head e.execTime) es tail := by
  obtain ⟨⟨hle, hstep⟩, hrest⟩ := h
  have hmax : max head e.execTime = head + e.cpContr := by
    rcases Nat.eq_zero_or_pos e.cpContr with hzero | hpos
    · omega
    · have heq := hstep hpos
      omega
  rwa [hmax]

end Along

namespace Windows

variable {cfg : WindowsConfig} {w w' : Windows} {e : WindowEntry} {es : List WindowEntry} {s x earlier : ℕ}

/-- The totals are those of some entries. -/
structure Stats (w : Windows) (es : List WindowEntry) : Prop where
  bytype : ∀ type, w.cpcontrBytype type = typeContribution type es
  total : w.cpcontrTotal = contribution es
  counts : w.contention.countByPort = countPort (es.map fun e => e.uop.toDynamicMicroOp)

namespace Stats

theorem clear (w : Windows) : Stats w.clearFunctionalUnitStats [] := ⟨fun _ => rfl, rfl, rfl⟩

theorem congr (h : Stats w es) (hbytype : w'.cpcontrBytype = w.cpcontrBytype) (htotal : w'.cpcontrTotal = w.cpcontrTotal)
    (hcontention : w'.contention = w.contention) : Stats w' es := by
  refine ⟨?_, ?_, ?_⟩
  · rw [hbytype]
    exact h.bytype
  · rw [htotal]
    exact h.total
  · rw [hcontention]
    exact h.counts

/-- A micro-op enters the old window. -/
theorem add (h : Stats w es) (e : WindowEntry) : Stats (w.addFunctionalUnitStats e) (es ++ [e]) where
  bytype type := by
    rw [typeContribution_append]
    change Function.update w.cpcontrBytype (getCpContrType e) _ type = _
    by_cases htype : getCpContrType e = type
    · rw [← htype, Function.update_self, h.bytype, if_pos rfl]
    · rw [Function.update_of_ne (Ne.symm htype), h.bytype, if_neg htype, Nat.add_zero]
  total := by
    rw [contribution_append, ← h.total]
    rfl
  counts := by
    rw [List.map_append, List.map_singleton]
    exact Window.step_counts (w := ⟨w.contention, es.map fun e => e.uop.toDynamicMicroOp⟩) h.counts (.add _)

/-- The oldest micro-op leaves the old window. -/
theorem remove (h : Stats w (e :: es)) : Stats (w.removeFunctionalUnitStats e) es where
  bytype type := by
    have hbytype := h.bytype type
    rw [typeContribution_cons] at hbytype
    change Function.update w.cpcontrBytype (getCpContrType e) _ type = _
    by_cases htype : getCpContrType e = type
    · rw [if_pos htype] at hbytype
      rw [htype, Function.update_self]
      omega
    · rw [if_neg htype, Nat.zero_add] at hbytype
      rw [Function.update_of_ne (Ne.symm htype)]
      exact hbytype
  total := by
    have htotal := h.total
    rw [contribution_cons] at htotal
    change w.cpcontrTotal - e.cpContr = contribution es
    omega
  counts := by
    exact Window.step_counts (w := ⟨w.contention, (e :: es).map fun e => e.uop.toDynamicMicroOp⟩) h.counts (.remove 0)

end Stats

/-! ### Changes of entries -/

theorem slot_modify_self (f : WindowEntry → WindowEntry) :
    (w.modify (s % (2 * cfg.windowSize)) f).slot cfg s = f (w.slot cfg s) := Function.update_self ..

/-- The entries of other numbers. -/
theorem slot_modify_ne (h : Ring cfg w) (hs : s < w.nextSequenceNumber) (hd : x < w.nextSequenceNumber)
    (hsnear : w.first ≤ s + cfg.windowSize) (hdnear : w.first ≤ x + cfg.windowSize) (hne : x ≠ s)
    (f : WindowEntry → WindowEntry) : (w.modify (s % (2 * cfg.windowSize)) f).slot cfg x = w.slot cfg x := by
  refine Function.update_of_ne ?_ _ _
  rcases Nat.lt_or_gt_of_ne hne with hlt | hlt
  · exact h.place_ne hdnear hlt hs
  · exact (h.place_ne hsnear hlt hd).symm

theorem length_oldWindow : (w.oldWindow cfg).length = w.oldWindowLength := by
  rw [oldWindow, List.length_map, List.length_range']

theorem oldWindow_congr (hfirst : w'.first = w.first) (hlength : w'.oldWindowLength = w.oldWindowLength)
    (hslot : ∀ n, w.first - w.oldWindowLength ≤ n → n < w.first → w'.slot cfg n = w.slot cfg n)
    (hold : w.oldWindowLength ≤ w.first) : w'.oldWindow cfg = w.oldWindow cfg := by
  rw [oldWindow, oldWindow, hfirst, hlength]
  refine List.map_congr_left fun n hn => ?_
  rw [List.mem_range'_1] at hn
  exact hslot n hn.1 (by omega)

theorem oldWindow_modify (h : Ring cfg w) (hge : w.first ≤ s) (hlt : s < w.nextSequenceNumber)
    (f : WindowEntry → WindowEntry) : (w.modify (s % (2 * cfg.windowSize)) f).oldWindow cfg = w.oldWindow cfg := by
  have hold := h.oldWindowLength_le_first
  have hle := h.oldWindowLength_le
  refine oldWindow_congr rfl rfl (fun n hge' hlt' => ?_) hold
  exact slot_modify_ne h hlt (by omega) (by omega) (by omega) (by omega) f

theorem oldWindow_empty (hlength : w.oldWindowLength = 0) : w.oldWindow cfg = [] := by
  rw [oldWindow, hlength]
  rfl

/-- The oldest micro-op of a full old window. -/
theorem oldWindow_retire (h : Ring cfg w) (hsize : 0 < cfg.windowSize) (hfull : w.oldWindowLength = cfg.windowSize) :
    w.oldWindow cfg = w.doubleWindow w.oldWindowHead :: (w.retireOldest cfg).oldWindow cfg := by
  have hold := h.oldWindowLength_le_first
  have hnew : (w.retireOldest cfg).oldWindow cfg =
      (List.range' (w.first - (w.oldWindowLength - 1)) (w.oldWindowLength - 1)).map (w.slot cfg) := by
    rw [retireOldest, if_pos hfull]
    rfl
  obtain ⟨n, hn⟩ := Nat.exists_eq_succ_of_ne_zero (show w.oldWindowLength ≠ 0 by omega)
  have hlow : w.first - n = w.first - (n + 1) + 1 := by omega
  rw [hnew, oldWindow, h.oldHead, hn, Nat.succ_eq_add_one, Nat.add_sub_cancel, List.range'_succ, List.map_cons, hlow]
  rfl

/-- The old window with one more micro-op. -/
theorem oldWindow_enter (h : Ring cfg w) (hlength : 0 < w.windowLength) :
    (w.enterOldWindow cfg).oldWindow cfg = w.oldWindow cfg ++ [w.slot cfg w.first] := by
  have hold := h.oldWindowLength_le_first
  have hfirst := h.first_add
  have hnew : (w.enterOldWindow cfg).oldWindow cfg =
      (List.range' (w.nextSequenceNumber - (w.windowLength - 1) - (w.oldWindowLength + 1))
        (w.oldWindowLength + 1)).map (w.slot cfg) := rfl
  have hlow : w.nextSequenceNumber - (w.windowLength - 1) - (w.oldWindowLength + 1) = w.first - w.oldWindowLength := by
    omega
  rw [hnew, hlow, List.range'_1_concat, List.map_append, List.map_singleton, Nat.sub_add_cancel hold]
  rfl

/-! ### What holds between micro-ops -/

/-- The critical path is that of the old window, and the micro-ops of the window have not contributed yet. -/
structure Kept (cfg : WindowsConfig) (w : Windows) : Prop where
  ring : Ring cfg w
  along : Along w.criticalPathHead (w.oldWindow cfg) w.criticalPathTail
  stats : Stats w (w.oldWindow cfg)
  small : ∀ e ∈ w.oldWindow cfg, e.cpContr ≤ cfg.longLatencyCutoff - 1
  waiting : ∀ n, w.first ≤ n → n < w.nextSequenceNumber →
    (w.slot cfg n).cpContr = 0 ∧ (w.slot cfg n).execTime ≤ w.criticalPathTail

/-- A micro-op is being dispatched. The tail of the critical path is not before an earlier one. -/
structure Mid (cfg : WindowsConfig) (earlier : ℕ) (w : Windows) : Prop where
  ring : Ring cfg w
  busy : 0 < w.windowLength
  later : earlier ≤ w.criticalPathTail
  along : Along w.criticalPathHead (w.oldWindow cfg) w.criticalPathTail
  stats : Stats w (w.oldWindow cfg)
  small : ∀ e ∈ w.oldWindow cfg, e.cpContr ≤ cfg.longLatencyCutoff - 1
  head : (w.slot cfg w.first).cpContr = 0
  waiting : ∀ n, w.first < n → n < w.nextSequenceNumber →
    (w.slot cfg n).cpContr = 0 ∧ (w.slot cfg n).execTime ≤ earlier

/-- The micro-op has its execution time and its contribution. -/
structure Ready (cfg : WindowsConfig) (earlier : ℕ) (w : Windows) : Prop where
  ring : Ring cfg w
  busy : 0 < w.windowLength
  later : earlier ≤ w.criticalPathTail
  along : Along w.criticalPathHead (w.oldWindow cfg ++ [w.slot cfg w.first]) w.criticalPathTail
  stats : Stats w (w.oldWindow cfg)
  small : ∀ e ∈ w.oldWindow cfg ++ [w.slot cfg w.first], e.cpContr ≤ cfg.longLatencyCutoff - 1
  waiting : ∀ n, w.first < n → n < w.nextSequenceNumber →
    (w.slot cfg n).cpContr = 0 ∧ (w.slot cfg n).execTime ≤ w.criticalPathTail

theorem kept_new (cfg : WindowsConfig) : Kept cfg new where
  ring := ring_new cfg
  along := rfl
  stats := Stats.clear new
  small e he := by cases he
  waiting n _ hn := absurd hn (Nat.not_lt_zero n)

namespace Kept

/-- The dispatch of a micro-op begins. -/
theorem mid (h : Kept cfg w) (hlength : 0 < w.windowLength) : Mid cfg w.criticalPathTail w where
  ring := h.ring
  busy := hlength
  later := le_refl _
  along := h.along
  stats := h.stats
  small := h.small
  head := by
    have hfirst := h.ring.first_add
    exact (h.waiting w.first (le_refl _) (by omega)).1
  waiting n hlt hn := h.waiting n hlt.le hn

/-- A new micro-op. -/
theorem add (h : Kept cfg w) {u : IntervalMicroOp} (hadd : w.add cfg u = some w') : Kept cfg w' := by
  have hfirst := add_first h.ring hadd
  have hnext := add_next h.ring hadd
  have hslot {n : ℕ} := add_slot h.ring hadd (s := n)
  have hold := h.ring.oldWindowLength_le_first
  have hle := h.ring.oldWindowLength_le
  have hadds := h.ring.first_add
  obtain ⟨v, hlast⟩ := add_slot_last h.ring hadd
  have hring := ring_add h.ring hadd
  obtain ⟨hroom, v', registers, memory, -, heq⟩ := add_spec h.ring hadd
  have hlength : w'.oldWindowLength = w.oldWindowLength := by rw [heq]
  have hhead : w'.criticalPathHead = w.criticalPathHead := by rw [heq]
  have htail : w'.criticalPathTail = w.criticalPathTail := by rw [heq]
  have hwindow : w'.oldWindow cfg = w.oldWindow cfg :=
    oldWindow_congr hfirst hlength (fun n hge hlt => hslot (by omega) (by omega)) hold
  refine ⟨hring, ?_, ?_, ?_, fun n hge hlt => ?_⟩
  · rw [hwindow, hhead, htail]
    exact h.along
  · rw [hwindow]
    exact h.stats.congr (by rw [heq]) (by rw [heq]) (by rw [heq])
  · rw [hwindow]
    exact h.small
  · rw [hfirst] at hge
    rw [hnext] at hlt
    rw [htail]
    by_cases hn : n = w.nextSequenceNumber
    · rw [hn, hlast]
      exact ⟨rfl, Nat.zero_le _⟩
    · rw [hslot (by omega) (by omega)]
      exact h.waiting n hge (by omega)

end Kept

namespace Mid

/-- The entry of the micro-op changes, but not its contribution. -/
theorem modifyHead (h : Mid cfg earlier w) {f : WindowEntry → WindowEntry} (hstatic : ∀ e, static (f e) = static e)
    (hf : (f (w.slot cfg w.first)).cpContr = (w.slot cfg w.first).cpContr) :
    Mid cfg earlier (w.modify w.windowHead f) := by
  have hfirst := h.ring.first_add
  have hbusy := h.busy
  have hold : (w.modify w.windowHead f).oldWindow cfg = w.oldWindow cfg := by
    rw [h.ring.head]
    exact oldWindow_modify h.ring (le_refl _) (by omega) f
  refine ⟨(Frame.modify w _ hstatic).ring h.ring, h.busy, h.later, ?_, ?_, ?_, ?_, fun n hlt hn => ?_⟩
  · rw [hold]
    exact h.along
  · rw [hold]
    exact h.stats.congr rfl rfl rfl
  · rw [hold]
    exact h.small
  · change ((w.modify w.windowHead f).slot cfg w.first).cpContr = 0
    rw [h.ring.head, slot_modify_self, hf]
    exact h.head
  · change w.first < n at hlt
    change n < w.nextSequenceNumber at hn
    rw [h.ring.head, slot_modify_ne h.ring (by omega) hn (by omega) (by omega) (by omega)]
    exact h.waiting n hlt hn

/-- The old window is cleared. -/
theorem clear (h : Mid cfg earlier w) (hx : earlier ≤ x) : Mid cfg earlier (w.clearOldWindow x) := by
  have hold : (w.clearOldWindow x).oldWindow cfg = [] := oldWindow_empty rfl
  refine ⟨(Frame.clearOldWindow w x).ring h.ring, h.busy, hx, ?_, ?_, ?_, h.head, h.waiting⟩
  · rw [hold]
    rfl
  · rw [hold]
    exact Stats.clear _
  · rw [hold]
    intro e he
    cases he

/-- The scratch array changes. -/
theorem scratch (h : Mid cfg earlier w) (execTimeMap : ℕ → ℕ) : Mid cfg earlier { w with execTimeMap := execTimeMap } where
  ring := h.ring.of_pointers rfl rfl rfl rfl rfl rfl rfl
  busy := h.busy
  later := h.later
  along := h.along
  stats := h.stats.congr rfl rfl rfl
  small := h.small
  head := h.head
  waiting := h.waiting

/-- The micro-op does not extend the critical path. -/
theorem ready (h : Mid cfg earlier w) (htime : (w.slot cfg w.first).execTime ≤ w.criticalPathTail) :
    Ready cfg earlier w where
  ring := h.ring
  busy := h.busy
  later := h.later
  along := by
    have hhead := h.head
    have happend := h.along.append (e := w.slot cfg w.first) (by omega) (by omega)
    rwa [hhead] at happend
  stats := h.stats
  small e he := by
    rcases List.mem_append.1 he with he | he
    · exact h.small e he
    · rw [List.mem_singleton.1 he, h.head]
      exact Nat.zero_le _
  waiting n hlt hn := ⟨(h.waiting n hlt hn).1, (h.waiting n hlt hn).2.trans h.later⟩

/-- The micro-op extends the critical path by less than the cut-off, or not at all. -/
theorem update (h : Mid cfg earlier w) (hsmall : w.criticalPathTail < (w.slot cfg w.first).execTime →
      (w.slot cfg w.first).execTime - w.criticalPathTail < cfg.longLatencyCutoff) :
    Ready cfg earlier (w.updateCriticalPathTail w.windowHead) := by
  have hlater := h.later
  have hfirst := h.ring.first_add
  have hbusy := h.busy
  have hentry : w.doubleWindow w.windowHead = w.slot cfg w.first := by rw [h.ring.head]; rfl
  rw [updateCriticalPathTail]
  dsimp only
  rw [hentry]
  split_ifs with hlt
  · have hcontr := hsmall hlt
    let f : WindowEntry → WindowEntry := (·.setCpContr ((w.slot cfg w.first).execTime - w.criticalPathTail))
    have hold : (w.modify w.windowHead f).oldWindow cfg = w.oldWindow cfg := by
      rw [h.ring.head]
      exact oldWindow_modify h.ring (le_refl _) (by omega) _
    have hslot : (w.modify w.windowHead f).slot cfg w.first = f (w.slot cfg w.first) := by
      rw [h.ring.head]
      exact slot_modify_self _
    have hframe : Frame w (w.modify w.windowHead f) := Frame.modify w _ fun _ => by rfl
    have hring := hframe.ring h.ring
    have hsum : w.criticalPathTail + (f (w.slot cfg w.first)).cpContr = (w.slot cfg w.first).execTime :=
      Nat.add_sub_cancel' hlt.le
    refine ⟨hring.of_pointers rfl rfl rfl rfl rfl rfl rfl, h.busy, hlater.trans hlt.le, ?_, ?_, ?_, fun n hn hnext => ?_⟩
    · change Along w.criticalPathHead ((w.modify w.windowHead f).oldWindow cfg ++
        [(w.modify w.windowHead f).slot cfg w.first]) (w.slot cfg w.first).execTime
      rw [hold, hslot, ← hsum]
      exact h.along.append (by rw [hsum]; exact le_refl _) fun _ => hsum.symm
    · change Stats _ ((w.modify w.windowHead f).oldWindow cfg)
      rw [hold]
      exact h.stats.congr rfl rfl rfl
    · change ∀ e ∈ (w.modify w.windowHead f).oldWindow cfg ++ [(w.modify w.windowHead f).slot cfg w.first], _
      rw [hold, hslot]
      intro e he
      rcases List.mem_append.1 he with he | he
      · exact h.small e he
      · rw [List.mem_singleton.1 he]
        change (w.slot cfg w.first).execTime - w.criticalPathTail ≤ _
        omega
    · change w.first < n at hn
      change n < w.nextSequenceNumber at hnext
      change ((w.modify w.windowHead f).slot cfg n).cpContr = 0 ∧
        ((w.modify w.windowHead f).slot cfg n).execTime ≤ (w.slot cfg w.first).execTime
      rw [h.ring.head, slot_modify_ne h.ring (by omega) hnext (by omega) (by omega) (by omega)]
      obtain ⟨hzero, htime⟩ := h.waiting n hn hnext
      exact ⟨hzero, by omega⟩
  · exact h.ready (by omega)

end Mid

namespace Ready

/-- The entry of another micro-op of the window changes. -/
theorem modifyLater (h : Ready cfg earlier w) (hs : w.first < s) (hnext : s < w.nextSequenceNumber)
    {f : WindowEntry → WindowEntry} (hstatic : ∀ e, static (f e) = static e)
    (hcontr : (f (w.slot cfg s)).cpContr = (w.slot cfg s).cpContr)
    (htime : (f (w.slot cfg s)).execTime ≤ w.criticalPathTail) :
    Ready cfg earlier (w.modify (s % (2 * cfg.windowSize)) f) := by
  have hold := oldWindow_modify h.ring hs.le hnext f
  have hhead : (w.modify (s % (2 * cfg.windowSize)) f).slot cfg w.first = w.slot cfg w.first :=
    slot_modify_ne h.ring hnext (by omega) (by omega) (by omega) hs.ne f
  refine ⟨(Frame.modify w _ hstatic).ring h.ring, h.busy, h.later, ?_, ?_, ?_, fun n hn hlt => ?_⟩
  · change Along w.criticalPathHead (_ ++ [(w.modify _ f).slot cfg w.first]) w.criticalPathTail
    rw [hold, hhead]
    exact h.along
  · rw [hold]
    exact h.stats.congr rfl rfl rfl
  · change ∀ e ∈ _ ++ [(w.modify _ f).slot cfg w.first], _
    rw [hold, hhead]
    exact h.small
  · change w.first < n at hn
    change n < w.nextSequenceNumber at hlt
    change _ ∧ _ ≤ w.criticalPathTail
    by_cases heq : n = s
    · subst heq
      rw [slot_modify_self, hcontr]
      exact ⟨(h.waiting n hn hlt).1, htime⟩
    · rw [slot_modify_ne h.ring hnext hlt (by omega) (by omega) heq]
      exact h.waiting n hn hlt

/-- The entry of the micro-op changes, but not its time and its contribution. -/
theorem modifyHead (h : Ready cfg earlier w) {f : WindowEntry → WindowEntry} (hstatic : ∀ e, static (f e) = static e)
    (htime : ∀ e, (f e).execTime = e.execTime) (hcontr : ∀ e, (f e).cpContr = e.cpContr) :
    Ready cfg earlier (w.modify w.windowHead f) := by
  have hfirst := h.ring.first_add
  have hbusy := h.busy
  have hold : (w.modify w.windowHead f).oldWindow cfg = w.oldWindow cfg := by
    rw [h.ring.head]
    exact oldWindow_modify h.ring (le_refl _) (by omega) f
  have hslot : (w.modify w.windowHead f).slot cfg w.first = f (w.slot cfg w.first) := by
    rw [h.ring.head]
    exact slot_modify_self f
  refine ⟨(Frame.modify w _ hstatic).ring h.ring, h.busy, h.later, ?_, ?_, ?_, fun n hn hlt => ?_⟩
  · change Along w.criticalPathHead (_ ++ [(w.modify _ f).slot cfg w.first]) w.criticalPathTail
    rw [hold, hslot]
    exact h.along.congr_last (htime _) (hcontr _)
  · rw [hold]
    exact h.stats.congr rfl rfl rfl
  · change ∀ e ∈ _ ++ [(w.modify _ f).slot cfg w.first], _
    rw [hold, hslot]
    intro e he
    rcases List.mem_append.1 he with he | he
    · exact h.small e (List.mem_append_left _ he)
    · rw [List.mem_singleton.1 he, hcontr]
      exact h.small _ (List.mem_append_right _ (List.mem_singleton_self _))
  · change w.first < n at hn
    change n < w.nextSequenceNumber at hlt
    change _ ∧ _ ≤ w.criticalPathTail
    rw [h.ring.head, slot_modify_ne h.ring (by omega) hlt (by omega) (by omega) (by omega)]
    exact h.waiting n hn hlt

/-- The head of the critical path is not after its tail. -/
theorem head_le (h : Ready cfg earlier w) : w.criticalPathHead ≤ w.criticalPathTail := by
  have htail := h.along.tail_eq
  omega

/-- The oldest micro-op makes room. -/
theorem retire (h : Ready cfg earlier w) :
    Ready cfg earlier (w.retireOldest cfg) ∧ (w.retireOldest cfg).criticalPathTail = w.criticalPathTail := by
  have hbusy := h.busy
  have hle := h.ring.windowLength_le
  have hsize : 0 < cfg.windowSize := by omega
  obtain ⟨hring, -, hentries, hlength, hnext⟩ := retireOldest_spec h.ring hsize
  by_cases hfull : w.oldWindowLength = cfg.windowSize
  · have hold := oldWindow_retire h.ring hsize hfull
    have hfirst : (w.retireOldest cfg).first = w.first := retireOldest_first w
    have halong := h.along
    have hstats := h.stats
    have hsmall := h.small
    rw [hold] at halong hstats hsmall
    have hslot : (w.retireOldest cfg).slot cfg = w.slot cfg := funext fun n => congrFun hentries _
    have hhead : (w.retireOldest cfg).criticalPathHead =
        max w.criticalPathHead (w.doubleWindow w.oldWindowHead).execTime := by
      rw [retireOldest, if_pos hfull]
      rfl
    have htail : (w.retireOldest cfg).criticalPathTail = w.criticalPathTail := by
      rw [retireOldest, if_pos hfull]
      rfl
    have hstats' : Stats (w.retireOldest cfg) ((w.retireOldest cfg).oldWindow cfg) := by
      have hremove := hstats.remove
      refine hremove.congr ?_ ?_ ?_ <;> rw [retireOldest, if_pos hfull]
    refine ⟨⟨hring, by rwa [hlength], ?_, ?_, hstats', ?_, ?_⟩, htail⟩
    · rw [htail]
      exact h.later
    · rw [hhead, htail, hfirst, hslot]
      exact halong.retire
    · rw [hfirst, hslot]
      exact fun e he => hsmall e (List.mem_cons_of_mem _ he)
    · rw [hfirst, hnext, hslot, htail]
      exact h.waiting
  · rw [retireOldest, if_neg hfull]
    exact ⟨h, rfl⟩

/-- The micro-op enters the old window. -/
theorem enter (h : Ready cfg earlier w) (hring : Ring cfg (w.enterOldWindow cfg)) : Kept cfg (w.enterOldWindow cfg) := by
  have hbusy := h.busy
  have hfirst := h.ring.first_add
  have hold := oldWindow_enter h.ring h.busy
  have hentry : w.doubleWindow w.windowHead = w.slot cfg w.first := by rw [h.ring.head]; rfl
  refine ⟨hring, ?_, ?_, ?_, fun n hge hlt => ?_⟩
  · rw [hold]
    exact h.along
  · rw [hold, ← hentry]
    exact (h.stats.add (w.doubleWindow w.windowHead)).congr rfl rfl rfl
  · rw [hold]
    exact h.small
  · change w.nextSequenceNumber - (w.windowLength - 1) ≤ n at hge
    exact h.waiting n (by omega) hlt

/-- After the dispatch. -/
theorem dispatch (h : Ready cfg earlier w) : Kept cfg (w.dispatchInstruction cfg) ∧
    (w.dispatchInstruction cfg).criticalPathTail = w.criticalPathTail := by
  obtain ⟨hretire, htail⟩ := h.retire
  exact ⟨hretire.enter (ring_dispatchInstruction h.ring h.busy), htail⟩

end Ready

end Windows

end LifeSim.Interval
