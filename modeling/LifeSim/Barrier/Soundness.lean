import LifeSim.Barrier.Server

/-!
# What the barrier guarantees

A core that does not wait is behind the next barrier time, so the barrier is reached only when
every running core waits. Aborting the barrier breaks this: the cores stop waiting and keep
their clocks. The other ways to break the release loop go through its hooks: a
callback that lets the barrier be reached once more, that takes back a disabled barrier, or
that starts a core although the loop is going to skip further barriers. The condition on the
events excludes these, each in terms of the state before the event.
-/

namespace LifeSim.Barrier

open LifeSim.Lib

variable {cfg : Config} {s s' : Server} {c core thread time : ℕ} {call : Release} {outer : List Release}

/-- A group master that runs, itself or through a sibling. -/
def RunningMaster (cfg : Config) (s : Server) (c : ℕ) : Prop :=
  c < cfg.numCores ∧ cfg.group c = none ∧ isCoreRunning cfg s c = true

/-- What holds while a call that was made because the barrier was reached is in its hooks. -/
structure Round (cfg : Config) (s : Server) (call : Release) : Prop where
  detailed : s.fastforward = false
  waited : ∃ c, call.waiting c = true
  still : ∀ c, s.acquire c = true → call.waiting c = true
  latest : ∀ c, s.acquire c = true → s.localClock c ≤ call.latest
  time : s.next = call.start + call.rounds * cfg.interval
  bound : s.next ≤ call.latest
  waits : (s.disable = true ∧ ∀ c, s.acquire c = false) ∨ (s.disable = false ∧ ∃ c, s.acquire c = true)
  arrived : ∀ c, RunningMaster cfg s c → s.next ≤ s.clock c
  present : s.disable = true ∨ (∀ c, RunningMaster cfg s c → s.acquire c = true) ∨ behind cfg s ≠ []

/-- The invariant of the server. -/
structure Inv (cfg : Config) (s : Server) : Prop where
  positive : 0 < s.next
  range : ∀ c, s.acquire c = true → c < cfg.numCores
  below : s.fastforward = false → ∀ c, s.acquire c = false → s.localClock c < s.next
  shown : ∀ c, s.acquire c = true → s.localClock c ≤ s.clock c
  inner : ∀ call ∈ s.releases.tail, call.cause ≠ .reached
  forward : ∀ call ∈ s.releases, call.cause = .forward → s.fastforward = true
  round : ∀ call outer, s.releases = call :: outer → call.cause = .reached → Round cfg s call

theorem initial_inv (cfg : Config) : Inv cfg (initial cfg) where
  positive := cfg.interval_pos
  range := nofun
  below := fun _ _ _ => cfg.interval_pos
  shown := nofun
  inner := nofun
  forward := nofun
  round := nofun

/-- No call that was made because the barrier was reached is active. -/
def Quiet (s : Server) : Prop := ∀ call ∈ s.releases, call.cause ≠ .reached

/-- When no such call is active, nothing is required of the calls but their order. -/
theorem Inv.of_quiet (hpos : 0 < s.next) (hrange : ∀ c, s.acquire c = true → c < cfg.numCores)
    (hbelow : s.fastforward = false → ∀ c, s.acquire c = false → s.localClock c < s.next)
    (hshown : ∀ c, s.acquire c = true → s.localClock c ≤ s.clock c) (hquiet : Quiet s)
    (hforward : ∀ call ∈ s.releases, call.cause = .forward → s.fastforward = true) : Inv cfg s where
  positive := hpos
  range := hrange
  below := hbelow
  shown := hshown
  inner call hcall := hquiet call (List.mem_of_mem_tail hcall)
  forward := hforward
  round call outer hcalls hcause := absurd hcause (hquiet call (by simp [hcalls]))

theorem mem_behind : c ∈ behind cfg s ↔
    c < cfg.numCores ∧ s.acquire c = true ∧ s.localClock c < s.next + cfg.interval := by
  simp [behind]

/-- Some waiting core has reached the barrier when it is reached. -/
theorem Inv.all_waiting (h : Inv cfg s) (hdetailed : s.fastforward = false) (hr : isBarrierReached cfg s = true) :
    (∀ c, RunningMaster cfg s c → s.acquire c = true ∧ s.next ≤ s.localClock c) ∧
      ∃ c, s.acquire c = true ∧ s.next ≤ s.localClock c := by
  rw [isBarrierReached, Bool.and_eq_true, List.all_eq_true, List.any_eq_true] at hr
  obtain ⟨hall, c, hc, hreached⟩ := hr
  have hmust : ∀ c, s.next ≤ s.localClock c → s.acquire c = true := by
    intro c hlate
    by_contra hnot
    have := h.below hdetailed c (by simpa using hnot)
    omega
  refine ⟨fun d hd => ?_, c, ?_⟩
  · have hfree := hall d (List.mem_range.2 hd.1)
    simp only [holdsUp, hdetailed, hd.2.1, hd.2.2] at hfree
    have hlate : s.next ≤ s.localClock d := by simpa using hfree
    exact ⟨hmust d hlate, hlate⟩
  · simp only [hasReached, hdetailed] at hreached
    have hlate : s.next ≤ s.localClock c := by
      have := hreached
      simp only [Bool.false_eq_true, if_false, Bool.and_eq_true, decide_eq_true_eq] at this
      exact this.2
    exact ⟨hmust c hlate, hlate⟩

theorem le_latestClock (hc : c < cfg.numCores) (hacq : s.acquire c = true) :
    s.localClock c ≤ latestClock cfg s := by
  have hle := Finset.le_sup (f := fun c => if s.acquire c then s.localClock c else 0) (Finset.mem_range.2 hc)
  simpa [hacq, latestClock] using hle

/-- Skipping ahead moves the barrier time forward. -/
theorem le_skipAhead (cfg : Config) (s : Server) : s.next ≤ skipAhead cfg s := by
  have hloop : ∀ (l : List ℕ) (n : ℕ),
      n ≤ l.foldl (fun next c => if next < s.localClock c then s.localClock c else next) n := by
    intro l
    induction l with
    | nil => exact fun n => le_rfl
    | cons c l ih =>
      intro n
      rw [List.foldl_cons]
      refine le_trans ?_ (ih _)
      split
      · rename_i hlt; exact le_of_lt hlt
      · exact le_rfl
  unfold skipAhead
  split
  · exact hloop _ _
  · exact le_rfl

/-- A call is made because the barrier is reached. -/
theorem barrierRelease_inv (h : Inv cfg s) (hr : isBarrierReached cfg s = true) (hdisable : s.disable = false)
    (hempty : s.toRelease = []) (hquiet : Quiet s) (caller : Option ℕ) :
    Ensures (barrierRelease cfg s caller (reachedCause s)) (Inv cfg) fun _ => False := by
  rw [barrierRelease, if_pos hempty]
  by_cases hforward : s.fastforward = true
  · refine .ok (Inv.of_quiet ?_ h.range ?_ h.shown ?_ ?_)
    · exact lt_of_lt_of_le h.positive (le_skipAhead cfg s)
    · intro hdetailed
      rw [hforward] at hdetailed
      cases hdetailed
    · intro call hcall
      rcases List.mem_cons.1 hcall with rfl | hold
      · simp [reachedCause, hforward]
      · exact hquiet call hold
    · exact fun _ _ _ => hforward
  · have hdetailed : s.fastforward = false := by simpa using hforward
    have hsame : skipAhead cfg s = s.next := by rw [skipAhead, if_neg hforward]
    obtain ⟨hall, c, hacq, hlate⟩ := h.all_waiting hdetailed hr
    rw [hsame]
    refine .ok ⟨h.positive, h.range, h.below, h.shown, hquiet, fun call hcall => ?_, fun call outer hcalls hcause => ?_⟩
    · rcases List.mem_cons.1 hcall with rfl | hold
      · simp [reachedCause, hforward]
      · exact h.forward call hold
    · obtain ⟨rfl, -⟩ := List.cons.inj hcalls
      exact ⟨hdetailed, ⟨c, hacq⟩, fun _ hd => hd, fun d hd => le_latestClock (h.range d hd) hd, by simp,
        hlate.trans (le_latestClock (h.range c hacq) hacq), .inr ⟨hdisable, c, hacq⟩,
        fun d hd => (hall d hd).2.trans (h.shown d (hall d hd).1), .inr (.inl fun d hd => (hall d hd).1)⟩

/-- Clocks may be set back and threads signalled at any time. -/
theorem Inv.lower (h : Inv cfg s) (f : ℕ → ℕ) (hf : ∀ c, f c ≤ s.localClock c) (l : List ℕ) :
    Inv cfg { s with localClock := f, toRelease := l } where
  positive := h.positive
  range := h.range
  below hdetailed c hc := lt_of_le_of_lt (hf c) (h.below hdetailed c hc)
  shown c hc := (hf c).trans (h.shown c hc)
  inner := h.inner
  forward := h.forward
  round call outer hcalls hcause := by
    have hr := h.round call outer hcalls hcause
    refine ⟨hr.detailed, hr.waited, hr.still, fun c hc => (hf c).trans (hr.latest c hc), hr.time, hr.bound, hr.waits,
      hr.arrived, hr.present.imp id (Or.imp id fun hbehind => ?_)⟩
    obtain ⟨c, hc⟩ := List.exists_mem_of_ne_nil _ hbehind
    obtain ⟨hlt, hacq, hlow⟩ := mem_behind.1 hc
    refine List.ne_nil_of_mem (mem_behind.2 ⟨hlt, hacq, ?_⟩)
    exact lt_of_le_of_lt (hf c) hlow

/-- A core has come further. -/
theorem Inv.raise (h : Inv cfg s) (f : ℕ → ℕ) (hf : ∀ c, s.clock c ≤ f c) : Inv cfg { s with clock := f } where
  positive := h.positive
  range := h.range
  below := h.below
  shown c hc := (h.shown c hc).trans (hf c)
  inner := h.inner
  forward := h.forward
  round call outer hcalls hcause := by
    have hr := h.round call outer hcalls hcause
    exact ⟨hr.detailed, hr.waited, hr.still, hr.latest, hr.time, hr.bound, hr.waits,
      fun c hc => (hr.arrived c hc).trans (hf c), hr.present⟩

theorem le_update_max (f : ℕ → ℕ) (m time c : ℕ) : f c ≤ Function.update f m (max (f m) time) c := by
  by_cases hc : c = m
  · rw [hc, Function.update_self]; exact le_max_left _ _
  · rw [Function.update_of_ne hc]

theorem releaseThread_inv (h : Inv cfg s) (thread : ℕ) : Inv cfg (releaseThread cfg s thread) := by
  refine h.lower _ (fun c => ?_) _
  split
  · exact Nat.zero_le _
  · exact le_rfl

/-- A list of at most one thread is empty after one is signalled. -/
theorem doRelease_one (hlen : s.toRelease.length ≤ 1) : (doRelease s (some 1)).toRelease = [] := by
  simp [doRelease]
  omega

theorem threadStops_inv (h : Inv cfg s)
    (hregular : s.disable = false → isBarrierReached cfg (releaseThread cfg s thread) = true →
      s.toRelease.length ≤ 1 ∧ Quiet s) :
    Ensures (threadStops cfg s thread) (Inv cfg) fun _ => False := by
  have hreleased := releaseThread_inv h thread
  unfold threadStops signal
  split
  · exact .ok hreleased
  · rename_i hdisable
    have hdisable' : s.disable = false := by simpa [releaseThread, doRelease] using hdisable
    split
    · rename_i hr
      obtain ⟨hlen, hquiet⟩ := hregular hdisable' hr
      exact barrierRelease_inv hreleased hr hdisable' (doRelease_one hlen) hquiet none
    · exact .ok hreleased

/-- A core waits at the barrier. -/
theorem enterBarrier_inv (h : Inv cfg s) (hcalls : s.releases = []) (hcore : masterCore cfg s core < cfg.numCores) :
    Inv cfg (enterBarrier cfg s core thread time) := by
  refine Inv.of_quiet h.positive (fun c hc => ?_) (fun hdetailed c hc => ?_) (fun c hc => ?_) ?_ ?_
  · by_cases hcm : c = masterCore cfg s core
    · exact hcm ▸ hcore
    · exact h.range c (by simpa [enterBarrier, hcm] using hc)
  · by_cases hcm : c = masterCore cfg s core
    · simp [enterBarrier, hcm] at hc
    · have hbelow := h.below hdetailed c (by simpa [enterBarrier, hcm] using hc)
      simpa [enterBarrier, doRelease, hcm] using hbelow
  · by_cases hcm : c = masterCore cfg s core
    · simp [enterBarrier, hcm]
    · have hshown := h.shown c (by simpa [enterBarrier, hcm] using hc)
      simpa [enterBarrier, hcm] using hshown
  · simp [Quiet, enterBarrier, doRelease, hcalls]
  · simp [enterBarrier, doRelease, hcalls]

/-- `synchronize` does not fail the assertion about threads that have not restarted. -/
theorem synchronize_inv {ready : Bool} (h : Inv cfg s)
    (hregular : isBarrierReached cfg (enterBarrier cfg s core thread time) = true → s.toRelease.length ≤ 1) :
    Ensures (synchronize cfg s core thread time ready) (Inv cfg) fun f => f ≠ .notRestarted := by
  unfold synchronize
  dsimp only
  split
  · exact .error (by simp)
  · rename_i hcalls
    have hnone : s.releases = [] := by simpa using hcalls
    split
    · exact .ok h
    · rename_i hdisable
      split
      · exact .error (by simp)
      · rename_i hcore
        split
        · exact .error (by simp)
        · split
          · exact .error (by simp)
          · split
            · exact .ok (h.raise _ (le_update_max _ _ _))
            · have hentered : Inv cfg (enterBarrier cfg s core thread time) :=
                enterBarrier_inv h hnone (Nat.lt_of_not_le hcore)
              split
              · rename_i hr
                refine (barrierRelease_inv hentered hr ?_ (doRelease_one (hregular hr)) ?_ _).mono (fun _ hb => hb)
                  fun _ hf => hf.elim
                · simpa [enterBarrier, doRelease] using hdisable
                · simp [Quiet, enterBarrier, doRelease, hnone]
              · exact .ok hentered

theorem advance_inv (h : Inv cfg s) (hempty : s.toRelease = []) :
    Ensures (advance cfg s) (Inv cfg) fun f => f ≠ .notRestarted := by
  unfold advance
  split
  · exact .error (by simp)
  · rename_i hcalls
    have hnone : s.releases = [] := by simpa using hcalls
    rw [barrierRelease, if_pos hempty]
    have hmore := le_skipAhead cfg s
    refine .ok (Inv.of_quiet (lt_of_lt_of_le h.positive hmore) h.range ?_ h.shown ?_ ?_)
    · exact fun hdetailed c hc => lt_of_lt_of_le (h.below hdetailed c hc) hmore
    · simp [Quiet, hnone]
    · simp [hnone]

/-- Aborting is harmless when the waiting cores are behind the barrier. -/
theorem abortBarrier_below (h : Inv cfg s)
    (hbehind : s.fastforward = false → ∀ c, s.acquire c = true → s.localClock c < s.next)
    (hdetailed : s.fastforward = false) : s.localClock c < s.next := by
  cases hacq : s.acquire c with
  | true => exact hbehind hdetailed c hacq
  | false => exact h.below hdetailed c hacq

theorem abortBarrier_acquire (hrange : ∀ c, s.acquire c = true → c < cfg.numCores) (c : ℕ) :
    (abortBarrier cfg s).acquire c = false := by
  dsimp only [abortBarrier]
  split
  · rfl
  · rename_i hc
    by_contra hacq
    exact hc (hrange c (by simpa using hacq))

/-- A barrier that is disabled stays so until its release loop is left. -/
theorem setDisable_inv (h : Inv cfg s) {disable : Bool}
    (hon : disable = true → s.fastforward = false → ∀ c, s.acquire c = true → s.localClock c < s.next)
    (hoff : disable = false → s.releases = [] ∨ s.disable = false) : Inv cfg (setDisable cfg s disable) := by
  cases disable with
  | true =>
    have hgone : ∀ c, (abortBarrier cfg { s with disable := true }).acquire c = false :=
      abortBarrier_acquire h.range
    have hall : s.fastforward = false → ∀ c, s.localClock c < s.next := fun hd c => abortBarrier_below h (hon rfl) hd
    refine ⟨h.positive, fun c hc => ?_, fun hdetailed c _ => hall hdetailed c, fun c hc => ?_, h.inner, h.forward,
      fun call outer hcalls hcause => ?_⟩
    · rw [setDisable, if_pos rfl, hgone c] at hc; cases hc
    · rw [setDisable, if_pos rfl, hgone c] at hc; cases hc
    · have hr := h.round call outer hcalls hcause
      refine ⟨hr.detailed, hr.waited, fun c hc => ?_, fun c hc => ?_, hr.time, hr.bound, .inl ⟨rfl, hgone⟩, hr.arrived,
        .inl rfl⟩
      · rw [setDisable, if_pos rfl, hgone c] at hc; cases hc
      · rw [setDisable, if_pos rfl, hgone c] at hc; cases hc
  | false =>
    refine ⟨h.positive, h.range, h.below, h.shown, h.inner, h.forward, fun call outer hcalls hcause => ?_⟩
    have hsame : s.disable = false := (hoff rfl).resolve_left (by rw [show s.releases = call :: outer from hcalls]; simp)
    have hr := h.round call outer hcalls hcause
    refine ⟨hr.detailed, hr.waited, hr.still, hr.latest, hr.time, hr.bound, ?_, hr.arrived, ?_⟩
    · exact .inr ⟨rfl, (hr.waits.resolve_left (by simp [hsame])).2⟩
    · exact .inr (hr.present.resolve_left (by simp [hsame]))

theorem setFastForward_inv (h : Inv cfg s) {fastforward : Bool} {nextBarrierTime : Option ℕ}
    (hregular : (s.releases = [] ∧ (fastforward = false → ∀ c, s.acquire c = false →
      s.localClock c < max s.next (nextBarrierTime.getD 0))) ∨ (s.fastforward = true ∧ fastforward = true)) :
    Inv cfg (setFastForward s fastforward nextBarrierTime) := by
  have hpos : 0 < max s.next (nextBarrierTime.getD 0) := lt_of_lt_of_le h.positive (le_max_left _ _)
  rcases hregular with ⟨hcalls, hbelow⟩ | ⟨hold, hnew⟩
  · exact Inv.of_quiet hpos h.range hbelow h.shown (by simp [Quiet, setFastForward, hcalls])
      (by simp [setFastForward, hcalls])
  · have hquiet : Quiet s := by
      intro call hcall hcause
      cases hreleases : s.releases with
      | nil => simp [hreleases] at hcall
      | cons first rest =>
        rw [hreleases] at hcall
        rcases List.mem_cons.1 hcall with rfl | hrest
        · have := (h.round call rest hreleases hcause).detailed
          rw [hold] at this
          cases this
        · exact h.inner call (by rw [hreleases]; exact hrest) hcause
    refine Inv.of_quiet hpos h.range (fun hdetailed => ?_) h.shown hquiet (fun _ _ _ => hnew)
    rw [setFastForward, hnew] at hdetailed
    cases hdetailed

theorem release_inv (h : Inv cfg s) (hcalls : s.releases = [])
    (hbehind : s.fastforward = false → ∀ c, s.acquire c = true → s.localClock c < s.next) :
    Inv cfg (abortBarrier cfg s) := by
  have hgone : ∀ c, (abortBarrier cfg s).acquire c = false := abortBarrier_acquire h.range
  have hall : s.fastforward = false → ∀ c, s.localClock c < s.next := fun hd c => abortBarrier_below h hbehind hd
  refine Inv.of_quiet h.positive (fun c hc => ?_) (fun hdetailed c _ => hall hdetailed c)
    (fun c hc => ?_) (by simp [Quiet, abortBarrier, hcalls]) (by simp [abortBarrier, hcalls])
  · rw [hgone c] at hc; cases hc
  · rw [hgone c] at hc; cases hc

/-- A master that runs after a core has started ran before or is the master of that core. -/
theorem RunningMaster.of_start (h : RunningMaster cfg (startCore cfg s core time) c) :
    RunningMaster cfg s c ∨ c = master cfg core := by
  obtain ⟨hlt, hgroup, hrun⟩ := h
  by_cases hcm : c = master cfg core
  · exact .inr hcm
  · refine .inl ⟨hlt, hgroup, ?_⟩
    have hne : c ≠ core := by
      rintro rfl
      exact hcm (by simp [master, hgroup])
    have hsib : ∀ x, cfg.group x = some c → x ≠ core := by
      rintro x hx rfl
      exact hcm (by simp [master, hx])
    simp only [isCoreRunning, startCore, Function.update_of_ne hne, Bool.or_eq_true, Bool.and_eq_true,
      List.any_eq_true, decide_eq_true_eq] at hrun ⊢
    refine hrun.imp id fun ⟨hd, x, hx, hg, hr⟩ => ⟨hd, x, hx, hg, ?_⟩
    rwa [Function.update_of_ne (hsib x hg)] at hr

theorem startCore_inv (h : Inv cfg s)
    (hregular : Quiet s ∨ s.next ≤ time ∧ (s.disable = true ∨ behind cfg s ≠ [])) :
    Inv cfg (startCore cfg s core time) := by
  have hraised := h.raise (Function.update s.clock (master cfg core) (max (s.clock (master cfg core)) time))
    (le_update_max _ _ _)
  refine ⟨h.positive, h.range, h.below, hraised.shown, h.inner, h.forward, fun call outer hcalls hcause => ?_⟩
  have hr := h.round call outer hcalls hcause
  obtain ⟨htime, hends⟩ := hregular.resolve_left fun hquiet =>
    hquiet call (by rw [show s.releases = call :: outer from hcalls]; simp) hcause
  refine ⟨hr.detailed, hr.waited, hr.still, hr.latest, hr.time, hr.bound, hr.waits, fun c hc => ?_,
    hends.imp id fun hb => .inr hb⟩
  rcases hc.of_start with hold | hnew
  · exact (hr.arrived c hold).trans (le_update_max _ _ _ c)
  · rw [hnew]
    simp only [startCore, Function.update_self]
    exact htime.trans (le_max_right _ _)

theorem RunningMaster.of_stop (h : RunningMaster cfg (stopCore s core) c) : RunningMaster cfg s c := by
  have hmono : ∀ x, Function.update s.running core false x = true → s.running x = true := by
    intro x hx
    by_cases hxc : x = core
    · simp [hxc] at hx
    · simpa [hxc] using hx
  obtain ⟨hlt, hgroup, hrun⟩ := h
  refine ⟨hlt, hgroup, ?_⟩
  simp only [isCoreRunning, stopCore, Bool.or_eq_true, Bool.and_eq_true, List.any_eq_true, decide_eq_true_eq] at hrun ⊢
  exact hrun.imp (hmono c) fun ⟨hd, x, hx, hg, hr⟩ => ⟨hd, x, hx, hg, hmono x hr⟩

theorem stopCore_inv (h : Inv cfg s) (core : ℕ) : Inv cfg (stopCore s core) := by
  refine ⟨h.positive, h.range, h.below, h.shown, h.inner, h.forward, fun call outer hcalls hcause => ?_⟩
  have hr := h.round call outer hcalls hcause
  exact ⟨hr.detailed, hr.waited, hr.still, hr.latest, hr.time, hr.bound, hr.waits, fun c hc => hr.arrived c hc.of_stop,
    hr.present.imp id (Or.imp (fun hall c hc => hall c hc.of_stop) id)⟩

/-- The calls below the innermost one were not made because the barrier was reached. -/
theorem Inv.outer_quiet (h : Inv cfg s) (hcalls : s.releases = call :: outer) :
    ∀ call ∈ outer, call.cause ≠ .reached := by
  intro call hcall
  exact h.inner call (by rw [hcalls]; exact hcall)

/-- The innermost call returns. -/
theorem Inv.return (h : Inv cfg s) (hcalls : s.releases = call :: outer) : Inv cfg { s with releases := outer } :=
  Inv.of_quiet h.positive h.range h.below h.shown (h.outer_quiet hcalls)
    fun call hcall => h.forward call (by rw [hcalls]; exact List.mem_cons_of_mem _ hcall)

/-- A round without a core to release. All waiting cores are past the new barrier time, and no
core has been started in the hooks, so every running core is past it. -/
theorem Round.next (h : Inv cfg s) (hcalls : s.releases = call :: outer) (hcause : call.cause = .reached)
    (hdisable : s.disable = false) (hnone : behind cfg s = []) :
    Round cfg (finishRound cfg s call outer) { call with rounds := call.rounds + 1 } := by
  have hr := h.round call outer hcalls hcause
  have hpast : ∀ c, s.acquire c = true → s.next + cfg.interval ≤ s.localClock c := by
    intro c hc
    by_contra hlow
    have hmem : c ∈ behind cfg s := mem_behind.2 ⟨h.range c hc, hc, Nat.lt_of_not_le hlow⟩
    rw [hnone] at hmem
    cases hmem
  obtain ⟨d, hd⟩ := (hr.waits.resolve_left (by simp [hdisable])).2
  have hpresent : ∀ c, RunningMaster cfg s c → s.acquire c = true :=
    (hr.present.resolve_left (by simp [hdisable])).resolve_right (by simp [hnone])
  rw [finishRound, if_pos hnone]
  refine ⟨hr.detailed, hr.waited, hr.still, hr.latest, ?_, (hpast d hd).trans (hr.latest d hd), .inr ⟨hdisable, d, hd⟩,
    fun c hc => ?_, .inr (.inl hpresent)⟩
  · dsimp only
    rw [hr.time]
    ring
  · have hacq := hpresent c hc
    exact (hpast c hacq).trans (h.shown c hacq)

theorem finishRound_inv (h : Inv cfg s) (hcalls : s.releases = call :: outer) (hdisable : s.disable = false) :
    Inv cfg (finishRound cfg s call outer) := by
  have hmore : s.next < s.next + cfg.interval := Nat.lt_add_of_pos_right cfg.interval_pos
  have houter : ∀ call ∈ outer, call.cause = .forward → s.fastforward = true := fun call hcall =>
    h.forward call (by rw [hcalls]; exact List.mem_cons_of_mem _ hcall)
  by_cases hnone : behind cfg s = []
  · have hround := fun hcause => Round.next h hcalls hcause hdisable hnone
    rw [finishRound, if_pos hnone] at hround ⊢
    refine ⟨h.positive.trans hmore, h.range, fun hd c hc => (h.below hd c hc).trans hmore, h.shown,
      h.outer_quiet hcalls, fun call' hcall => ?_, fun call' outer' hcalls' hcause => ?_⟩
    · rcases List.mem_cons.1 hcall with rfl | hold
      · exact h.forward call (by rw [hcalls]; simp)
      · exact houter call' hold
    · obtain ⟨rfl, -⟩ := List.cons.inj hcalls'
      exact hround hcause
  · rw [finishRound, if_neg hnone]
    refine Inv.of_quiet (h.positive.trans hmore) (fun c hc => ?_) (fun hd c hc => ?_) (fun c hc => ?_)
      (h.outer_quiet hcalls) houter
    · dsimp only [doRelease] at hc
      split at hc
      · cases hc
      · exact h.range c hc
    · dsimp only [doRelease] at hc ⊢
      split at hc
      · rename_i hmem; exact (mem_behind.1 hmem).2.2
      · exact (h.below hd c hc).trans hmore
    · dsimp only [doRelease] at hc
      split at hc
      · cases hc
      · exact h.shown c hc

theorem hooksDone_inv (h : Inv cfg s) (otherRunning timeout : Bool) :
    Ensures (hooksDone cfg s otherRunning timeout) (Inv cfg) fun f => f ≠ .notRestarted := by
  unfold hooksDone
  split
  · exact .error (by simp)
  · rename_i call outer hcalls
    dsimp only
    split
    · exact .ok (h.return hcalls)
    · split
      · exact .error (by simp)
      · split
        · exact .ok (h.return hcalls)
        · rename_i hdisable
          exact .ok (finishRound_inv h hcalls (by simpa using hdisable))

/-- The condition on an event, in terms of the state before it. -/
def Regular (cfg : Config) (s : Server) : Event → Prop
  | .synchronize core thread time _ =>
    isBarrierReached cfg (enterBarrier cfg s core thread time) = true → s.toRelease.length ≤ 1
  | .threadExit thread | .threadStall thread =>
    s.disable = false → isBarrierReached cfg (releaseThread cfg s thread) = true → s.toRelease.length ≤ 1 ∧ Quiet s
  | .threadMigrate _ => True
  | .advance => s.toRelease = []
  | .setDisable disable =>
    (disable = true → s.fastforward = false → ∀ c, s.acquire c = true → s.localClock c < s.next) ∧
      (disable = false → s.releases = [] ∨ s.disable = false)
  | .setFastForward fastforward time =>
    (s.releases = [] ∧ (fastforward = false → ∀ c, s.acquire c = false →
      s.localClock c < max s.next (time.getD 0))) ∨ (s.fastforward = true ∧ fastforward = true)
  | .release => s.releases = [] ∧ (s.fastforward = false → ∀ c, s.acquire c = true → s.localClock c < s.next)
  | .startCore _ time => Quiet s ∨ s.next ≤ time ∧ (s.disable = true ∨ behind cfg s ≠ [])
  | .stopCore _ => True
  | .hooksDone _ _ => True

theorem step_inv {e : Event} (h : Inv cfg s) (he : Regular cfg s e) :
    Ensures (step cfg s e) (Inv cfg) fun f => f ≠ .notRestarted := by
  cases e with
  | synchronize core thread time ready => exact synchronize_inv h he
  | threadExit thread => exact (threadStops_inv h he).mono (fun _ hb => hb) fun _ hf => hf.elim
  | threadStall thread => exact (threadStops_inv h he).mono (fun _ hb => hb) fun _ hf => hf.elim
  | threadMigrate thread => exact .ok (releaseThread_inv h thread)
  | advance => exact advance_inv h he
  | setDisable disable => exact .ok (setDisable_inv h he.1 he.2)
  | setFastForward fastforward time => exact .ok (setFastForward_inv h he)
  | release => exact .ok (release_inv h he.1 he.2)
  | startCore core time => exact .ok (startCore_inv h he)
  | stopCore core => exact .ok (stopCore_inv h core)
  | hooksDone otherRunning timeout => exact hooksDone_inv h otherRunning timeout

/-- A call that was made because the barrier was reached goes on, and when it returns it has
released a core that waited. -/
theorem hooksDone_releases (h : Inv cfg s) (hcalls : s.releases = call :: outer) (hcause : call.cause = .reached)
    (otherRunning timeout : Bool) :
    ∃ s', hooksDone cfg s otherRunning timeout = .ok s' ∧
      (s'.releases = outer → ∃ c, call.waiting c = true ∧ s'.acquire c = false) := by
  have hr := h.round call outer hcalls hcause
  unfold hooksDone
  rw [hcalls]
  dsimp only
  rw [if_neg (by simp [hcause]), if_neg (by simp [hcause])]
  split
  · rename_i hdisable
    obtain ⟨c, hc⟩ := hr.waited
    exact ⟨_, rfl, fun _ => ⟨c, hc, (hr.waits.resolve_right (by simp [hdisable])).2 c⟩⟩
  · refine ⟨_, rfl, fun hreturn => ?_⟩
    by_cases hnone : behind cfg s = []
    · rw [finishRound, if_pos hnone] at hreturn
      exact absurd hreturn (List.cons_ne_self _ _)
    · obtain ⟨c, hc⟩ := List.exists_mem_of_ne_nil _ hnone
      refine ⟨c, hr.still c (mem_behind.1 hc).2.1, ?_⟩
      rw [finishRound, if_neg hnone]
      simp [doRelease, hc]

/-- The barrier time moves on only when every running core has reached it. -/
theorem hooksDone_arrived (h : Inv cfg s) (hdetailed : s.fastforward = false) {otherRunning timeout : Bool}
    (hstep : hooksDone cfg s otherRunning timeout = .ok s') (hnext : s.next < s'.next)
    (hc : RunningMaster cfg s c) : s.next ≤ s.clock c := by
  unfold hooksDone at hstep
  split at hstep
  · cases hstep
  · rename_i call outer hcalls
    dsimp only at hstep
    split at hstep
    · cases hstep
      exact absurd hnext (lt_irrefl _)
    · rename_i hidle
      split at hstep
      · cases hstep
      · cases hcause : call.cause with
        | reached => exact (h.round call outer hcalls hcause).arrived c hc
        | forward =>
          rw [h.forward call (by rw [hcalls]; simp) hcause] at hdetailed
          cases hdetailed
        | advance =>
          -- no core runs: `advance` would have returned
          refine absurd ⟨hcause, ?_⟩ hidle
          obtain ⟨hlt, -, hrun⟩ := hc
          have hany : (List.range cfg.numCores).any s.running = true := by
            simp only [isCoreRunning, Bool.or_eq_true, Bool.and_eq_true, List.any_eq_true, decide_eq_true_eq] at hrun
            rw [List.any_eq_true]
            rcases hrun with hrun | ⟨-, x, hx, -, hrun⟩
            · exact ⟨c, List.mem_range.2 hlt, hrun⟩
            · exact ⟨x, hx, hrun⟩
          simp [hany]

/-- What the server guarantees in a state. -/
structure Sound (cfg : Config) (s : Server) : Prop where
  /-- A core that does not wait is behind the next barrier. -/
  below : s.fastforward = false → ∀ c, s.acquire c = false → s.localClock c < s.next
  /-- The barrier is reached only when every running master waits. -/
  reached : s.fastforward = false → isBarrierReached cfg s = true → ∀ c, RunningMaster cfg s c → s.acquire c = true
  /-- The rounds of a release loop are bounded by what is known at its start. -/
  rounds : ∀ call ∈ s.releases, call.cause = .reached → call.start + call.rounds * cfg.interval ≤ call.latest
  /-- No round fails, and the loop ends with a core released that waited at its start. -/
  releases : ∀ call outer, s.releases = call :: outer → call.cause = .reached → ∀ otherRunning timeout,
    ∃ s', step cfg s (.hooksDone otherRunning timeout) = .ok s' ∧
      (s'.releases = outer → ∃ c, call.waiting c = true ∧ s'.acquire c = false)
  /-- The barrier time moves on only when every running core has come up to it. -/
  arrived : s.fastforward = false → ∀ otherRunning timeout s', step cfg s (.hooksDone otherRunning timeout) = .ok s' →
    s.next < s'.next → ∀ c, RunningMaster cfg s c → s.next ≤ s.clock c

theorem Inv.sound (h : Inv cfg s) : Sound cfg s where
  below := h.below
  reached hdetailed hr c hc := ((h.all_waiting hdetailed hr).1 c hc).1
  rounds call hcall hcause := by
    cases hcalls : s.releases with
    | nil => simp [hcalls] at hcall
    | cons first rest =>
      rw [hcalls] at hcall
      rcases List.mem_cons.1 hcall with rfl | hrest
      · have hr := h.round call rest hcalls hcause
        exact hr.time ▸ hr.bound
      · exact absurd hcause (h.outer_quiet hcalls call hrest)
  releases _ _ hcalls hcause := hooksDone_releases h hcalls hcause
  arrived hdetailed _ _ _ hstep hnext _ hc := hooksDone_arrived h hdetailed hstep hnext hc

/-- In every run whose events meet the condition, the guarantees hold in every state, and no call
of `barrierRelease` finds threads that have not restarted. -/
theorem barrier_sound (cfg : Config) (events : List Event) (s : Server)
    (hevents : (machine cfg).Guarded (Regular cfg) (initial cfg) events)
    (hrun : (machine cfg).run (initial cfg) events = .ok s) :
    Sound cfg s ∧ ∀ e, Regular cfg s e → step cfg s e ≠ .error .notRestarted := by
  have hinv : Inv cfg s := (machine cfg).guarded_induction (P := Inv cfg)
    (fun a e b ha he hstep => (step_inv ha he).of_ok hstep) (initial_inv cfg) hevents hrun
  exact ⟨hinv.sound, fun e he hstep => (step_inv hinv he).of_error hstep rfl⟩

/-- Two cores and a barrier every 100 time units. -/
def twoCores : Config where
  numCores := 2
  interval := 100
  interval_pos := by decide
  group := fun _ => none
  hostCores := 8
  shuffle := id
  shuffle_perm := fun _ => .refl _

/-- Both cores reach the first barrier; the second one to arrive is in the hooks of the release. -/
def bothArrive : List Event :=
  [.startCore 0 0, .startCore 1 0, .synchronize 0 0 105 true, .synchronize 1 1 230 true, .hooksDone false false]

theorem barrier_sound_bothArrive :
    let s := (machine twoCores).final (initial twoCores) bothArrive
    s.next = 200 ∧ s.acquire 0 = false ∧ s.acquire 1 = true ∧ Sound twoCores s := by
  intro s
  have hguard : (machine twoCores).Guarded (Regular twoCores) (initial twoCores) bothArrive := by
    refine .cons_final (by decide +kernel) (.inl nofun) <| .cons_final (by decide +kernel) (.inl nofun) ?_
    refine .cons_final (by decide +kernel) (fun _ => by decide +kernel) ?_
    exact .cons_final (by decide +kernel) (fun _ => by decide +kernel) <| .cons_final (by decide +kernel) trivial trivial
  have hrun : (machine twoCores).run (initial twoCores) bothArrive = .ok s :=
    (machine twoCores).run_final (by decide +kernel)
  exact ⟨by decide +kernel, by decide +kernel, by decide +kernel, (barrier_sound twoCores _ _ hguard hrun).1⟩

/-- Core 0 waits when the barrier is disabled and enabled again; then the thread of core 1 stalls. -/
def staleClock : List Event :=
  [.startCore 0 0, .startCore 1 0, .synchronize 0 0 105 true, .setDisable true, .setDisable false, .stopCore 1,
    .threadStall 1]

/-- In a state where no core waits, a round releases none and the loop goes on. -/
theorem hooksDone_spins (cfg : Config) (hcalls : s.releases = [call]) (hcause : call.cause = .reached)
    (hdisable : s.disable = false)
    (hacq : ∀ c, s.acquire c = false) (n : ℕ) :
    ∃ s' call', (machine cfg).run s (List.replicate n (.hooksDone false false)) = .ok s' ∧ s'.releases = [call'] ∧
      call'.cause = .reached ∧ call'.rounds = call.rounds + n := by
  induction n generalizing s call with
  | zero => exact ⟨s, call, rfl, hcalls, hcause, rfl⟩
  | succ n ih =>
    have hnone : behind cfg s = [] := by simp [behind, hacq]
    have hstep : step cfg s (.hooksDone false false) = .ok (finishRound cfg s call []) := by
      rw [step, hooksDone, hcalls]
      simp [hcause, hdisable]
    have hnext : (finishRound cfg s call []).releases = [{ call with rounds := call.rounds + 1 }] := by
      rw [finishRound, if_pos hnone]
    obtain ⟨s', call', hrun, hcalls', hcause', hrounds⟩ := ih hnext hcause
      (by rw [finishRound, if_pos hnone]; exact hdisable) (by rw [finishRound, if_pos hnone]; exact hacq)
    refine ⟨s', call', ?_, hcalls', hcause', by rw [hrounds]; dsimp only; omega⟩
    rw [List.replicate_succ, Machine.run_cons]
    change (step cfg s (.hooksDone false false) >>= _) = _
    rw [hstep]
    exact hrun

/-- After the barrier was aborted, core 0 runs, does not wait and is not behind the barrier. The
barrier counts as reached, and the loop of `barrierRelease` never ends. -/
theorem barrier_staleClock :
    ∃ s, (machine twoCores).Reachable (initial twoCores) s ∧ s.fastforward = false ∧ RunningMaster twoCores s 0 ∧
      s.acquire 0 = false ∧ s.next ≤ s.localClock 0 ∧ isBarrierReached twoCores s = true ∧
      ∀ n, ∃ s' call, (machine twoCores).run s (List.replicate n (.hooksDone false false)) = .ok s' ∧
        s'.releases = [call] ∧ call.cause = .reached ∧ call.rounds = n := by
  have hrun : (machine twoCores).run (initial twoCores) staleClock = .ok _ :=
    (machine twoCores).run_final (by decide +kernel)
  refine ⟨_, ⟨_, hrun⟩, by decide +kernel, ⟨by decide, rfl, by decide +kernel⟩, by decide +kernel, by decide +kernel,
    by decide +kernel, fun n => ?_⟩
  have hnone : ∀ c, ((machine twoCores).final (initial twoCores) staleClock).acquire c = false := by
    intro c
    change (if c < 2 then false else Function.update (fun _ => false) 0 true c) = false
    split
    · rfl
    · rename_i hc
      rw [Function.update_of_ne (by omega)]
  have hspins := hooksDone_spins twoCores rfl rfl (by decide +kernel) hnone n
  simpa using hspins

end LifeSim.Barrier
