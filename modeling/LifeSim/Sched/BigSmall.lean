import LifeSim.Sched.Pins

/-!
# The partition kept by `SchedulerBigSmall`

Every thread has the affinity of its class, and the threads on the big cores that have not exited are never more than
there are big cores: a thread is promoted only in place of one that leaves the big cores in the same event, or by the
reshuffle, which starts from no thread on them. A thread that exits keeps its mark. It is not counted any more, but an
event that stalls it later would count it as leaving a second time.
-/

namespace LifeSim.Sched

open LifeSim.Lib

variable {cfg : Config} {quiet : Prop} {exited exited' : ℕ → Bool} {s s' a b : Sim} {t u core time : ℕ}
  {clock : ℕ → ℕ} {l : List (ℕ × Bool)}

/-- The threads on the big cores that have not exited. -/
def onBig (exited : ℕ → Bool) (s : Sim) : Finset ℕ :=
  (Finset.range s.numThreads).filter fun t => s.threadIsBig t && !exited t

theorem mem_onBig : t ∈ onBig exited s ↔ t < s.numThreads ∧ s.threadIsBig t = true ∧ exited t = false := by
  rw [onBig, Finset.mem_filter, Finset.mem_range, Bool.and_eq_true, Bool.not_eq_true']

/-- The partition. The second half of it is for runs without hyper-periods in which the application sets no affinity. -/
structure Partitioned (cfg : Config) (quiet : Prop) (exited : ℕ → Bool) (s : Sim) : Prop where
  size : s.numThreads ≤ s.info.size
  future : ∀ t, s.numThreads ≤ t → s.threadIsBig t = false
  count : (onBig exited s).card ≤ (coresOf cfg true).length
  unlisted : quiet → ∀ c, s.threadsOnCore c = []
  masks : quiet → ∀ t < s.numThreads, (s.info.get t).affinity = fun c => (coresOf cfg (s.threadIsBig t)).contains c
  untouched : quiet → ∀ t, s.numThreads ≤ t → (s.info.get t).hasAffinity = false

/-- Of the threads that have been given classes some are on the big cores; all others are where they were. -/
theorem Moved.threadIsBig (h : Moved cfg l s s') (t : ℕ) :
    (∀ m ∈ l, m.1 ≠ t) ∧ s'.threadIsBig t = s.threadIsBig t ∨
      ∃ big, (t, big) ∈ l ∧ s'.threadIsBig t = big ∧
        (s'.info.get t).affinity = fun c => (coresOf cfg big).contains c := by
  have hlast : (∀ m ∈ l, m.1 ≠ t) ∨ ∃ big, (t, big) ∈ l ∧ (s.pin t).after cfg t l = .ofClass cfg big :=
    Pin.after_class _
  rcases hlast with hne | ⟨big, hmem, heq⟩
  · exact .inl ⟨hne, congrArg Pin.big (h.pin_eq hne)⟩
  · have hpin := (h.pins t).trans heq
    exact .inr ⟨big, hmem, congrArg Pin.big hpin, congrArg Pin.affinity hpin⟩

namespace Partitioned

/-- Existing threads have been given classes, and no more than there are big cores are on them. -/
theorem of_moved (h : Partitioned cfg quiet exited s) (hm : Moved cfg l s s') (hcreated : ∀ m ∈ l, m.1 < s.numThreads)
    (hcount : (onBig exited' s').card ≤ (coresOf cfg true).length) : Partitioned cfg quiet exited' s' where
  size := by
    rw [hm.numThreads, hm.size]
    exact h.size
  future t ht := by
    rw [hm.numThreads] at ht
    have hne : ∀ m ∈ l, m.1 ≠ t := fun m hml hmt => absurd (hcreated m hml) (Nat.not_lt.2 (hmt ▸ ht))
    exact (congrArg Pin.big (hm.pin_eq hne)).trans (h.future t ht)
  count := hcount
  unlisted hquiet c := by
    rw [hm.listed]
    exact h.unlisted hquiet c
  masks hquiet t ht := by
    rw [hm.numThreads] at ht
    rcases hm.threadIsBig t with ⟨hne, hbig⟩ | ⟨big, -, hbig, haffinity⟩
    · rw [hbig, ← h.masks hquiet t ht]
      exact congrArg Pin.affinity (hm.pin_eq hne)
    · rw [hbig]
      exact haffinity
  untouched hquiet t ht := by
    rw [hm.numThreads] at ht
    rw [hm.hasAffinity t fun m hml hmt => absurd (hcreated m hml) (Nat.not_lt.2 (hmt ▸ ht))]
    exact h.untouched hquiet t ht

/-- No class has changed; more threads may have exited. -/
theorem of_still (h : Partitioned cfg quiet exited s) (hm : Moved cfg [] s s')
    (hexited : ∀ t, exited' t = false → exited t = false) : Partitioned cfg quiet exited' s' := by
  refine h.of_moved hm (fun m hml => absurd hml List.not_mem_nil) (le_trans (Finset.card_le_card fun t ht => ?_) h.count)
  rw [mem_onBig] at ht ⊢
  obtain ⟨hcreated, hbig, hlives⟩ := ht
  have hsame : s'.threadIsBig t = s.threadIsBig t :=
    congrArg Pin.big (hm.pin_eq fun m hml => absurd hml List.not_mem_nil)
  exact ⟨hm.numThreads ▸ hcreated, hsame ▸ hbig, hexited t hlives⟩

theorem of_frame (h : Partitioned cfg quiet exited s) (hf : Frame s s') : Partitioned cfg quiet exited s' :=
  h.of_still (.of_frame hf) fun _ => id

end Partitioned

/-- One thread leaves the big cores, and at most one takes its place. -/
theorem card_onBig_le (hm : Moved cfg l s s') (ht : t ∈ onBig exited s) (hleft : t ∉ onBig exited' s')
    (hexited : ∀ u, exited' u = false → exited u = false)
    (hl : ∃ v, ∀ u, (u, true) ∈ l → u = v) : (onBig exited' s').card ≤ (onBig exited s).card := by
  obtain ⟨v, hv⟩ := hl
  have hsub : onBig exited' s' ⊆ insert v ((onBig exited s).erase t) := by
    intro u hu
    have hu' := mem_onBig.1 hu
    rw [Finset.mem_insert, Finset.mem_erase]
    rcases hm.threadIsBig u with ⟨-, hbig⟩ | ⟨big, hmem, hbig, -⟩
    · exact .inr ⟨fun hut => hleft (hut ▸ hu),
        mem_onBig.2 ⟨hm.numThreads ▸ hu'.1, hbig ▸ hu'.2.1, hexited u hu'.2.2⟩⟩
    · rw [← hbig, hu'.2.1] at hmem
      exact .inl (hv u hmem)
  calc (onBig exited' s').card ≤ (insert v ((onBig exited s).erase t)).card := Finset.card_le_card hsub
    _ ≤ ((onBig exited s).erase t).card + 1 := Finset.card_insert_le ..
    _ = (onBig exited s).card := Finset.card_erase_add_one ht

theorem Promotion.one (hl : Promotion s l) : ∃ v, ∀ u, (u, true) ∈ l → u = v := by
  rcases hl with rfl | ⟨v, -, rfl⟩
  · exact ⟨0, fun u hu => absurd hu List.not_mem_nil⟩
  · exact ⟨v, fun u hu => congrArg Prod.fst (List.mem_singleton.1 hu)⟩

theorem Promotion.created (hl : Promotion s l) : ∀ m ∈ l, m.1 < s.numThreads := by
  rcases hl with rfl | ⟨v, hv, rfl⟩
  · exact fun m hm => absurd hm List.not_mem_nil
  · intro m hm
    rw [List.mem_singleton.1 hm]
    exact List.mem_range.1 (List.mem_filter.1 hv).1

namespace Partitioned

theorem created (h : Partitioned cfg quiet exited s) (ht : s.threadIsBig t = true) : t < s.numThreads := by
  by_contra hnot
  rw [h.future t (Nat.le_of_not_lt hnot)] at ht
  cases ht

/-- A thread that has not exited stalls. -/
theorem of_stalled {reason : StallType} (h : Partitioned cfg quiet exited s) (ht : exited t = false)
    (hm : Moved cfg [] s b ∨ cfg.policy = .bigSmall ∧ s.threadIsBig t = true ∧
      ∃ l, Promotion ((s.setStalled t reason).setRunnable t false) l ∧ Moved cfg (l ++ [(t, false)]) s b) :
    Partitioned cfg quiet exited b := by
  rcases hm with hm | ⟨-, hbig, l, hl, hm⟩
  · exact h.of_still hm fun _ => id
  · have hcreated := h.created hbig
    have hleft : b.threadIsBig t = false := by
      have hpin := hm.pins t
      rw [Pin.after_append] at hpin
      change b.pin t = if t = t then Pin.ofClass cfg false else (s.pin t).after cfg t l at hpin
      rw [if_pos rfl] at hpin
      exact congrArg Pin.big hpin
    refine h.of_moved hm (fun m hml => ?_) ((card_onBig_le hm (mem_onBig.2 ⟨hcreated, hbig, ht⟩) ?_
      (fun _ => id) ?_).trans
      h.count)
    · rcases List.mem_append.1 hml with hml | hml
      · exact hl.created m hml
      · rw [List.mem_singleton.1 hml]
        exact hcreated
    · rw [mem_onBig, hleft]
      exact fun hmem => Bool.false_ne_true hmem.2.1
    · obtain ⟨v, hv⟩ := hl.one
      refine ⟨v, fun u hu => hv u ?_⟩
      rcases List.mem_append.1 hu with hu | hu
      · exact hu
      · exact absurd (congrArg Prod.snd (List.mem_singleton.1 hu)) Bool.true_eq_false_eq_False

end Partitioned

theorem stallThread_partitioned (h : Partitioned cfg quiet exited s) (reason : StallType) (ht : exited t = false) :
    Ensures (stallThread cfg clock time s t reason) (Partitioned cfg quiet exited) fun _ => True :=
  (stallThread_moved reason h.size).mono (fun _ hb => h.of_stalled ht hb) fun _ _ => trivial

theorem setFrequency_partitioned {mhz : ℕ} (h : Partitioned cfg quiet exited s)
    (hlives : freqInHz mhz = 0 → exited core = false) :
    Ensures (setFrequency cfg clock s core mhz) (Partitioned cfg quiet exited) fun _ => True := by
  by_cases hfreq : freqInHz mhz = 0
  · exact (setFrequency_moved mhz h.size).mono (fun _ hb => h.of_stalled (hlives hfreq) hb) fun _ _ => trivial
  · rw [setFrequency, if_pos (Nat.pos_of_ne_zero hfreq)]
    split_ifs
    · exact .ok h
    · exact .ok h

/-- The reshuffle empties the big cores and promotes at most as many threads as there are. -/
theorem reshuffle_partitioned (h : Partitioned cfg quiet exited s) :
    Ensures (reshuffle cfg clock time s) (Partitioned cfg quiet exited) fun _ => True := by
  refine (reshuffle_moved h.size).mono (fun b hb => ?_) fun _ _ => trivial
  rcases hb.2 with rfl | ⟨-, l, hlen, hl, hm⟩
  · exact h
  · have hdemoted : ∀ m ∈ demoted s (List.range s.numThreads), m.1 < s.numThreads ∧ m.2 = false := by
      intro m hml
      obtain ⟨u, hu, rfl⟩ := List.mem_map.1 hml
      exact ⟨List.mem_range.1 (List.mem_filter.1 hu).1, rfl⟩
    refine h.of_moved hm (fun m hml => (List.mem_append.1 hml).elim (fun hml => (hdemoted m hml).1) fun hml =>
      (hl m hml).2.1)
      (le_trans ?_ hlen)
    have hsub : onBig exited b ⊆ (l.map Prod.fst).toFinset := by
      intro u hu
      have hu' := mem_onBig.1 hu
      rw [List.mem_toFinset]
      rcases hm.threadIsBig u with ⟨hne, hbig⟩ | ⟨big, hmem, hbig, -⟩
      · have hwas : s.threadIsBig u = true := hbig ▸ hu'.2.1
        refine absurd rfl (hne (u, false) (List.mem_append_left _ (List.mem_map_of_mem ?_)))
        exact List.mem_filter.2 ⟨List.mem_range.2 (h.created hwas), hwas⟩
      · rw [← hbig, hu'.2.1] at hmem
        refine List.mem_map.2 ⟨(u, true), (List.mem_append.1 hmem).resolve_left fun hmem => ?_, rfl⟩
        exact Bool.true_eq_false_eq_False (hdemoted _ hmem).2
    calc (onBig exited b).card ≤ (l.map Prod.fst).toFinset.card := Finset.card_le_card hsub
      _ ≤ (l.map Prod.fst).length := List.toFinset_card_le _
      _ = l.length := List.length_map _

/-- Without lists of threads a new mapping moves nobody. -/
theorem changeMapping_unlisted (h : ∀ c, s.threadsOnCore c = []) (moves : Option (List (ℕ × ℕ))) :
    Ensures (changeMapping cfg clock s moves) (fun b => b = s) fun _ => True := by
  cases moves with
  | none => exact .ok rfl
  | some lines =>
    have hlists : s.threadsOnCore = fun _ => [] := funext h
    have hround : ∀ acc : Sim × (ℕ → List ℕ), ∀ move ∈ lines, acc = (s, fun _ => []) →
        Ensures (migrateCore cfg clock acc move) (fun acc => acc = (s, fun _ => [])) fun _ => True := by
      rintro _ move - rfl
      rw [migrateCore]
      split
      · dsimp only
        rw [h move.1]
        refine .ok (Prod.ext ?_ ?_)
        · change { s with threadsOnCore := Function.update s.threadsOnCore move.1 [] } = s
          rw [← h move.1, Function.update_eq_self]
        · exact Function.update_eq_self move.2 _
      · exact .error trivial
    rw [changeMapping]
    refine (Ensures.foldlM hround rfl).bind ?_
    rintro _ rfl
    refine .ok ?_
    change { s with threadsOnCore := fun c => s.threadsOnCore c ++ [] } = s
    simp only [hlists, List.append_nil]
    rw [← hlists]

/-- The threads and their marks are the same; lists and affinities may be others. -/
structure SameMarks (s s' : Sim) : Prop where
  size : s'.info.size = s.info.size
  numThreads : s'.numThreads = s.numThreads
  big : s'.threadIsBig = s.threadIsBig

theorem SameMarks.trans (h : SameMarks s a) (h' : SameMarks a b) : SameMarks s b :=
  ⟨h'.size.trans h.size, h'.numThreads.trans h.numThreads, h'.big.trans h.big⟩

theorem SameMarks.of_frame (h : Frame s s') : SameMarks s s' :=
  ⟨h.info_size, h.numThreads, congrArg (·.threadIsBig) h.fixed⟩

theorem SameMarks.of_moved (h : Moved cfg [] s s') : SameMarks s s' :=
  ⟨h.size, h.numThreads, funext fun t => congrArg Pin.big (h.pins t)⟩

/-- The count does not look at affinities. -/
theorem Partitioned.of_marks (h : Partitioned cfg quiet exited s) (hm : SameMarks s s') (hloud : ¬ quiet) :
    Partitioned cfg quiet exited s' where
  size := by
    rw [hm.numThreads, hm.size]
    exact h.size
  future t ht := by
    rw [hm.big]
    exact h.future t (hm.numThreads ▸ ht)
  count := by
    rw [onBig, hm.numThreads, hm.big]
    exact h.count
  unlisted hq := absurd hq hloud
  masks hq := absurd hq hloud
  untouched hq := absurd hq hloud

theorem migrateThread_marks (cfg : Config) (clock : ℕ → ℕ) (dest : ℕ) (s : Sim) (t : ℕ) :
    Ensures (migrateThread cfg clock dest s t) (SameMarks s) fun _ => True := by
  rw [migrateThread]
  split_ifs
  · dsimp only
    generalize ha : s.modifyInfo t _ = a
    have hset : SameMarks s a := by
      rw [← ha]
      exact ⟨rfl, rfl, rfl⟩
    split_ifs
    · exact .ok hset
    · exact (applyAffinity_frame ..).mono (fun b hb => hset.trans (.of_frame hb)) fun _ _ => trivial
  · exact .error trivial
  · exact .error trivial

/-- A new mapping moves threads between cores of either class, and marks nobody. -/
theorem changeMapping_partitioned (h : Partitioned cfg quiet exited s) (moves : Option (List (ℕ × ℕ))) :
    Ensures (changeMapping cfg clock s moves) (Partitioned cfg quiet exited) fun _ => True := by
  by_cases hq : quiet
  · exact (changeMapping_unlisted (h.unlisted hq) moves).mono (fun b hb => hb ▸ h) fun _ _ => trivial
  · refine Ensures.mono (Q := SameMarks s) (F := fun _ => True) ?_ (fun b hb => h.of_marks hb hq) fun _ _ => trivial
    refine changeMapping_keeps ⟨rfl, rfl, rfl⟩ (fun a lists ha => ha.trans ⟨rfl, rfl, rfl⟩) trivial
      fun lines _ move _ t _ a ha => ?_
    exact (migrateThread_marks cfg clock move.2 a t).mono (fun b hb => ha.trans hb) fun _ _ => trivial

theorem placeThread_marks (cfg : Config) (time : ℕ) (s : Sim) (w : Waiting) :
    Ensures (placeThread cfg time s w) (SameMarks s) fun _ => True := by
  rw [placeThread]
  split
  · have hann : SameMarks s (announced cfg time s w) := ⟨rfl, rfl, rfl⟩
    split
    · refine Ensures.bind (Q := SameMarks s) ?_ fun a ha => .ok ?_
      · exact (moveThread_moved ..).mono (fun b hb => hann.trans (.of_moved hb)) fun _ _ => trivial
      · split
        · exact ha.trans ⟨rfl, rfl, rfl⟩
        · exact ha
    · exact .error trivial
  · exact .error trivial

/-- The change of hyper-period pins the waiting threads to their cores, and marks nobody. -/
theorem countExit_marks (cfg : Config) (time : ℕ) (s : Sim) (file : List (ℕ × ℕ × ℕ)) :
    Ensures (countExit cfg time s file) (SameMarks s) fun _ => True := by
  rw [countExit]
  split_ifs
  · dsimp only
    split_ifs
    · refine Ensures.foldlM (fun a w _ ha => ?_) ⟨rfl, rfl, rfl⟩
      exact (placeThread_marks cfg time a w).mono (fun b hb => ha.trans hb) fun _ _ => trivial
    · exact .ok ⟨rfl, rfl, rfl⟩
  · exact .ok ⟨rfl, rfl, rfl⟩

/-- Without hyper-periods nothing is counted. -/
theorem countExit_partitioned {file : List (ℕ × ℕ × ℕ)} (h : Partitioned cfg quiet exited s)
    (hbuild : quiet → cfg.periodicWorkload = false) :
    Ensures (countExit cfg time s file) (Partitioned cfg quiet exited) fun _ => True := by
  by_cases hq : quiet
  · rw [countExit, hbuild hq]
    exact .ok h
  · exact (countExit_marks cfg time s file).mono (fun b hb => h.of_marks hb hq) fun _ _ => trivial

/-- The periodic call, with frequencies that break no core that has the number of an exited thread. -/
theorem periodic_partitioned (h : Partitioned cfg quiet exited s) (moves : Option (List (ℕ × ℕ))) (dvfs : ℕ → ℤ)
    (hlives : intervenes cfg s time = true → ∀ core < cfg.numCores, freqInHz (readUInt64 (dvfs core)) = 0 →
      exited core = false) :
    Ensures (periodic cfg clock time s moves dvfs) (Partitioned cfg quiet exited) fun _ => True := by
  rw [periodic]
  refine ((reshuffle_partitioned h).and (reshuffle_interval cfg clock time s)).bind fun a ha => ?_
  obtain ⟨ha, hinterval⟩ := ha
  rw [periodicBase]
  have hnow : intervenes cfg a time = intervenes cfg s time := by rw [intervenes, intervenes, hinterval]
  refine Ensures.bind (Q := Partitioned cfg quiet exited) ?_ fun b hb => ?_
  · rw [intervene, hnow]
    split_ifs with hdue
    · refine (changeMapping_partitioned ha moves).bind fun b hb => ?_
      refine Ensures.bind (Q := Partitioned cfg quiet exited) ?_ fun c hc => .ok ?_
      · refine Ensures.foldlM (fun c core hcore hc => ?_) hb
        exact setFrequency_partitioned hc (hlives hdue core (List.mem_range.1 hcore))
      · exact hc.of_still (.of_same rfl rfl rfl ⟨rfl, rfl, rfl⟩ rfl) fun _ => id
    · exact .ok ha
  · refine Ensures.bind (Q := Partitioned cfg quiet exited) ?_ fun c hc => .ok ?_
    · refine Ensures.foldlM (fun c core _ hc => ?_) hb
      exact (periodicCore_frame ..).mono (fun d hd => hc.of_frame hd) fun _ _ => trivial
    · exact hc.of_still (.of_same rfl rfl rfl ⟨rfl, rfl, rfl⟩ rfl) fun _ => id

/-- A thread that exits is not counted any more; the one promoted in its place is. -/
theorem onThreadExit_partitioned {wake : List ℕ} {file : List (ℕ × ℕ × ℕ)}
    (hbuild : quiet → cfg.periodicWorkload = false) (h : Partitioned cfg quiet exited s) (ht : exited t = false) :
    Ensures (onThreadExit cfg clock time s t wake file)
      (Partitioned cfg quiet (Function.update exited t true)) fun _ => True := by
  cases hexit : onThreadExit cfg clock time s t wake file with
  | error f => exact .error trivial
  | ok b =>
    obtain ⟨core, a, d, l, hbegun, hbig, hl, hm, hcount⟩ := onThreadExit_moved h.size hexit
    have hbegun := (beginExit_moved cfg time s t core wake).of_ok hbegun
    have hexited : ∀ u, Function.update exited t true u = false → exited u = false := by
      intro u hu
      rw [Function.update_apply] at hu
      split_ifs at hu
      exact hu
    refine .ok ((countExit_partitioned ?_ hbuild).of_ok hcount)
    rcases hbig with rfl | ⟨-, hbig⟩
    · exact h.of_still hm hexited
    · refine h.of_moved hm (fun m hml => hbegun.numThreads ▸ hl.created m hml)
        ((card_onBig_le hm (mem_onBig.2 ⟨h.created hbig, hbig, ht⟩) ?_ hexited hl.one).trans h.count)
      rw [mem_onBig, Function.update_self]
      exact fun hmem => Bool.true_eq_false_eq_False hmem.2.2

theorem Partitioned.newThread_untouched (h : Partitioned cfg quiet exited s) (app : ℕ) (hq : quiet) {u : ℕ} (hu : s.numThreads ≤ u) :
    ((newThread s app).info.get u).hasAffinity = false := by
  rcases newThread_info s app u with hsame | ⟨-, hnone⟩
  · rw [hsame]
    exact h.untouched hq u hu
  · rw [hnone]
    rfl

/-- A new thread is put on the small cores, unless the application has set its affinity before. -/
theorem Partitioned.ensureAffinity_newThread {app : ℕ} (hpolicy : cfg.policy = .bigSmall) (h : Partitioned cfg quiet exited s)
    (hnew : s.numThreads < (newThread s app).info.size)
    (hfirst : ensureAffinity cfg clock (newThread s app) s.numThreads = .ok b) :
    ∃ l, Moved cfg l (newThread s app) b ∧ (∀ m ∈ l, m = (s.numThreads, false)) ∧ (quiet → l ≠ []) := by
  rw [ensureAffinity] at hfirst
  split_ifs at hfirst with hhas
  · cases hfirst
    refine ⟨[], .refl _, fun m hm => absurd hm List.not_mem_nil, fun hq => ?_⟩
    rw [h.newThread_untouched app hq le_rfl] at hhas
    cases hhas
  · rw [threadSetInitialAffinity, hpolicy] at hfirst
    exact ⟨_, (moveTo_moved false hnew).of_ok hfirst, fun m hm => List.mem_singleton.1 hm,
      fun _ => List.cons_ne_nil _ _⟩

/-- Only the new thread has been given a class, the one of the small cores. -/
theorem Partitioned.of_newThread {app : ℕ} (h : Partitioned cfg quiet exited s) (hnew : s.numThreads < (newThread s app).info.size)
    (hm : Moved cfg l (newThread s app) b) (hl : ∀ m ∈ l, m = (s.numThreads, false)) (hset : quiet → l ≠ []) :
    Partitioned cfg quiet exited b := by
  obtain ⟨hnum, hlisted, hflags⟩ := newThread_same s app
  have hne (u : ℕ) (hu : u ≠ s.numThreads) : ∀ m ∈ l, m.1 ≠ u := fun m hml hmu =>
    hu (hmu.symm.trans (congrArg Prod.fst (hl m hml)))
  have hsmall : b.threadIsBig s.numThreads = false := by
    rcases hm.threadIsBig s.numThreads with ⟨-, hbig⟩ | ⟨big, hmem, hbig, -⟩
    · rw [hbig, hflags]
      exact h.future _ le_rfl
    · exact hbig.trans (congrArg Prod.snd (hl _ hmem))
  have hothers (u : ℕ) (hu : u ≠ s.numThreads) : b.threadIsBig u = s.threadIsBig u := by
    rw [← hflags]
    exact congrArg Pin.big (hm.pin_eq (hne u hu))
  constructor
  · rw [hm.numThreads, hnum, hm.size]
    exact hnew
  · intro u hu
    rw [hm.numThreads, hnum] at hu
    rw [hothers u (Nat.lt_of_succ_le hu).ne']
    exact h.future u (Nat.le_of_succ_le hu)
  · refine le_trans (Finset.card_le_card fun u hu => ?_) h.count
    obtain ⟨-, hbig, hlives⟩ := mem_onBig.1 hu
    have hold : u ≠ s.numThreads := by
      rintro rfl
      rw [hsmall] at hbig
      cases hbig
    rw [hothers u hold] at hbig
    exact mem_onBig.2 ⟨h.created hbig, hbig, hlives⟩
  · intro hq c
    rw [hm.listed, hlisted]
    exact h.unlisted hq c
  · intro hq u hu
    rw [hm.numThreads, hnum] at hu
    by_cases hold : u = s.numThreads
    · obtain ⟨m, hmem⟩ := List.exists_mem_of_ne_nil l (hset hq)
      rcases hm.threadIsBig u with ⟨hnone, -⟩ | ⟨big, -, hbig, hmask⟩
      · exact absurd ((congrArg Prod.fst (hl m hmem)).trans hold.symm) (hnone m hmem)
      · rw [hmask, hbig]
    · have hlt : u < s.numThreads := by omega
      have hpin := hm.pin_eq (hne u hold)
      rw [hothers u hold, ← h.masks hq u hlt]
      refine (congrArg Pin.affinity hpin).trans ?_
      change ((newThread s app).info.get u).affinity = _
      rw [(newThread_info s app u).resolve_right fun hbeyond => absurd (hlt.trans_le h.size) (Nat.not_lt.2 hbeyond.1)]
  · intro hq u hu
    rw [hm.numThreads, hnum] at hu
    rw [hm.hasAffinity u (hne u (Nat.lt_of_succ_le hu).ne')]
    exact h.newThread_untouched app hq (Nat.le_of_succ_le hu)

theorem holdBack_marks (h : holdBack cfg s t = .ok b) : SameMarks s b := by
  rw [holdBack] at h
  split_ifs at h
  rw [← Except.ok.inj h]
  exact ⟨rfl, rfl, rfl⟩

/-- A new thread starts on the small cores, unless the application has set its affinity before or it waits for its
hyper-period. -/
theorem createThread_partitioned {app : ℕ} (hpolicy : cfg.policy = .bigSmall)
    (hbuild : quiet → cfg.periodicWorkload = false) (h : Partitioned cfg quiet exited s) :
    Ensures (createThread cfg clock s app) (Partitioned cfg quiet exited) fun _ => True := by
  cases hcreate : createThread cfg clock s app with
  | error f => exact .error trivial
  | ok b =>
    obtain ⟨hnew, a, hframe, hfirst⟩ := createThread_cases hcreate
    rcases hfirst with hfirst | ⟨hper, hheld⟩
    · obtain ⟨l, hm, hl, hset⟩ := h.ensureAffinity_newThread hpolicy hnew hfirst
      exact .ok ((h.of_newThread hnew hm hl hset).of_frame hframe)
    · -- the thread waits for its hyper-period without an affinity
      have hloud : ¬ quiet := fun hq => Bool.true_eq_false_eq_False (hper.symm.trans (hbuild hq))
      have hnone : Partitioned cfg quiet exited (newThread s app) :=
        h.of_newThread hnew (.refl _) (fun m hm => absurd hm List.not_mem_nil) fun hq => absurd hq hloud
      exact .ok ((hnone.of_marks (holdBack_marks hheld) hloud).of_frame hframe)

/-- The application sets the affinity of a thread: its mark stays, its mask may be another one. -/
theorem threadSetAffinity_partitioned {calling : Option ℕ} {mask : Option (List ℕ)}
    (h : Partitioned cfg quiet exited s) (hloud : ¬ quiet) :
    Ensures (threadSetAffinity cfg clock s calling t mask) (Partitioned cfg quiet exited) fun _ => True := by
  refine (threadSetAffinity_pinned ..).mono (fun b hb => ⟨?_, fun u hu => ?_, ?_,
    fun hq => absurd hq hloud, fun hq => absurd hq hloud, fun hq => absurd hq hloud⟩) fun _ _ => trivial
  · rw [hb.numThreads, hb.size, grownInfo]
    split_ifs with hle
    · exact (h.size.trans hle).trans (Nat.le_add_right t 16)
    · exact h.size
  · rw [hb.numThreads] at hu
    rw [hb.big]
    exact h.future u hu
  · rw [onBig, hb.numThreads, hb.big]
    exact h.count

/-! ### Runs -/

/-- An event, with the state of the random number generator before it. -/
structure Draw where
  call : Call
  rng : ℕ

/-- The scheduler, and the threads that have exited. -/
def drawStep (cfg : Config) (state : Sim × (ℕ → Bool)) (d : Draw) : Except Fault (Sim × (ℕ → Bool)) := do
  let s ← step cfg { state.1 with rng := d.rng } d.call
  .ok (s, match d.call.event with
    | .exit t _ _ => Function.update state.2 t true
    | _ => state.2)

/-- The scheduler as a machine whose random choices are part of its events. -/
def drawMachine (cfg : Config) : Machine (Sim × (ℕ → Bool)) Draw Fault := ⟨drawStep cfg⟩

/-- The event stalls no thread that has exited and lets none exit again. A core that is declared broken stalls the thread
that has its number. -/
def sparesExited (cfg : Config) (state : Sim × (ℕ → Bool)) (d : Draw) : Prop :=
  match d.call.event with
  | .stall t _ | .exit t _ _ => state.2 t = false
  | .setFrequency core mhz => freqInHz mhz = 0 → state.2 core = false
  | .periodic _ dvfs => intervenes cfg state.1 d.call.time = true →
      ∀ core < cfg.numCores, freqInHz (readUInt64 (dvfs core)) = 0 → state.2 core = false
  | .create _ | .start _ | .resume _ | .yield _ | .setAffinity _ _ _ => True

/-- The application does not set affinities. -/
def Event.isQuiet : Event → Bool
  | .setAffinity _ _ _ => false
  | _ => true

theorem drawStep_partitioned (hpolicy : cfg.policy = .bigSmall) (hbuild : quiet → cfg.periodicWorkload = false)
    {state state' : Sim × (ℕ → Bool)} {d : Draw} (h : Partitioned cfg quiet state.2 state.1)
    (hspares : sparesExited cfg state d) (hquiet : quiet → d.call.event.isQuiet = true)
    (hstep : drawStep cfg state d = .ok state') : Partitioned cfg quiet state'.2 state'.1 := by
  obtain ⟨s, exited⟩ := state
  obtain ⟨⟨event, time, clock⟩, rng⟩ := d
  obtain ⟨b, hb, hstep⟩ := exists_of_bind_ok hstep
  have hdrawn : Partitioned cfg quiet exited { s with rng := rng } :=
    h.of_still (.of_same rfl rfl rfl ⟨rfl, rfl, rfl⟩ rfl) fun _ => id
  cases event with
  | create app =>
    cases hstep
    exact (createThread_partitioned hpolicy hbuild hdrawn).of_ok hb
  | start t =>
    cases hstep
    exact hdrawn.of_still ((onThreadStart_moved ..).of_ok hb) fun _ => id
  | stall t reason =>
    cases hstep
    exact (stallThread_partitioned hdrawn reason hspares).of_ok hb
  | resume t =>
    cases hstep
    exact hdrawn.of_still ((wakeThread_moved ..).of_ok hb) fun _ => id
  | exit t wake file =>
    cases hstep
    exact (onThreadExit_partitioned hbuild hdrawn hspares).of_ok hb
  | yield t =>
    cases hstep
    change (if t < s.numThreads then threadYield cfg clock { s with rng := rng } t else .error .noThread) = .ok b at hb
    split_ifs at hb
    exact hdrawn.of_frame ((threadYield_frame ..).of_ok hb)
  | setAffinity calling t mask =>
    cases hstep
    exact (threadSetAffinity_partitioned hdrawn fun hq => Bool.false_ne_true (hquiet hq)).of_ok hb
  | periodic moves dvfs =>
    cases hstep
    exact (periodic_partitioned hdrawn moves dvfs hspares).of_ok hb
  | setFrequency core mhz =>
    cases hstep
    exact (setFrequency_partitioned hdrawn hspares).of_ok hb

/-- In every run, and after every event of it: the threads on the big cores that have not exited are no more than the big
cores, and as long as the application sets no affinity every thread of a build without hyper-periods has exactly the cores
of its class. -/
theorem bigSmall_partition (cfg : Config) (hpolicy : cfg.policy = .bigSmall) (map : ℕ → ℕ → Option ℕ)
    (draws : List Draw) (state : Sim × (ℕ → Bool))
    (hspares : (drawMachine cfg).Guarded (sparesExited cfg) (initial map, fun _ => false) draws)
    (hrun : (drawMachine cfg).run (initial map, fun _ => false) draws = .ok state) :
    (onBig state.2 state.1).card ≤ (coresOf cfg true).length ∧
      (cfg.periodicWorkload = false → (∀ d ∈ draws, d.call.event.isQuiet = true) →
        ∀ t < state.1.numThreads, ∀ core, (state.1.info.get t).affinity core = true ↔
          core < cfg.numCores ∧ cfg.bigCore core = state.1.threadIsBig t) := by
  let quiet : Prop := cfg.periodicWorkload = false ∧ ∀ d ∈ draws, d.call.event.isQuiet = true
  have hinit : Partitioned cfg quiet (fun _ => false) (initial map) := by
    refine ⟨le_rfl, fun _ _ => rfl, ?_, fun _ _ => rfl, fun _ t ht => absurd ht (Nat.not_lt_zero t), fun _ _ _ => rfl⟩
    exact (Finset.card_eq_zero.2 (Finset.filter_false_of_mem fun t ht => absurd (Finset.mem_range.1 ht)
      (Nat.not_lt_zero t))).trans_le (Nat.zero_le _)
  have hguard := hspares.and_forall (p := fun d => quiet → d.call.event.isQuiet = true) fun d hd hq => hq.2 d hd
  have hend : Partitioned cfg quiet state.2 state.1 :=
    (drawMachine cfg).guarded_induction (P := fun state => Partitioned cfg quiet state.2 state.1)
      (fun _ _ _ hs hg hstep => drawStep_partitioned hpolicy And.left hs hg.1 hg.2 hstep) hinit hguard hrun
  refine ⟨hend.count, fun hbuild hq t ht core => ?_⟩
  rw [hend.masks ⟨hbuild, hq⟩ t ht, List.contains_iff_mem, coresOf, List.mem_filter, List.mem_range, decide_eq_true_iff]

/-- Core 0 is small, core 1 is big. -/
def oneBig : Config where
  policy := .bigSmall
  numCores := 2
  quantum := 1000
  modifiedCode := true
  periodicWorkload := false
  interleaving := 1
  coreMask := fun _ => true
  numApps := 2
  numAppPerHyperPeriod := 1
  numThreadsPerHyperPeriod := 1
  runtimeIntervention := true
  interval := 0
  bigCore := fun c => c = 1

/-- Three threads start, and the first reshuffle promotes one of them. -/
def reshuffled : List Draw :=
  [⟨(Event.create 0).at 0, 0⟩, ⟨(Event.start 0).at 0, 0⟩, ⟨(Event.create 0).at 0, 0⟩, ⟨(Event.start 1).at 0, 0⟩,
    ⟨(Event.create 0).at 0, 0⟩, ⟨(Event.start 2).at 0, 0⟩, ⟨(Event.periodic none fun _ => 1000).at 2000, 0⟩]

/-- Thread 0 is on the big core, and exits. -/
def reshuffledEnd : Sim × (ℕ → Bool) :=
  (drawMachine oneBig).final (initial fun _ _ => none, fun _ => false)
    (reshuffled ++ [⟨(Event.exit 0 [] []).at 2100, 0⟩])

theorem bigSmall_partition_reshuffled :
    (onBig reshuffledEnd.2 reshuffledEnd.1).card ≤ (coresOf oneBig true).length ∧
      ∀ t < reshuffledEnd.1.numThreads, ∀ core, (reshuffledEnd.1.info.get t).affinity core = true ↔
        core < oneBig.numCores ∧ oneBig.bigCore core = reshuffledEnd.1.threadIsBig t := by
  have hrunning : freqInHz (readUInt64 1000) ≠ 0 := by decide
  have hspares : (drawMachine oneBig).Guarded (sparesExited oneBig) (initial fun _ _ => none, fun _ => false)
      (reshuffled ++ [⟨(Event.exit 0 [] []).at 2100, 0⟩]) := by
    refine .cons_final (by decide +kernel) trivial <| .cons_final (by decide +kernel) trivial ?_
    refine .cons_final (by decide +kernel) trivial <| .cons_final (by decide +kernel) trivial ?_
    refine .cons_final (by decide +kernel) trivial <| .cons_final (by decide +kernel) trivial ?_
    refine .cons_final (by decide +kernel) (fun _ core _ hzero => absurd hzero hrunning) ?_
    refine .cons_final (by decide +kernel) ?_ trivial
    change ((drawMachine oneBig).final _ _).2 0 = false
    decide +kernel
  have hends := bigSmall_partition oneBig rfl (fun _ _ => none) _ reshuffledEnd hspares
    (Machine.run_final _ (by decide +kernel))
  exact ⟨hends.1, hends.2 rfl (by decide)⟩

/-- The last part of a run in which a frequency of zero stalls the thread that has exited. -/
def exitThenBreak : List Draw :=
  [⟨(Event.exit 0 [] []).at 2100, 0⟩, ⟨(Event.periodic none fun core => if core = 0 then 0 else 1000).at 2200, 0⟩]

/-- The same cores in a build with hyper-periods. -/
def oneBigPeriodic : Config := { oneBig with periodicWorkload := true }

/-- Thread 0 exits and is replaced by thread 1; when core 0 is declared broken it is replaced again, by thread 2. And in
a build with hyper-periods a thread of the second one gets no affinity. -/
theorem bigSmall_exceeded_and_held_back :
    (∃ state, (drawMachine oneBig).run (initial fun _ _ => none, fun _ => false) (reshuffled ++ exitThenBreak) =
        .ok state ∧ (coresOf oneBig true).length = 1 ∧ (onBig state.2 state.1).card = 2) ∧
      ∃ state, (drawMachine oneBigPeriodic).run (initial fun _ _ => none, fun _ => false)
          [⟨(Event.create 1).at 0, 0⟩] = .ok state ∧ state.1.numThreads = 1 ∧ state.1.threadIsBig 0 = false ∧
        (coresOf oneBigPeriodic false).contains 0 = true ∧ (state.1.info.get 0).affinity 0 = false := by
  refine ⟨⟨_, Machine.run_final _ (by decide +kernel), by decide +kernel, by decide +kernel⟩,
    ⟨_, Machine.run_final _ (by decide +kernel), by decide +kernel, by decide +kernel, by decide +kernel,
      by decide +kernel⟩⟩

end LifeSim.Sched
