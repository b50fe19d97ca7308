import LifeSim.Sched.Frame

/-!
# Taking `periodic` apart

The periodic callback reads two files and touches every core. For properties about the single
calls in it the run is looked at in smaller steps: the reshuffle, the change of mapping, one
`setFrequency` for each core, and the loop over the quanta. Every event is a run of such
steps.
-/

namespace LifeSim.Sched

open LifeSim.Lib

variable {cfg : Config} {s : Sim} {time : ℕ} {clock : ℕ → ℕ}

/-- The events that are not taken apart. -/
def Event.plain : Event → Bool
  | .periodic .. => false
  | .setFrequency .. => false
  | _ => true

/-- A small step. -/
inductive FineStep
  /-- An event that is one call. -/
  | event (call : Call) (plain : call.event.plain = true)
  /-- The first part of `SchedulerBigSmall::periodic`. -/
  | reshuffle (clock : ℕ → ℕ) (time : ℕ)
  /-- `changeMapping`. -/
  | changeMapping (clock : ℕ → ℕ) (moves : Option (List (ℕ × ℕ)))
  /-- `setFrequency`, with the number that was written in the file or in the call. -/
  | setFrequency (clock : ℕ → ℕ) (core : ℕ) (value : ℤ)
  /-- The end of the intervention. -/
  | intervened (time : ℕ)
  /-- The loop of `periodic` over the cores. -/
  | quanta (time : ℕ)

/-- The handler of each small step. -/
def fineStep (cfg : Config) (s : Sim) : FineStep → Except Fault Sim
  | .event call _ => step cfg s call
  | .reshuffle clock time => reshuffle cfg clock time s
  | .changeMapping clock moves => changeMapping cfg clock s moves
  | .setFrequency clock core value => setFrequency cfg clock s core (readUInt64 value)
  | .intervened time => .ok { s with lastPeriodicInterval := time }
  | .quanta time => do
    let s ← (List.range cfg.numCores).foldlM (periodicCore cfg time (time - s.lastPeriodic)) s
    .ok { s with lastPeriodic := time }

/-- The simulator in small steps. -/
def fineMachine (cfg : Config) : Machine Sim FineStep Fault := ⟨fineStep cfg⟩

/-- The steps of an intervention. -/
def interventionSteps (cfg : Config) (clock : ℕ → ℕ) (time : ℕ) (moves : Option (List (ℕ × ℕ)))
    (dvfs : ℕ → ℤ) : List FineStep :=
  .changeMapping clock moves ::
    ((List.range cfg.numCores).map fun core => .setFrequency clock core (dvfs core)) ++ [.intervened time]

/-- The small steps of an event. -/
def fineSteps (cfg : Config) (s : Sim) (call : Call) : List FineStep :=
  match h : call.event with
  | .periodic moves dvfs => .reshuffle call.clock call.time ::
      (if intervenes cfg s call.time then interventionSteps cfg call.clock call.time moves dvfs else []) ++
        [.quanta call.time]
  | .setFrequency core mhz => [.setFrequency call.clock core mhz]
  | .create _ | .start _ | .stall _ _ | .resume _ | .exit _ _ _ | .yield _ | .setAffinity _ _ _ =>
    [.event call (by rw [h]; rfl)]

/-- Reading the number of a call back changes nothing that `setFrequency` looks at. -/
theorem setFrequency_readUInt64 (cfg : Config) (clock : ℕ → ℕ) (s : Sim) (core mhz : ℕ) :
    setFrequency cfg clock s core (readUInt64 mhz) = setFrequency cfg clock s core mhz := by
  have hread : readUInt64 mhz = mhz % 2 ^ 64 := by
    rw [readUInt64]
    norm_cast
  have hhz : freqInHz (readUInt64 mhz) = freqInHz mhz := by
    rw [hread, freqInHz, freqInHz]
    omega
  rw [setFrequency, setFrequency, hhz]

/-- A change of affinity does not touch the time of the last intervention. -/
theorem moveTo_interval (cfg : Config) (clock : ℕ → ℕ) (big : Bool) (s : Sim) (t : ℕ) :
    Ensures (moveTo cfg clock big s t) (fun b => b.lastPeriodicInterval = s.lastPeriodicInterval)
      fun _ => True := by
  refine Ensures.bind (Q := fun b => b.lastPeriodicInterval = s.lastPeriodicInterval) ?_ fun _ hb => .ok hb
  refine (threadSetAffinity_spec ..).mono ?_ fun _ _ => trivial
  rintro b ⟨a, ha, hframe⟩
  have hfixed : b.lastPeriodicInterval = a.lastPeriodicInterval :=
    congrArg (·.lastPeriodicInterval) hframe.fixed
  rw [hfixed, ha.same]

theorem pickBigThread_interval (cfg : Config) (clock : ℕ → ℕ) (s : Sim) :
    Ensures (pickBigThread cfg clock s) (fun b => b.lastPeriodicInterval = s.lastPeriodicInterval)
      fun _ => True := by
  unfold pickBigThread
  split
  · split
    · exact .ok rfl
    · exact moveTo_interval ..
  · exact .error trivial

theorem reshuffle_interval (cfg : Config) (clock : ℕ → ℕ) (time : ℕ) (s : Sim) :
    Ensures (reshuffle cfg clock time s) (fun b => b.lastPeriodicInterval = s.lastPeriodicInterval)
      fun _ => True := by
  unfold reshuffle
  split
  · refine Ensures.bind (Q := fun b => b.lastPeriodicInterval = s.lastPeriodicInterval) ?_ fun a ha => ?_
    · refine Ensures.foldlM (fun a t _ ha => ?_) rfl
      split
      · exact (moveTo_interval ..).mono (fun _ hb => hb.trans ha) fun _ hf => hf
      · exact .ok ha
    · refine Ensures.bind (Q := fun b => b.lastPeriodicInterval = s.lastPeriodicInterval) ?_ fun b hb => .ok hb
      refine Ensures.foldlM (fun b _ _ hb => ?_) ha
      exact (pickBigThread_interval ..).mono (fun _ hd => hd.trans hb) fun _ hf => hf
  · exact .ok rfl

/-- The intervention is the run of its steps. -/
theorem intervene_eq_run (cfg : Config) (clock : ℕ → ℕ) (time : ℕ) (s : Sim) (moves : Option (List (ℕ × ℕ)))
    (dvfs : ℕ → ℤ) :
    intervene cfg clock time s moves dvfs = (fineMachine cfg).run s
      (if intervenes cfg s time then interventionSteps cfg clock time moves dvfs else []) := by
  unfold intervene
  split
  · rw [interventionSteps, List.cons_append, Machine.run_cons]
    refine bind_congr fun a => ?_
    rw [Machine.run_append_eq, Machine.run_map]
    refine bind_congr fun b => ?_
    rfl
  · rfl

/-- The periodic callback is the run of its steps. -/
theorem periodic_eq_run (cfg : Config) (clock : ℕ → ℕ) (time : ℕ) (s : Sim) (moves : Option (List (ℕ × ℕ)))
    (dvfs : ℕ → ℤ) :
    periodic cfg clock time s moves dvfs = (fineMachine cfg).run s (.reshuffle clock time ::
      (if intervenes cfg s time then interventionSteps cfg clock time moves dvfs else []) ++ [.quanta time]) := by
  have hinterval := reshuffle_interval cfg clock time s
  rw [periodic, List.cons_append, Machine.run_cons]
  change (reshuffle cfg clock time s >>= _) = (reshuffle cfg clock time s >>= _)
  cases hreshuffle : reshuffle cfg clock time s with
  | error f => rfl
  | ok a =>
    rw [hreshuffle] at hinterval
    have hnow : intervenes cfg s time = intervenes cfg a time := by
      rw [intervenes, intervenes, hinterval.of_ok rfl]
    rw [ok_bind, ok_bind, hnow, Machine.run_append_eq, periodicBase, ← intervene_eq_run]
    refine bind_congr fun b => ?_
    rw [Machine.run_cons]
    exact (bind_pure _).symm

/-- Every event is the run of its small steps. -/
theorem step_eq_run (cfg : Config) (s : Sim) (call : Call) :
    step cfg s call = (fineMachine cfg).run s (fineSteps cfg s call) := by
  have hone : ∀ e : FineStep, (fineMachine cfg).run s [e] = fineStep cfg s e := by
    intro e
    rw [Machine.run_cons]
    exact bind_pure _
  unfold fineSteps
  split
  · rename_i moves dvfs heq
    rw [step, heq]
    exact periodic_eq_run ..
  · rename_i core mhz heq
    rw [step, heq, hone]
    exact (setFrequency_readUInt64 ..).symm
  all_goals rw [hone, fineStep]

end LifeSim.Sched
