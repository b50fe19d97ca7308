import LifeSim.Sched.Pins
import LifeSim.Sched.Remapping

/-!
# What a periodic call reads

Under `SchedulerPinned` a periodic call looks up every index of `m_threads_runnable` in `m_thread_info`, and an
intervention reads the entries of the threads it moves and of those it stalls for the broken cores. Where these entries
are there and the records of the placement agree, the call returns.
-/

namespace LifeSim.Sched

open LifeSim.Lib

variable {cfg : Config} {s s' a b : Sim} {t c core time : ℕ} {clock : ℕ → ℕ}

/-- The tables of threads keep their sizes. -/
structure SameTables (s s' : Sim) : Prop where
  numThreads : s'.numThreads = s.numThreads
  runnable : s'.runnable.size = s.runnable.size
  info : s'.info.size = s.info.size

namespace SameTables

theorem refl (s : Sim) : SameTables s s := ⟨rfl, rfl, rfl⟩

theorem trans (h : SameTables s a) (h' : SameTables a b) : SameTables s b :=
  ⟨h'.numThreads.trans h.numThreads, h'.runnable.trans h.runnable, h'.info.trans h.info⟩

theorem of_frame (h : Frame s s') : SameTables s s' := ⟨h.numThreads, by rw [h.runnable], h.info_size⟩

theorem tables (h : SameTables s s') (htables : s.runnable.size ≤ s.info.size) : s'.runnable.size ≤ s'.info.size := by
  rw [h.runnable, h.info]
  exact htables

end SameTables

/-- The lines are between cores that exist, and the threads in the lists of these cores have the entries that are read. -/
def LinesRead (cfg : Config) (s : Sim) (moves : Option (List (ℕ × ℕ))) : Prop :=
  ∀ l, moves = some l → ∀ move ∈ l, move.1 < cfg.numCores ∧ move.2 < cfg.numCores ∧
    ∀ t ∈ s.threadsOnCore move.1, EntryInside s move.2 t

/-- A periodic call reads inside the tables: `m_thread_info` is not the shorter one, and an intervention finds the
entries of the threads it moves and of the threads it stalls. -/
structure PeriodicReads (cfg : Config) (s : Sim) (time : ℕ) (moves : Option (List (ℕ × ℕ))) (dvfs : ℕ → ℤ) : Prop where
  tables : s.runnable.size ≤ s.info.size
  moves : intervenes cfg s time = true → LinesRead cfg s moves
  broken : intervenes cfg s time = true → ∀ core < cfg.numCores, freqInHz (readUInt64 (dvfs core)) = 0 →
    core < s.numThreads ∧ core < s.runnable.size

end LifeSim.Sched
