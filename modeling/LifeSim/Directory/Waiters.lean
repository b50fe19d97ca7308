import LifeSim.Directory.Discipline

/-!
# The misses of one cache

An access that cannot be done in place becomes a waiter. The first waiter sends the request, and a reply wakes the
waiters in order, as far as the line may be read or written. Every one of them is woken once, and finds the line as it
needs it, whatever the directory has done to the line while it waited.
-/

namespace LifeSim.Directory

open LifeSim.Lib DirMsg LlcMsg State

variable {n : ℕ} {V : Type}

/-- The access can be done in place. A write to an `EXCLUSIVE` line upgrades it silently. -/
def CacheState.permits : CacheState → Access V → Bool
  | .shared, .read => true
  | .exclusive, _ => true
  | .modified, _ => true
  | _, _ => false

namespace Llc

/-- The waiters that `wakeWaiters` wakes, each with the state in which it finds the line. -/
def woken : List (Access V) → CacheState → List (Access V × CacheState)
  | [], _ => []
  | .read :: ws, cstate => (.read, cstate) :: woken ws cstate
  | .write v :: ws, cstate =>
    if cstate = .shared then [] else (.write v, cstate) :: woken ws .modified

/-- The waiters that are woken after a reply. -/
def wokenAfter (process : Llc V → Except Fault (Llc V)) (l : Llc V) : List (Access V × CacheState) :=
  match process l with
  | .ok l' => woken l'.waiters l'.cstate
  | .error _ => []

/-- The waiters that a message of the directory wakes. -/
def wokenBy (m : DirMsg V) (l : Llc V) : List (Access V × CacheState) :=
  match m with
  | .shRep d => l.wokenAfter (insertCacheBlock .shared d)
  | .exRep d => l.wokenAfter (insertCacheBlock .exclusive d)
  | .upgradeRep => l.wokenAfter processUpgradeRep
  | .invReq => []
  | .flushReq => []
  | .wbReq => []

/-- A waiter that is woken finds the line as it needs it. -/
theorem permits_of_mem_woken {ws : List (Access V)} {cstate : CacheState}
    (h : cstate = .shared ∨ cstate = .exclusive ∨ cstate = .modified) :
    ∀ w ∈ woken ws cstate, w.2.permits w.1 = true := by
  induction ws generalizing cstate with
  | nil => simp [woken]
  | cons a ws ih =>
    intro w hw
    cases a with
    | read =>
      rcases List.mem_cons.mp hw with rfl | hw
      · rcases h with rfl | rfl | rfl <;> rfl
      · exact ih h w hw
    | write v =>
      rw [woken] at hw
      split at hw
      · cases hw
      · rename_i hne
        rcases List.mem_cons.mp hw with rfl | hw
        · rcases h with rfl | rfl | rfl
          · exact absurd rfl hne
          · rfl
          · rfl
        · exact ih (.inr (.inr rfl)) w hw

/-- After a reply the line can be read. -/
theorem permits_of_mem_wokenBy (m : DirMsg V) (l : Llc V) : ∀ w ∈ l.wokenBy m, w.2.permits w.1 = true := by
  have hinsert : ∀ (cstate : CacheState) (d : Option V), cstate = .shared ∨ cstate = .exclusive →
      ∀ w ∈ l.wokenAfter (insertCacheBlock cstate d), w.2.permits w.1 = true := fun cstate d hc => by
    unfold wokenAfter insertCacheBlock
    split
    · rename_i l' hl
      split at hl
      · cases hl
        exact permits_of_mem_woken (hc.imp_right .inl)
      · cases hl
    · simp
  cases m with
  | shRep d => exact hinsert .shared d (.inl rfl)
  | exRep d => exact hinsert .exclusive d (.inr rfl)
  | upgradeRep =>
    change ∀ w ∈ l.wokenAfter processUpgradeRep, _
    unfold wokenAfter processUpgradeRep
    split
    · rename_i l' hl
      split at hl
      · cases hl
      · cases hl
        exact permits_of_mem_woken (.inr (.inr rfl))
      · cases hl
    · simp
  | invReq => simp [wokenBy]
  | flushReq => simp [wokenBy]
  | wbReq => simp [wokenBy]

end Llc

variable {s s' : State n V} {cfg : Config n}

/-- What becomes a waiter of the cache in a step. -/
def missed (x : Fin n) (s : State n V) : Event n V → List (Access V)
  | .access y a => if y = x then (if (s.llc y).cstate.permits a then [] else [a]) else []
  | _ => []

/-- The waiters of the cache that a step wakes. -/
def woken (x : Fin n) (s : State n V) : Event n V → List (Access V × CacheState)
  | .toLlc y =>
    if y = x then
      match (s.llc y).rx with
      | [] => []
      | m :: rx => ({ s.llc y with rx := rx } : Llc V).wokenBy m
    else []
  | _ => []

/-- A step wakes only waiters that find the line as they need it. -/
theorem permits_of_mem_woken (x : Fin n) (s : State n V) (ev : Event n V) :
    ∀ w ∈ woken x s ev, w.2.permits w.1 = true := by
  cases ev with
  | toLlc y =>
    dsimp only [woken]
    split
    · split
      · simp
      · exact Llc.permits_of_mem_wokenBy _ _
    · simp
  | access y a => simp [woken]
  | evict y => simp [woken]
  | toDir y env => simp [woken]
  | dram => simp [woken]
  | fromDram env => simp [woken]
  | nullify y env => simp [woken]
  | evictNuca => simp [woken]

end LifeSim.Directory
