import LifeSim.Sync.Correctness

/-!
# Trying to lock

Whether a mutex is locked is decided twice. For `SimMutex::isLocked` a mutex is free for its owner, for
`SimMutex::lock` it is not. So a trylock of the owner gets past the first test, and the second one queues the owner up
behind itself. All other trylocks do what they should.
-/

set_option linter.unusedSectionVars false

namespace LifeSim.Sync

open LifeSim.Lib

variable {M C T : Type*} [DecidableEq M] [DecidableEq C] [DecidableEq T]

/-- The second component of what `SyncServer::mutexLock` returns. -/
def mutexLockResult (s : Server M C T) (thread : T) (mux : M) (tryLock : Bool) : Bool :=
  !(tryLock && isLocked (getMutex s mux) thread)

/-- What a trylock has to leave behind. -/
structure TryLock (s : Server M C T) (thread : T) (mux : M) (s' : Server M C T) : Prop where
  running : s'.stalled thread = none
  mutexWaiting : ∀ m, (getMutex s' m).waiting = (getMutex s m).waiting
  condWaiting : ∀ c, getCond s' c = getCond s c
  result : mutexLockResult s thread mux true = true ↔
    (getMutex s mux).owner ≠ some thread ∧ (getMutex s' mux).owner = some thread
  failed : mutexLockResult s thread mux true = false → ∀ m, getMutex s' m = getMutex s m

/-- The call does what it should if it is a trylock. -/
def TryLocks (s : Server M C T) : Call M C T → Prop
  | .mutexLock thread mux true time => ∀ s', step s (.mutexLock thread mux true time) = .ok s' → TryLock s thread mux s'
  | _ => True

/-- The call is no trylock of the owner. -/
def NotByOwner (s : Server M C T) : Call M C T → Prop
  | .mutexLock thread mux true _ => s.stalled thread = none → (getMutex s mux).owner ≠ some thread
  | _ => True

section

variable {s : Server M C T} {thread : T} {mux : M}

/-- The owner of a free mutex is the thread that locks it. -/
theorem TryLock.of_free (hrunning : s.stalled thread = none) (hfree : (getMutex s mux).owner = none) (time : ℕ) :
    TryLock s thread mux (mutexLock s thread mux true time) := by
  have hunlocked : isLocked (getMutex s mux) thread = false := by rw [isLocked, hfree]
  have hlock : mutexLock s thread mux true time =
      record (setMutex s mux { getMutex s mux with owner := some thread }) (.acquire mux thread) := by
    rw [mutexLock, hunlocked, lock, hfree]
    rfl
  have hresult : mutexLockResult s thread mux true = true := by rw [mutexLockResult, hunlocked]; rfl
  have howner : (getMutex (mutexLock s thread mux true time) mux).owner = some thread := by
    rw [hlock, getMutex_record, getMutex_setMutex, if_pos rfl]
  have hne : (getMutex s mux).owner ≠ some thread := by
    rw [hfree]
    exact (Option.some_ne_none thread).symm
  rw [hlock] at howner ⊢
  exact
    { running := hrunning
      mutexWaiting := fun m => by
        rw [getMutex_record, getMutex_setMutex]
        split_ifs with hm
        · rw [hm]
        · rfl
      condWaiting := fun _ => rfl
      result := iff_of_true hresult ⟨hne, howner⟩
      failed := fun hfailed => absurd (hfailed.symm.trans hresult) Bool.false_ne_true }

/-- While another thread owns the mutex nothing changes. -/
theorem TryLock.of_locked (hrunning : s.stalled thread = none) (hlocked : isLocked (getMutex s mux) thread = true)
    (time : ℕ) : TryLock s thread mux (mutexLock s thread mux true time) := by
  have hsame : mutexLock s thread mux true time = s := by rw [mutexLock, hlocked]; rfl
  have hresult : mutexLockResult s thread mux true = false := by rw [mutexLockResult, hlocked]; rfl
  rw [hsame]
  exact
    { running := hrunning
      mutexWaiting := fun _ => rfl
      condWaiting := fun _ => rfl
      result := by
        rw [hresult]
        exact iff_of_false Bool.false_ne_true fun h => h.1 h.2
      failed := fun _ _ => rfl }

/-- The owner is stalled. -/
theorem mutexLock_owner_stalled (howner : (getMutex s mux).owner = some thread) (time : ℕ) :
    (mutexLock s thread mux true time).stalled thread = some .mutex := by
  have hunlocked : isLocked (getMutex s mux) thread = false := by
    rw [isLocked, howner]
    exact bne_self_eq_false thread
  rw [mutexLock, hunlocked, lock, howner]
  exact Function.update_self ..

/-- A running thread's trylock does what it should exactly when the thread is not the owner. -/
theorem tryLock_iff (hrunning : s.stalled thread = none) (time : ℕ) :
    TryLock s thread mux (mutexLock s thread mux true time) ↔ (getMutex s mux).owner ≠ some thread := by
  constructor
  · intro h howner
    have hrun := h.running
    rw [mutexLock_owner_stalled howner] at hrun
    cases hrun
  · intro hne
    cases howner : (getMutex s mux).owner with
    | none => exact .of_free hrunning howner time
    | some owner =>
      have hother : owner ≠ thread := by
        rintro rfl
        exact hne howner
      refine .of_locked hrunning ?_ time
      rw [isLocked, howner]
      exact bne_iff_ne.2 hother

end

theorem tryLocks_iff (s : Server M C T) (call : Call M C T) : TryLocks s call ↔ NotByOwner s call := by
  cases call with
  | mutexLock thread mux tryLock time =>
    cases tryLock with
    | false => exact Iff.rfl
    | true =>
      cases hstalled : s.stalled thread with
      | some reason =>
        have hrefused : step s (.mutexLock thread mux true time) = .error .callerStalled := by
          rw [step, Call.caller, hstalled]
          rfl
        refine iff_of_true (fun s' hs' => ?_) fun hrunning => ?_
        · rw [hrefused] at hs'
          cases hs'
        · rw [hstalled] at hrunning
          cases hrunning
      | none =>
        have hstep : step s (.mutexLock thread mux true time) = .ok (mutexLock s thread mux true time) := by
          rw [step, Call.caller, hstalled]
          rfl
        rw [TryLocks, NotByOwner, hstep, imp_iff_right hstalled, ← tryLock_iff hstalled time]
        exact ⟨fun h => h _ rfl, fun h s' hs' => Except.ok.inj hs' ▸ h⟩
  | mutexUnlock | condWait | condSignal | condBroadcast => exact Iff.rfl

/-- In a run of any number of threads every trylock does what it should exactly when none is made by the owner of the
mutex. -/
theorem trylock_exact (cost : ℕ) (calls : List (Call M C T)) :
    (machine M C T).Guarded TryLocks (initial cost) calls ↔ (machine M C T).Guarded NotByOwner (initial cost) calls :=
  (machine M C T).guarded_congr (fun _ _ _ _ _ _ => trivial) (fun s call _ _ => tryLocks_iff s call) trivial
    ((machine M C T).guarded_true _ calls)

/-- A thread that has locked a mutex stalls when it tries to lock it again. -/
theorem owner_trylock_stalls : ¬ ∀ calls : List (Call ℕ ℕ ℕ), (machine ℕ ℕ ℕ).Guarded TryLocks (initial 0) calls := by
  intro h
  have hlocked : (machine ℕ ℕ ℕ).run (initial 0) [.mutexLock 1 0 false 0] =
      .ok (mutexLock (initial 0) 1 0 false 0) := rfl
  have htry := (h ([.mutexLock 1 0 false 0] ++ [.mutexLock 1 0 true 1])).at_event hlocked _ rfl
  have hrunning := htry.running
  cases hrunning

end LifeSim.Sync
