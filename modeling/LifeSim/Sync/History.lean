import LifeSim.Sync.Server

/-!
# Reading the history of the sync server

What an observer can tell from the log alone: who owns a mutex, what a thread is waiting
for and whether it has been signalled, and in which order threads entered and left the
queue of a mutex. These functions read the log newest entry first and never look at the
server.
-/

set_option linter.unusedSectionVars false

namespace LifeSim.Sync

variable {M C T : Type*} [DecidableEq M] [DecidableEq C] [DecidableEq T]

/-- A place where a stalled thread can be queued. -/
inductive Queue (M C : Type*)
  | mutex (mux : M)
  | cond (cond : C)
  deriving DecidableEq, Repr

/-- What a thread waits for: a mutex, or a condition variable and then its mutex. -/
inductive Wait (M C : Type*)
  | mutex (mux : M)
  | cond (cond : C) (mux : M) (signalled : Bool)
  deriving DecidableEq, Repr

/-- The queue a waiting thread has to be in: a signalled thread has moved on to its mutex. -/
def Wait.queue : Wait M C → Queue M C
  | .mutex m => .mutex m
  | .cond c _ false => .cond c
  | .cond _ m true => .mutex m

/-- The mutex a waiting thread will own when its wait is over. -/
def Wait.mux : Wait M C → M
  | .mutex m => m
  | .cond _ m _ => m

/-- The stall reason that goes with a wait. -/
def Wait.reason : Wait M C → StallType
  | .mutex _ => .mutex
  | .cond .. => .cond

/-- A wait may end: a condition wait only after its signal. -/
def Wait.mayEnd : Wait M C → Bool
  | .mutex _ => true
  | .cond _ _ signalled => signalled

/-- The owner of a mutex according to the log. -/
def ownerOf (mux : M) : List (Event M C T) → Option T
  | [] => none
  | .acquire m t :: log => if m = mux then some t else ownerOf mux log
  | .release m _ :: log => if m = mux then none else ownerOf mux log
  | _ :: log => ownerOf mux log

/-- What a thread waits for according to the log. -/
def currentWait (thread : T) : List (Event M C T) → Option (Wait M C)
  | [] => none
  | .enqueue m t :: log =>
    if t = thread then some ((currentWait thread log).getD (.mutex m)) else currentWait thread log
  | .condEnqueue c t m :: log => if t = thread then some (.cond c m false) else currentWait thread log
  | .condDequeue _ t _ :: log =>
    if t = thread then
      (currentWait thread log).map fun
        | .cond c m _ => .cond c m true
        | .mutex m => .mutex m
    else currentWait thread log
  | .resume t _ _ :: log => if t = thread then none else currentWait thread log
  | _ :: log => currentWait thread log

/-- The threads that entered the queue of a mutex, in order. -/
def enqueued (mux : M) : List (Event M C T) → List T
  | [] => []
  | .enqueue m t :: log => if m = mux then enqueued mux log ++ [t] else enqueued mux log
  | _ :: log => enqueued mux log

/-- The threads that left the queue of a mutex as its new owner, in order. -/
def dequeued (mux : M) : List (Event M C T) → List T
  | [] => []
  | .dequeue m t :: log => if m = mux then dequeued mux log ++ [t] else dequeued mux log
  | _ :: log => dequeued mux log

/-- How often a thread was stalled. -/
def stalls (thread : T) : List (Event M C T) → ℕ
  | [] => 0
  | .stall t _ _ :: log => if t = thread then stalls thread log + 1 else stalls thread log
  | _ :: log => stalls thread log

/-- How often a thread was resumed. -/
def resumes (thread : T) : List (Event M C T) → ℕ
  | [] => 0
  | .resume t _ _ :: log => if t = thread then resumes thread log + 1 else resumes thread log
  | _ :: log => resumes thread log

/-- The rules of the history: only a free mutex is acquired, only its owner releases it, a waiting
thread starts no second wait, and a thread is resumed only when its wait may end and it owns the
mutex it waited for. -/
def LogOk : List (Event M C T) → Prop
  | [] => True
  | .acquire m _ :: log => ownerOf m log = none ∧ LogOk log
  | .release m t :: log => ownerOf m log = some t ∧ LogOk log
  | .condEnqueue _ t _ :: log => currentWait t log = none ∧ LogOk log
  | .condDequeue c t _ :: log => (∃ m, currentWait t log = some (.cond c m false)) ∧ LogOk log
  | .resume t _ _ :: log =>
    (∃ w, currentWait t log = some w ∧ w.mayEnd ∧ ownerOf w.mux log = some t) ∧ LogOk log
  | _ :: log => LogOk log

/-- How often a thread stands in a queue of the server. -/
def occurrences (s : Server M C T) (thread : T) : Queue M C → ℕ
  | .mutex m => (getMutex s m).waiting.count thread
  | .cond c => ((getCond s c).map CondWaiter.thread).count thread

/-- Storing a mutex changes that mutex only. -/
@[simp] theorem getMutex_setMutex (s : Server M C T) (m m' : M) (x : SimMutex T) :
    getMutex (setMutex s m x) m' = if m' = m then x else getMutex s m' := by
  by_cases h : m' = m
  · subst h; simp [getMutex, setMutex]
  · simp [getMutex, setMutex, h]

/-- Storing a condition variable changes that one only. -/
@[simp] theorem getCond_setCond (s : Server M C T) (c c' : C) (q : List (CondWaiter M T)) :
    getCond (setCond s c q) c' = if c' = c then q else getCond s c' := by
  by_cases h : c' = c
  · subst h; simp [getCond, setCond]
  · simp [getCond, setCond, h]

@[simp] theorem getCond_setMutex (s : Server M C T) (m : M) (x : SimMutex T) (c : C) :
    getCond (setMutex s m x) c = getCond s c := rfl

@[simp] theorem getMutex_setCond (s : Server M C T) (c : C) (q : List (CondWaiter M T)) (m : M) :
    getMutex (setCond s c q) m = getMutex s m := rfl

@[simp] theorem getMutex_record (s : Server M C T) (e : Event M C T) (m : M) :
    getMutex (record s e) m = getMutex s m := rfl

@[simp] theorem getCond_record (s : Server M C T) (e : Event M C T) (c : C) :
    getCond (record s e) c = getCond s c := rfl

@[simp] theorem getMutex_stallThread (s : Server M C T) (t : T) (r : StallType) (n : ℕ) (m : M) :
    getMutex (stallThread s t r n) m = getMutex s m := rfl

@[simp] theorem getCond_stallThread (s : Server M C T) (t : T) (r : StallType) (n : ℕ) (c : C) :
    getCond (stallThread s t r n) c = getCond s c := rfl

@[simp] theorem getMutex_resumeThread (s : Server M C T) (t b : T) (n : ℕ) (m : M) :
    getMutex (resumeThread s t b n) m = getMutex s m := rfl

@[simp] theorem getCond_resumeThread (s : Server M C T) (t b : T) (n : ℕ) (c : C) :
    getCond (resumeThread s t b n) c = getCond s c := rfl

@[simp] theorem log_record (s : Server M C T) (e : Event M C T) : (record s e).log = e :: s.log := rfl

@[simp] theorem log_setMutex (s : Server M C T) (m : M) (x : SimMutex T) : (setMutex s m x).log = s.log := rfl

@[simp] theorem log_setCond (s : Server M C T) (c : C) (q : List (CondWaiter M T)) :
    (setCond s c q).log = s.log := rfl

@[simp] theorem log_stallThread (s : Server M C T) (t : T) (r : StallType) (n : ℕ) :
    (stallThread s t r n).log = .stall t r n :: s.log := rfl

@[simp] theorem log_resumeThread (s : Server M C T) (t b : T) (n : ℕ) :
    (resumeThread s t b n).log = .resume t b n :: s.log := rfl

@[simp] theorem stalled_record (s : Server M C T) (e : Event M C T) : (record s e).stalled = s.stalled := rfl

@[simp] theorem stalled_setMutex (s : Server M C T) (m : M) (x : SimMutex T) :
    (setMutex s m x).stalled = s.stalled := rfl

@[simp] theorem stalled_setCond (s : Server M C T) (c : C) (q : List (CondWaiter M T)) :
    (setCond s c q).stalled = s.stalled := rfl

@[simp] theorem stalled_stallThread (s : Server M C T) (t : T) (r : StallType) (n : ℕ) :
    (stallThread s t r n).stalled = Function.update s.stalled t (some r) := rfl

@[simp] theorem stalled_resumeThread (s : Server M C T) (t b : T) (n : ℕ) :
    (resumeThread s t b n).stalled = Function.update s.stalled t none := rfl

end LifeSim.Sync
