import LifeSim.Futex.Correctness

/-!
# The deadlines of waits

The timeout of a wait is a `timespec`, which is turned into femtoseconds in unsigned 64-bit arithmetic. The start of the
emulated clock is subtracted from every timeout, and that is right for the absolute ones only. What becomes of a
deadline afterwards can be read off the log: a periodic call takes a thread out of its queue at the deadline or later.
-/

namespace LifeSim.Futex

open LifeSim.Lib Server

variable {T : Type} [DecidableEq T]

/-- `struct timespec`. -/
structure Timespec where
  sec : ℤ
  nsec : ℤ
  deriving DecidableEq, Repr

/-- The time in femtoseconds. -/
def Timespec.femtoseconds (x : Timespec) : ℤ := x.sec * 10 ^ 15 + x.nsec * 10 ^ 6

/-- `timeout_val`: the words wrap. -/
def timeoutVal (start : ℤ) (x : Timespec) : ℕ := (((x.sec - start) * 10 ^ 15 + x.nsec * 10 ^ 6) % 2 ^ 64).toNat

/-- `FUTEX_WAIT_BITSET` and `FUTEX_WAIT`. -/
def waitCmd (bitset : Bool) : Cmd := if bitset then .waitBitset else .wait

/-- When a wait should be over. The timeout of a bitset wait is a time of the emulated clock, and that of a plain wait is
relative to the present. -/
def due (start : ℤ) (bitset : Bool) (currTime : ℕ) : Option Timespec → ℤ
  | none => maxTime
  | some x => if bitset then x.femtoseconds - start * 10 ^ 15 else currTime + x.femtoseconds

/-- The deadline fits into a word, and the start of the clock does not matter or is no multiple of a word's range away
from zero. -/
def DueFits (start : ℤ) (bitset : Bool) (currTime : ℕ) : Option Timespec → Prop
  | none => True
  | some x => 0 ≤ due start bitset currTime (some x) ∧ due start bitset currTime (some x) < 2 ^ 64 ∧
      (bitset = true ∨ start % 2 ^ 49 = 0)

/-- Which numbers are words. -/
theorem emod_word_eq_iff (x : ℤ) : x % 2 ^ 64 = x ↔ 0 ≤ x ∧ x < 2 ^ 64 := by omega

/-- A second has a factor in common with the range of a word. -/
theorem seconds_emod_word (start : ℤ) : start * 1000000000000000 % 2 ^ 64 = 0 ↔ start % 2 ^ 49 = 0 := by omega

/-- Which deadlines are right. -/
theorem timeoutTime_eq_iff (start : ℤ) (bitset : Bool) (currTime : ℕ) (timeout : Option Timespec) :
    (timeoutTime (waitCmd bitset) (timeout.map (timeoutVal start)) currTime : ℤ) = due start bitset currTime timeout ↔
      DueFits start bitset currTime timeout := by
  cases timeout with
  | none => exact iff_of_true rfl trivial
  | some x =>
    have hval : (timeoutVal start x : ℤ) = (x.femtoseconds - start * 1000000000000000) % 2 ^ 64 := by
      rw [timeoutVal, Int.toNat_of_nonneg (Int.emod_nonneg _ (by norm_num)), Timespec.femtoseconds]
      congr 1
      ring
    have hstart := seconds_emod_word start
    cases bitset with
    | true =>
      have hdue : due start true currTime (some x) = x.femtoseconds - start * 1000000000000000 := by
        rw [due, if_pos rfl]
        norm_num
      change (timeoutVal start x : ℤ) = _ ↔ _
      rw [DueFits, hval, hdue, emod_word_eq_iff]
      tauto
    | false =>
      have hdue : due start false currTime (some x) = currTime + x.femtoseconds := rfl
      change (((currTime + timeoutVal start x) % 2 ^ 64 : ℕ) : ℤ) = _ ↔ _
      have hrange : ((2 ^ 64 : ℕ) : ℤ) = 2 ^ 64 := by norm_num
      rw [DueFits, hdue, Int.natCast_emod, Nat.cast_add, hval, hrange]
      generalize x.femtoseconds = d at *
      generalize start * 1000000000000000 = c at *
      rw [← hstart]
      simp only [Bool.false_eq_true, false_or]
      omega

/-- The thread is put into a queue until a deadline, and no periodic call of any later run takes it out before. -/
structure WaitsUntil (thread : T) (deadline : ℤ) (s s' : Server T) : Prop where
  enqueued : ∃ timeout : ℕ, s'.log = .enqueue thread timeout :: s.log ∧ (timeout : ℤ) = deadline
  kept : ∀ events s'', (machine T).run s' events = .ok s'' → ∀ later between (time : ℕ),
    s''.log = later ++ .timeOut thread time :: (between ++ s'.log) → (∀ e ∈ between, e.thread ≠ thread) →
      deadline ≤ time

/-- A possible history was possible at any time before. -/
theorem follow_suffix {t : T} {r : Round} (later log : List (Entry T)) (h : follow t (later ++ log) = some r) :
    ∃ r', follow t log = some r' := by
  induction later generalizing r with
  | nil => exact ⟨r, h⟩
  | cons e later ih =>
    rw [List.cons_append, follow] at h
    split_ifs at h
    · obtain ⟨r', hr', -⟩ := Option.bind_eq_some_iff.1 h
      exact ih hr'
    · exact ih h

/-- Entries about other threads do not matter. -/
theorem follow_others {t : T} (between log : List (Entry T)) (h : ∀ e ∈ between, e.thread ≠ t) :
    follow t (between ++ log) = follow t log := by
  induction between with
  | nil => rfl
  | cons e between ih =>
    rw [List.cons_append, follow_ne (h e List.mem_cons_self)]
    exact ih fun e' he' => h e' (List.mem_cons_of_mem e he')

/-- A thread that has been put into a queue is not taken out of it before its time. -/
theorem timeOut_after {t : T} {timeout time : ℕ} {later between log : List (Entry T)} {r : Round}
    (h : follow t (later ++ .timeOut t time :: (between ++ .enqueue t timeout :: log)) = some r)
    (hbetween : ∀ e ∈ between, e.thread ≠ t) : timeout ≤ time := by
  obtain ⟨r₁, h₁⟩ := follow_suffix later _ h
  obtain ⟨r₂, h₂⟩ := follow_suffix [.timeOut t time] _ h₁
  have hout := h₁.symm.trans (follow_eq (e := .timeOut t time) rfl h₂)
  replace h₂ := (follow_others between (.enqueue t timeout :: log) hbetween).symm.trans h₂
  obtain ⟨r₃, h₃⟩ := follow_suffix [.enqueue t timeout] _ h₂
  have hin := h₂.symm.trans (follow_eq (e := .enqueue t timeout) rfl h₃)
  cases r₃ with
  | outside =>
    cases hin
    by_contra hlate
    simp [Round.next, hlate] at hout
  | queued _ => cases hin
  | removed _ => cases hin
  | asleep => cases hin
  | resumed _ => cases hin

/-- A wait whose value matches puts the thread into a queue. -/
theorem step_wait {s s' : Server T} {thread : T} {bitset : Bool} {args : Args} {currTime : ℕ} {executed : Bool}
    (hstep : step s (.futexCall thread (waitCmd bitset) args currTime executed) = .ok s')
    (hval : args.val = s.memory args.uaddr) :
    s'.log = .enqueue thread (timeoutTime (waitCmd bitset) args.timeout currTime) :: s.log := by
  dsimp only [step] at hstep
  split at hstep
  · cases bitset with
    | true =>
      simp only [waitCmd, if_true, handleFutexCall, futexWait, hval, ne_eq, not_true_eq_false, if_false] at hstep
      rw [← Except.ok.inj hstep]
      rfl
    | false =>
      simp only [waitCmd, Bool.false_eq_true, if_false, handleFutexCall, futexWait, hval, ne_eq, not_true_eq_false]
        at hstep
      rw [← Except.ok.inj hstep]
      rfl
  · cases hstep

/-- For which start of the emulated clock and which timeouts a wait has the right deadline. -/
theorem futex_deadline {cost : ℕ} {memory : ℕ → BitVec 32} {s s' : Server T} (start : ℤ) (thread : T) (bitset : Bool)
    (args : Args) (timeout : Option Timespec) (currTime : ℕ) (executed : Bool)
    (h : (machine T).Reachable (initial cost memory) s)
    (hstep : step s (.futexCall thread (waitCmd bitset) { args with timeout := timeout.map (timeoutVal start) } currTime
      executed) = .ok s')
    (hval : args.val = s.memory args.uaddr) :
    WaitsUntil thread (due start bitset currTime timeout) s s' ↔ DueFits start bitset currTime timeout := by
  have hlog := step_wait hstep hval
  rw [← timeoutTime_eq_iff]
  constructor
  · rintro ⟨⟨deadline, hdeadline, heq⟩, -⟩
    rw [hlog] at hdeadline
    injection hdeadline with hentry _
    injection hentry with _ htimeout
    rw [htimeout, heq]
  · intro heq
    refine ⟨⟨_, hlog, heq⟩, fun events s'' hrun later between time hlog'' hbetween => ?_⟩
    obtain ⟨es, hes⟩ : (machine T).Reachable (initial cost memory) s' := h.step (e := .futexCall thread (waitCmd bitset)
      { args with timeout := timeout.map (timeoutVal start) } currTime executed) hstep
    have hreach : (machine T).Reachable (initial cost memory) s'' := ⟨es ++ events, (machine T).run_append hes hrun⟩
    obtain ⟨r, hr, -⟩ := Inv.of_reachable hreach thread
    rw [hlog'', hlog] at hr
    rw [← heq]
    exact Int.ofNat_le.2 (timeOut_after hr hbetween)

/-- A thread waits for a second from time 5 on, and the emulated clock starts at zero. -/
theorem futex_deadline_second :
    WaitsUntil 1 (due 0 false 5 (some ⟨1, 0⟩)) (initial 0 fun _ => 0#32)
        ((machine ℕ).final (initial 0 fun _ => 0#32)
          [.futexCall 1 .wait ⟨4, 0#32, some (timeoutVal 0 ⟨1, 0⟩), 0#32, 0, 0#32⟩ 5 true]) ↔
      DueFits 0 false 5 (some ⟨1, 0⟩) :=
  futex_deadline 0 1 false ⟨4, 0#32, none, 0#32, 0, 0#32⟩ (some ⟨1, 0⟩) 5 true (Machine.reachable_refl _ _) rfl rfl

/-- If the emulated clock starts at one second, a wait for one second is over at once. -/
theorem relative_deadline_wrong : ¬ ∀ (start : ℤ) (bitset : Bool) (currTime : ℕ) (x : Timespec),
    0 ≤ due start bitset currTime (some x) → due start bitset currTime (some x) < 2 ^ 64 →
    ∀ s' : Server ℕ, step (initial 0 fun _ => 0#32) (.futexCall 1 (waitCmd bitset)
      ⟨4, 0#32, some (timeoutVal start x), 0#32, 0, 0#32⟩ currTime true) = .ok s' →
    WaitsUntil 1 (due start bitset currTime (some x)) (initial 0 fun _ => 0#32) s' := by
  intro h
  obtain ⟨⟨deadline, hdeadline, heq⟩, -⟩ := h 1 false 5 ⟨1, 0⟩ (by decide) (by decide) _ rfl
  injection hdeadline with hentry _
  injection hentry with _ htimeout
  rw [← htimeout] at heq
  exact absurd heq (by decide)

end LifeSim.Futex
