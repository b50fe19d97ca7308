import Mathlib.Data.List.Basic
import Mathlib.Logic.Function.Basic

/-!
# Event-driven machines with failing checks

A machine reads events one at a time. An event either leads to a new state or is refused
with a fault: a failed assertion, an access outside a table, or an event the environment
is not allowed to issue. A run is a list of events, and it stops at the first fault.

The rules below turn a fact about one step into a fact about whole runs. The guarded form
restricts the events of a run by a condition on the state before each step.
-/

namespace LifeSim.Lib

variable {σ ε φ : Type*}

/-- A machine is its one-step function; the fault type says why a step is refused. -/
structure Machine (σ ε φ : Type*) where
  step : σ → ε → Except φ σ

namespace Machine

/-- A machine that refuses no event. -/
def always (f : σ → ε → σ) : Machine σ ε Empty := ⟨fun s e => .ok (f s e)⟩

/-- Feed a list of events to the machine, stopping at the first fault. -/
def run (M : Machine σ ε φ) : σ → List ε → Except φ σ
  | s, [] => .ok s
  | s, e :: es => match M.step s e with
    | .ok s' => M.run s' es
    | .error f => .error f

/-- A state is reachable when some finite list of events leads to it. -/
def Reachable (M : Machine σ ε φ) (start s : σ) : Prop :=
  ∃ es, M.run start es = .ok s

/-- Every step of the run starts in a state that meets the condition for its event. -/
def Guarded (M : Machine σ ε φ) (guard : σ → ε → Prop) : σ → List ε → Prop
  | _, [] => True
  | s, e :: es => guard s e ∧ ∀ s', M.step s e = .ok s' → M.Guarded guard s' es

/-- An empty run stays where it is. -/
@[simp] theorem run_nil (M : Machine σ ε φ) (s : σ) : M.run s [] = .ok s := rfl

/-- A run that succeeds has a first state from which the rest succeeds. -/
theorem run_cons_ok (M : Machine σ ε φ) {s s' : σ} {e : ε} {es : List ε}
    (h : M.run s (e :: es) = .ok s') : ∃ t, M.step s e = .ok t ∧ M.run t es = .ok s' := by
  rw [run] at h
  split at h
  · exact ⟨_, by assumption, h⟩
  · cases h

/-- A machine that refuses no event goes through all of them. -/
@[simp] theorem always_run (f : σ → ε → σ) (s : σ) (es : List ε) : (always f).run s es = .ok (es.foldl f s) := by
  induction es generalizing s with
  | nil => rfl
  | cons e es ih => exact ih (f s e)

/-- The first event, then the rest. -/
theorem run_cons {σ : Type} (M : Machine σ ε φ) (s : σ) (e : ε) (es : List ε) :
    M.run s (e :: es) = M.step s e >>= fun t => M.run t es := by
  rw [run]
  cases M.step s e <;> rfl

/-- A run over a concatenation is two runs in sequence. -/
theorem run_append_eq {σ : Type} (M : Machine σ ε φ) (s : σ) (es fs : List ε) :
    M.run s (es ++ fs) = M.run s es >>= fun t => M.run t fs := by
  induction es generalizing s with
  | nil => rfl
  | cons e es ih => simp only [List.cons_append, run_cons, ih, bind_assoc]

/-- A loop whose rounds are steps is a run. -/
theorem run_map {σ ι : Type} (M : Machine σ ε φ) (f : ι → ε) (l : List ι) (s : σ) :
    M.run s (l.map f) = l.foldlM (fun s i => M.step s (f i)) s := by
  induction l generalizing s with
  | nil => rfl
  | cons i l ih => simp only [List.map_cons, run_cons, ih, List.foldlM_cons]

/-- Running two lists one after the other is running their concatenation. -/
theorem run_append (M : Machine σ ε φ) {s t u : σ} {es fs : List ε}
    (hes : M.run s es = .ok t) (hfs : M.run t fs = .ok u) : M.run s (es ++ fs) = .ok u := by
  induction es generalizing s with
  | nil => cases hes; exact hfs
  | cons e es ih =>
    obtain ⟨v, hv, hrest⟩ := M.run_cons_ok hes
    rw [List.cons_append, run, hv]
    exact ih hrest

/-- The state in which a run ends, or its starting state if it stops with a fault. -/
def final (M : Machine σ ε φ) (s : σ) (es : List ε) : σ :=
  match M.run s es with
  | .ok s' => s'
  | .error _ => s

/-- A run without a fault leads to its final state. -/
theorem run_final (M : Machine σ ε φ) {s : σ} {es : List ε} (h : (M.run s es).isOk = true) :
    M.run s es = .ok (M.final s es) := by
  unfold final
  split
  · assumption
  · rename_i heq
    rw [heq] at h
    cases h

/-- The starting state is reachable. -/
theorem reachable_refl (M : Machine σ ε φ) (s : σ) : M.Reachable s s := ⟨[], rfl⟩

/-- One more successful step keeps a state reachable. -/
theorem Reachable.step {M : Machine σ ε φ} {start s s' : σ} {e : ε}
    (h : M.Reachable start s) (he : M.step s e = .ok s') : M.Reachable start s' := by
  obtain ⟨es, hes⟩ := h
  exact ⟨es ++ [e], M.run_append hes (by simp [run, he])⟩

/-- A property kept by every step of a run holds at its end. -/
theorem run_induction (M : Machine σ ε φ) {P : σ → Prop}
    (hstep : ∀ s e s', P s → M.step s e = .ok s' → P s')
    {s s' : σ} {es : List ε} (hs : P s) (h : M.run s es = .ok s') : P s' := by
  induction es generalizing s with
  | nil => cases h; exact hs
  | cons e es ih =>
    obtain ⟨t, ht, hrest⟩ := M.run_cons_ok h
    exact ih (hstep s e t hs ht) hrest

/-- An invariant of the start that every step keeps holds in every reachable state. -/
theorem Reachable.invariant {M : Machine σ ε φ} {P : σ → Prop} {start s : σ}
    (h : M.Reachable start s) (hstart : P start)
    (hstep : ∀ s e s', P s → M.step s e = .ok s' → P s') : P s := by
  obtain ⟨es, hes⟩ := h
  exact M.run_induction hstep hstart hes

/-- The guarded form: the step rule may use the condition that the run meets. -/
theorem guarded_induction (M : Machine σ ε φ) {guard : σ → ε → Prop} {P : σ → Prop}
    (hstep : ∀ s e s', P s → guard s e → M.step s e = .ok s' → P s')
    {s s' : σ} {es : List ε} (hs : P s) (hg : M.Guarded guard s es)
    (h : M.run s es = .ok s') : P s' := by
  induction es generalizing s with
  | nil => cases h; exact hs
  | cons e es ih =>
    obtain ⟨t, ht, hrest⟩ := M.run_cons_ok h
    exact ih (hstep s e t hs hg.1 ht) (hg.2 t ht) hrest

/-- A measure that every step decreases bounds the length of a run. -/
theorem run_length_le (M : Machine σ ε φ) {P : σ → Prop} {p : ε → Prop} (measure : σ → ℕ)
    (hstep : ∀ s e s', P s → p e → M.step s e = .ok s' → P s' ∧ measure s' < measure s)
    {s s' : σ} {es : List ε} (hs : P s) (hp : ∀ e ∈ es, p e) (h : M.run s es = .ok s') :
    es.length + measure s' ≤ measure s := by
  induction es generalizing s with
  | nil =>
    cases h
    exact Nat.le_of_eq (Nat.zero_add _)
  | cons e es ih =>
    obtain ⟨t, ht, hrest⟩ := M.run_cons_ok h
    obtain ⟨hkept, hless⟩ := hstep s e t hs (hp e List.mem_cons_self) ht
    have hle := ih hkept (fun e he => hp e (List.mem_cons_of_mem _ he)) hrest
    rw [List.length_cons]
    omega

/-- A weaker condition. -/
theorem Guarded.mono {M : Machine σ ε φ} {A B : σ → ε → Prop} (himp : ∀ s e, A s e → B s e) {s : σ} {es : List ε}
    (h : M.Guarded A s es) : M.Guarded B s es := by
  induction es generalizing s with
  | nil => exact trivial
  | cons e es ih => exact ⟨himp s e h.1, fun s' hs' => ih (h.2 s' hs')⟩

/-- A run can be shown to be guarded by evaluating it step by step. -/
theorem Guarded.cons_final {M : Machine σ ε φ} {guard : σ → ε → Prop} {s : σ} {e : ε} {es : List ε}
    (hok : (M.run s [e]).isOk = true) (hg : guard s e) (hes : M.Guarded guard (M.final s [e]) es) :
    M.Guarded guard s (e :: es) := by
  refine ⟨hg, fun s' hs' => ?_⟩
  have hrun := M.run_final hok
  rw [run, hs'] at hrun
  cases hrun
  exact hes

/-- Evaluate a decidable condition along a run. -/
def follows (M : Machine σ ε φ) (guard : σ → ε → Bool) : σ → List ε → Bool
  | _, [] => true
  | s, e :: es => guard s e && match M.step s e with
    | .ok s' => M.follows guard s' es
    | .error _ => true

/-- A run whose condition evaluates to true is guarded. -/
theorem Guarded.of_follows {M : Machine σ ε φ} {guard : σ → ε → Bool} {s : σ} {es : List ε}
    (h : M.follows guard s es = true) : M.Guarded (fun s e => guard s e = true) s es := by
  induction es generalizing s with
  | nil => exact trivial
  | cons e es ih =>
    rw [follows, Bool.and_eq_true] at h
    refine ⟨h.1, fun s' hs' => ih ?_⟩
    have hrest := h.2
    rw [hs'] at hrest
    exact hrest

theorem Guarded.of_decide {M : Machine σ ε φ} {guard : σ → ε → Prop} [∀ s e, Decidable (guard s e)] {s : σ}
    {es : List ε} (h : M.follows (fun s e => decide (guard s e)) s es = true) : M.Guarded guard s es :=
  (Guarded.of_follows h).mono fun _ _ => of_decide_eq_true

/-- A run without a certain fault has no step with it. -/
theorem guarded_of_run_ne (M : Machine σ ε φ) {f : φ} {s : σ} {es : List ε} (h : M.run s es ≠ .error f) :
    M.Guarded (fun s e => M.step s e ≠ .error f) s es := by
  induction es generalizing s with
  | nil => exact trivial
  | cons e es ih =>
    rw [run] at h
    refine ⟨fun hstep => ?_, fun t ht => ih ?_⟩
    · rw [hstep] at h
      exact h rfl
    · rw [ht] at h
      exact h

/-- A condition that always holds. -/
theorem guarded_of_forall (M : Machine σ ε φ) {guard : σ → ε → Prop} (h : ∀ s e, guard s e) (s : σ) (es : List ε) :
    M.Guarded guard s es := by
  induction es generalizing s with
  | nil => exact trivial
  | cons e es ih => exact ⟨h s e, fun s' _ => ih s'⟩

theorem guarded_true (M : Machine σ ε φ) (s : σ) (es : List ε) : M.Guarded (fun _ _ => True) s es :=
  M.guarded_of_forall (fun _ _ => trivial) s es

/-- The condition on a run over a concatenation. -/
theorem guarded_append (M : Machine σ ε φ) {guard : σ → ε → Prop} {s : σ} {es fs : List ε} :
    M.Guarded guard s (es ++ fs) ↔
      M.Guarded guard s es ∧ ∀ s', M.run s es = .ok s' → M.Guarded guard s' fs := by
  induction es generalizing s with
  | nil => exact ⟨fun h => ⟨trivial, fun s' hs' => by cases hs'; exact h⟩, fun h => h.2 s rfl⟩
  | cons e es ih =>
    rw [List.cons_append, Guarded, Guarded, and_assoc]
    refine and_congr_right fun _ => ⟨fun h => ⟨fun t ht => (ih.1 (h t ht)).1, fun s' hs' => ?_⟩, fun h t ht => ?_⟩
    · obtain ⟨t, ht, hrest⟩ := M.run_cons_ok hs'
      exact (ih.1 (h t ht)).2 s' hrest
    · refine ih.2 ⟨h.1 t ht, fun s' hs' => h.2 s' ?_⟩
      rw [run, ht]
      exact hs'

/-- A run that meets a condition meets it at each of its events. -/
theorem Guarded.at_event {M : Machine σ ε φ} {guard : σ → ε → Prop} {s s' : σ} {es fs : List ε} {e : ε}
    (h : M.Guarded guard s (es ++ e :: fs)) (hrun : M.run s es = .ok s') : guard s' e :=
  ((M.guarded_append.1 h).2 s' hrun).1

/-- Two conditions on the steps of a run. -/
theorem Guarded.and {M : Machine σ ε φ} {A B : σ → ε → Prop} {s : σ} {es : List ε}
    (hA : M.Guarded A s es) (hB : M.Guarded B s es) : M.Guarded (fun s e => A s e ∧ B s e) s es := by
  induction es generalizing s with
  | nil => exact trivial
  | cons e es ih => exact ⟨⟨hA.1, hB.1⟩, fun s' hs' => ih (hA.2 s' hs') (hB.2 s' hs')⟩

/-- A condition on the events of a run, on top of the one on its steps. -/
theorem Guarded.and_forall {M : Machine σ ε φ} {guard : σ → ε → Prop} {p : ε → Prop} {s : σ} {es : List ε}
    (h : M.Guarded guard s es) (hp : ∀ e ∈ es, p e) : M.Guarded (fun s e => guard s e ∧ p e) s es := by
  induction es generalizing s with
  | nil => exact trivial
  | cons e es ih =>
    refine ⟨⟨h.1, hp e List.mem_cons_self⟩, fun s' hs' => ih (h.2 s' hs') fun e he => ?_⟩
    exact hp e (List.mem_cons_of_mem _ he)

/-- A condition that follows from another one and an invariant, when the invariant is kept as long as the other
condition holds. -/
theorem Guarded.mono_of_kept {M : Machine σ ε φ} {A B : σ → ε → Prop} {P : σ → Prop}
    (hstep : ∀ s e s', P s → A s e → M.step s e = .ok s' → P s') (himp : ∀ s e, P s → A s e → B s e)
    {s : σ} {es : List ε} (hs : P s) (h : M.Guarded A s es) : M.Guarded B s es := by
  induction es generalizing s with
  | nil => exact trivial
  | cons e es ih => exact ⟨himp s e hs h.1, fun s' hs' => ih (hstep s e s' hs h.1 hs') (h.2 s' hs')⟩

/-- Two conditions that agree where another condition and an invariant hold, when the invariant is kept as long as they
hold. -/
theorem guarded_congr_of_kept (M : Machine σ ε φ) {guard A B : σ → ε → Prop} {P : σ → Prop}
    (hstep : ∀ s e s', P s → guard s e → B s e → M.step s e = .ok s' → P s')
    (hiff : ∀ s e, P s → guard s e → (A s e ↔ B s e))
    {s : σ} {es : List ε} (hs : P s) (hg : M.Guarded guard s es) : M.Guarded A s es ↔ M.Guarded B s es := by
  induction es generalizing s with
  | nil => exact Iff.rfl
  | cons e es ih =>
    simp only [Guarded, hiff s e hs hg.1]
    refine and_congr_right fun hB => forall_congr' fun s' => imp_congr_right fun hs' => ?_
    exact ih (hstep s e s' hs hg.1 hB hs') (hg.2 s' hs')

/-- Two conditions that agree where an invariant and another condition hold. -/
theorem guarded_congr (M : Machine σ ε φ) {guard A B : σ → ε → Prop} {P : σ → Prop}
    (hstep : ∀ s e s', P s → guard s e → M.step s e = .ok s' → P s')
    (hiff : ∀ s e, P s → guard s e → (A s e ↔ B s e))
    {s : σ} {es : List ε} (hs : P s) (hg : M.Guarded guard s es) : M.Guarded A s es ↔ M.Guarded B s es :=
  M.guarded_congr_of_kept (fun s e s' hP hguard _ => hstep s e s' hP hguard) hiff hs hg

/-- A machine with a history variable, which every event changes and no step looks at. -/
def withHistory {η : Type*} (M : Machine σ ε φ) (record : η → ε → η) : Machine (σ × η) ε φ :=
  ⟨fun x e => (M.step x.1 e).map fun s => (s, record x.2 e)⟩

theorem withHistory_step_ok {η : Type*} {M : Machine σ ε φ} {record : η → ε → η} {s : σ} {n : η} {e : ε}
    {y : σ × η} : (M.withHistory record).step (s, n) e = .ok y ↔ ∃ s', M.step s e = .ok s' ∧ (s', record n e) = y := by
  rw [withHistory]
  dsimp only
  cases M.step s e with
  | ok s' => simp [Except.map]
  | error f => simp [Except.map]

/-- The history does not change the run. -/
theorem run_withHistory {η : Type*} (M : Machine σ ε φ) (record : η → ε → η) (s : σ) (n : η) (es : List ε) :
    (M.withHistory record).run (s, n) es = (M.run s es).map fun s' => (s', es.foldl record n) := by
  induction es generalizing s n with
  | nil => rfl
  | cons e es ih =>
    have hstep : (M.withHistory record).step (s, n) e = (M.step s e).map fun s' => (s', record n e) := rfl
    rw [run, run, hstep]
    cases M.step s e with
    | ok s' => exact ih s' (record n e)
    | error f => rfl

/-- A fault that no step of a guarded run can have, the run does not have. -/
theorem guarded_run_ne (M : Machine σ ε φ) {guard : σ → ε → Prop} {P : σ → Prop} {f : φ}
    (hstep : ∀ s e s', P s → guard s e → M.step s e = .ok s' → P s')
    (hfault : ∀ s e, P s → guard s e → M.step s e ≠ .error f)
    {s : σ} {es : List ε} (hs : P s) (hg : M.Guarded guard s es) : M.run s es ≠ .error f := by
  induction es generalizing s with
  | nil => nofun
  | cons e es ih =>
    rw [run]
    split
    · rename_i t ht
      exact ih (hstep s e t hs hg.1 ht) (hg.2 t ht)
    · rename_i g hg'
      exact hg' ▸ hfault s e hs hg.1

/-- A guarded run of which no step has a fault. -/
theorem guarded_run_ok (M : Machine σ ε φ) {guard : σ → ε → Prop} {P : σ → Prop}
    (hstep : ∀ s e, P s → guard s e → ∃ s', M.step s e = .ok s' ∧ P s')
    {s : σ} {es : List ε} (hs : P s) (hg : M.Guarded guard s es) : ∃ s', M.run s es = .ok s' ∧ P s' := by
  induction es generalizing s with
  | nil => exact ⟨s, rfl, hs⟩
  | cons e es ih =>
    obtain ⟨t, ht, hkept⟩ := hstep s e hs hg.1
    obtain ⟨s', hrun, hend⟩ := ih hkept (hg.2 t ht)
    refine ⟨s', ?_, hend⟩
    rw [run, ht]
    exact hrun

end Machine

end LifeSim.Lib
