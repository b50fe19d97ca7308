import LifeSim.Lib.Checked

/-!
# Machines that answer

A machine whose steps return a new state and an answer, or stop with a fault. One machine refines another one if a
relation between their states is kept and the answers are the same, whenever the other one does not stop.
-/

namespace LifeSim.Lib

/-- A machine is its one-step function. -/
structure Transducer (σ ε ω φ : Type*) where
  step : σ → ε → Except φ (σ × ω)

namespace Transducer

variable {σ τ ε ω φ ψ : Type*}

/-- The answers to a list of inputs, up to the first fault. -/
def run (M : Transducer σ ε ω φ) : σ → List ε → Except φ (σ × List ω)
  | s, [] => .ok (s, [])
  | s, e :: es => match M.step s e with
    | .ok (t, a) => match M.run t es with
      | .ok (u, as) => .ok (u, a :: as)
      | .error f => .error f
    | .error f => .error f

@[simp] theorem run_nil (M : Transducer σ ε ω φ) (s : σ) : M.run s [] = .ok (s, []) := rfl

/-- A run is a first step and a run of the rest. -/
theorem run_cons_ok {M : Transducer σ ε ω φ} {s t u : σ} {e : ε} {es : List ε} {a : ω} {as : List ω}
    (hstep : M.step s e = .ok (t, a)) (hrun : M.run t es = .ok (u, as)) : M.run s (e :: es) = .ok (u, a :: as) := by
  rw [run, hstep]
  dsimp only
  rw [hrun]

theorem exists_of_run_cons {M : Transducer σ ε ω φ} {s u : σ} {e : ε} {es : List ε} {bs : List ω}
    (h : M.run s (e :: es) = .ok (u, bs)) :
    ∃ t a as, M.step s e = .ok (t, a) ∧ M.run t es = .ok (u, as) ∧ bs = a :: as := by
  rw [run] at h
  cases hstep : M.step s e with
  | error f =>
    rw [hstep] at h
    cases h
  | ok p =>
    obtain ⟨t, a⟩ := p
    rw [hstep] at h
    dsimp only at h
    cases hrun : M.run t es with
    | error f =>
      rw [hrun] at h
      cases h
    | ok q =>
      obtain ⟨v, as⟩ := q
      rw [hrun] at h
      cases h
      exact ⟨t, a, as, rfl, hrun, rfl⟩

/-- A relation that every step keeps, with the same answer, every run keeps. -/
theorem run_refines {M : Transducer σ ε ω φ} {N : Transducer τ ε ω ψ} {R : τ → σ → Prop}
    (hstep : ∀ s t e s' a, R t s → M.step s e = .ok (s', a) → ∃ t', N.step t e = .ok (t', a) ∧ R t' s')
    {s s' : σ} {t : τ} {es : List ε} {as : List ω} (hR : R t s) (h : M.run s es = .ok (s', as)) :
    ∃ t', N.run t es = .ok (t', as) ∧ R t' s' := by
  induction es generalizing s t as with
  | nil =>
    cases h
    exact ⟨t, rfl, hR⟩
  | cons e es ih =>
    obtain ⟨u, a, bs, hu, hrest, rfl⟩ := exists_of_run_cons h
    obtain ⟨v, hv, hR'⟩ := hstep s t e u a hR hu
    obtain ⟨t', ht', hR''⟩ := ih hR' hrest
    exact ⟨t', run_cons_ok hv ht', hR''⟩

end Transducer

end LifeSim.Lib
