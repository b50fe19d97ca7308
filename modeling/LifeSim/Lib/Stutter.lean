import Mathlib.Data.Set.Basic
import Mathlib.Logic.Function.Iterate

/-!
# Two machines that show the same

Two deterministic machines may take different numbers of steps for the same work. If every step of one is matched by some
number of steps of the other, and the related states show the same, then the same things are shown in
the course of both runs.
-/

namespace LifeSim.Lib

variable {σ τ ω : Type*}

/-- Each step of one machine is matched by steps of the other, and related states show the same. -/
structure Stuttering (f : σ → σ) (g : τ → τ) (showLeft : σ → ω) (showRight : τ → ω) (R : σ → τ → Prop) : Prop where
  same : ∀ s t, R s t → showLeft s = showRight t
  left : ∀ s t, R s t → ∃ n, R (f s) (g^[n] t)
  right : ∀ s t, R s t → ∃ n, R (f^[n] s) (g t)

namespace Stuttering

variable {f : σ → σ} {g : τ → τ} {showLeft : σ → ω} {showRight : τ → ω} {R : σ → τ → Prop}

/-- The relation with its sides exchanged. -/
theorem symm (h : Stuttering f g showLeft showRight R) : Stuttering g f showRight showLeft fun t s => R s t where
  same t s hR := (h.same s t hR).symm
  left t s hR := h.right s t hR
  right t s hR := h.left s t hR

/-- Any number of steps is matched. -/
theorem iterate (h : Stuttering f g showLeft showRight R) (n : ℕ) {s : σ} {t : τ} (hR : R s t) :
    ∃ m, R (f^[n] s) (g^[m] t) := by
  induction n generalizing s t with
  | zero => exact ⟨0, hR⟩
  | succ n ih =>
    obtain ⟨k, hk⟩ := h.left s t hR
    obtain ⟨m, hm⟩ := ih hk
    refine ⟨m + k, ?_⟩
    rw [Function.iterate_succ_apply, Function.iterate_add_apply]
    exact hm

/-- What one machine shows, the other one shows. -/
theorem subset (h : Stuttering f g showLeft showRight R) {s : σ} {t : τ} (hR : R s t) :
    Set.range (fun n => showLeft (f^[n] s)) ⊆ Set.range fun n => showRight (g^[n] t) := by
  intro x hx
  obtain ⟨n, rfl⟩ := hx
  obtain ⟨m, hm⟩ := h.iterate n hR
  exact ⟨m, (h.same _ _ hm).symm⟩

/-- Both machines show the same. -/
theorem range_eq (h : Stuttering f g showLeft showRight R) {s : σ} {t : τ} (hR : R s t) :
    Set.range (fun n => showLeft (f^[n] s)) = Set.range fun n => showRight (g^[n] t) :=
  Set.Subset.antisymm (h.subset hR) (h.symm.subset hR)

end Stuttering

/-! ### Machines that may stop -/

/-- Both have stopped with the same fault, or neither has and the states are related. -/
def Agree {φ : Type*} (R : σ → τ → Prop) : Except φ σ → Except φ τ → Prop
  | .ok s, .ok t => R s t
  | .error e, .error e' => e = e'
  | _, _ => False

namespace Agree

variable {φ : Type*} {R : σ → τ → Prop} {x : Except φ σ} {y : Except φ τ}

/-- What is shown of related states agrees. -/
theorem map_eq (h : Agree R x y) {showLeft : σ → ω} {showRight : τ → ω}
    (hsame : ∀ s t, R s t → showLeft s = showRight t) : x.map showLeft = y.map showRight := by
  cases x with
  | ok s =>
    cases y with
    | ok t => exact congrArg Except.ok (hsame s t h)
    | error e => cases h
  | error e =>
    cases y with
    | ok t => cases h
    | error e' => exact congrArg Except.error h

/-- The two ways to agree. -/
theorem cases (h : Agree R x y) : (∃ s t, x = .ok s ∧ y = .ok t ∧ R s t) ∨ ∃ e, x = .error e ∧ y = .error e := by
  cases x with
  | ok s =>
    cases y with
    | ok t => exact .inl ⟨s, t, rfl, rfl, h⟩
    | error e => cases h
  | error e =>
    cases y with
    | ok t => cases h
    | error e' => exact .inr ⟨e, rfl, congrArg Except.error h.symm⟩

end Agree

end LifeSim.Lib
