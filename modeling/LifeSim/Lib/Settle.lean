import Mathlib.Algebra.Order.BigOperators.Group.Finset
import Mathlib.Data.Fintype.Basic
import Mathlib.Data.Prod.Lex
import Mathlib.Order.OrderIsoNat
import LifeSim.Lib.Machine

/-!
# Machines that come to rest

Some events only let a machine do what it still has to do. A measure in a well-founded order that every such
event lowers shows that there is an end to it: no sequence of them goes on for ever, and some sequence leads to a
state in which none is left. For a machine of several components the measure is a sum, of which a step of one component
changes one term.
-/

namespace LifeSim.Lib.Machine

variable {σ ε φ β : Type*} [Preorder β] [WellFoundedLT β] {guard : σ → ε → Prop} {P : σ → Prop}

/-- Guarded events do not go on for ever. -/
theorem not_forever (M : Machine σ ε φ) (measure : σ → β)
    (hstep : ∀ s e s', P s → guard s e → M.step s e = .ok s' → P s' ∧ measure s' < measure s)
    {t : ℕ → σ} (hstart : P (t 0)) :
    ¬ ∀ i, ∃ e, guard (t i) e ∧ M.step (t i) e = .ok (t (i + 1)) := by
  intro h
  have hkept : ∀ i, P (t i) := fun i => by
    induction i with
    | zero => exact hstart
    | succ i ih =>
      obtain ⟨e, hg, he⟩ := h i
      exact (hstep _ e _ ih hg he).1
  have hless : ∀ i, measure (t (i + 1)) < measure (t i) := fun i => by
    obtain ⟨e, hg, he⟩ := h i
    exact (hstep _ e _ (hkept i) hg he).2
  exact not_strictAnti_of_wellFoundedLT (fun i => measure (t i)) (strictAnti_nat_of_succ_lt hless)

/-- Guarded events lead to a state in which there is none. -/
theorem exists_settled (M : Machine σ ε φ) (measure : σ → β)
    (hstep : ∀ s e, P s → guard s e → ∃ s', M.step s e = .ok s' ∧ P s' ∧ measure s' < measure s)
    {s : σ} (hs : P s) : ∃ es s', M.Guarded guard s es ∧ M.run s es = .ok s' ∧ ∀ e, ¬ guard s' e := by
  induction hm : measure s using WellFoundedLT.induction generalizing s with
  | ind b ih =>
    subst hm
    by_cases hg : ∃ e, guard s e
    · obtain ⟨e, hg⟩ := hg
      obtain ⟨t, ht, hkept, hless⟩ := hstep s e hs hg
      obtain ⟨es, s', hes, hrun, hend⟩ := ih _ hless hkept rfl
      refine ⟨e :: es, s', ⟨hg, fun u hu => ?_⟩, ?_, hend⟩
      · rw [ht] at hu
        cases hu
        exact hes
      · rw [run, ht]
        exact hrun
    · exact ⟨[], s, trivial, rfl, fun e he => hg ⟨e, he⟩⟩

end LifeSim.Lib.Machine

namespace LifeSim.Lib

variable {ι α : Type*} [Fintype ι] [DecidableEq ι]

/-- One term of a sum changes. -/
theorem sum_update_add (f : ι → α) (g : α → ℕ) (x : ι) (a : α) :
    ∑ y, g (Function.update f x a y) + g (f x) = ∑ y, g (f y) + g a := by
  have hrest : ∑ y ∈ Finset.univ.erase x, g (Function.update f x a y) = ∑ y ∈ Finset.univ.erase x, g (f y) :=
    Finset.sum_congr rfl fun y hy => by rw [Function.update_of_ne (Finset.ne_of_mem_erase hy)]
  have hnew := Finset.add_sum_erase Finset.univ (fun y => g (Function.update f x a y)) (Finset.mem_univ x)
  have hold := Finset.add_sum_erase Finset.univ (fun y => g (f y)) (Finset.mem_univ x)
  rw [Function.update_self] at hnew
  omega

end LifeSim.Lib
