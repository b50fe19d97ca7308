import Mathlib

/-!
# Assigning jobs to units

Jobs of a few classes are done by units in some number of rounds. A class says which units can do its jobs, and a
unit does one job in each round. By Hall's theorem the jobs can be assigned if no set of classes has more jobs than its
units have rounds, so that only as many inequalities are left as there are sets of classes.
-/

namespace LifeSim.Lib

variable {ι C U : Type*}

/-- Every job has a round and a unit that can do it, of its own. -/
def Assignable (allowed : C → Finset U) (k : ℕ) (cls : ι → C) : Prop :=
  ∃ assign : ι → Fin k × U, Function.Injective assign ∧ ∀ i, (assign i).2 ∈ allowed (cls i)

/-- In one round every job has a unit of its own. -/
theorem assignable_one_iff (allowed : C → Finset U) (cls : ι → C) :
    Assignable allowed 1 cls ↔ ∃ assign : ι → U, Function.Injective assign ∧ ∀ i, assign i ∈ allowed (cls i) := by
  constructor
  · rintro ⟨assign, hinj, hallowed⟩
    refine ⟨fun i => (assign i).2, fun i j hij => hinj ?_, hallowed⟩
    exact Prod.ext (Subsingleton.elim _ _) hij
  · rintro ⟨assign, hinj, hallowed⟩
    exact ⟨fun i => (0, assign i), fun i j hij => hinj (congrArg Prod.snd hij), hallowed⟩

variable [DecidableEq C] [DecidableEq U]

/-- The rounds of the units of some classes. -/
theorem card_biUnion_slots (allowed : C → Finset U) (k : ℕ) (cls : ι → C) (s : Finset ι) :
    (s.biUnion fun i => (Finset.univ : Finset (Fin k)) ×ˢ allowed (cls i)).card =
      k * ((s.image cls).biUnion allowed).card := by
  have hslots : (s.biUnion fun i => (Finset.univ : Finset (Fin k)) ×ˢ allowed (cls i)) =
      Finset.univ ×ˢ (s.image cls).biUnion allowed := by
    ext x
    simp [Finset.mem_biUnion]
  rw [hslots, Finset.card_product, Finset.card_univ, Fintype.card_fin]

/-- Jobs can be assigned when no set of classes has too many of them. -/
theorem assignable_iff [Fintype ι] (allowed : C → Finset U) (k : ℕ) (cls : ι → C) :
    Assignable allowed k cls ↔
      ∀ S : Finset C, (Finset.univ.filter fun i => cls i ∈ S).card ≤ k * (S.biUnion allowed).card := by
  have hhall := Finset.all_card_le_biUnion_card_iff_exists_injective
    fun i => (Finset.univ : Finset (Fin k)) ×ˢ allowed (cls i)
  simp only [Finset.mem_product, Finset.mem_univ, true_and, card_biUnion_slots] at hhall
  rw [Assignable, ← hhall]
  constructor
  · intro h S
    refine (h _).trans (Nat.mul_le_mul_left k (Finset.card_le_card ?_))
    apply Finset.biUnion_subset_biUnion_of_subset_left
    intro c hc
    obtain ⟨i, hi, rfl⟩ := Finset.mem_image.1 hc
    exact (Finset.mem_filter.1 hi).2
  · intro h s
    refine le_trans (Finset.card_le_card fun i hi => ?_) (h (s.image cls))
    exact Finset.mem_filter.2 ⟨Finset.mem_univ i, Finset.mem_image_of_mem cls hi⟩

/-- Jobs that are given by their numbers. -/
theorem assignable_sigma_iff [Fintype C] (allowed : C → Finset U) (k : ℕ) (count : C → ℕ) :
    Assignable allowed k (Sigma.fst : (Σ c, Fin (count c)) → C) ↔
      ∀ S : Finset C, ∑ c ∈ S, count c ≤ k * (S.biUnion allowed).card := by
  have hcard (S : Finset C) :
      (Finset.univ.filter fun i : Σ c, Fin (count c) => i.1 ∈ S).card = ∑ c ∈ S, count c := by
    have hsigma : (Finset.univ.filter fun i : Σ c, Fin (count c) => i.1 ∈ S) = S.sigma fun _ => Finset.univ := by
      ext i
      simp
    rw [hsigma, Finset.card_sigma]
    simp
  simp only [assignable_iff, hcard]

/-- How many members of a list meet a test. -/
theorem card_filter_get {α : Type*} (p : α → Prop) [DecidablePred p] (l : List α) :
    (Finset.univ.filter fun i : Fin l.length => p (l.get i)).card = l.countP p := by
  induction l with
  | nil => rfl
  | cons a l ih =>
    change (Finset.univ.filter fun i : Fin (l.length + 1) => p ((a :: l).get i)).card = _
    rw [Fin.card_filter_univ_succ, List.countP_cons, ← ih]
    by_cases ha : p a
    · have hhead : p ((a :: l).get (0 : Fin (l.length + 1))) := ha
      rw [if_pos hhead, if_pos (decide_eq_true ha)]
      rfl
    · have hhead : ¬ p ((a :: l).get (0 : Fin (l.length + 1))) := ha
      rw [if_neg hhead, if_neg (by simpa using ha)]
      rfl

/-- Jobs that are the members of a list. -/
theorem assignable_list_iff {α : Type*} (allowed : C → Finset U) (k : ℕ) (cls : α → C) (l : List α) :
    Assignable allowed k (fun i : Fin l.length => cls (l.get i)) ↔
      ∀ S : Finset C, (l.countP fun a => cls a ∈ S) ≤ k * (S.biUnion allowed).card := by
  have hcard (S : Finset C) := card_filter_get (fun a => cls a ∈ S) l
  simp only [assignable_iff, hcard]

end LifeSim.Lib
