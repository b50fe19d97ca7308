import Mathlib.Data.List.Basic
import Mathlib.Data.List.GetD

/-!
# Lists with one changed place

`List.modify` as assignment to a place of a vector: what is read afterwards, and how the number of members
that meet a test changes.
-/

namespace LifeSim.Lib

variable {α : Type*} {f : α → α} {l : List α} {i : ℕ} {a d : α}

/-- Reading a place of a changed list. -/
theorem getD_modify {j : ℕ} (hj : j < l.length) :
    (l.modify i f).getD j d = if j = i then f (l.getD j d) else l.getD j d := by
  simp only [List.getD_eq_getElem?_getD, List.getElem?_modify, List.getElem?_eq_getElem hj]
  by_cases h : i = j
  · simp [h]
  · simp [h, Ne.symm h]

/-- How a count changes with one place. -/
theorem countP_modify {p : α → Bool} (hi : l[i]? = some a) :
    (l.modify i f).countP p + (if p a then 1 else 0) = l.countP p + (if p (f a) then 1 else 0) := by
  obtain ⟨hlt, rfl⟩ := List.getElem?_eq_some_iff.1 hi
  induction l generalizing i with
  | nil => exact absurd hlt (Nat.not_lt_zero i)
  | cons b l ih =>
    cases i with
    | zero =>
      simp only [List.modify_zero_cons, List.countP_cons, List.getElem_cons_zero]
      omega
    | succ i =>
      have hlt' : i < l.length := Nat.lt_of_succ_lt_succ hlt
      have hrest := ih hlt' (List.getElem?_eq_getElem hlt')
      simp only [List.modify_succ_cons, List.countP_cons, List.getElem_cons_succ]
      omega

/-- A change that the test does not see. -/
theorem countP_modify_of_eq {p : α → Bool} (hf : ∀ b, p (f b) = p b) : (l.modify i f).countP p = l.countP p := by
  induction l generalizing i with
  | nil => simp
  | cons b l ih => cases i <;> simp [List.countP_cons, hf, ih]

/-- A change that a function does not see. -/
theorem map_modify_of_eq {β : Type*} {g : α → β} (hf : ∀ b, g (f b) = g b) (l : List α) (i : ℕ) :
    (l.modify i f).map g = l.map g := by
  induction l generalizing i with
  | nil => simp
  | cons b l ih => cases i <;> simp [hf, ih]

/-- An assignment that a function does not see. -/
theorem map_set_of_eq {β : Type*} {g : α → β} {b : α} (hi : l[i]? = some a) (hg : g b = g a) :
    (l.set i b).map g = l.map g := by
  obtain ⟨hlt, rfl⟩ := List.getElem?_eq_some_iff.1 hi
  rw [List.map_set, hg]
  conv_rhs => rw [← List.set_getElem_self hlt, List.map_set]

/-- A change that leaves its place as it is. -/
theorem modify_of_eq_self (hi : l[i]? = some a) (hf : f a = a) : l.modify i f = l := by
  apply List.ext_getElem?
  intro j
  rw [List.getElem?_modify]
  split_ifs with hij
  · rw [← hij, hi]
    exact congrArg some hf
  · exact id_map _

/-- How the number of occurrences in all members changes with one of them. -/
theorem count_flatMap_modify {β : Type*} [DecidableEq β] {g : α → List β} (hi : l[i]? = some a) (b : β) :
    ((l.modify i f).flatMap g).count b + (g a).count b = (l.flatMap g).count b + (g (f a)).count b := by
  induction l generalizing i with
  | nil => cases hi
  | cons c l ih =>
    cases i with
    | zero =>
      rw [List.getElem?_cons_zero, Option.some.injEq] at hi
      rw [List.modify_zero_cons, List.flatMap_cons, List.flatMap_cons, List.count_append, List.count_append, hi]
      omega
    | succ i =>
      have hrest := ih hi
      rw [List.modify_succ_cons, List.flatMap_cons, List.flatMap_cons, List.count_append, List.count_append]
      omega

/-- What holds of all members, when the change keeps it. -/
theorem forall_mem_modify {P : α → Prop} (hf : ∀ b, P b → P (f b)) (h : ∀ b ∈ l, P b) : ∀ b ∈ l.modify i f, P b := by
  intro b hb
  obtain ⟨j, hj⟩ := List.mem_iff_getElem?.1 hb
  rw [List.getElem?_modify] at hj
  obtain ⟨c, hc, rfl⟩ := Option.map_eq_some_iff.1 hj
  have hP := h c (List.mem_of_getElem? hc)
  split
  · exact hf c hP
  · exact hP

end LifeSim.Lib
