import LifeSim.Lib.Machine
import LifeSim.Rob.Uop

/-!
# The dependency list of a micro-op

The dependencies within the instruction are a range of numbers below the first micro-op of the same type, and the others
are kept in an array. A removal from the middle of the range moves the numbers before it into the array. Then it removes
one occurrence and nothing else, if it succeeds.

It does not succeed when the array has no room for the numbers that move, or when the number is at or above the range
without being in it: the search goes through the whole range then and fails at its end.
-/

namespace LifeSim.Rob

open LifeSim.Lib

namespace DynamicMicroOp

variable {u v : DynamicMicroOp} {n : ℕ}

/-- The dependencies within the instruction. -/
def intraDependencies (u : DynamicMicroOp) : List ℕ :=
  (List.range u.intraInstructionDependencies).map fun k => (u.firstDependency + k) % 2 ^ 64

theorem getDependencies_eq (u : DynamicMicroOp) : u.getDependencies = u.intraDependencies ++ u.dependencies := rfl

@[simp] theorem length_getDependencies (u : DynamicMicroOp) : u.getDependencies.length = u.getDependenciesLength := by
  rw [getDependencies, List.length_append, List.length_map, List.length_range, getDependenciesLength]

theorem firstDependency_lt (u : DynamicMicroOp) : u.firstDependency < 2 ^ 64 := Nat.mod_lt _ (by decide)

/-- Without its first member the range starts one later. -/
theorem firstDependency_pred (hpos : 0 < u.intraInstructionDependencies) (ds : List ℕ) :
    firstDependency { u with dependencies := ds, intraInstructionDependencies := u.intraInstructionDependencies - 1 }
      = (u.firstDependency + 1) % 2 ^ 64 := by
  simp only [firstDependency, sub64]
  omega

/-- The range is its first member and the range without it. -/
theorem intraDependencies_cons (hpos : 0 < u.intraInstructionDependencies) (ds : List ℕ) :
    u.intraDependencies = u.firstDependency ::
      intraDependencies { u with
        dependencies := ds, intraInstructionDependencies := u.intraInstructionDependencies - 1 } := by
  obtain ⟨k, hk⟩ := Nat.exists_eq_succ_of_ne_zero (Nat.ne_of_gt hpos)
  have hfirst := u.firstDependency_lt
  rw [intraDependencies, intraDependencies, firstDependency_pred hpos, hk, List.range_succ_eq_map, List.map_cons,
    List.map_map, Nat.add_zero, Nat.mod_eq_of_lt hfirst]
  refine congrArg _ (List.map_congr_left fun i _ => ?_)
  simp only [Function.comp_apply]
  omega

theorem spill_perm (hpos : 0 < u.intraInstructionDependencies) : u.spill.getDependencies.Perm u.getDependencies := by
  rw [getDependencies_eq u, intraDependencies_cons hpos (u.dependencies ++ [u.firstDependency])]
  rw [getDependencies_eq, spill, ← List.append_assoc]
  exact List.perm_append_singleton _ _

/-- A removal within the instruction removes one occurrence. -/
theorem removeIntra_perm {k : ℕ} (hk : k = u.intraInstructionDependencies) (h : removeIntra n k u = some v) :
    (n :: v.getDependencies).Perm u.getDependencies := by
  induction k generalizing u with
  | zero => cases h
  | succ k ih =>
    have hpos : 0 < u.intraInstructionDependencies := by omega
    rw [removeIntra] at h
    split_ifs at h with hfirst hroom
    · cases h
      rw [getDependencies_eq u, intraDependencies_cons hpos u.dependencies, hfirst]
      exact .refl _
    · have hspill : k = u.spill.intraInstructionDependencies := by
        change k = u.intraInstructionDependencies - 1
        omega
      exact (ih hspill h).trans (spill_perm hpos)

/-- The last member takes the place of one that goes. -/
theorem moveLast_perm {l : List ℕ} {last : ℕ} (hmem : n ∈ l) (hlast : l.getLast? = some last) :
    (n :: (l.set (l.idxOf n) last).dropLast).Perm l := by
  have hlt : l.idxOf n < l.length := List.idxOf_lt_length_iff.2 hmem
  have hne : l.set (l.idxOf n) last ≠ [] := by
    intro hnil
    rw [List.set_eq_nil_iff] at hnil
    rw [hnil] at hmem
    cases hmem
  have hgetLast : (l.set (l.idxOf n) last).getLast hne = last := by
    rw [List.getLast_eq_getElem, List.getElem_set]
    split_ifs
    · rfl
    · rw [List.getLast?_eq_getElem?, List.getElem?_eq_some_iff] at hlast
      obtain ⟨_, hlast⟩ := hlast
      simp only [List.length_set]
      exact hlast
  have hset : (last :: (l.set (l.idxOf n) last).dropLast).Perm (last :: l.eraseIdx (l.idxOf n)) := by
    have hconcat := List.dropLast_append_getLast hne
    rw [hgetLast] at hconcat
    have hperm := (List.perm_append_singleton last (l.set (l.idxOf n) last).dropLast).symm
    rw [hconcat] at hperm
    exact hperm.trans (List.set_perm_cons_eraseIdx hlt last)
  have herase := List.getElem_cons_eraseIdx_perm hlt
  rw [List.getElem_idxOf] at herase
  exact ((List.perm_cons n).2 ((List.perm_cons last).1 hset)).trans herase

/-- A removal that succeeds removes one occurrence and nothing else. -/
theorem removeDependency_perm (h : u.removeDependency n = some v) : (n :: v.getDependencies).Perm u.getDependencies := by
  rw [removeDependency] at h
  split_ifs at h with hle hmem
  · exact removeIntra_perm rfl h
  · split at h
    · cases h
    · rename_i last hlast
      cases h
      rw [getDependencies_eq u]
      exact List.perm_middle.symm.trans (List.Perm.append_left _ (moveLast_perm hmem hlast))

/-- A new dependency comes at the end, unless the array has it. -/
theorem addDependency_perm (h : u.addDependency n = some v) :
    v.getDependencies.Perm u.getDependencies ∨ v.getDependencies.Perm (n :: u.getDependencies) := by
  rw [addDependency] at h
  split_ifs at h
  · cases h
    exact .inl (.refl _)
  · cases h
    refine .inr ?_
    rw [getDependencies_eq, ← List.append_assoc]
    exact List.perm_append_singleton n u.getDependencies

/-- The number is one of those within the instruction, and the array has room for those before it. -/
def IntraRemovable (u : DynamicMicroOp) (n : ℕ) : Prop :=
  ∃ i < u.intraInstructionDependencies, n = (u.firstDependency + i) % 2 ^ 64 ∧
    (i = 0 ∨ u.dependencies.length + i < maximumNumberOfDependencies)

theorem removeIntra_isSome {k : ℕ} (hk : k = u.intraInstructionDependencies) :
    (removeIntra n k u).isSome ↔ u.IntraRemovable n := by
  induction k generalizing u with
  | zero =>
    refine iff_of_false (by simp [removeIntra]) fun hin => ?_
    obtain ⟨i, hi, -⟩ := hin
    omega
  | succ k ih =>
    have hpos : 0 < u.intraInstructionDependencies := by omega
    have hfirst := u.firstDependency_lt
    have hspill : k = u.spill.intraInstructionDependencies := by
      change k = u.intraInstructionDependencies - 1
      omega
    have hlength : u.spill.dependencies.length = u.dependencies.length + 1 := by
      rw [spill, List.length_append, List.length_singleton]
    have hnext : u.spill.firstDependency = (u.firstDependency + 1) % 2 ^ 64 := firstDependency_pred hpos _
    rw [removeIntra]
    split_ifs with hn hroom
    · refine iff_of_true rfl ⟨0, hpos, ?_, .inl rfl⟩
      rw [Nat.add_zero, Nat.mod_eq_of_lt hfirst, hn]
    · rw [ih hspill]
      constructor
      · rintro ⟨i, hi, hni, hfits⟩
        refine ⟨i + 1, by omega, ?_, .inr (by omega)⟩
        rw [hni, hnext]
        omega
      · rintro ⟨i, hi, hni, hfits⟩
        cases i with
        | zero =>
          rw [Nat.add_zero, Nat.mod_eq_of_lt hfirst] at hni
          exact absurd hni hn
        | succ i =>
          refine ⟨i, by omega, ?_, .inr (by omega)⟩
          rw [hni, hnext]
          omega
    · refine iff_of_false (by simp) fun hin => ?_
      obtain ⟨i, hi, hni, hfits⟩ := hin
      rcases hfits with rfl | hfits
      · rw [Nat.add_zero, Nat.mod_eq_of_lt hfirst] at hni
        exact hn hni
      · have hi : i ≠ 0 := by
          rintro rfl
          rw [Nat.add_zero, Nat.mod_eq_of_lt hfirst] at hni
          exact hn hni
        omega

/-- A number from the start of the range on is within the instruction and there is room for those before it, and
a number below is in the array. -/
def Removable (u : DynamicMicroOp) (n : ℕ) : Prop :=
  if u.firstDependency ≤ n then u.IntraRemovable n else n ∈ u.dependencies

theorem removeDependency_isSome : (u.removeDependency n).isSome ↔ u.Removable n := by
  rw [removeDependency, Removable]
  split_ifs with hle hmem
  · exact removeIntra_isSome rfl
  · refine iff_of_true ?_ hmem
    cases hlast : u.dependencies.getLast? with
    | none =>
      rw [List.getLast?_eq_none_iff] at hlast
      rw [hlast] at hmem
      cases hmem
    | some last => rfl
  · exact iff_of_false (by simp) hmem

end DynamicMicroOp

/-! ### Sequences of calls -/

/-- A call on the list. -/
inductive ListCall
  | add (n : ℕ)
  | remove (n : ℕ)
  deriving DecidableEq, Repr

/-- The list as a machine, which stops at a failed assertion. -/
def dependencyList : Machine DynamicMicroOp ListCall Unit where
  step u call :=
    match (match call with
      | .add n => u.addDependency n
      | .remove n => u.removeDependency n) with
    | some v => .ok v
    | none => .error ()

/-- Only earlier numbers are added and only members are removed. -/
def Allowed (u : DynamicMicroOp) : ListCall → Prop
  | .add n => n < u.sequenceNumber
  | .remove n => n ∈ u.getDependencies

/-- A removal succeeds and removes one occurrence and nothing else, and an addition adds one occurrence or none. -/
def Exact (u : DynamicMicroOp) : ListCall → Prop
  | .add n => ∀ v, u.addDependency n = some v →
    v.getDependencies.Perm u.getDependencies ∨ v.getDependencies.Perm (n :: u.getDependencies)
  | .remove n => ∃ v, u.removeDependency n = some v ∧ (n :: v.getDependencies).Perm u.getDependencies

/-- The number can be removed. -/
def Fits (u : DynamicMicroOp) : ListCall → Prop
  | .add _ => True
  | .remove n => u.Removable n

/-- Which calls do what they should. -/
theorem exact_iff (u : DynamicMicroOp) (call : ListCall) : Exact u call ↔ Fits u call := by
  cases call with
  | add n => exact iff_of_true (fun v hv => DynamicMicroOp.addDependency_perm hv) trivial
  | remove n =>
    rw [Fits, ← DynamicMicroOp.removeDependency_isSome]
    constructor
    · rintro ⟨v, hv, -⟩
      rw [hv]
      rfl
    · intro hsome
      obtain ⟨v, hv⟩ := Option.isSome_iff_exists.1 hsome
      exact ⟨v, hv, DynamicMicroOp.removeDependency_perm hv⟩

/-- Every call of a sequence does what it should exactly when each number that is removed can be. -/
theorem dependencyList_exact (u : DynamicMicroOp) (calls : List ListCall) :
    dependencyList.Guarded Exact u calls ↔ dependencyList.Guarded Fits u calls :=
  dependencyList.guarded_congr (fun _ _ _ _ _ _ => trivial) (fun u call _ _ => exact_iff u call) trivial
    (dependencyList.guarded_true u calls)

/-- The micro-op that computes in a gather instruction of sixteen loads. -/
def gatherExecute : DynamicMicroOp :=
  { DynamicMicroOp.plain with intraInstructionDependencies := 16, sequenceNumber := 16 }

/-- If the last load of a gather instruction issues first, there is no room for the others. -/
theorem gather_not_exact :
    ¬ ∀ (u : DynamicMicroOp) (calls : List ListCall), dependencyList.Guarded Allowed u calls →
      dependencyList.Guarded Exact u calls := by
  intro h
  have hallowed : dependencyList.Guarded Allowed gatherExecute [.remove 15] := by
    refine ⟨?_, fun _ _ => trivial⟩
    change 15 ∈ gatherExecute.getDependencies
    decide
  obtain ⟨v, hv, -⟩ := (h gatherExecute [.remove 15] hallowed).1
  have hnone : gatherExecute.removeDependency 15 = none := by rfl
  rw [hnone] at hv
  cases hv

end LifeSim.Rob
