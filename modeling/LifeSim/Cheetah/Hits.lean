import LifeSim.Cheetah.Count

/-!
# All caches at once

The trees start with values that no line of a program is expected to have as its tag. What stands in front of them in the
stacks are the lines that have been used. The counts are then those of the caches themselves, each with its own sets.
-/

namespace LifeSim.Cheetah

open LifeSim.Lib LifeSim.Lib.Levels

variable {p : Params}

section Access

variable {order : ℕ → List ℕ} {s : Saclru}

/-- The root has the first tags of the stack. -/
theorem stackRows_root (order : ℕ → List ℕ) (set : ℕ) : stackRows p order set 0 0 = (order set).take p.twoPwrN := by
  have hall : tagLevels.members (order set) 0 0 = order set := by
    apply List.filter_eq_self.2
    intro tag _
    simp [tagLevels, Nat.mod_one]
  have hroot : stackRows p order set 0 0 = (tagLevels.members (order set) 0 0).take p.twoPwrN := rfl
  rw [hroot, hall]

theorem exists_cons_of_take {x : ℕ} {l rest : List ℕ} {m : ℕ} (h : x :: rest = l.take (m + 1)) :
    ∃ rest', l = x :: rest' := by
  cases l with
  | nil => simp at h
  | cons y l =>
    rw [List.take_succ_cons, List.cons.injEq] at h
    exact ⟨l, by rw [h.1]⟩

namespace Saclru

/-- The hits at a place, with those of the line used last. -/
def total (s : Saclru) (j i : ℕ) : ℕ := s.sacHits j i + if j = 0 then s.hitarr0 else 0

/-- An access changes one stack, and counts a hit at the place of its tag. -/
theorem sacnmulWoarr_spec (hrep : Represents p s.arr (stackRows p order)) (hfull : ∀ set, Full p (order set))
    (addr : BitVec 64) :
    Represents p (s.sacnmulWoarr p addr).arr
        (stackRows p (touched order (p.setNo (p.line addr)) (p.origTag (p.line addr)))) ∧
      ∀ j < p.twoPwrN, ∀ i ≤ p.maxDepth, (s.sacnmulWoarr p addr).total j i = s.total j i +
        if j = place (p.origTag (p.line addr)) i (order (p.setNo (p.line addr))) then 1 else 0 := by
  have hset : p.setNo (p.line addr) < 2 ^ p.A := by
    unfold Params.setNo Params.setMask
    rw [mask_eq_mod]
    exact Nat.mod_lt _ (Nat.two_pow_pos _)
  generalize hx : p.origTag (p.line addr) = x
  generalize hset' : p.setNo (p.line addr) = set at hset ⊢
  have hrow := hrep set hset 0 (Nat.zero_le _) 0 (Nat.one_pos)
  have hlength : (stackRows p order set 0 0).length = p.twoPwrN := length_heldBy (x := 0) (hfull set) (Nat.zero_le _)
  have hpos : 0 < p.twoPwrN := Nat.two_pow_pos _
  have hstart : rowPtr p set 0 0 = p.arrPtr set := by simp [rowPtr, Params.entry]
  have hcount := hrow.count
  have hslots := hrow.slots
  have hone : s.arr (rowPtr p set 0 0) = 1 := by omega
  simp only [sacnmulWoarr, hx, hset']
  by_cases hfast : s.arr (p.arrPtr set + 1) = x
  · simp only [hfast, if_true]
    obtain ⟨rest, hrest⟩ : ∃ rest, order set = x :: rest := by
      obtain ⟨m, hm⟩ := Nat.exists_eq_succ_of_ne_zero hpos.ne'
      rw [hone, hlength, stackRows_root, hm, readRow_succ, hstart, hfast] at hslots
      exact exists_cons_of_take hslots
    have hsame : touched order set x = order := by
      unfold touched touch
      rw [hrest, List.erase_cons_head, ← hrest, Function.update_eq_self]
    rw [hsame]
    refine ⟨hrep, fun j _ i _ => ?_⟩
    have hplace : place x i (order set) = 0 := by
      unfold place members
      rw [hrest, List.filter_cons_of_pos (by simp [tagLevels]), List.idxOf_cons_self]
    rw [hplace]
    unfold total
    by_cases hj : j = 0
    · simp [hj]
      omega
    · simp [hj]
  · simp only [hfast, if_false]
    have hgoing : Going p order set x 0
        { arr := s.arr, tag := s.tag, depths := fun _ => 0, atag := x } := by
      refine ⟨hrep.of_eq fun t _ e _ q _ => ?_, fun e he => absurd he (Nat.not_lt_zero e), rfl, rfl⟩
      exact if_neg (Nat.not_lt_zero e)
    have hfound := descend_found (hfull set) hset s.sacHits (p.maxDepth + 1) hgoing (Nat.zero_add _)
    refine ⟨hfound.rows, fun j hj i hi => ?_⟩
    unfold total
    dsimp only
    rw [hfound.sacHits_eq (hfull set) hi hj]
    omega

/-- The counts are brought up to date without a change of any. -/
theorem flush_total (s : Saclru) (j : ℕ) {i : ℕ} (hi : i ≤ p.maxDepth) :
    (s.flush p).sacHits j i = s.total j i ∧ (s.flush p).total j i = s.total j i := by
  unfold flush total
  by_cases hj : j = 0
  · simp [hj, hi]
  · simp [hj]

theorem hits_eq (s : Saclru) {setsLog2 : ℕ} (assoc : ℕ) (hA : p.A ≤ setsLog2) (hB : setsLog2 ≤ p.B) :
    ∃ s', s.hits p setsLog2 assoc = some (((List.range assoc).map fun j => s.total j (setsLog2 - p.A)).sum, s') ∧
      s'.arr = s.arr ∧ ∀ j, ∀ i ≤ p.maxDepth, s'.total j i = s.total j i := by
  have hi : setsLog2 - p.A ≤ p.maxDepth := Nat.sub_le_sub_right hB _
  rw [hits, if_pos ⟨hA, hB⟩]
  by_cases hzero : s.hitarr0 = 0
  · refine ⟨s, ?_, rfl, fun _ _ _ => rfl⟩
    simp [hzero, total]
  · refine ⟨s.flush p, ?_, rfl, fun j i hi => (flush_total s j hi).2⟩
    simp [hzero, (flush_total s _ hi).1]

end Saclru

end Access

end LifeSim.Cheetah
