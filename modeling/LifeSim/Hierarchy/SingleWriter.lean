import Mathlib
import LifeSim.Hierarchy.Runs

/-!
# The single writer of a hierarchy

A cache that has a line as `MODIFIED` is meant to be the only one with the line, but for those above and below it. Two
accesses break this. A read takes over the `MODIFIED` state of a next level while a previous cache of this level keeps
the line as `SHARED`, and a write to a line that a middle level has as `EXCLUSIVE` leaves it in the other previous caches
of this level. In the runs without such an access there is one writer.
-/

namespace LifeSim.Hierarchy

open LifeSim.Lib
open LifeSim.Directory (CacheState)

variable {ι α : Type} [DecidableEq ι] [DecidableEq α]

/-- In a run of which no access leaves a copy beside the one that it fills, a `MODIFIED` copy is the only one but for
the caches above and below. -/
theorem singleWriter_of_kept (H : CacheTree ι) (es : List (Event ι α))
    (h : (hierarchyMachine H).Guarded (fun s e => H.Issued s e ∧ H.Kept s e) .empty es) :
    ∃ s, (hierarchyMachine H).run .empty es = .ok s ∧ ∀ a, H.SingleWriter (s.cstate a) := by
  obtain ⟨s, hrun, hrest⟩ := (hierarchyMachine H).guarded_run_ok (P := H.AtRest True)
    (fun s e hrest he => (CacheTree.step_spec hrest he.1 fun _ => he.2).exists_ok) CacheTree.atRest_empty h
  exact ⟨s, hrun, fun a => (hrest.lines a).single trivial⟩

instance decidableIssued (H : CacheTree ι) (s : Caches ι α) : ∀ e, Decidable (H.Issued s e)
  | .memOp _ l _ _ _ _ => inferInstanceAs (Decidable (H.children l = [] ∧ l ≠ H.root))
  | .prefetch _ _ _ _ _ => .isTrue trivial
  | .invReq a => inferInstanceAs (Decidable (s.cstate a H.root ≠ .modified))
  | .flushReq _ => .isTrue trivial
  | .wbReq _ => .isTrue trivial

instance decidableKept (H : CacheTree ι) (s : Caches ι α) : ∀ e, Decidable (H.Kept s e)
  | .memOp core l op a _ _ => inferInstanceAs (Decidable (if op = .read then H.loadKept (s.cstate a) (H.path l) = true
      else H.storeKept core (s.cstate a) false l (H.path l) = true))
  | .prefetch _ c a _ _ =>
    inferInstanceAs (Decidable (readable (s.cstate a c) = true ∨ H.loadKept (s.cstate a) (H.path c) = true))
  | .invReq _ => .isTrue trivial
  | .flushReq _ => .isTrue trivial
  | .wbReq _ => .isTrue trivial

/-- Both cores read a line, one of them writes it, and the directory takes the other line of this core back. -/
def sharingRun : List (Event SmallCache ℕ) :=
  [.memOp 0 .l1a .write 1 false fun _ => none, .memOp 0 .l1a .read 0 false fun _ => none,
    .memOp 1 .l1b .read 0 false fun _ => none, .memOp 0 .l1a .write 0 false fun _ => none, .flushReq 1]

theorem singleWriter_of_kept_sharingRun : ∃ s, (hierarchyMachine smallTree).run .empty sharingRun = .ok s ∧
    ∀ a, smallTree.SingleWriter (s.cstate a) := by
  have hfollows : (hierarchyMachine smallTree).follows (fun s e => decide (smallTree.Issued s e ∧ smallTree.Kept s e))
      .empty sharingRun = true := by decide
  refine singleWriter_of_kept smallTree sharingRun ?_
  refine Machine.Guarded.mono_of_kept (P := fun _ => True) (fun _ _ _ _ _ _ => trivial) (fun s e _ h => ?_) trivial
    (Machine.Guarded.of_follows hfollows)
  exact of_decide_eq_true h

/-- One core writes a line and the other one reads it. -/
def loadRun : List (Event SmallCache ℕ) :=
  [.memOp 0 .l1a .write 0 false fun _ => none, .memOp 1 .l1b .read 0 false fun _ => none]

/-- The reader gets the `MODIFIED` state of the shared cache, and the writer keeps the line as `SHARED`. -/
theorem not_singleWriter_load : ¬ ∀ es : List (Event SmallCache ℕ),
    (hierarchyMachine smallTree).Guarded smallTree.Issued .empty es →
      ∃ s, (hierarchyMachine smallTree).run .empty es = .ok s ∧ ∀ a, smallTree.SingleWriter (s.cstate a) := by
  intro h
  obtain ⟨s, hrun, hsingle⟩ := h loadRun ⟨⟨rfl, by decide⟩, fun _ _ => ⟨⟨rfl, by decide⟩, fun _ _ => trivial⟩⟩
  have hfinal : (hierarchyMachine smallTree).run .empty loadRun = .ok _ := Machine.run_final _ (by decide)
  rw [hrun] at hfinal
  cases hfinal
  have hrelated := hsingle 0 .l1b .l1a (by decide) (by decide)
  revert hrelated
  decide

/-- Both cores read a line, and one of them writes it. -/
def storeRun : List (Event SmallCache ℕ) :=
  [.memOp 0 .l1a .read 0 true fun _ => none, .memOp 1 .l1b .read 0 false fun _ => none,
    .memOp 0 .l1a .write 0 false fun _ => none]

/-- The shared cache has the line as `EXCLUSIVE` and lets go of it without a word to the core that does not write. -/
theorem not_singleWriter_store : ¬ ∀ es : List (Event SmallCache ℕ),
    (hierarchyMachine smallTree).Guarded smallTree.Issued .empty es →
      ∃ s, (hierarchyMachine smallTree).run .empty es = .ok s ∧ ∀ a, smallTree.SingleWriter (s.cstate a) := by
  intro h
  obtain ⟨s, hrun, hsingle⟩ := h storeRun
    ⟨⟨rfl, by decide⟩, fun _ _ => ⟨⟨rfl, by decide⟩, fun _ _ => ⟨⟨rfl, by decide⟩, fun _ _ => trivial⟩⟩⟩
  have hfinal : (hierarchyMachine smallTree).run .empty storeRun = .ok _ := Machine.run_final _ (by decide)
  rw [hrun] at hfinal
  cases hfinal
  have hrelated := hsingle 0 .l1a .l1b (by decide) (by decide)
  revert hrelated
  decide

end LifeSim.Hierarchy
