import Mathlib.Data.List.Basic
import Mathlib.Tactic.Common

/-!
# Trees with levels

A tree given by the parent of each node, in which a parent is one level above its children. The path of a node leads
from it to the root, and a node is under all nodes of its path.
-/

namespace LifeSim.Lib

/-- A tree in which all children are one level below their parent. -/
structure LevelTree (ι : Type*) where
  parent : ι → Option ι
  children : ι → List ι
  level : ι → ℕ
  root : ι
  mem_children : ∀ p c, p ∈ children c ↔ parent p = some c
  level_parent : ∀ p c, parent p = some c → level c = level p + 1
  parent_eq_none : ∀ c, parent c = none ↔ c = root
  level_le : ∀ c, level c ≤ level root

namespace LevelTree

variable {ι : Type*} (T : LevelTree ι)

/-- A node and the nodes above it, as long as the fuel lasts. -/
def pathFrom : ℕ → ι → List ι
  | 0, c => [c]
  | n + 1, c => c :: (T.parent c).elim [] (pathFrom n)

/-- A node and all nodes above it. -/
def path (c : ι) : List ι := T.pathFrom (T.level T.root - T.level c) c

/-- The second node is the first one or below it. -/
def Under (c d : ι) : Prop := c ∈ T.path d

/-- One of two nodes is above the other. -/
def Related (c d : ι) : Prop := T.Under c d ∨ T.Under d c

instance [DecidableEq ι] (c d : ι) : Decidable (T.Under c d) := inferInstanceAs (Decidable (_ ∈ _))

instance [DecidableEq ι] (c d : ι) : Decidable (T.Related c d) := inferInstanceAs (Decidable (_ ∨ _))

variable {T} {c d e p q : ι}

theorem parent_root : T.parent T.root = none := (T.parent_eq_none T.root).2 rfl

theorem path_of_parent (h : T.parent p = some c) : T.path p = p :: T.path c := by
  have hlevel := T.level_parent p c h
  have hle := T.level_le c
  have hfuel : T.level T.root - T.level p = T.level T.root - T.level c + 1 := by omega
  rw [path, hfuel, pathFrom, h, path, Option.elim_some]

theorem path_root : T.path T.root = [T.root] := by
  rw [path, Nat.sub_self, pathFrom]

theorem exists_path_eq (c : ι) : ∃ rest, T.path c = c :: rest := by
  cases h : T.parent c with
  | none => exact ⟨[], by rw [(T.parent_eq_none c).1 h, path_root]⟩
  | some n => exact ⟨T.path n, path_of_parent h⟩

theorem under_refl (c : ι) : T.Under c c := by
  obtain ⟨rest, hpath⟩ := exists_path_eq (T := T) c
  rw [Under, hpath]
  exact List.mem_cons_self

theorem under_root_iff : T.Under c T.root ↔ c = T.root := by rw [Under, path_root, List.mem_singleton]

/-- A node is under itself and under what its parent is under. -/
theorem under_iff_of_parent (h : T.parent p = some d) : T.Under c p ↔ c = p ∨ T.Under c d := by
  rw [Under, path_of_parent h, List.mem_cons, Under]

/-- What holds of the root and goes over from parents to children holds of all nodes. -/
theorem root_induction {P : ι → Prop} (hroot : P T.root) (hchild : ∀ p d, T.parent p = some d → P d → P p) (d : ι) :
    P d := by
  generalize hfuel : T.level T.root - T.level d = n
  induction n generalizing d with
  | zero =>
    cases h : T.parent d with
    | none => rwa [(T.parent_eq_none d).1 h]
    | some e =>
      have hlevel := T.level_parent d e h
      have hle := T.level_le e
      omega
  | succ n ih =>
    cases h : T.parent d with
    | none => rwa [(T.parent_eq_none d).1 h]
    | some e =>
      have hlevel := T.level_parent d e h
      exact hchild d e h (ih e (by omega))

/-- What holds of a node and goes over from parents to children holds of all nodes under it. -/
theorem under_induction {P : ι → Prop} (hc : P c) (hchild : ∀ p d, T.parent p = some d → T.Under c d → P d → P p)
    (hd : T.Under c d) : P d := by
  revert hd
  refine root_induction (T := T) (P := fun d => T.Under c d → P d) (fun hroot => ?_) (fun p d hparent ih hp => ?_) d
  · rwa [← under_root_iff.1 hroot]
  · rcases (under_iff_of_parent hparent).1 hp with rfl | hd
    · exact hc
    · exact hchild p d hparent hd (ih hd)

theorem Under.trans (h : T.Under c d) (h' : T.Under d e) : T.Under c e :=
  under_induction h (fun _ _ hparent _ ih => (under_iff_of_parent hparent).2 (.inr ih)) h'

theorem Under.of_parent (h : T.Under c d) (hparent : T.parent p = some d) : T.Under c p :=
  (under_iff_of_parent hparent).2 (.inr h)

theorem under_parent (h : T.parent p = some c) : T.Under c p := (under_refl c).of_parent h

theorem root_under (d : ι) : T.Under T.root d :=
  root_induction (under_refl _) (fun _ _ hparent h => h.of_parent hparent) d

/-- A node under another one is on a lower level, if it is not the same. -/
theorem Under.eq_or_lt (h : T.Under c d) : d = c ∨ T.level d < T.level c := by
  refine under_induction (P := fun d => d = c ∨ T.level d < T.level c) (.inl rfl) (fun p e hparent _ ih => .inr ?_) h
  have hlevel := T.level_parent p e hparent
  rcases ih with rfl | hlt
  · omega
  · omega

theorem ne_root (h : T.parent p = some c) : p ≠ T.root := by
  intro hp
  rw [hp, parent_root] at h
  cases h

/-- A parent is not under its child. -/
theorem not_under_parent (h : T.parent p = some c) : ¬ T.Under p c := by
  intro hunder
  have hlevel := T.level_parent p c h
  rcases hunder.eq_or_lt with rfl | hlt
  · omega
  · omega

theorem ne_parent (h : T.parent p = some c) : p ≠ c := fun hp => not_under_parent h (hp ▸ under_refl p)

/-- A node is under another one if it is this one or under one of its children. -/
theorem under_iff_children : T.Under c d ↔ d = c ∨ ∃ p ∈ T.children c, T.Under p d := by
  constructor
  · refine under_induction (P := fun d => d = c ∨ ∃ p ∈ T.children c, T.Under p d) (.inl rfl)
      fun p e hparent _ ih => .inr ?_
    rcases ih with rfl | ⟨q, hq, hunder⟩
    · exact ⟨p, (T.mem_children p e).2 hparent, under_refl p⟩
    · exact ⟨q, hq, hunder.of_parent hparent⟩
  · rintro (rfl | ⟨p, hp, hunder⟩)
    · exact under_refl d
    · exact (under_parent ((T.mem_children p c).1 hp)).trans hunder

/-- Two nodes above the same one are related. -/
theorem Related.of_under (h : T.Under c e) (h' : T.Under d e) : T.Related c d := by
  revert h'
  refine under_induction (P := fun e => T.Under d e → T.Related c d) (fun h' => .inr h')
    (fun p f hparent hf ih h' => ?_) h
  rcases (under_iff_of_parent hparent).1 h' with rfl | h'
  · exact .inl (hf.of_parent hparent)
  · exact ih h'

/-- Of the children of a node a node is under one at most. -/
theorem eq_of_under_children (hp : T.parent p = some c) (hq : T.parent q = some c) (h : T.Under p d)
    (h' : T.Under q d) : p = q := by
  have hplevel := T.level_parent p c hp
  have hqlevel := T.level_parent q c hq
  rcases Related.of_under h h' with hunder | hunder
  · rcases hunder.eq_or_lt with heq | hlt
    · exact heq.symm
    · omega
  · rcases hunder.eq_or_lt with heq | hlt
    · exact heq
    · omega

end LevelTree

end LifeSim.Lib
