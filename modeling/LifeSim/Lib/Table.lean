import Mathlib.Data.Nat.Notation
import Mathlib.Logic.Function.Basic

/-!
# Growable tables

A `std::vector` as a size and the contents at each index. Only indices below the size
belong to the table; what is stored beyond it has no meaning until the table grows, and
growing fills the new places with a default. Reading or writing at an index is total here:
the check that the index is inside belongs to the code that uses the table.
-/

namespace LifeSim.Lib

variable {α : Type*}

/-- A vector: its size and its contents. -/
structure Table (α : Type*) where
  size : ℕ
  get : ℕ → α

namespace Table

/-- `std::vector::resize`: new places hold the default value. -/
def resize (t : Table α) (n : ℕ) (fill : α) : Table α :=
  ⟨n, fun i => if i < t.size then t.get i else fill⟩

/-- Assignment to one place. -/
def set (t : Table α) (i : ℕ) (x : α) : Table α :=
  { t with get := Function.update t.get i x }

@[simp] theorem size_resize (t : Table α) (n : ℕ) (fill : α) : (t.resize n fill).size = n := rfl

@[simp] theorem get_resize (t : Table α) (n : ℕ) (fill : α) (i : ℕ) :
    (t.resize n fill).get i = if i < t.size then t.get i else fill := rfl

@[simp] theorem size_set (t : Table α) (i : ℕ) (x : α) : (t.set i x).size = t.size := rfl

@[simp] theorem get_set (t : Table α) (i j : ℕ) (x : α) :
    (t.set i x).get j = if j = i then x else t.get j := by
  simp [set, Function.update_apply]

end Table

end LifeSim.Lib
