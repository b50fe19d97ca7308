import Mathlib

/-!
# Maps as sorted lists

A `std::map` as the list of its elements in the order of their keys, where the key can be told from the element. To
alter the map at a key is to replace the element with this key, or to put a new one in its place.
-/

namespace LifeSim.Lib

variable {α κ : Type*} [LinearOrder κ]

/-- The element with the key `k` becomes `f` of what there was. -/
def alter (key : α → κ) (k : κ) (f : Option α → α) : List α → List α
  | [] => [f none]
  | a :: l =>
    if k < key a then f none :: a :: l
    else if key a < k then a :: alter key k f l
    else f (some a) :: l

/-- The elements stand in the order of their keys. -/
def KeySorted (key : α → κ) (l : List α) : Prop := l.Pairwise fun a b => key a < key b

/-- Only the keys count. -/
theorem KeySorted.of_map_eq {key : α → κ} {l l' : List α} (h : KeySorted key l) (hmap : l'.map key = l.map key) :
    KeySorted key l' := by
  have hkeys : (l.map key).Pairwise (· < ·) := List.pairwise_map.2 h
  rw [← hmap] at hkeys
  exact List.pairwise_map.1 hkeys

/-- The new element has the key. -/
def KeepsKey (key : α → κ) (k : κ) (f : Option α → α) : Prop :=
  key (f none) = k ∧ ∀ a, key a = k → key (f (some a)) = k

variable {key : α → κ} {k : κ} {f g : Option α → α} {l : List α} {a b : α}

/-- An element is an old one, or the new one. -/
theorem mem_alter (h : b ∈ alter key k f l) : b ∈ l ∨ b = f none ∨ ∃ a ∈ l, key a = k ∧ b = f (some a) := by
  induction l with
  | nil => exact .inr (.inl (List.mem_singleton.1 h))
  | cons a l ih =>
    rw [alter] at h
    split_ifs at h with hbefore hafter
    · rcases List.mem_cons.1 h with rfl | h
      · exact .inr (.inl rfl)
      · exact .inl h
    · rcases List.mem_cons.1 h with rfl | h
      · exact .inl (List.mem_cons_self ..)
      · rcases ih h with h | h | ⟨c, hc, hkey, h⟩
        · exact .inl (List.mem_cons_of_mem a h)
        · exact .inr (.inl h)
        · exact .inr (.inr ⟨c, List.mem_cons_of_mem a hc, hkey, h⟩)
    · rcases List.mem_cons.1 h with rfl | h
      · have hkey : key a = k := le_antisymm (not_lt.1 hbefore) (not_lt.1 hafter)
        exact .inr (.inr ⟨a, List.mem_cons_self .., hkey, rfl⟩)
      · exact .inl (List.mem_cons_of_mem a h)

theorem KeySorted.alter (hl : KeySorted key l) (hf : KeepsKey key k f) : KeySorted key (alter key k f l) := by
  induction l with
  | nil => exact List.pairwise_singleton ..
  | cons a l ih =>
    obtain ⟨ha, hl'⟩ := List.pairwise_cons.1 hl
    rw [Lib.alter]
    split_ifs with hbefore hafter
    · refine List.pairwise_cons.2 ⟨fun b hb => ?_, hl⟩
      rw [hf.1]
      rcases List.mem_cons.1 hb with rfl | hb
      · exact hbefore
      · exact hbefore.trans (ha b hb)
    · refine List.pairwise_cons.2 ⟨fun b hb => ?_, ih hl'⟩
      rcases mem_alter hb with hb | rfl | ⟨c, hc, hkey, rfl⟩
      · exact ha b hb
      · rw [hf.1]
        exact hafter
      · rw [hf.2 c hkey]
        exact hafter
    · have hkey : key a = k := le_antisymm (not_lt.1 hbefore) (not_lt.1 hafter)
      refine List.pairwise_cons.2 ⟨fun b hb => ?_, hl'⟩
      rw [hf.2 a hkey, ← hkey]
      exact ha b hb

/-- A key after all others. -/
theorem alter_of_forall_lt (h : ∀ a ∈ l, key a < k) : alter key k f l = l ++ [f none] := by
  induction l with
  | nil => rfl
  | cons a l ih =>
    have ha := h a (List.mem_cons_self ..)
    rw [alter, if_neg ha.asymm, if_pos ha, ih fun b hb => h b (List.mem_cons_of_mem a hb)]
    rfl

/-- To alter a key twice. -/
theorem alter_alter (hg : KeepsKey key k g) : alter key k f (alter key k g l) = alter key k
    (fun x => f (some (g x))) l := by
  induction l with
  | nil => rw [alter, alter, alter, hg.1, if_neg (lt_irrefl k), if_neg (lt_irrefl k)]
  | cons a l ih =>
    rw [alter, alter]
    split_ifs with hbefore hafter
    · rw [alter, hg.1, if_neg (lt_irrefl k), if_neg (lt_irrefl k)]
    · rw [alter, if_neg hbefore, if_pos hafter, ih]
    · have hkey : key a = k := le_antisymm (not_lt.1 hbefore) (not_lt.1 hafter)
      rw [alter, hg.2 a hkey, if_neg (lt_irrefl k), if_neg (lt_irrefl k)]

end LifeSim.Lib
