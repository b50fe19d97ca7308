import Mathlib.Data.List.Basic
import Mathlib.Data.List.TakeDrop
import LifeSim.Lib.MoveToFront

/-!
# One stack for the sets of many caches

A set of `n` ways whose line that was used least recently gives way to a new one holds the first `n` members of a stack to
whose front each use is moved. When the sets of a larger cache split those of a smaller one, the stacks are filters of
one another, and one tree is enough for all of them: a node holds what its set has beyond the sets above it.

The rows of the tree are defined from the stack. A use changes only rows on its way down. Each of them gives its last
member to one of the nodes below, until the used member is found.
-/

namespace LifeSim.Lib

variable {α κ : Type*}

section Take

variable {a : α} {l : List α} {n : ℕ}

/-- Whatever meets a test among the first is first among all that meet it. -/
theorem filter_take (p : α → Bool) (l : List α) (n : ℕ) :
    (l.take n).filter p = (l.filter p).take ((l.take n).countP p) := by
  conv_rhs => rw [← List.take_append_drop n l, List.filter_append]
  rw [List.take_append_drop, List.take_left' List.countP_eq_length_filter.symm]

variable [DecidableEq α]

theorem take_erase_of_mem (h : a ∈ l.take (n + 1)) : (l.erase a).take n = (l.take (n + 1)).erase a := by
  have hsplit : l.erase a = (l.take (n + 1)).erase a ++ l.drop (n + 1) := by
    rw [← List.erase_append_left _ h, List.take_append_drop]
  have hlength := List.length_erase_of_mem h
  have htake : (l.take (n + 1)).length = min (n + 1) l.length := List.length_take
  rw [hsplit]
  by_cases hshort : l.length ≤ n
  · rw [List.drop_eq_nil_of_le (by omega), List.append_nil, List.take_of_length_le (by omega)]
  · rw [List.take_append_of_le_length (by omega), List.take_of_length_le (by omega)]

theorem take_erase_of_not_mem (h : a ∉ l.take n) : (l.erase a).take n = l.take n := by
  have hsplit : l.erase a = l.take n ++ (l.drop n).erase a := by
    rw [← List.erase_append_right _ h, List.take_append_drop]
  by_cases hshort : l.length ≤ n
  · rw [List.erase_of_not_mem]
    rwa [List.take_of_length_le hshort] at h
  · rw [hsplit, List.take_left' (by rw [List.length_take]; omega)]

/-- A use of a set of `n` ways. A miss brings the line in, and the last one goes. -/
def lruUse (n : ℕ) (a : α) (l : List α) : List α :=
  if a ∈ l then touch a l else (a :: l).take n

/-- Whether a use finds its line. -/
def lruHit (a : α) (l : List α) : ℕ := if a ∈ l then 1 else 0

/-- The set holds the first members of the stack. -/
theorem lruUse_take (n : ℕ) (a : α) (l : List α) : lruUse n a (l.take n) = (touch a l).take n := by
  unfold lruUse touch
  cases n with
  | zero => simp
  | succ n =>
    rw [List.take_succ_cons, List.take_succ_cons]
    split
    · rw [take_erase_of_mem (by assumption)]
    · rename_i h
      have hn : a ∉ l.take n := fun hmem => h (List.take_subset_take_left l (Nat.le_succ n) hmem)
      rw [take_erase_of_not_mem hn, List.take_take, Nat.min_eq_left (Nat.le_succ n)]

theorem lruUse_full (h : a ∉ l) (hl : l.length = n) (hn : n ≠ 0) :
    lruUse n a l = a :: l.dropLast := by
  obtain ⟨m, rfl⟩ := Nat.exists_eq_succ_of_ne_zero hn
  rw [lruUse, if_neg h, List.take_succ_cons, List.dropLast_eq_take, hl, Nat.succ_eq_add_one, Nat.add_sub_cancel]

end Take

section Before

variable [DecidableEq α] {a : α} {l m : List α}

/-- The members in front of the first occurrence. -/
def before (a : α) (l : List α) : List α := l.takeWhile fun b => b ≠ a

@[simp]
theorem before_cons_self (a : α) (l : List α) : before a (a :: l) = [] :=
  List.takeWhile_cons_of_neg (by simp)

@[simp]
theorem before_cons_ne {b : α} (h : b ≠ a) (l : List α) : before a (b :: l) = b :: before a l :=
  List.takeWhile_cons_of_pos (by simpa using h)

theorem length_before (a : α) (l : List α) : (before a l).length = l.idxOf a := by
  induction l with
  | nil => rfl
  | cons b l ih =>
    by_cases hb : b = a
    · rw [hb, before_cons_self, List.idxOf_cons_self, List.length_nil]
    · rw [before_cons_ne hb, List.idxOf_cons_ne _ hb, List.length_cons, ih]

theorem before_append_of_mem (h : a ∈ l) : before a (l ++ m) = before a l := by
  induction l with
  | nil => exact absurd h List.not_mem_nil
  | cons b l ih =>
    rw [List.cons_append]
    by_cases hb : b = a
    · rw [hb, before_cons_self, before_cons_self]
    · rw [before_cons_ne hb, before_cons_ne hb, ih ((List.mem_cons.1 h).resolve_left (Ne.symm hb))]

theorem before_append_of_not_mem (h : a ∉ l) : before a (l ++ m) = l ++ before a m := by
  refine List.takeWhile_append_of_pos fun b hb => ?_
  simp only [ne_eq, decide_not, Bool.not_eq_eq_eq_not, Bool.not_true, decide_eq_false_iff_not]
  exact fun heq => h (heq ▸ hb)

/-- A test that the member meets does not care about when the members in front are picked. -/
theorem filter_before {p : α → Bool} (h : p a = true) (l : List α) : (before a l).filter p = before a (l.filter p) := by
  induction l with
  | nil => rfl
  | cons b l ih =>
    by_cases hb : b = a
    · subst hb
      rw [List.filter_cons_of_pos h, before_cons_self, before_cons_self, List.filter_nil]
    · rw [before_cons_ne hb]
      by_cases hp : p b = true
      · rw [List.filter_cons_of_pos hp, List.filter_cons_of_pos hp, before_cons_ne hb, ih]
      · rw [List.filter_cons_of_neg hp, List.filter_cons_of_neg hp, ih]

end Before

/-- Classes that become finer from level to level. -/
structure Levels (α κ : Type*) where
  cls : ℕ → α → κ
  /-- The class of one level in which a class of the next level lies. -/
  parent : ℕ → κ → κ
  parent_cls : ∀ d a, parent d (cls (d + 1) a) = cls d a

namespace Levels

variable [DecidableEq κ] (L : Levels α κ) (n : ℕ) (stack : List α) (d : ℕ) (c : κ)

/-- The members of a class, the one used last in front. -/
def members : List α := stack.filter fun a => L.cls d a = c

/-- What the set of a class holds. -/
def held : List α := (L.members stack d c).take n

/-- What a node holds: its set without what the set above has. -/
def row : ℕ → κ → List α
  | 0, c => L.held n stack 0 c
  | d + 1, c =>
    (L.held n stack (d + 1) c).drop ((L.held n stack d (L.parent d c)).countP fun a => L.cls (d + 1) a = c)

variable {L n stack d c} {x y : α}

theorem mem_members : x ∈ L.members stack d c ↔ x ∈ stack ∧ L.cls d x = c := by
  simp [members]

theorem cls_of_held (h : x ∈ L.held n stack d c) : L.cls d x = c :=
  (mem_members.1 (List.mem_of_mem_take h)).2

theorem members_succ : L.members stack (d + 1) c =
    (L.members stack d (L.parent d c)).filter fun a => L.cls (d + 1) a = c := by
  rw [members, members, List.filter_filter]
  refine List.filter_congr fun a _ => ?_
  by_cases ha : L.cls (d + 1) a = c
  · have hp : L.cls d a = L.parent d c := by rw [← ha, L.parent_cls]
    simp [ha, hp]
  · simp [ha]

/-- The set is what the set above has of it, followed by the row of the node. -/
theorem held_succ : L.held n stack (d + 1) c =
    ((L.held n stack d (L.parent d c)).filter fun a => L.cls (d + 1) a = c) ++ L.row n stack (d + 1) c := by
  have hle : (L.held n stack d (L.parent d c)).countP (fun a => decide (L.cls (d + 1) a = c)) ≤ n := by
    refine Nat.le_trans List.countP_le_length ?_
    rw [held, List.length_take]
    exact Nat.min_le_left _ _
  have hfirst : (L.held n stack d (L.parent d c)).filter (fun a => decide (L.cls (d + 1) a = c)) =
      (L.held n stack (d + 1) c).take
        ((L.held n stack d (L.parent d c)).countP fun a => decide (L.cls (d + 1) a = c)) := by
    have hset : L.held n stack (d + 1) c = (L.members stack (d + 1) c).take n := rfl
    rw [hset, List.take_take, Nat.min_eq_left hle, held, filter_take, ← members_succ]
  rw [hfirst, row, List.take_append_drop]

theorem mem_held_of_row (h : x ∈ L.row n stack d c) : x ∈ L.held n stack d c := by
  cases d with
  | zero => exact h
  | succ d => exact List.mem_of_mem_drop h

theorem cls_of_row (h : x ∈ L.row n stack d c) : L.cls d x = c := cls_of_held (mem_held_of_row h)

theorem length_row_le : (L.row n stack d c).length ≤ n := by
  have hle : (L.held n stack d c).length ≤ n := by
    rw [held, List.length_take]
    exact Nat.min_le_left _ _
  cases d with
  | zero => exact hle
  | succ d =>
    rw [row, List.length_drop]
    omega

/-- A member that the set has and the set above does not have stands in the row. -/
theorem mem_row (h : x ∈ L.held n stack (d + 1) (L.cls (d + 1) x)) (habove : x ∉ L.held n stack d (L.cls d x)) :
    x ∈ L.row n stack (d + 1) (L.cls (d + 1) x) := by
  rw [held_succ, List.mem_append, L.parent_cls] at h
  exact h.resolve_left fun hmem => habove (List.mem_filter.1 hmem).1

/-- When the node on the way is empty, its set is the set above. -/
theorem held_succ_of_row_nil (hrow : L.row n stack (d + 1) (L.cls (d + 1) x) = [])
    (hfull : (L.held n stack d (L.cls d x)).length = n)
    (hnext : (L.held n stack (d + 1) (L.cls (d + 1) x)).length = n) :
    L.held n stack (d + 1) (L.cls (d + 1) x) = L.held n stack d (L.cls d x) := by
  have hsplit : L.held n stack (d + 1) (L.cls (d + 1) x) =
      ((L.held n stack d (L.parent d (L.cls (d + 1) x))).filter fun a => L.cls (d + 1) a = L.cls (d + 1) x) ++
        L.row n stack (d + 1) (L.cls (d + 1) x) := held_succ
  rw [hrow, List.append_nil, L.parent_cls] at hsplit
  rw [hsplit]
  refine (List.filter_sublist).eq_of_length ?_
  rw [← hsplit, hnext, hfull]

section Use

variable [DecidableEq α]

theorem members_touch (x : α) : L.members (touch x stack) d c =
    if L.cls d x = c then touch x (L.members stack d c) else L.members stack d c := by
  unfold members touch
  by_cases hx : L.cls d x = c
  · rw [if_pos hx, List.filter_cons_of_pos (by simpa using hx), List.erase_filter]
  · rw [if_neg hx, List.filter_cons_of_neg (by simpa using hx), ← List.erase_filter, List.erase_of_not_mem]
    simp [hx]

/-- A use is a use of one set of each level. -/
theorem held_touch (x : α) : L.held n (touch x stack) d c =
    if L.cls d x = c then lruUse n x (L.held n stack d c) else L.held n stack d c := by
  rw [held, members_touch]
  split
  · rw [held, lruUse_take]
  · rfl

/-- What comes to a node from the one above. -/
def pushed (L : Levels α κ) (d : ℕ) (c : κ) (y : α) (l : List α) : List α :=
  if L.cls d y = c then y :: l else l

/-- What remains when the used member is taken out, or the last one if it is not there. -/
def dropped (x : α) (l : List α) : List α := if x ∈ l then l.erase x else l.dropLast

/-- A row below another set stays. -/
theorem row_touch_apart (hc : L.parent d c ≠ L.cls d x) :
    L.row n (touch x stack) (d + 1) c = L.row n stack (d + 1) c := by
  have hne : L.cls (d + 1) x ≠ c := by
    intro h
    rw [← h, L.parent_cls] at hc
    exact hc rfl
  rw [row, row, held_touch, held_touch, if_neg hne, if_neg (Ne.symm hc)]

/-- A row stays if the set above has the used member. -/
theorem row_touch_found (hx : x ∈ L.held n stack d (L.cls d x)) :
    L.row n (touch x stack) (d + 1) c = L.row n stack (d + 1) c := by
  by_cases hp : L.parent d c = L.cls d x
  · have hcount : (L.held n (touch x stack) d (L.parent d c)).countP (fun a => decide (L.cls (d + 1) a = c)) =
        (L.held n stack d (L.parent d c)).countP fun a => decide (L.cls (d + 1) a = c) := by
      rw [held_touch, hp, if_pos rfl, lruUse, if_pos hx]
      exact (touch_perm hx).countP_eq _
    rw [row, hcount, held_touch]
    split
    · rename_i hcls
      have hmem : x ∈ (L.held n stack d (L.parent d c)).filter fun a => decide (L.cls (d + 1) a = c) := by
        rw [hp]
        exact List.mem_filter.2 ⟨hx, by simpa using hcls⟩
      rw [held_succ, lruUse, if_pos (List.mem_append_left _ hmem), touch, List.erase_append_left _ hmem,
        ← List.cons_append]
      refine List.drop_left' ?_
      have hpos := List.length_pos_of_mem hmem
      rw [List.length_cons, List.length_erase_of_mem hmem, List.countP_eq_length_filter]
      omega
    · rfl
  · exact row_touch_apart hp

/-- The rows below a set that misses. The last member of the set goes to one of them, and the row on the way of the used
member gives one away. -/
theorem row_touch_missed {init : List α} (hp : L.parent d c = L.cls d x)
    (hheld : L.held n stack d (L.cls d x) = init ++ [y]) (hx : x ∉ L.held n stack d (L.cls d x))
    (hfull : (L.held n stack d (L.cls d x)).length = n) (hnext : (L.held n stack (d + 1) c).length = n) :
    L.row n (touch x stack) (d + 1) c =
      if L.cls (d + 1) x = c then dropped x (L.pushed (d + 1) c y (L.row n stack (d + 1) c))
      else L.pushed (d + 1) c y (L.row n stack (d + 1) c) := by
  have hn : n ≠ 0 := by
    rw [hheld, List.length_append, List.length_singleton] at hfull
    omega
  have habove : L.held n (touch x stack) d (L.parent d c) = x :: init := by
    rw [held_touch, hp, if_pos rfl, lruUse_full hx hfull hn, hheld, List.dropLast_concat]
  -- what the set above has of this class, without its last member
  have hsplit : L.held n stack (d + 1) c =
      init.filter (fun a => decide (L.cls (d + 1) a = c)) ++ L.pushed (d + 1) c y (L.row n stack (d + 1) c) := by
    rw [held_succ, hp, hheld, List.filter_append, List.append_assoc]
    by_cases hy : L.cls (d + 1) y = c
    · simp [pushed, hy]
    · simp [pushed, hy]
  rw [row, habove, held_touch]
  by_cases hc : L.cls (d + 1) x = c
  · have hnot : x ∉ init.filter fun a => decide (L.cls (d + 1) a = c) := by
      intro hmem
      apply hx
      rw [hheld]
      exact List.mem_append_left _ (List.mem_filter.1 hmem).1
    rw [if_pos hc, if_pos hc, List.countP_cons_of_pos (by simpa using hc), dropped]
    by_cases hmem : x ∈ L.pushed (d + 1) c y (L.row n stack (d + 1) c)
    · rw [if_pos hmem, hsplit, lruUse, if_pos (List.mem_append_right _ hmem), touch,
        List.erase_append_right _ hnot, List.drop_succ_cons, List.drop_left' List.countP_eq_length_filter.symm]
    · have hmiss : x ∉ L.held n stack (d + 1) c := by
        rw [hsplit, List.mem_append]
        exact fun h => h.elim hnot hmem
      rw [if_neg hmem, lruUse_full hmiss hnext hn, List.drop_succ_cons, hsplit]
      by_cases hnil : L.pushed (d + 1) c y (L.row n stack (d + 1) c) = []
      · rw [hnil, List.append_nil, List.dropLast_nil, List.drop_eq_nil_of_le]
        rw [List.length_dropLast, List.countP_eq_length_filter]
        omega
      · rw [List.dropLast_append_of_ne_nil hnil, List.drop_left' List.countP_eq_length_filter.symm]
  · rw [if_neg hc, if_neg hc, List.countP_cons_of_neg (by simpa using hc), hsplit,
      List.drop_left' List.countP_eq_length_filter.symm]

end Use

section Way

variable (L n stack)

/-- The rows from the root down to a level on the way of a member. -/
def way (x : α) : ℕ → List α
  | 0 => L.row n stack 0 (L.cls 0 x)
  | d + 1 => way x d ++ L.row n stack (d + 1) (L.cls (d + 1) x)

variable {L n stack}

/-- The rows on the way, seen from their last level, are its set. -/
theorem filter_way (x : α) (d : ℕ) :
    (L.way n stack x d).filter (fun a => L.cls d a = L.cls d x) = L.held n stack d (L.cls d x) := by
  induction d with
  | zero =>
    rw [way, row]
    refine List.filter_eq_self.2 fun a ha => ?_
    simpa using cls_of_held ha
  | succ d ih =>
    have hrow : (L.row n stack (d + 1) (L.cls (d + 1) x)).filter (fun a => decide (L.cls (d + 1) a = L.cls (d + 1) x)) =
        L.row n stack (d + 1) (L.cls (d + 1) x) :=
      List.filter_eq_self.2 fun a ha => by simpa using cls_of_row ha
    rw [way, List.filter_append, hrow, held_succ, L.parent_cls, ← ih, List.filter_filter]
    congr 1
    refine List.filter_congr fun a _ => ?_
    by_cases ha : L.cls (d + 1) a = L.cls (d + 1) x
    · have hup : L.cls d a = L.cls d x := by rw [← L.parent_cls, ha, L.parent_cls]
      simp [ha, hup]
    · simp [ha]

/-- The rows of further levels follow. -/
theorem way_prefix (x : α) {d e : ℕ} (h : d ≤ e) : L.way n stack x d <+: L.way n stack x e := by
  induction h with
  | refl => exact List.prefix_refl _
  | step h ih => exact ih.trans (List.prefix_append _ _)

theorem mem_way_iff (x : α) (d : ℕ) : x ∈ L.way n stack x d ↔ x ∈ L.held n stack d (L.cls d x) := by
  rw [← filter_way, List.mem_filter]
  simp

variable [DecidableEq α] {h i : ℕ}

/-- The members in front of a found one that share its class of a level are those that were used after it, if the level is
not above the one where it was found. -/
theorem countP_before_below (hfound : x ∈ L.held n stack h (L.cls h x)) (hi : h ≤ i) :
    (before x (L.way n stack x h)).countP (fun a => L.cls i a = L.cls i x) =
      (L.members stack i (L.cls i x)).idxOf x := by
  have hway := (mem_way_iff x h).2 hfound
  obtain ⟨rest, hrest⟩ : L.way n stack x h <+: L.way n stack x i := way_prefix x hi
  have hheld : x ∈ L.held n stack i (L.cls i x) := by
    rw [← mem_way_iff, ← hrest]
    exact List.mem_append_left _ hway
  rw [← before_append_of_mem (m := rest) hway, hrest, List.countP_eq_length_filter, filter_before (by simp), filter_way,
    length_before]
  have hsplit : L.members stack i (L.cls i x) = L.held n stack i (L.cls i x) ++ (L.members stack i (L.cls i x)).drop n :=
    (List.take_append_drop _ _).symm
  rw [hsplit, List.idxOf_append_of_mem hheld]

/-- The members in front of a found one fill every set above in which it was not found. -/
theorem le_countP_before_above (hmissed : x ∉ L.held n stack i (L.cls i x)) (hi : i ≤ h)
    (hfull : (L.held n stack i (L.cls i x)).length = n) :
    n ≤ (before x (L.way n stack x h)).countP fun a => L.cls i a = L.cls i x := by
  obtain ⟨rest, hrest⟩ : L.way n stack x i <+: L.way n stack x h := way_prefix x hi
  have hway : x ∉ L.way n stack x i := fun hmem => hmissed ((mem_way_iff x i).1 hmem)
  have hcount : (L.way n stack x i).countP (fun a => decide (L.cls i a = L.cls i x)) = n := by
    rw [List.countP_eq_length_filter, filter_way, hfull]
  rw [← hrest, before_append_of_not_mem hway, List.countP_append, hcount]
  exact Nat.le_add_right _ _

end Way

end Levels

end LifeSim.Lib
