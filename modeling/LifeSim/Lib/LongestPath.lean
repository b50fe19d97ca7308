import Mathlib.Data.List.Nodup
import Mathlib.Logic.Function.Basic
import Mathlib.Order.Bounds.Basic
import Mathlib.Order.MinMax

/-!
# The heaviest path of dependencies

The nodes are listed so that what a node depends on comes after it. One sweep over the list with a mark for each node
finds the greatest weight of a path of dependencies, and leaves no mark. A mark is a machine word, so that the weights
must fit.
-/

namespace LifeSim.Lib

variable {α β : Type*} {deps : α → List α} {weight mark : α → ℕ} {modulus n v : ℕ} {root s d : α} {nodes : List α}

/-- A path of dependencies from the root down to a node, with the weight of its nodes, the root apart. -/
inductive DepPath (deps : α → List α) (weight : α → ℕ) (root : α) : α → ℕ → Prop
  | direct {d : α} (hd : d ∈ deps root) : DepPath deps weight root d (weight d)
  | step {s d : α} {v : ℕ} (hpath : DepPath deps weight root s v) (hd : d ∈ deps s) :
      DepPath deps weight root d (weight d + v)

/-- The weights of the paths, and zero. -/
def pathWeights (deps : α → List α) (weight : α → ℕ) (root : α) : Set ℕ :=
  insert 0 {v | ∃ d, DepPath deps weight root d v}

/-- The same paths under other names for the nodes. -/
theorem DepPath.map {deps' : β → List β} {weight' : β → ℕ} {f : α → β} {p : α → Prop} (hroot : p root)
    (hdeps : ∀ s, p s → deps' (f s) = (deps s).map f) (hclosed : ∀ s, p s → ∀ d ∈ deps s, p d)
    (hweight : ∀ s, p s → weight' (f s) = weight s) :
    pathWeights deps' weight' (f root) = pathWeights deps weight root := by
  have hto {d : α} {v : ℕ} (h : DepPath deps weight root d v) : p d ∧ DepPath deps' weight' (f root) (f d) v := by
    induction h with
    | @direct d hd =>
      have hp := hclosed root hroot d hd
      refine ⟨hp, hweight d hp ▸ .direct ?_⟩
      rw [hdeps root hroot]
      exact List.mem_map_of_mem hd
    | @step s d v _ hd ih =>
      have hp := hclosed s ih.1 d hd
      refine ⟨hp, hweight d hp ▸ .step ih.2 ?_⟩
      rw [hdeps s ih.1]
      exact List.mem_map_of_mem hd
  have hfrom {y : β} {v : ℕ} (h : DepPath deps' weight' (f root) y v) :
      ∃ d, p d ∧ f d = y ∧ DepPath deps weight root d v := by
    induction h with
    | direct hd =>
      rw [hdeps root hroot] at hd
      obtain ⟨d, hmem, rfl⟩ := List.mem_map.1 hd
      have hp := hclosed root hroot d hmem
      exact ⟨d, hp, rfl, hweight d hp ▸ .direct hmem⟩
    | step _ hd ih =>
      obtain ⟨s, hs, rfl, hpath⟩ := ih
      rw [hdeps s hs] at hd
      obtain ⟨d, hmem, rfl⟩ := List.mem_map.1 hd
      have hp := hclosed s hs d hmem
      exact ⟨d, hp, rfl, hweight d hp ▸ .step hpath hmem⟩
  refine congrArg (insert 0) (Set.ext fun v => ⟨fun h => ?_, fun h => ?_⟩)
  · obtain ⟨y, hy⟩ := h
    obtain ⟨d, -, -, hd⟩ := hfrom hy
    exact ⟨d, hd⟩
  · obtain ⟨d, hd⟩ := h
    exact ⟨f d, (hto hd).2⟩

/-- What a node depends on comes after it. -/
def Topological (deps : α → List α) : List α → Prop
  | [] => True
  | s :: rest => s ∉ rest ∧ (∀ d ∈ deps s, d ∈ rest) ∧ Topological deps rest

/-- The order under other names for the nodes. -/
theorem Topological.map {deps' : β → List β} {f : α → β} (hdeps : ∀ s ∈ nodes, deps' (f s) = (deps s).map f)
    (hinj : ∀ a ∈ nodes, ∀ b ∈ nodes, f a = f b → a = b) (h : Topological deps nodes) :
    Topological deps' (nodes.map f) := by
  induction nodes with
  | nil => exact trivial
  | cons s rest ih =>
    obtain ⟨hs, hlater, hrest⟩ := h
    refine ⟨fun hmem => ?_, fun y hy => ?_, ih (fun e he => hdeps e (List.mem_cons_of_mem _ he))
      (fun a ha b hb => hinj a (List.mem_cons_of_mem _ ha) b (List.mem_cons_of_mem _ hb)) hrest⟩
    · obtain ⟨e, he, heq⟩ := List.mem_map.1 hmem
      exact hs (hinj e (List.mem_cons_of_mem _ he) s List.mem_cons_self heq ▸ he)
    · rw [hdeps s List.mem_cons_self] at hy
      obtain ⟨d, hd, rfl⟩ := List.mem_map.1 hy
      exact List.mem_map_of_mem (hlater d hd)

variable [DecidableEq α]

/-- A path through a marked node leads to what it depends on. -/
def raise (modulus : ℕ) (weight : α → ℕ) (s : α) (mark : α → ℕ) (d : α) : α → ℕ :=
  Function.update mark d (max ((weight d + mark s) % modulus) (mark d))

/-- The marks, and the greatest weight so far. -/
structure Sweep (α : Type*) where
  mark : α → ℕ
  longest : ℕ

/-- A marked node is left with its mark taken away. -/
def Sweep.visit (modulus : ℕ) (deps : α → List α) (weight : α → ℕ) (x : Sweep α) (s : α) : Sweep α :=
  if x.mark s = 0 then x
  else
    let mark := (deps s).foldl (raise modulus weight s) x.mark
    ⟨Function.update mark s 0, max x.longest (mark s)⟩

/-- What the root depends on is marked. -/
def firstMarks (deps : α → List α) (weight : α → ℕ) (root : α) (mark : α → ℕ) : α → ℕ :=
  (deps root).foldl (fun mark d => Function.update mark d (weight d)) mark

/-- The whole sweep. -/
def sweep (modulus : ℕ) (deps : α → List α) (weight : α → ℕ) (root : α) (nodes : List α) (mark : α → ℕ) : Sweep α :=
  nodes.foldl (Sweep.visit modulus deps weight) ⟨firstMarks deps weight root mark, 0⟩

/-! ### The marks -/

theorem foldl_raise {l : List α} (hs : s ∉ l) (mark : α → ℕ) (d : α) :
    l.foldl (raise modulus weight s) mark d =
      if d ∈ l then max ((weight d + mark s) % modulus) (mark d) else mark d := by
  induction l generalizing mark with
  | nil => rfl
  | cons e l ih =>
    rw [List.mem_cons, not_or] at hs
    have hself : raise modulus weight s mark e s = mark s := Function.update_of_ne hs.1 _ _
    rw [List.foldl_cons, ih hs.2, hself]
    by_cases he : d = e
    · subst he
      have hnew : raise modulus weight s mark d d = max ((weight d + mark s) % modulus) (mark d) :=
        Function.update_self ..
      rw [hnew, if_pos List.mem_cons_self, ← max_assoc, max_self, ite_self]
    · have hold : raise modulus weight s mark e d = mark d := Function.update_of_ne he _ _
      simp only [hold, List.mem_cons, he, false_or]

theorem firstMarks_apply (mark : α → ℕ) (d : α) :
    firstMarks deps weight root mark d = if d ∈ deps root then weight d else mark d := by
  rw [firstMarks]
  induction deps root generalizing mark with
  | nil => rfl
  | cons e l ih =>
    rw [List.foldl_cons, ih]
    by_cases he : d = e
    · subst he
      rw [Function.update_self, if_pos List.mem_cons_self, ite_self]
    · simp only [Function.update_of_ne he, List.mem_cons, he, false_or]

/-- Visiting a node takes its mark away and raises those of what it depends on. -/
theorem visit_mark (hs : s ∉ deps s) {x : Sweep α} (hmark : x.mark s ≠ 0) (d : α) :
    (x.visit modulus deps weight s).mark d =
      if d = s then 0
      else if d ∈ deps s then max ((weight d + x.mark s) % modulus) (x.mark d) else x.mark d := by
  rw [Sweep.visit, if_neg hmark]
  by_cases hd : d = s
  · rw [if_pos hd, hd]
    exact Function.update_self ..
  · rw [if_neg hd, ← foldl_raise hs]
    exact Function.update_of_ne hd _ _

/-- After the sweep there is no mark, whatever the weights are. -/
theorem foldl_visit_mark (htop : Topological deps nodes) {x : Sweep α} (hmark : ∀ d, x.mark d ≠ 0 → d ∈ nodes) :
    (nodes.foldl (Sweep.visit modulus deps weight) x).mark = fun _ => 0 := by
  induction nodes generalizing x with
  | nil =>
    funext d
    by_contra hne
    cases hmark d hne
  | cons s rest ih =>
    obtain ⟨hs, hdeps, hrest⟩ := htop
    refine ih hrest fun d hd => ?_
    by_cases hzero : x.mark s = 0
    · rw [Sweep.visit, if_pos hzero] at hd
      refine (List.mem_cons.1 (hmark d hd)).resolve_left fun heq => ?_
      exact hd (heq ▸ hzero)
    · rw [visit_mark (fun h => hs (hdeps s h)) hzero] at hd
      split_ifs at hd with heq hmem
      · exact absurd rfl hd
      · exact hdeps d hmem
      · exact (List.mem_cons.1 (hmark d hd)).resolve_left heq

/-! ### The greatest weight -/

/-- A path that goes on from a mark. -/
inductive MarkPath (deps : α → List α) (weight mark : α → ℕ) : α → ℕ → Prop
  | mark {d : α} (hd : mark d ≠ 0) : MarkPath deps weight mark d (mark d)
  | step {s d : α} {v : ℕ} (hpath : MarkPath deps weight mark s v) (hd : d ∈ deps s) :
      MarkPath deps weight mark d (weight d + v)

omit [DecidableEq α] in
/-- The paths from the marks stay among the nodes, and the only one to the first node is its mark. -/
theorem MarkPath.first {rest : List α} (hs : s ∉ rest) (hdeps : ∀ d ∈ deps s, d ∈ rest)
    (hrest : ∀ e ∈ rest, ∀ d ∈ deps e, d ∈ rest) (hmark : ∀ d, mark d ≠ 0 → d ∈ s :: rest)
    (h : MarkPath deps weight mark d v) : d ∈ rest ∨ (d = s ∧ v = mark s) := by
  induction h with
  | mark hd =>
    rcases List.mem_cons.1 (hmark _ hd) with rfl | hmem
    · exact .inr ⟨rfl, rfl⟩
    · exact .inl hmem
  | step _ hd ih =>
    rcases ih with hmem | ⟨rfl, rfl⟩
    · exact .inl (hrest _ hmem _ hd)
    · exact .inl (hdeps _ hd)

omit [DecidableEq α] in
theorem Topological.closed (htop : Topological deps nodes) : ∀ e ∈ nodes, ∀ d ∈ deps e, d ∈ nodes := by
  induction nodes with
  | nil => intro e he; cases he
  | cons s rest ih =>
    intro e he d hd
    rcases List.mem_cons.1 he with rfl | he
    · exact List.mem_cons_of_mem _ (htop.2.1 d hd)
    · exact List.mem_cons_of_mem _ (ih htop.2.2 e he d hd)

/-- A path from the marks after a visit is one from the marks before it. -/
theorem MarkPath.of_visit (hs : s ∉ deps s) {x : Sweep α} (hzero : x.mark s ≠ 0)
    (hfit : ∀ d ∈ deps s, weight d + x.mark s < modulus)
    (h : MarkPath deps weight (x.visit modulus deps weight s).mark d v) : MarkPath deps weight x.mark d v := by
  induction h with
  | @mark d hd =>
    rw [visit_mark hs hzero] at hd ⊢
    split_ifs at hd ⊢ with heq hmem
    · exact absurd rfl hd
    · rw [Nat.mod_eq_of_lt (hfit d hmem)] at hd ⊢
      rcases le_total (weight d + x.mark s) (x.mark d) with hle | hle
      · rw [max_eq_right hle] at hd ⊢
        exact .mark hd
      · rw [max_eq_left hle]
        exact .step (.mark hzero) hmem
    · exact .mark hd
  | step _ hd ih => exact .step ih hd

/-- A path from the marks before a visit, if it is not to the node itself, is not heavier than one from the marks after.
-/
theorem MarkPath.to_visit (hs : s ∉ deps s) {x : Sweep α} (hzero : x.mark s ≠ 0)
    (hfit : ∀ d ∈ deps s, weight d + x.mark s < modulus) (hmarks : ∀ u, MarkPath deps weight x.mark s u → u = x.mark s)
    (hd : d ≠ s) (h : MarkPath deps weight x.mark d v) :
    ∃ u, v ≤ u ∧ MarkPath deps weight (x.visit modulus deps weight s).mark d u := by
  induction h with
  | @mark d hne =>
    have hle : x.mark d ≤ (x.visit modulus deps weight s).mark d := by
      rw [visit_mark hs hzero, if_neg hd]
      split_ifs
      · exact le_max_right _ _
      · exact le_refl _
    exact ⟨_, hle, .mark (by omega)⟩
  | @step e d v hpath hmem ih =>
    by_cases he : e = s
    · subst he
      have hle : weight d + x.mark e ≤ (x.visit modulus deps weight e).mark d := by
        rw [visit_mark hs hzero, if_neg hd, if_pos hmem, Nat.mod_eq_of_lt (hfit d hmem)]
        exact le_max_left _ _
      rw [hmarks v hpath]
      exact ⟨_, hle, .mark (by omega)⟩
    · obtain ⟨u, hle, hu⟩ := ih he
      exact ⟨weight d + u, Nat.add_le_add_left hle _, .step hu hmem⟩

/-- The sweep finds the greatest weight of a path from the marks. -/
theorem foldl_visit_longest (htop : Topological deps nodes) {x : Sweep α} (hmark : ∀ d, x.mark d ≠ 0 → d ∈ nodes)
    (hfit : ∀ d v, MarkPath deps weight x.mark d v → v < modulus) :
    IsGreatest (insert x.longest {v | ∃ d, MarkPath deps weight x.mark d v})
      (nodes.foldl (Sweep.visit modulus deps weight) x).longest := by
  induction nodes generalizing x with
  | nil =>
    refine ⟨.inl rfl, ?_⟩
    rintro v (rfl | ⟨d, hd⟩)
    · exact le_refl _
    · have hnone : False := by
        induction hd with
        | mark hne => cases hmark _ hne
        | step _ _ ih => exact ih
      exact hnone.elim
  | cons s rest ih =>
    obtain ⟨hs, hdeps, hrest⟩ := htop
    have hself : s ∉ deps s := fun h => hs (hdeps s h)
    have hfirst {d : α} {v : ℕ} (h : MarkPath deps weight x.mark d v) : d ∈ rest ∨ (d = s ∧ v = x.mark s) :=
      h.first hs hdeps hrest.closed hmark
    by_cases hzero : x.mark s = 0
    · rw [List.foldl_cons, Sweep.visit, if_pos hzero]
      refine ih hrest (fun d hd => ?_) hfit
      exact (List.mem_cons.1 (hmark d hd)).resolve_left fun heq => hd (heq ▸ hzero)
    · have hfits (d : α) (hd : d ∈ deps s) : weight d + x.mark s < modulus := hfit d _ (.step (.mark hzero) hd)
      have hown (u : ℕ) (h : MarkPath deps weight x.mark s u) : u = x.mark s :=
        ((hfirst h).resolve_left hs).2
      have hlongest : (x.visit modulus deps weight s).longest = max x.longest (x.mark s) := by
        rw [Sweep.visit, if_neg hzero]
        exact congrArg (max x.longest) ((foldl_raise hself _ _).trans (if_neg hself))
      have hgreatest := ih hrest (x := x.visit modulus deps weight s)
        (fun d hd => by
          rw [visit_mark hself hzero] at hd
          split_ifs at hd with heq hmem
          · exact absurd rfl hd
          · exact hdeps d hmem
          · exact (List.mem_cons.1 (hmark d hd)).resolve_left heq)
        fun d v h => hfit d v (h.of_visit hself hzero hfits)
      rw [hlongest] at hgreatest
      constructor
      · rcases hgreatest.1 with heq | ⟨d, hd⟩
        · rw [List.foldl_cons, heq]
          rcases max_choice x.longest (x.mark s) with hmax | hmax
          · exact .inl hmax
          · refine .inr ⟨s, ?_⟩
            rw [hmax]
            exact .mark hzero
        · exact .inr ⟨d, hd.of_visit hself hzero hfits⟩
      · rintro v (rfl | ⟨d, hd⟩)
        · exact le_trans (le_max_left _ _) (hgreatest.2 (.inl rfl))
        · by_cases heq : d = s
          · subst heq
            rw [hown v hd]
            exact le_trans (le_max_right _ _) (hgreatest.2 (.inl rfl))
          · obtain ⟨u, hle, hu⟩ := hd.to_visit hself hzero hfits hown heq
            exact le_trans hle (hgreatest.2 (.inr ⟨d, hu⟩))

/-! ### The sweep from the root -/

theorem firstMarks_mem (hroot : ∀ d ∈ deps root, d ∈ nodes) (hd : firstMarks deps weight root (fun _ => 0) d ≠ 0) :
    d ∈ nodes := by
  rw [firstMarks_apply] at hd
  split_ifs at hd with hmem
  · exact hroot d hmem
  · exact absurd rfl hd

theorem sweep_mark (hroot : ∀ d ∈ deps root, d ∈ nodes) (htop : Topological deps nodes) :
    (sweep modulus deps weight root nodes fun _ => 0).mark = fun _ => 0 :=
  foldl_visit_mark htop fun _ hd => firstMarks_mem hroot hd

/-- If the weights of the paths fit into a word, the sweep finds the greatest one. -/
theorem sweep_longest (hroot : ∀ d ∈ deps root, d ∈ nodes) (htop : Topological deps nodes)
    (hpos : ∀ d ∈ nodes, 0 < weight d) (hfit : ∀ v ∈ pathWeights deps weight root, v < modulus) :
    IsGreatest (pathWeights deps weight root) (sweep modulus deps weight root nodes fun _ => 0).longest := by
  have hiff (d : α) (v : ℕ) :
      MarkPath deps weight (firstMarks deps weight root fun _ => 0) d v ↔ DepPath deps weight root d v := by
    constructor
    · intro h
      induction h with
      | mark hd =>
        rw [firstMarks_apply] at hd ⊢
        split_ifs at hd ⊢ with hmem
        · exact .direct hmem
        · exact absurd rfl hd
      | step _ hd ih => exact .step ih hd
    · intro h
      induction h with
      | @direct d hd =>
        have hmark : firstMarks deps weight root (fun _ => 0) d = weight d :=
          (firstMarks_apply _ d).trans (if_pos hd)
        rw [← hmark]
        refine .mark ?_
        rw [hmark]
        exact (hpos d (hroot d hd)).ne'
      | step _ hd ih => exact .step ih hd
  have hgreatest : IsGreatest (insert 0 {v | ∃ d, MarkPath deps weight (firstMarks deps weight root fun _ => 0) d v})
      (sweep modulus deps weight root nodes fun _ => 0).longest :=
    foldl_visit_longest htop (fun _ hd => firstMarks_mem hroot hd) fun d v h => hfit v (.inr ⟨d, (hiff d v).1 h⟩)
  simp only [hiff] at hgreatest
  exact hgreatest

end LifeSim.Lib
