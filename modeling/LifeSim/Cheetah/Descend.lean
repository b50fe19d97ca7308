import LifeSim.Cheetah.Rows

/-!
# A search goes down the tree

The rows of a tree are those of the stack of its tags. A search that has come to a level has changed the rows of the levels
above to those of the stack to whose front the tag is moved. It brings the last member of the set above, and has counted
the entries of the rows on the way by the number of low bits that they share with the tag.
-/

namespace LifeSim.Cheetah

open LifeSim.Lib LifeSim.Lib.Levels

/-- The low bits of a tag. -/
def tagLevels : Levels ℕ ℕ where
  cls d tag := tag % 2 ^ d
  parent d r := r % 2 ^ d
  parent_cls d tag := Nat.mod_mod_of_dvd tag (Nat.pow_dvd_pow 2 (Nat.le_succ d))

/-- The rows of the stacks of all trees. -/
def stackRows (p : Params) (order : ℕ → List ℕ) (set d r : ℕ) : List ℕ := tagLevels.row p.twoPwrN (order set) d r

variable {p : Params} {rows rows' : ℕ → ℕ → ℕ → List ℕ} {set d x y : ℕ} {s : Search}

section Level

/-- A row loses an entry, and one of the same level gets another one. -/
def moved (rows : ℕ → ℕ → ℕ → List ℕ) (set d x y : ℕ) : ℕ → ℕ → ℕ → List ℕ :=
  let rows' := setRow rows set d (x % 2 ^ d) (dropped x (rows set d (x % 2 ^ d)))
  setRow rows' set d (y % 2 ^ d) (y :: rows' set d (y % 2 ^ d))

/-- Other trees and other levels stay. -/
theorem moved_apart {t e q : ℕ} (h : ¬ (t = set ∧ e = d)) : moved rows set d x y t e q = rows t e q := by
  unfold moved setRow
  rw [if_neg fun heq => h ⟨heq.1, heq.2.1⟩, if_neg fun heq => h ⟨heq.1, heq.2.1⟩]

theorem moved_level (rows : ℕ → ℕ → ℕ → List ℕ) (set d x y q : ℕ) : moved rows set d x y set d q =
    if q = y % 2 ^ d then
      y :: (if q = x % 2 ^ d then dropped x (rows set d q) else rows set d q)
    else if q = x % 2 ^ d then dropped x (rows set d q) else rows set d q := by
  unfold moved setRow
  by_cases hy : q = y % 2 ^ d
  · subst hy
    by_cases hx : y % 2 ^ d = x % 2 ^ d
    · simp [hx]
    · simp [hx]
  · by_cases hx : q = x % 2 ^ d
    · simp [← hx, hy]
    · simp [hx, hy]

theorem Represents.of_eq {arr : ℕ → ℕ} (h : Represents p arr rows)
    (heq : ∀ set < 2 ^ p.A, ∀ d ≤ p.maxDepth, ∀ r < 2 ^ d, rows' set d r = rows set d r) : Represents p arr rows' := by
  intro set hset d hd r hr
  rw [heq set hset d hd r hr]
  exact h set hset d hd r hr

/-- The loop over a row and what comes after it. -/
theorem Represents.moved (h : Represents p s.arr rows) (hset : set < 2 ^ p.A) (hd : d ≤ p.maxDepth)
    (hl : rows set d (x % 2 ^ d) ≠ [])
    (hroom : (Cheetah.setRow rows set d (x % 2 ^ d) (dropped x (rows set d (x % 2 ^ d))) set d (s.atag % 2 ^ d)).length <
      p.twoPwrN) :
    Represents p
      (moveIn p (p.arrPtr set) (rowPtr p set d (x % 2 ^ d)) d
        (scanRow p x (rowPtr p set d (x % 2 ^ d)) (rows set d (x % 2 ^ d)).length
          (s.arr (rowPtr p set d (x % 2 ^ d))) s).1).arr
      (Cheetah.moved rows set d x s.atag) := by
  have hmod (tag : ℕ) : tag % 2 ^ d < 2 ^ d := Nat.mod_lt _ (by positivity)
  have hrow := h set hset d hd _ (hmod x)
  have hscan := scanRow_scanned p x (rowPtr p set d (x % 2 ^ d)) (rows set d (x % 2 ^ d)).length
    (s.arr (rowPtr p set d (x % 2 ^ d))) s
  generalize hs₁ : (scanRow p x (rowPtr p set d (x % 2 ^ d)) (rows set d (x % 2 ^ d)).length
    (s.arr (rowPtr p set d (x % 2 ^ d))) s) = scan at hscan ⊢
  generalize hptr : rowPtr p set d (x % 2 ^ d) = ptr at hrow hscan ⊢
  generalize hrows : rows set d (x % 2 ^ d) = l at hrow hscan hl hroom ⊢
  have hfirst := hrow.first_pos
  have hcount := hrow.count
  have hstart : scan.1.arr ptr = s.arr ptr := hscan.frame _ (Or.inl (by omega))
  -- the row without the location that the loop has filled
  have htail : RowIs p (Function.update scan.1.arr ptr (scan.1.arr ptr + 1)) ptr (dropped x l) := by
    have hlength := length_dropped (x := x) hl
    refine RowIs.tail (y := s.tag) (by omega) (by omega) ?_
    rw [hstart, hlength, hscan.row (by omega), hrow.slots]
  have hout : Represents p (Function.update scan.1.arr ptr (scan.1.arr ptr + 1))
      (Cheetah.setRow rows set d (x % 2 ^ d) (dropped x l)) := by
    refine h.setRow hd (hmod x) (fun j hj => ?_) (hptr ▸ htail)
    rw [hptr] at hj
    have hne : j ≠ ptr := hj 0 (Nat.zero_le _)
    rw [Function.update_of_ne hne]
    apply hscan.frame
    by_contra hin
    exact hj (j - ptr) (by omega) (by omega)
  have hin := (hout set hset d hd _ (hmod s.atag)).push s.atag hroom
  have hatag : scan.1.atag = s.atag := hscan.atag
  unfold moveIn Cheetah.moved
  simp only [hatag, rowPtr_mod, Function.update_self, hrows]
  refine hout.setRow hd (hmod s.atag) (fun j hj => ?_) hin
  have hle : Function.update scan.1.arr ptr (scan.1.arr ptr + 1) (rowPtr p set d (s.atag % 2 ^ d)) - 1 ≤ p.twoPwrN := by
    have hc := (hout set hset d hd _ (hmod s.atag)).count
    omega
  have hne : j ≠ rowPtr p set d (s.atag % 2 ^ d) := hj 0 (Nat.zero_le _)
  rw [Function.update_of_ne (hj _ hle), Function.update_of_ne hne]

end Level

section Stack

variable (p) (order : ℕ → List ℕ) (set x d y : ℕ)

/-- Every set of the stack is full. -/
def Full (stack : List ℕ) : Prop :=
  ∀ d ≤ p.maxDepth, ∀ r < 2 ^ d, p.twoPwrN ≤ (tagLevels.members stack d r).length

/-- The stacks after a use. -/
def touched : ℕ → List ℕ := Function.update order set (touch x (order set))

/-- The rows when the levels above have been searched. -/
def halfway : ℕ → ℕ → ℕ → List ℕ := fun t e q =>
  if e < d then stackRows p (touched order set x) t e q else stackRows p order t e q

/-- What the set of a tag holds. -/
def heldBy (stack : List ℕ) : List ℕ := tagLevels.held p.twoPwrN stack d (x % 2 ^ d)

/-- What goes into a row of the level: the tag, or the last member of the set above. -/
def Brings (stack : List ℕ) : ℕ → ℕ → Prop
  | 0, y => y = x
  | d + 1, y => (heldBy p x d stack).getLast? = some y

/-- The rows of the levels that have been searched. -/
def passed (stack : List ℕ) : ℕ → List ℕ
  | 0 => []
  | d + 1 => tagLevels.way p.twoPwrN stack x d

variable {p order set x d y} {stack : List ℕ}

theorem length_heldBy (hfull : Full p stack) (hd : d ≤ p.maxDepth) : (heldBy p x d stack).length = p.twoPwrN := by
  have hle := hfull d hd (x % 2 ^ d) (Nat.mod_lt _ (by positivity))
  rw [heldBy, held, List.length_take]
  omega

theorem passed_succ : passed p x stack (d + 1) =
    passed p x stack d ++ tagLevels.row p.twoPwrN stack d (x % 2 ^ d) := by
  cases d with
  | zero => rfl
  | succ d => rfl

theorem touched_apart {t : ℕ} (h : t ≠ set) : touched order set x t = order t := Function.update_of_ne h _ _

theorem touched_self : touched order set x set = touch x (order set) := Function.update_self _ _ _

/-- A set has what the sets above it have. -/
theorem heldBy_succ (h : x ∈ heldBy p x d stack) : x ∈ heldBy p x (d + 1) stack := by
  have hway : x ∈ tagLevels.way p.twoPwrN stack x d := (mem_way_iff (L := tagLevels) x d).2 h
  exact (mem_way_iff (L := tagLevels) x (d + 1)).1 (List.mem_append_left _ hway)

theorem heldBy_of_le {e : ℕ} (hle : d ≤ e) (h : x ∈ heldBy p x d stack) : x ∈ heldBy p x e stack := by
  induction hle with
  | refl => exact h
  | step _ ih => exact heldBy_succ ih

/-- The root is the set itself. -/
theorem row_touch_root (hfull : Full p stack) : tagLevels.row p.twoPwrN (touch x stack) 0 0 =
    x :: dropped x (tagLevels.row p.twoPwrN stack 0 0) := by
  have hlength := length_heldBy (x := 0) hfull (Nat.zero_le _)
  have hcls : tagLevels.cls 0 x = 0 := Nat.mod_one x
  rw [row, row, held_touch, if_pos hcls]
  unfold dropped
  by_cases hx : x ∈ tagLevels.held p.twoPwrN stack 0 0
  · rw [if_pos hx, lruUse, if_pos hx, touch]
  · rw [if_neg hx, lruUse_full hx hlength (by unfold Params.twoPwrN; positivity)]

/-- A level is searched. -/
theorem halfway_level (hfull : Full p (order set)) (hd : d ≤ p.maxDepth)
    (hmissed : ∀ e < d, x ∉ heldBy p x e (order set)) (hy : Brings p x (order set) d y)
    (hrow : stackRows p order set d (x % 2 ^ d) ≠ []) {q : ℕ} (hq : q < 2 ^ d) :
    stackRows p (touched order set x) set d q = moved (stackRows p order) set d x y set d q := by
  unfold stackRows at hrow ⊢
  rw [moved_level, touched_self]
  cases d with
  | zero =>
    have hyx : y = x := hy
    obtain rfl : q = 0 := by omega
    rw [hyx, Nat.pow_zero, Nat.mod_one, if_pos rfl, if_pos rfl]
    exact row_touch_root hfull
  | succ d =>
    have hmiss := hmissed d (Nat.lt_succ_self d)
    have hlast : (heldBy p x d (order set)).getLast? = some y := hy
    have hmem := List.mem_of_getLast? hlast
    have hne : y ≠ x := fun heq => hmiss (heq ▸ hmem)
    have hup : y % 2 ^ d = x % 2 ^ d := cls_of_held (L := tagLevels) hmem
    have hparent (z : ℕ) : z % 2 ^ (d + 1) % 2 ^ d = z % 2 ^ d := tagLevels.parent_cls d z
    by_cases hp : q % 2 ^ d = x % 2 ^ d
    · have hsplit : heldBy p x d (order set) = (heldBy p x d (order set)).dropLast ++ [y] :=
        (List.dropLast_append_getLast? y hlast).symm
      have hnext : (tagLevels.held p.twoPwrN (order set) (d + 1) q).length = p.twoPwrN := by
        have h := length_heldBy (x := q) hfull hd
        rwa [heldBy, Nat.mod_eq_of_lt hq] at h
      have htouch := row_touch_missed (L := tagLevels) (n := p.twoPwrN) hp hsplit hmiss
        (length_heldBy hfull (Nat.le_of_succ_le hd)) hnext
      rw [htouch]
      unfold pushed
      have hcls (z : ℕ) : tagLevels.cls (d + 1) z = q ↔ q = z % 2 ^ (d + 1) := eq_comm
      simp only [hcls]
      by_cases hx : q = x % 2 ^ (d + 1)
      · rw [if_pos hx, if_pos hx]
        split
        · rw [dropped_cons hne (hx ▸ hrow)]
        · rfl
      · rw [if_neg hx, if_neg hx]
    · have hx : q ≠ x % 2 ^ (d + 1) := by
        intro h
        rw [h, hparent] at hp
        exact hp rfl
      have hy' : q ≠ y % 2 ^ (d + 1) := by
        intro h
        rw [h, hparent] at hp
        exact hp hup
      rw [if_neg hy', if_neg hx]
      exact row_touch_apart (L := tagLevels) hp

/-- An empty row is passed over with everything else of its level. -/
theorem heldBy_succ_of_empty (hfull : Full p stack) (hd : d + 1 ≤ p.maxDepth)
    (hrow : tagLevels.row p.twoPwrN stack (d + 1) (x % 2 ^ (d + 1)) = []) :
    heldBy p x (d + 1) stack = heldBy p x d stack :=
  held_succ_of_row_nil (L := tagLevels) hrow (length_heldBy hfull (Nat.le_of_succ_le hd)) (length_heldBy hfull hd)

theorem stackRows_empty (hfull : Full p (order set)) (hd : d + 1 ≤ p.maxDepth)
    (hmissed : x ∉ heldBy p x d (order set)) (hrow : stackRows p order set (d + 1) (x % 2 ^ (d + 1)) = []) {q : ℕ}
    (hq : q < 2 ^ (d + 1)) :
    stackRows p (touched order set x) set (d + 1) q = stackRows p order set (d + 1) q := by
  unfold stackRows at hrow ⊢
  rw [touched_self]
  by_cases hp : q % 2 ^ d = x % 2 ^ d
  · have hfullUp := length_heldBy (x := x) hfull (Nat.le_of_succ_le hd)
    have hne : heldBy p x d (order set) ≠ [] := by
      apply List.ne_nil_of_length_pos
      rw [hfullUp]
      exact Nat.two_pow_pos _
    have hsplit := (List.dropLast_append_getLast hne).symm
    generalize hy : (heldBy p x d (order set)).getLast hne = y at hsplit
    have hmem : y ∈ heldBy p x d (order set) := hy ▸ List.getLast_mem hne
    have hcls : tagLevels.cls (d + 1) y = x % 2 ^ (d + 1) := by
      rw [← heldBy_succ_of_empty hfull hd hrow] at hmem
      exact cls_of_held (L := tagLevels) hmem
    have hyx : x ≠ y := fun heq => hmissed (heq ▸ hmem)
    have hnext : (tagLevels.held p.twoPwrN (order set) (d + 1) q).length = p.twoPwrN := by
      have h := length_heldBy (x := q) hfull hd
      rwa [heldBy, Nat.mod_eq_of_lt hq] at h
    rw [row_touch_missed (L := tagLevels) (n := p.twoPwrN) hp hsplit hmissed hfullUp hnext, pushed]
    by_cases hx : x % 2 ^ (d + 1) = q
    · have hxq : tagLevels.cls (d + 1) x = q := hx
      rw [if_pos hxq, hcls, if_pos hx, ← hx, hrow]
      simp [dropped, hyx]
    · have hxq : tagLevels.cls (d + 1) x ≠ q := hx
      rw [if_neg hxq, hcls, if_neg hx]
  · exact row_touch_apart (L := tagLevels) hp

/-- What has been searched is as after the use. -/
theorem halfway_succ (hd : d ≤ p.maxDepth) {rows : ℕ → ℕ → ℕ → List ℕ}
    (hsame : ∀ t e q, ¬ (t = set ∧ e = d) → rows t e q = halfway p order set x d t e q)
    (hlevel : ∀ q < 2 ^ d, stackRows p (touched order set x) set d q = rows set d q) {t e q : ℕ} (hq : q < 2 ^ e) :
    halfway p order set x (d + 1) t e q = rows t e q := by
  by_cases hset : t = set ∧ e = d
  · obtain ⟨rfl, rfl⟩ := hset
    rw [halfway, if_pos (Nat.lt_succ_self e)]
    exact hlevel q hq
  · rw [hsame t e q hset, halfway, halfway]
    by_cases hlt : e < d
    · rw [if_pos hlt, if_pos (Nat.lt_succ_of_lt hlt)]
    · rw [if_neg hlt]
      split
      · have ht : t ≠ set := fun h => hset ⟨h, by omega⟩
        rw [stackRows, stackRows, touched_apart ht]
      · rfl

/-- Once the tag has been found, the levels below stay. -/
theorem halfway_found (hx : x ∈ heldBy p x d (order set)) (t e q : ℕ) :
    halfway p order set x (d + 1) t e q = stackRows p (touched order set x) t e q := by
  unfold halfway
  split
  · rfl
  · rename_i hle
    unfold stackRows
    by_cases ht : t = set
    · subst ht
      rw [touched_self]
      obtain ⟨e', rfl⟩ := Nat.exists_eq_succ_of_ne_zero (n := e) (by omega)
      exact (row_touch_found (L := tagLevels) (heldBy_of_le (by omega) hx)).symm
    · rw [touched_apart ht]

/-- The rows on the way are counted up to the tag. -/
def sharedBits (p : Params) (x : ℕ) (l : List ℕ) (t : ℕ) : ℕ := (before x l).countP fun z => p.rightMatch x z = t

/-- A search that has not found the tag above a level. -/
structure Going (p : Params) (order : ℕ → List ℕ) (set x d : ℕ) (s : Search) : Prop where
  rows : Represents p s.arr (halfway p order set x d)
  missed : ∀ e < d, x ∉ heldBy p x e (order set)
  atag : Brings p x (order set) d s.atag
  depths : s.depths = sharedBits p x (passed p x (order set) d)

/-- What a search has found. -/
structure Found (p : Params) (order : ℕ → List ℕ) (set x : ℕ) (sacHits : ℕ → ℕ → ℕ) (r : Search × (ℕ → ℕ → ℕ)) :
    Prop where
  rows : Represents p r.1.arr (stackRows p (touched order set x))
  sacHits : r.2 =
    if x ∈ heldBy p x p.maxDepth (order set) then
      countHits p (sharedBits p x (passed p x (order set) (p.maxDepth + 1))) (p.maxDepth + 1) 0 sacHits
    else sacHits

/-- Nothing counts behind the tag. -/
theorem sharedBits_found (hd : d ≤ p.maxDepth) (hx : x ∈ heldBy p x d stack) :
    sharedBits p x (passed p x stack (d + 1)) = sharedBits p x (passed p x stack (p.maxDepth + 1)) := by
  have hway : x ∈ tagLevels.way p.twoPwrN stack x d := (mem_way_iff (L := tagLevels) x d).2 hx
  obtain ⟨rest, hrest⟩ : tagLevels.way p.twoPwrN stack x d <+: tagLevels.way p.twoPwrN stack x p.maxDepth :=
    way_prefix x hd
  funext t
  rw [sharedBits, sharedBits, passed, passed, ← hrest, before_append_of_mem hway]

theorem halfway_self {q : ℕ} : halfway p order set x d set d q = stackRows p order set d q := if_neg (Nat.lt_irrefl d)

theorem moved_halfway {q : ℕ} :
    moved (halfway p order set x d) set d x y set d q = moved (stackRows p order) set d x y set d q := by
  rw [moved_level, moved_level, halfway_self]

/-- A set has what it has beyond the sets above in its row. -/
theorem mem_row_iff (hmissed : ∀ e < d, x ∉ heldBy p x e (order set)) :
    x ∈ stackRows p order set d (x % 2 ^ d) ↔ x ∈ heldBy p x d (order set) := by
  constructor
  · exact mem_held_of_row (L := tagLevels)
  · intro h
    cases d with
    | zero => exact h
    | succ d => exact mem_row (L := tagLevels) h (hmissed d (Nat.lt_succ_self d))

namespace Going

theorem row (h : Going p order set x d s) (hset : set < 2 ^ p.A) (hd : d ≤ p.maxDepth) :
    RowIs p s.arr (rowPtr p set d (x % 2 ^ d)) (stackRows p order set d (x % 2 ^ d)) := by
  rw [← halfway_self (x := x)]
  exact h.rows set hset d hd _ (Nat.mod_lt _ (Nat.two_pow_pos d))

/-- An empty row is passed over. -/
theorem empty (h : Going p order set x d s) (hfull : Full p (order set)) (hd : d ≤ p.maxDepth) (hpos : d ≠ 0)
    (hrow : stackRows p order set d (x % 2 ^ d) = []) : Going p order set x (d + 1) s := by
  obtain ⟨d, rfl⟩ := Nat.exists_eq_succ_of_ne_zero hpos
  have hsame : heldBy p x (d + 1) (order set) = heldBy p x d (order set) := heldBy_succ_of_empty hfull hd hrow
  have hmiss := h.missed d (Nat.lt_succ_self d)
  refine ⟨h.rows.of_eq fun t _ e _ q hq => ?_, fun e he => ?_, ?_, ?_⟩
  · refine halfway_succ hd (fun _ _ _ _ => rfl) (fun r hr => ?_) hq
    rw [halfway_self]
    exact stackRows_empty hfull hd hmiss hrow hr
  · rcases Nat.lt_succ_iff_lt_or_eq.1 he with hlt | rfl
    · exact h.missed e hlt
    · rw [hsame]
      exact hmiss
  · have hbrings : (heldBy p x d (order set)).getLast? = some s.atag := h.atag
    rw [Brings, hsame, hbrings]
  · have hnil : tagLevels.row p.twoPwrN (order set) (d + 1) (x % 2 ^ (d + 1)) = [] := hrow
    rw [h.depths, passed_succ (d := d + 1), hnil, List.append_nil]

/-- A row is searched. -/
theorem scan (h : Going p order set x d s) (hfull : Full p (order set)) (hset : set < 2 ^ p.A) (hd : d ≤ p.maxDepth)
    (hrow : stackRows p order set d (x % 2 ^ d) ≠ []) {r : Search × Bool} {s' : Search}
    (hr : scanRow p x (rowPtr p set d (x % 2 ^ d)) (stackRows p order set d (x % 2 ^ d)).length
      (s.arr (rowPtr p set d (x % 2 ^ d))) s = r)
    (hs' : moveIn p (p.arrPtr set) (rowPtr p set d (x % 2 ^ d)) d r.1 = s') :
    Represents p s'.arr (halfway p order set x (d + 1)) ∧
      s'.depths = sharedBits p x (passed p x (order set) (d + 1)) ∧
      (r.2 = true ↔ x ∈ heldBy p x d (order set)) ∧
      (x ∉ heldBy p x d (order set) → Brings p x (order set) (d + 1) s'.tag) := by
  have hlevel (q : ℕ) (hq : q < 2 ^ d) := halfway_level hfull hd h.missed h.atag hrow hq
  have hslots := (h.row hset hd).slots
  have hscan := scanRow_scanned p x (rowPtr p set d (x % 2 ^ d)) (stackRows p order set d (x % 2 ^ d)).length
    (s.arr (rowPtr p set d (x % 2 ^ d))) s
  rw [hr] at hscan
  obtain ⟨hhit, _, hlast, hdepths, _, _⟩ := hscan
  rw [hslots] at hhit hdepths hlast
  have hnot : x ∉ passed p x (order set) d := by
    cases d with
    | zero => exact List.not_mem_nil
    | succ d =>
      intro hmem
      exact h.missed d (Nat.lt_succ_self d) ((mem_way_iff (L := tagLevels) x d).1 hmem)
  refine ⟨?_, ?_, hhit.trans (mem_row_iff h.missed), fun hmiss => ?_⟩
  · have hroom : (setRow (halfway p order set x d) set d (x % 2 ^ d)
        (dropped x (halfway p order set x d set d (x % 2 ^ d))) set d (s.atag % 2 ^ d)).length < p.twoPwrN := by
      have hle : (tagLevels.row p.twoPwrN (touched order set x set) d (s.atag % 2 ^ d)).length ≤ p.twoPwrN :=
        length_row_le
      have hlevel' := hlevel (s.atag % 2 ^ d) (Nat.mod_lt _ (Nat.two_pow_pos d))
      rw [stackRows, ← moved_halfway, moved, setRow_self] at hlevel'
      rw [hlevel', List.length_cons] at hle
      exact hle
    have hmoved := h.rows.moved hset hd (by rw [halfway_self]; exact hrow) hroom
    rw [halfway_self, hr, hs'] at hmoved
    refine hmoved.of_eq fun t _ e _ q hq => ?_
    refine halfway_succ hd (fun _ _ _ hne => moved_apart hne) (fun q hq => ?_) hq
    rw [moved_halfway]
    exact hlevel q hq
  · funext t
    have hkeep : s'.depths = r.1.depths := hs' ▸ rfl
    rw [hkeep, hdepths t, h.depths, passed_succ, sharedBits, sharedBits, before_append_of_not_mem hnot, List.countP_append]
    congr 1
    have hall := before_append_of_not_mem (m := []) hnot
    rw [List.append_nil] at hall
    rw [hall, before, List.takeWhile_nil, List.append_nil]
  · have hkeep : s'.tag = r.1.tag := hs' ▸ rfl
    have hmiss' : x ∉ stackRows p order set d (x % 2 ^ d) := fun hmem => hmiss ((mem_row_iff h.missed).1 hmem)
    rw [Brings, hkeep, hlast hmiss', List.getLast_cons hrow]
    cases d with
    | zero => exact List.getLast?_eq_getLast_of_ne_nil hrow
    | succ d =>
      have hne : tagLevels.row p.twoPwrN (order set) (d + 1) (x % 2 ^ (d + 1)) ≠ [] := hrow
      rw [heldBy, held_succ, List.getLast?_append_of_ne_nil _ hne]
      exact List.getLast?_eq_getLast_of_ne_nil hrow

end Going

/-- A search leaves the rows of the stack to whose front the tag is moved, and counts a hit if the finest set has the
tag. -/
theorem descend_found (hfull : Full p (order set)) (hset : set < 2 ^ p.A) (sacHits : ℕ → ℕ → ℕ) (count : ℕ)
    (h : Going p order set x d s) (hcount : d + count = p.maxDepth + 1) :
    Found p order set x sacHits (descend p x (p.arrPtr set) count d s sacHits) := by
  induction count generalizing d s with
  | zero =>
    obtain rfl : d = p.maxDepth + 1 := hcount
    refine ⟨h.rows.of_eq fun t _ e he q _ => ?_, ?_⟩
    · rw [halfway, if_pos (Nat.lt_succ_of_le he)]
    · rw [if_neg (h.missed p.maxDepth (Nat.lt_succ_self _))]
      rfl
  | succ count ih =>
    have hd : d ≤ p.maxDepth := by omega
    have hrow := h.row hset hd
    have hcount' := hrow.count
    have hfst : (if d = 0 then 1 else s.arr (rowPtr p set d (x % 2 ^ d))) = s.arr (rowPtr p set d (x % 2 ^ d)) := by
      split
      · subst d
        have hlength : (stackRows p order set 0 (x % 2 ^ 0)).length = p.twoPwrN := length_heldBy hfull hd
        omega
      · rfl
    have hlength : p.twoPwrN + 1 - s.arr (rowPtr p set d (x % 2 ^ d)) = (stackRows p order set d (x % 2 ^ d)).length := by
      omega
    unfold descend
    simp only [rowPtr_mod, hfst, hlength]
    split
    · rename_i hempty
      have hnil := hrow.empty_iff.1 hempty
      refine ih (h.empty hfull hd (fun hzero => ?_) hnil) (by omega)
      subst d
      have hfullRow : (stackRows p order set 0 (x % 2 ^ 0)).length = p.twoPwrN := length_heldBy hfull hd
      rw [hnil, List.length_nil] at hfullRow
      exact absurd hfullRow.symm (Nat.two_pow_pos _).ne'
    · rename_i hused
      have hne : stackRows p order set d (x % 2 ^ d) ≠ [] := fun hnil => hused (hrow.empty_iff.2 hnil)
      cases hscan : scanRow p x (rowPtr p set d (x % 2 ^ d)) (stackRows p order set d (x % 2 ^ d)).length
        (s.arr (rowPtr p set d (x % 2 ^ d))) s with
      | mk s₁ hit =>
        obtain ⟨hrows, hdepths, hhit, hbrings⟩ := h.scan hfull hset hd hne hscan rfl
        cases hit with
        | true =>
          have hfound := hhit.1 rfl
          refine ⟨hrows.of_eq fun t _ e _ q _ => (halfway_found hfound t e q).symm, ?_⟩
          rw [if_pos (heldBy_of_le hd hfound), ← sharedBits_found hd hfound, ← hdepths]
          rfl
        | false =>
          have hmiss : x ∉ heldBy p x d (order set) := fun hmem => Bool.noConfusion (hhit.2 hmem)
          refine ih ⟨hrows, fun e he => ?_, hbrings hmiss, hdepths⟩ (by omega)
          rcases Nat.lt_succ_iff_lt_or_eq.1 he with hlt | rfl
          · exact h.missed e hlt
          · exact hmiss

end Stack

end LifeSim.Cheetah
