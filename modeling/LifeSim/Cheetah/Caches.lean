import LifeSim.Cheetah.Start

/-!
# One pass for all caches

What `hits` returns is the number of hits of a cache of its own, with its own sets and least recently used replacement, as
long as no line has one of the initial values as its tag.
-/

namespace LifeSim.Cheetah

open LifeSim.Lib LifeSim.Lib.Levels

section Caches

/-- A cache. The sets are numbered by low bits of a line. -/
structure LruCache where
  sets : ℕ → List (BitVec 64)
  hits : ℕ

/-- A line is used. -/
def LruCache.access (setsLog2 assoc : ℕ) (c : LruCache) (line : BitVec 64) : LruCache :=
  let set := line.toNat % 2 ^ setsLog2
  { sets := Function.update c.sets set (lruUse assoc line (c.sets set))
    hits := c.hits + lruHit line (c.sets set) }

/-- A cache after some uses. -/
def lruCache (setsLog2 assoc : ℕ) (lines : List (BitVec 64)) : LruCache :=
  lines.foldl (LruCache.access setsLog2 assoc) { sets := fun _ => [], hits := 0 }

/-- The low bits of a line. -/
def lineLevels : Levels (BitVec 64) ℕ where
  cls d line := line.toNat % 2 ^ d
  parent d r := r % 2 ^ d
  parent_cls d line := Nat.mod_mod_of_dvd line.toNat (Nat.pow_dvd_pow 2 (Nat.le_succ d))

/-- The lines in the order of their last use. -/
def lineStack (lines : List (BitVec 64)) : List (BitVec 64) := lines.foldl (fun stack line => touch line stack) []

variable {setsLog2 assoc : ℕ} {lines : List (BitVec 64)} {line : BitVec 64}

theorem lruCache_concat : lruCache setsLog2 assoc (lines ++ [line]) =
    (lruCache setsLog2 assoc lines).access setsLog2 assoc line := by
  simp [lruCache]

theorem lineStack_concat : lineStack (lines ++ [line]) = touch line (lineStack lines) := by simp [lineStack]

/-- The sets hold the first lines of their stacks. -/
theorem lruCache_sets (setsLog2 assoc : ℕ) (lines : List (BitVec 64)) :
    (lruCache setsLog2 assoc lines).sets = lineLevels.held assoc (lineStack lines) setsLog2 := by
  induction lines using List.reverseRecOn with
  | nil =>
    funext c
    simp [lruCache, lineStack, held, members]
  | append_singleton lines line ih =>
    funext c
    rw [lruCache_concat, lineStack_concat, held_touch, LruCache.access, ih]
    dsimp only
    by_cases hc : lineLevels.cls setsLog2 line = c
    · rw [if_pos hc, ← hc]
      exact Function.update_self _ _ _
    · rw [if_neg hc]
      exact Function.update_of_ne (Ne.symm hc) _ _

end Caches

section Lines

variable (p : Params)

/-- The values that the sets hold at the start. -/
def startStack : List ℕ :=
  (List.range (2 ^ p.maxDepth)).flatMap fun r => List.replicate p.twoPwrN (firstInitValue + r)

/-- The stacks of the tags. -/
def orderOf (stack : List (BitVec 64)) (set : ℕ) : List ℕ :=
  (stack.filter fun line => p.setNo line = set).map p.origTag ++ startStack p

variable {p} {d r : ℕ} {line x : BitVec 64} {stack : List (BitVec 64)}

theorem maxDepth_le (hfits : p.Fits) : p.maxDepth ≤ 31 := by
  have hsize := hfits.2
  by_contra hlt
  have hpow : 2 ^ 32 ≤ 2 ^ p.maxDepth := Nat.pow_le_pow_right (by omega) (by omega)
  have hone : 1 ≤ 2 ^ p.A := Nat.one_le_two_pow
  have hbase : 1 ≤ p.base := Nat.succ_pos _
  have hle : 2 ^ p.maxDepth ≤ 2 ^ p.A * 2 ^ p.maxDepth * 2 * p.base := by
    calc 2 ^ p.maxDepth = 1 * 2 ^ p.maxDepth * 1 * 1 := by ring
      _ ≤ 2 ^ p.A * 2 ^ p.maxDepth * 2 * p.base := by gcongr; omega
  omega

/-- The initial values have the low bits of their rows. -/
theorem initValue_cls (hd : d ≤ 31) (r : ℕ) : tagLevels.cls d (firstInitValue + r) = r % 2 ^ d := by
  obtain ⟨k, hk⟩ : 2 ^ d ∣ firstInitValue := Nat.pow_dvd_pow 2 hd
  have hcls : tagLevels.cls d (firstInitValue + r) = (firstInitValue + r) % 2 ^ d := rfl
  rw [hcls, hk, Nat.mul_add_mod]

theorem held_startStack (hfits : p.Fits) (hd : d ≤ p.maxDepth) (hr : r < 2 ^ d) :
    tagLevels.held p.twoPwrN (startStack p) d r = List.replicate p.twoPwrN (firstInitValue + r) := by
  have hdepth := Nat.le_trans hd (maxDepth_le hfits)
  have hpow : 2 ^ d ≤ 2 ^ p.maxDepth := Nat.pow_le_pow_right (by omega) hd
  obtain ⟨k, hk⟩ : ∃ k, 2 ^ p.maxDepth = r + 1 + k := ⟨2 ^ p.maxDepth - (r + 1), by omega⟩
  have hfirst : tagLevels.members ((List.range r).flatMap fun q => List.replicate p.twoPwrN (firstInitValue + q)) d r =
      [] := by
    apply List.filter_eq_nil_iff.2
    intro a ha
    obtain ⟨q, hq, hmem⟩ := List.mem_flatMap.1 ha
    have hlt := List.mem_range.1 hq
    rw [List.eq_of_mem_replicate hmem, initValue_cls hdepth, Nat.mod_eq_of_lt (by omega)]
    simp
    omega
  have hmid : tagLevels.members (List.replicate p.twoPwrN (firstInitValue + r)) d r =
      List.replicate p.twoPwrN (firstInitValue + r) := by
    apply List.filter_eq_self.2
    intro a ha
    rw [List.eq_of_mem_replicate ha, initValue_cls hdepth, Nat.mod_eq_of_lt hr]
    simp
  unfold held
  rw [startStack, hk, List.range_add, List.range_succ, List.flatMap_append, List.flatMap_append, List.flatMap_singleton]
  unfold members at hfirst hmid ⊢
  rw [List.filter_append, List.filter_append, hfirst, hmid, List.nil_append]
  exact List.take_left' List.length_replicate

theorem startRow_eq (hfits : p.Fits) (hd : d ≤ p.maxDepth) (hr : r < 2 ^ d) :
    tagLevels.row p.twoPwrN (startStack p) d r = startRow p d r := by
  cases d with
  | zero =>
    obtain rfl : r = 0 := by omega
    exact held_startStack hfits hd hr
  | succ d =>
    have hdepth := Nat.le_trans hd (maxDepth_le hfits)
    have hhalf : r % 2 ^ d < 2 ^ d := Nat.mod_lt _ (Nat.two_pow_pos d)
    have habove : tagLevels.held p.twoPwrN (startStack p) d (tagLevels.parent d r) =
        List.replicate p.twoPwrN (firstInitValue + r % 2 ^ d) :=
      held_startStack hfits (Nat.le_of_succ_le hd) hhalf
    have hlt : r % 2 ^ d < 2 ^ (d + 1) := by
      rw [pow_succ]
      omega
    rw [row, held_startStack hfits hd hr, habove, List.countP_replicate, initValue_cls hdepth, Nat.mod_eq_of_lt hlt,
      startRow]
    by_cases hrd : r < 2 ^ d
    · rw [Nat.mod_eq_of_lt hrd]
      simp [hrd]
    · have hne : r % 2 ^ d ≠ r := by omega
      simp [hrd, hne]

theorem full_orderOf (hfits : p.Fits) (stack : List (BitVec 64)) (set : ℕ) : Full p (orderOf p stack set) := by
  intro d hd r hr
  have hheld := congrArg List.length (held_startStack hfits hd hr)
  rw [held, List.length_take, List.length_replicate] at hheld
  have hsplit : tagLevels.members (orderOf p stack set) d r =
      tagLevels.members ((stack.filter fun line => p.setNo line = set).map p.origTag) d r ++
        tagLevels.members (startStack p) d r := List.filter_append _ _
  rw [hsplit, List.length_append]
  omega

/-- The low bits of a line are its set and low bits of its tag. -/
theorem lineLevels_cls_iff (hd : p.A + d ≤ 64) : lineLevels.cls (p.A + d) line = lineLevels.cls (p.A + d) x ↔
    p.setNo line = p.setNo x ∧ tagLevels.cls d (p.origTag line) = tagLevels.cls d (p.origTag x) := by
  have htag (y : BitVec 64) {j : ℕ} (hj : j < d) : (p.origTag y).testBit j = y.toNat.testBit (p.A + j) := by
    have hin : ¬ 64 ≤ j := by omega
    have hbit : (y.sshiftRight p.A).getLsbD j = y.getLsbD (p.A + j) := by
      rw [BitVec.getLsbD_sshiftRight]
      have hlt : p.A + j < 64 := by omega
      simp [hin, hlt]
    exact hbit
  have hset : p.setNo line = p.setNo x ↔ line.toNat % 2 ^ p.A = x.toNat % 2 ^ p.A := by
    unfold Params.setNo Params.setMask
    rw [mask_eq_mod, mask_eq_mod]
  have hcls (y : BitVec 64) (e : ℕ) : lineLevels.cls e y = y.toNat % 2 ^ e := rfl
  have hcls' (t e : ℕ) : tagLevels.cls e t = t % 2 ^ e := rfl
  rw [hset, hcls, hcls, hcls', hcls', mod_two_pow_eq_iff, mod_two_pow_eq_iff, mod_two_pow_eq_iff]
  constructor
  · intro h
    refine ⟨fun j hj => h j (by omega), fun j hj => ?_⟩
    rw [htag _ hj, htag _ hj]
    exact h _ (by omega)
  · intro h j hj
    by_cases hlow : j < p.A
    · exact h.1 j hlow
    · have hhigh := h.2 (j - p.A) (by omega)
      rw [htag _ (by omega), htag _ (by omega)] at hhigh
      rwa [Nat.add_sub_cancel' (Nat.le_of_not_lt hlow)] at hhigh

/-- A line is known by its set and its tag. -/
theorem line_ext (hset : p.setNo line = p.setNo x) (htag : p.origTag line = p.origTag x) : line = x := by
  have hlow : line.toNat % 2 ^ p.A = x.toNat % 2 ^ p.A := by
    unfold Params.setNo Params.setMask at hset
    rwa [mask_eq_mod, mask_eq_mod] at hset
  have hhigh : line.sshiftRight p.A = x.sshiftRight p.A := BitVec.eq_of_toNat_eq htag
  refine BitVec.eq_of_getLsbD_eq fun i hi => ?_
  by_cases hlt : i < p.A
  · exact (mod_two_pow_eq_iff.1 hlow i hlt).symm
  · have hbit := congrArg (BitVec.getLsbD · (i - p.A)) hhigh
    have hin : ¬ 64 ≤ i - p.A := by omega
    have hadd : p.A + (i - p.A) = i := by omega
    simpa [BitVec.getLsbD_sshiftRight, hin, hadd, hi] using hbit

/-- A use of a line is a use of its tag. -/
theorem touched_orderOf (hfresh : p.origTag line ∉ startStack p) :
    touched (orderOf p stack) (p.setNo line) (p.origTag line) = orderOf p (touch line stack) := by
  have herase (l : List (BitVec 64)) :
      ((l.erase line).filter fun y => decide (p.setNo y = p.setNo line)).map p.origTag =
        ((l.filter fun y => decide (p.setNo y = p.setNo line)).map p.origTag).erase (p.origTag line) := by
    induction l with
    | nil => rfl
    | cons y l ih =>
      by_cases hy : y = line
      · rw [hy, List.erase_cons_head, List.filter_cons_of_pos (by simp), List.map_cons, List.erase_cons_head]
      · rw [List.erase_cons_tail (by simpa using hy)]
        by_cases hset : p.setNo y = p.setNo line
        · have htag : p.origTag y ≠ p.origTag line := fun h => hy (line_ext hset h)
          rw [List.filter_cons_of_pos (by simpa using hset), List.filter_cons_of_pos (by simpa using hset), List.map_cons,
            List.map_cons, List.erase_cons_tail (by simpa using htag), ih]
        · rw [List.filter_cons_of_neg (by simpa using hset), List.filter_cons_of_neg (by simpa using hset), ih]
  funext set
  by_cases hset : set = p.setNo line
  · subst hset
    rw [touched_self]
    unfold orderOf touch
    rw [List.filter_cons_of_pos (by simp), List.map_cons, List.cons_append, herase]
    by_cases hmem : p.origTag line ∈ (stack.filter fun y => decide (p.setNo y = p.setNo line)).map p.origTag
    · rw [List.erase_append_left _ hmem]
    · rw [List.erase_append_right _ hmem, List.erase_of_not_mem hmem, List.erase_of_not_mem hfresh]
  · have hkeep : (touch line stack).filter (fun y => decide (p.setNo y = set)) =
        stack.filter fun y => decide (p.setNo y = set) := by
      have hne : ¬ p.setNo line = set := fun h => hset h.symm
      unfold touch
      rw [List.filter_cons_of_neg (by simpa using hne), ← List.erase_filter, List.erase_of_not_mem]
      intro hmem
      simpa [hne] using (List.mem_filter.1 hmem).2
    rw [touched_apart hset, orderOf, orderOf, hkeep]

/-- The tag stands among the first of its set if the line does. -/
theorem place_lt_iff (hfits : p.Fits) (hd : d ≤ p.maxDepth) (hfresh : p.origTag line ∉ startStack p) {assoc : ℕ}
    (hassoc : assoc ≤ p.twoPwrN) : place (p.origTag line) d (orderOf p stack (p.setNo line)) < assoc ↔
      line ∈ lineLevels.held assoc stack (p.A + d) (lineLevels.cls (p.A + d) line) := by
  have hwidth : p.A + d ≤ 64 := by
    have hsize := hfits.2
    by_contra hlt
    have hpow : 2 ^ 64 ≤ 2 ^ p.A * 2 ^ p.maxDepth := by
      rw [← pow_add]
      exact Nat.pow_le_pow_right (by omega) (by omega)
    have hbase : 1 ≤ p.base := Nat.succ_pos _
    have hle : 2 ^ p.A * 2 ^ p.maxDepth ≤ 2 ^ p.A * 2 ^ p.maxDepth * 2 * p.base := by
      calc 2 ^ p.A * 2 ^ p.maxDepth = 2 ^ p.A * 2 ^ p.maxDepth * 1 * 1 := by ring
        _ ≤ 2 ^ p.A * 2 ^ p.maxDepth * 2 * p.base := by gcongr; omega
    omega
  have hmembers : tagLevels.members (orderOf p stack (p.setNo line)) d (p.origTag line % 2 ^ d) =
      (lineLevels.members stack (p.A + d) (lineLevels.cls (p.A + d) line)).map p.origTag ++
        tagLevels.members (startStack p) d (p.origTag line % 2 ^ d) := by
    have hsplit : tagLevels.members (orderOf p stack (p.setNo line)) d (p.origTag line % 2 ^ d) =
        tagLevels.members ((stack.filter fun y => p.setNo y = p.setNo line).map p.origTag) d (p.origTag line % 2 ^ d) ++
          tagLevels.members (startStack p) d (p.origTag line % 2 ^ d) := List.filter_append _ _
    rw [hsplit]
    congr 1
    unfold members
    rw [List.filter_map, List.filter_filter]
    refine congrArg _ (List.filter_congr fun y _ => ?_)
    have hiff : lineLevels.cls (p.A + d) y = lineLevels.cls (p.A + d) line ↔
        p.setNo y = p.setNo line ∧ tagLevels.cls d (p.origTag y) = p.origTag line % 2 ^ d := lineLevels_cls_iff hwidth
    simp only [Function.comp_apply, hiff, Bool.decide_and, Bool.and_comm]
  have hstart : p.origTag line ∉ tagLevels.members (startStack p) d (p.origTag line % 2 ^ d) := fun hmem =>
    hfresh (mem_members.1 hmem).1
  have hfull := full_orderOf hfits stack (p.setNo line) d hd (p.origTag line % 2 ^ d)
    (Nat.mod_lt _ (Nat.two_pow_pos d))
  have htake : place (p.origTag line) d (orderOf p stack (p.setNo line)) < assoc ↔
      p.origTag line ∈ (tagLevels.members (orderOf p stack (p.setNo line)) d (p.origTag line % 2 ^ d)).take assoc := by
    constructor
    · intro h
      refine (List.mem_take_iff_idxOf_lt ?_).2 h
      rw [← List.idxOf_lt_length_iff]
      exact Nat.lt_of_lt_of_le h (Nat.le_trans hassoc hfull)
    · intro h
      exact (List.mem_take_iff_idxOf_lt (List.mem_of_mem_take h)).1 h
  rw [htake, hmembers, List.take_append, List.mem_append, ← List.map_take]
  constructor
  · intro h
    rcases h with h | h
    · obtain ⟨y, hy, htag⟩ := List.mem_map.1 h
      have hcls := (mem_members.1 (List.mem_of_mem_take hy)).2
      obtain rfl : y = line := line_ext ((lineLevels_cls_iff hwidth).1 hcls).1 htag
      exact hy
    · exact absurd (List.mem_of_mem_take h) hstart
  · exact fun h => Or.inl (List.mem_map_of_mem h)

end Lines

section Run

variable (p : Params)

/-- The calls of the simulator. -/
inductive Call where
  | access (addr : BitVec 64)
  | hits (setsLog2 assoc : ℕ)
  deriving DecidableEq, Repr

/-- One call. A call whose assertion fails ends the run. -/
def Saclru.call (s : Saclru) : Call → Option Saclru
  | .access addr => some (s.sacnmulWoarr p addr)
  | .hits setsLog2 assoc => (s.hits p setsLog2 assoc).map Prod.snd

/-- The calls one after the other. -/
def Saclru.run : List Call → Saclru → Option Saclru
  | [], s => some s
  | c :: calls, s => (s.call p c).bind (Saclru.run calls)

/-- The lines of the accesses. -/
def linesOf : List Call → List (BitVec 64)
  | [] => []
  | .access addr :: calls => p.line addr :: linesOf calls
  | .hits _ _ :: calls => linesOf calls

variable {p} {lines : List (BitVec 64)} {s s' : Saclru} {calls : List Call}

/-- The simulator has counted the hits of all caches. -/
structure Counted (p : Params) (lines : List (BitVec 64)) (s : Saclru) : Prop where
  rows : Represents p s.arr (stackRows p (orderOf p (lineStack lines)))
  hits : ∀ i ≤ p.maxDepth, ∀ assoc ≤ p.twoPwrN,
    ((List.range assoc).map fun j => s.total j i).sum = (lruCache (p.A + i) assoc lines).hits

theorem counted_new (hfits : p.Fits) : Counted p [] (Saclru.new p) := by
  refine ⟨(initTrees_rows p).of_eq fun set _ d hd r hr => startRow_eq hfits hd hr, fun i _ assoc _ => ?_⟩
  have hzero : (fun j => (Saclru.new p).total j i) = fun _ => 0 := by
    funext j
    simp [Saclru.new, Saclru.total]
  simp [hzero, lruCache]

theorem sum_range_place (assoc k : ℕ) :
    ((List.range assoc).map fun j => if j = k then 1 else 0).sum = if k < assoc then 1 else 0 := by
  induction assoc with
  | zero => simp
  | succ assoc ih =>
    rw [List.range_succ, List.map_append, List.sum_append, ih]
    by_cases hk : assoc = k
    · simp [hk]
    · have hiff : k < assoc + 1 ↔ k < assoc := by omega
      simp [hk, hiff]

/-- An access is counted where the cache hits. -/
theorem Counted.access (h : Counted p lines s) (hfits : p.Fits) {addr : BitVec 64}
    (hfresh : p.origTag (p.line addr) ∉ startStack p) :
    Counted p (lines ++ [p.line addr]) (s.sacnmulWoarr p addr) := by
  obtain ⟨hrows, htotal⟩ := Saclru.sacnmulWoarr_spec h.rows (full_orderOf hfits _) addr
  refine ⟨?_, fun i hi assoc hassoc => ?_⟩
  · rw [lineStack_concat, ← touched_orderOf hfresh]
    exact hrows
  · have hsum : ((List.range assoc).map fun j => (s.sacnmulWoarr p addr).total j i) =
        (List.range assoc).map fun j => s.total j i +
          if j = place (p.origTag (p.line addr)) i (orderOf p (lineStack lines) (p.setNo (p.line addr))) then 1 else 0 := by
      refine List.map_congr_left fun j hj => htotal j ?_ i hi
      exact Nat.lt_of_lt_of_le (List.mem_range.1 hj) hassoc
    rw [hsum, List.sum_map_add, h.hits i hi assoc hassoc, sum_range_place, lruCache_concat, LruCache.access, lruCache_sets,
      lruHit]
    simp only [place_lt_iff hfits hi hfresh hassoc]
    rfl

theorem Counted.hits_call (h : Counted p lines s) {setsLog2 assoc : ℕ}
    (hs' : s.call p (.hits setsLog2 assoc) = some s') : Counted p lines s' := by
  rw [Saclru.call] at hs'
  by_cases hrange : p.A ≤ setsLog2 ∧ setsLog2 ≤ p.B
  · obtain ⟨s₁, hhits, harr, htotal⟩ := s.hits_eq assoc hrange.1 hrange.2
    rw [hhits, Option.map_some, Option.some_inj] at hs'
    subst hs'
    refine ⟨?_, fun i hi assoc hassoc => ?_⟩
    · rw [harr]
      exact h.rows
    · simp only [htotal _ i hi]
      exact h.hits i hi assoc hassoc
  · rw [Saclru.hits, if_neg hrange, Option.map_none] at hs'
    cases hs'

/-- A whole run. -/
theorem Counted.run (h : Counted p lines s) (hfits : p.Fits) (hrun : Saclru.run p calls s = some s')
    (hfresh : ∀ line ∈ linesOf p calls, p.origTag line ∉ startStack p) : Counted p (lines ++ linesOf p calls) s' := by
  induction calls generalizing lines s with
  | nil =>
    rw [Saclru.run, Option.some_inj] at hrun
    rw [linesOf, List.append_nil, ← hrun]
    exact h
  | cons c calls ih =>
    obtain ⟨s₁, hcall, hrest⟩ := Option.bind_eq_some_iff.1 hrun
    cases c with
    | access addr =>
      rw [Saclru.call, Option.some_inj] at hcall
      subst hcall
      have hnext := ih (h.access hfits (hfresh _ List.mem_cons_self)) hrest
        fun line hline => hfresh line (List.mem_cons_of_mem _ hline)
      rwa [List.append_assoc] at hnext
    | hits setsLog2 assoc => exact ih (h.hits_call hcall) hrest hfresh

/-- The number of hits that the simulator returns for a cache, after any calls, is the number of hits of the cache. -/
theorem hits_eq_lruCache (hfits : p.Fits) (hrun : Saclru.run p calls (Saclru.new p) = some s)
    (hfresh : ∀ line ∈ linesOf p calls,
      p.origTag line < firstInitValue ∨ firstInitValue + 2 ^ p.maxDepth ≤ p.origTag line)
    {setsLog2 assoc : ℕ} (hA : p.A ≤ setsLog2) (hB : setsLog2 ≤ p.B) (hassoc : assoc ≤ p.twoPwrN) :
    (s.hits p setsLog2 assoc).map Prod.fst = some (lruCache setsLog2 assoc (linesOf p calls)).hits := by
  have hapart (line : BitVec 64) (hline : line ∈ linesOf p calls) : p.origTag line ∉ startStack p := by
    intro hmem
    obtain ⟨r, hr, hval⟩ := List.mem_flatMap.1 hmem
    have hlt := List.mem_range.1 hr
    have heq := List.eq_of_mem_replicate hval
    have hout := hfresh line hline
    omega
  have hcounted := (counted_new hfits).run hfits hrun hapart
  have hi : setsLog2 - p.A ≤ p.maxDepth := Nat.sub_le_sub_right hB _
  obtain ⟨s₁, hhits, _, _⟩ := s.hits_eq assoc hA hB
  rw [hhits, Option.map_some, hcounted.hits _ hi assoc hassoc, Nat.add_sub_cancel' hA, List.nil_append]

/-- A cache of one set has lost the line used first, and one of two sets has not. -/
theorem hits_eq_lruCache_small : ∃ s,
    Saclru.run ⟨1, 1, 0, 6⟩ [.access 0, .access 64, .access 192, .hits 0 1, .access 192, .access 0]
      (Saclru.new ⟨1, 1, 0, 6⟩) = some s ∧
    (s.hits ⟨1, 1, 0, 6⟩ 0 2).map Prod.fst = some 1 ∧ (s.hits ⟨1, 1, 0, 6⟩ 1 2).map Prod.fst = some 2 := by
  have hfits : Params.Fits ⟨1, 1, 0, 6⟩ := by decide
  have hall : (linesOf ⟨1, 1, 0, 6⟩ [.access 0, .access 64, .access 192, .hits 0 1, .access 192, .access 0]).all
      fun line => decide (Params.origTag ⟨1, 1, 0, 6⟩ line < firstInitValue) := by decide +kernel
  refine ⟨_, rfl, ?_, ?_⟩
  · rw [hits_eq_lruCache hfits rfl (fun line hline => Or.inl (of_decide_eq_true (List.all_eq_true.1 hall line hline)))
      (by decide) (by decide) (by decide)]
    decide
  · rw [hits_eq_lruCache hfits rfl (fun line hline => Or.inl (of_decide_eq_true (List.all_eq_true.1 hall line hline)))
      (by decide) (by decide) (by decide)]
    decide

end Run

end LifeSim.Cheetah
