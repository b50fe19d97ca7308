import LifeSim.Rob.Squashing

/-!
# Dependencies within an instruction after squashing

The micro-ops of one type are consecutive, and a micro-op depends on all micro-ops of the type before its own. The first
micro-op of a type is never squashed, as its access is the first one in its direction. So the counts that `doSquashing`
reads at the first micro-ops of both types tell how many micro-ops have been squashed between them.
-/

namespace LifeSim.Rob

open LifeSim.Lib

variable {numLoads numExecs numStores : ℕ}

namespace MicroOp

/-- The index of the first micro-op of a type. -/
def start (numLoads numExecs : ℕ) : UopType → ℕ
  | .load => 0
  | .execute => numLoads
  | .store => numLoads + numExecs

/-- The number of micro-ops of a type. -/
def amount (numLoads numExecs numStores : ℕ) : UopType → ℕ
  | .load => numLoads
  | .execute => numExecs
  | .store => numStores

/-- The offset of a micro-op is its place among those of its type, and the micro-ops it depends on start there where the
ones of another type do. -/
theorem decodeAt_spec {i : ℕ} (hi : i < numLoads + numExecs + numStores) :
    let u := decodeAt numLoads numExecs numStores i
    i = start numLoads numExecs u.uopType + u.microOpTypeOffset ∧
      u.microOpTypeOffset < amount numLoads numExecs numStores u.uopType ∧
      (u.intraInstructionDependencies = 0 ∨ ∃ type, type ≠ u.uopType ∧
        u.intraInstructionDependencies = amount numLoads numExecs numStores type ∧
        start numLoads numExecs type + u.intraInstructionDependencies = start numLoads numExecs u.uopType) := by
  dsimp only
  rw [decodeAt]
  dsimp only
  split_ifs with hload hexec
  · exact ⟨(Nat.zero_add i).symm, hload, .inl rfl⟩
  · refine ⟨?_, ?_, .inr ⟨.load, by simp [makeExecute], rfl, Nat.zero_add _⟩⟩
    · change i = numLoads + (i - numLoads)
      omega
    · change i - numLoads < numExecs
      omega
  · refine ⟨?_, ?_, .inr ⟨.execute, by simp [makeStore], rfl, rfl⟩⟩
    · change i = numLoads + numExecs + (i - numLoads - numExecs)
      omega
    · change i - numLoads - numExecs < numStores
      omega

/-- The micro-op at a place among those of its type. -/
theorem decodeAt_start {type : UopType} {k : ℕ} (hk : k < amount numLoads numExecs numStores type) :
    let u := decodeAt numLoads numExecs numStores (start numLoads numExecs type + k)
    u.uopType = type ∧ u.microOpTypeOffset = k ∧ start numLoads numExecs type + k < numLoads + numExecs + numStores := by
  cases type with
  | load =>
    change k < numLoads at hk
    have hload : start numLoads numExecs .load + k < numLoads := by
      change 0 + k < numLoads
      omega
    dsimp only
    rw [decodeAt, if_pos hload]
    exact ⟨rfl, Nat.zero_add k, by omega⟩
  | execute =>
    change k < numExecs at hk
    have hload : ¬ start numLoads numExecs .execute + k < numLoads := by
      change ¬ numLoads + k < numLoads
      omega
    have hexec : start numLoads numExecs .execute + k < numLoads + numExecs := by
      change numLoads + k < numLoads + numExecs
      omega
    dsimp only
    rw [decodeAt, if_neg hload, if_pos hexec]
    refine ⟨rfl, ?_, by omega⟩
    change numLoads + k - numLoads = k
    omega
  | store =>
    change k < numStores at hk
    have hload : ¬ start numLoads numExecs .store + k < numLoads := by
      change ¬ numLoads + numExecs + k < numLoads
      omega
    have hexec : ¬ start numLoads numExecs .store + k < numLoads + numExecs := by
      change ¬ numLoads + numExecs + k < numLoads + numExecs
      omega
    dsimp only
    rw [decodeAt, if_neg hload, if_neg hexec]
    refine ⟨rfl, ?_, ?_⟩
    · change numLoads + numExecs + k - numLoads - numExecs = k
      omega
    · change numLoads + numExecs + k < _
      omega

/-- Micro-ops of one type are consecutive. -/
theorem decodeAt_uopType_iff {i j : ℕ} (hi : i < numLoads + numExecs + numStores) (hj : j ≤ i) :
    (decodeAt numLoads numExecs numStores j).uopType = (decodeAt numLoads numExecs numStores i).uopType ↔
      start numLoads numExecs (decodeAt numLoads numExecs numStores i).uopType ≤ j := by
  have hispec := @decodeAt_spec numLoads numExecs numStores i hi
  have hjspec := @decodeAt_spec numLoads numExecs numStores j (by omega)
  dsimp only at hispec hjspec
  constructor
  · intro htype
    rw [← htype]
    omega
  · intro hstart
    obtain ⟨htype, -⟩ := @decodeAt_start numLoads numExecs numStores
      (decodeAt numLoads numExecs numStores i).uopType
      (j - start numLoads numExecs (decodeAt numLoads numExecs numStores i).uopType) (by omega)
    rwa [Nat.add_sub_cancel' hstart] at htype

end MicroOp

namespace InstructionUop

open MicroOp

/-! ### The loop over the operands -/

/-- What squashing does not change. -/
def frame (u : InstructionUop) : MicroOp × ℕ × ℕ × List ℕ :=
  (u.uop, u.dynamic.microOpTypeOffset, u.dynamic.intraInstructionDependencies, u.dynamic.dependencies)

/-- The micro-ops of an instruction, while its operands are handled. -/
structure Sound (numLoads numExecs numStores : ℕ) (us : List InstructionUop) : Prop where
  decoded : us.map frame = (decode numLoads numExecs numStores).map fun u =>
    (u, u.microOpTypeOffset, u.intraInstructionDependencies, [])
  keeps : ∀ u ∈ us, survives u = false → u.uop.uopType ≠ .execute ∧ u.uop.microOpTypeOffset ≠ 0
  ends : Ends us

variable {us : List InstructionUop}

/-- The micro-op at an index. -/
theorem Sound.getElem? (h : Sound numLoads numExecs numStores us) {i : ℕ} (hi : i < numLoads + numExecs + numStores) :
    ∃ u, us[i]? = some u ∧ u.uop = decodeAt numLoads numExecs numStores i ∧
      u.dynamic.microOpTypeOffset = u.uop.microOpTypeOffset ∧
      u.dynamic.intraInstructionDependencies = u.uop.intraInstructionDependencies ∧ u.dynamic.dependencies = [] := by
  have hmap : (us.map frame)[i]? = some (decodeAt numLoads numExecs numStores i,
      (decodeAt numLoads numExecs numStores i).microOpTypeOffset,
      (decodeAt numLoads numExecs numStores i).intraInstructionDependencies, []) := by
    rw [h.decoded, decode, List.map_map, List.getElem?_map, List.getElem?_range hi]
    rfl
  rw [List.getElem?_map, Option.map_eq_some_iff] at hmap
  obtain ⟨u, hu, hframe⟩ := hmap
  rw [frame, Prod.mk.injEq, Prod.mk.injEq, Prod.mk.injEq] at hframe
  obtain ⟨huop, hoffset, hintra, hdependencies⟩ := hframe
  exact ⟨u, hu, huop, by rw [hoffset, huop], by rw [hintra, huop], hdependencies⟩

theorem Sound.length (h : Sound numLoads numExecs numStores us) : us.length = numLoads + numExecs + numStores := by
  have hlength := congrArg List.length h.decoded
  rwa [List.length_map, List.length_map, decode, List.length_map, List.length_range] at hlength

/-- The address of a micro-op is set. -/
theorem Sound.modifyAddress (h : Sound numLoads numExecs numStores us) (address : BitVec 64) (i : ℕ) :
    Sound numLoads numExecs numStores (us.modify i (setAddress address)) where
  decoded := by
    rw [map_modify_of_eq (f := InstructionUop.setAddress address) fun _ => rfl]
    exact h.decoded
  keeps := forall_mem_modify (fun _ hu => hu) h.keeps
  ends := h.ends.congr (map_modify_of_eq (f := InstructionUop.setAddress address) (fun _ => rfl) us i)

/-- A micro-op that is not the first one of its type is squashed. -/
theorem Sound.squashLater (h : Sound numLoads numExecs numStores us) {i : ℕ} {u : InstructionUop} (hu : us[i]? = some u)
    (htype : u.uop.uopType ≠ .execute) (hoffset : u.uop.microOpTypeOffset ≠ 0) :
    Sound numLoads numExecs numStores (squash us i) where
  decoded := by
    rw [map_squash (fun _ => rfl) (fun _ => rfl), map_modify_of_eq (f := kill) fun _ => rfl]
    exact h.decoded
  keeps := by
    intro v hv hgone
    -- what matters of the micro-ops is the same as after setting one flag
    have hmap : (squash us i).map (fun u => (u.uop, survives u)) = (us.modify i kill).map fun u => (u.uop, survives u) :=
      map_squash (fun _ => rfl) (fun _ => rfl) us i
    have hmem : (v.uop, survives v) ∈ (us.modify i kill).map fun u => (u.uop, survives u) :=
      hmap ▸ List.mem_map_of_mem hv
    obtain ⟨w, hw, heq⟩ := List.mem_map.1 hmem
    obtain ⟨k, hk⟩ := List.mem_iff_getElem?.1 hw
    rw [Prod.mk.injEq] at heq
    rw [← heq.1]
    rw [← heq.2] at hgone
    by_cases hik : i = k
    · subst hik
      rw [List.getElem?_modify_eq, hu, Option.map_eq_map, Option.map_some, Option.some.injEq] at hk
      rw [← hk]
      exact ⟨htype, hoffset⟩
    · rw [List.getElem?_modify_ne _ _ hik] at hk
      exact h.keeps w (List.mem_of_getElem? hk) hgone
  ends := h.ends.squash i

/-- An access by the next micro-op of its type. -/
theorem Sound.handleAccess (h : Sound numLoads numExecs numStores us) {type : UopType} (htype : type ≠ .execute)
    (address : BitVec 64) {a : Accesses} (hdone : a.done < amount numLoads numExecs numStores type)
    (hlines : a.lines.length = a.done) :
    ∃ us' a' again, Handling.access type (some (start numLoads numExecs type)) address us a = some (us', a', again) ∧
      Sound numLoads numExecs numStores us' ∧ a'.done = a.done + 1 ∧ a'.lines.length = a'.done ∧
      (again = false → us'.map survives = us.map survives) := by
  obtain ⟨hdecoded, hoffset, hlength⟩ := decodeAt_start hdone
  obtain ⟨u, hu, huop, -⟩ := h.getElem? hlength
  have hutype : u.uop.uopType = type := huop ▸ hdecoded
  have huoffset : u.uop.microOpTypeOffset = a.done := huop ▸ hoffset
  have haccess : Handling.access type (some (start numLoads numExecs type)) address us a =
      some ((if decide (Handling.cacheLine address ∈ a.lines) then squash us (start numLoads numExecs type + a.done)
          else us).modify (start numLoads numExecs type + a.done) (InstructionUop.setAddress address),
        ⟨a.done + 1, a.lines ++ [Handling.cacheLine address]⟩, decide (Handling.cacheLine address ∈ a.lines)) := by
    rw [Handling.access]
    dsimp only
    rw [hu]
    dsimp only
    rw [if_pos hutype]
  refine ⟨_, _, _, haccess, ?_, rfl, ?_, fun hagain => ?_⟩
  · split_ifs with hagain
    · -- the line is not the first one in its direction
      have hne : a.done ≠ 0 := by
        intro hzero
        rw [hzero, List.length_eq_zero_iff] at hlines
        rw [hlines] at hagain
        simp at hagain
      exact (h.squashLater hu (hutype ▸ htype) (huoffset ▸ hne)).modifyAddress address _
    · exact h.modifyAddress address _
  · rw [List.length_append, hlines]
    rfl
  · rw [hagain, if_neg (by simp)]
    exact map_modify_of_eq (f := InstructionUop.setAddress address) (fun _ => rfl) us _

/-- The micro-ops as they are created. -/
theorem Sound.created (core : MicroOp → DynamicMicroOp) :
    Sound numLoads numExecs numStores ((decode numLoads numExecs numStores).map (create core)) where
  decoded := by
    rw [List.map_map]
    rfl
  keeps := by
    intro u hu hgone
    obtain ⟨v, -, rfl⟩ := List.mem_map.1 hu
    cases hgone
  ends := by
    have hall : ((decode numLoads numExecs numStores).map (create core)).filter survives =
        (decode numLoads numExecs numStores).map (create core) := by
      rw [List.filter_eq_self]
      intro u hu
      obtain ⟨v, -, rfl⟩ := List.mem_map.1 hu
      rfl
    constructor
    · rw [hall, decode, List.map_map, List.map_map]
      cases numLoads + numExecs + numStores with
      | zero => exact trivial
      | succ n =>
        rw [List.range_succ_eq_map, List.map_cons]
        refine ⟨rfl, fun c hc => ?_⟩
        rw [List.map_map] at hc
        obtain ⟨i, -, rfl⟩ := List.mem_map.1 hc
        rfl
    · rw [hall, decode, List.map_map, List.map_map]
      change OnlyFirstSet ((List.range (numLoads + numExecs + numStores)).map fun i =>
        decide (i + 1 = numLoads + numExecs + numStores)).reverse
      cases numLoads + numExecs + numStores with
      | zero => exact trivial
      | succ n =>
        rw [List.range_succ, List.map_append, List.reverse_append, List.map_singleton, List.reverse_singleton,
          List.singleton_append]
        refine ⟨by simp, fun c hc => ?_⟩
        rw [List.mem_reverse] at hc
        obtain ⟨i, hi, rfl⟩ := List.mem_map.1 hc
        have hlt := List.mem_range.1 hi
        exact decide_eq_false (by omega)

/-- The first micro-op of a type, if there is one. -/
theorem baseIndex_create (core : MicroOp → DynamicMicroOp) {type : UopType}
    (h : 0 < amount numLoads numExecs numStores type) :
    Handling.baseIndex ((decode numLoads numExecs numStores).map (create core)) type =
      some (start numLoads numExecs type) := by
  obtain ⟨htype, -, hlength⟩ := decodeAt_start h
  rw [Nat.add_zero] at htype hlength
  rw [Handling.baseIndex, List.findIdx?_eq_some_iff_getElem]
  refine ⟨by simpa [decode] using hlength, ?_, fun j hj => ?_⟩
  · simpa [decode, InstructionUop.create] using htype
  · have hjspec := @decodeAt_spec numLoads numExecs numStores j (by omega)
    have hne : (decodeAt numLoads numExecs numStores j).uopType ≠ type := by
      intro heq
      dsimp only at hjspec
      rw [heq] at hjspec
      omega
    simpa [decode, InstructionUop.create] using hne

end InstructionUop

namespace InstructionUop

open MicroOp

variable {us : List InstructionUop}

/-! ### The first loop of `doSquashing` -/

/-- The number of micro-ops before an index that are squashed. -/
def squashedBefore (us : List InstructionUop) (i : ℕ) : ℕ := (us.take i).countP fun u => u.dynamic.squashed

/-- The number of micro-ops of a type before an index that are not squashed. -/
def typeBefore (us : List InstructionUop) (i : ℕ) (type : UopType) : ℕ :=
  (us.take i).countP fun u => survives u && decide (u.uop.uopType = type)

/-- A micro-op after the first loop. -/
def counted (us : List InstructionUop) (i : ℕ) (u : InstructionUop) : InstructionUop :=
  { u with
    squashedCount := squashedBefore us (i + 1)
    dynamic := if u.dynamic.squashed then u.dynamic else
      { u.dynamic with microOpTypeOffset := typeBefore us i u.uop.uopType } }

/-- The local variables at an index: the type is the one of the last micro-op that is not squashed. -/
structure CountsBefore (us : List InstructionUop) (i : ℕ) (c : Counting) : Prop where
  squashed : c.squashedCount = squashedBefore us i
  type : ∀ j u, j < i → us[j]? = some u → u.dynamic.squashed = false →
    (∀ k v, j ≤ k → k < i → us[k]? = some v → v.uop.uopType = u.uop.uopType) → c.uopType = some u.uop.uopType
  offset : ∀ type, c.uopType = some type → c.microOpTypeOffset = typeBefore us i type

theorem squashedBefore_succ {i : ℕ} {u : InstructionUop} (hu : us[i]? = some u) :
    squashedBefore us (i + 1) = squashedBefore us i + if u.dynamic.squashed then 1 else 0 := by
  rw [squashedBefore, List.take_add_one, hu, Option.toList_some, List.countP_append, List.countP_singleton]
  rfl

theorem typeBefore_succ {i : ℕ} {u : InstructionUop} (hu : us[i]? = some u) (type : UopType) :
    typeBefore us (i + 1) type =
      typeBefore us i type + if survives u && decide (u.uop.uopType = type) then 1 else 0 := by
  rw [typeBefore, List.take_add_one, hu, Option.toList_some, List.countP_append, List.countP_singleton]
  rfl

/-- At a micro-op of another type than the last one, none of its type have been counted. -/
theorem CountsBefore.offset_eq (hsound : Sound numLoads numExecs numStores us) {i : ℕ} {c : Counting}
    (h : CountsBefore us i c) {u : InstructionUop} (hu : us[i]? = some u) :
    (if some u.uop.uopType = c.uopType then c.microOpTypeOffset else 0) = typeBefore us i u.uop.uopType := by
  split_ifs with hsame
  · exact h.offset _ hsame.symm
  · symm
    rw [typeBefore, List.countP_eq_zero]
    intro v hv hcounted
    rw [Bool.and_eq_true, decide_eq_true_eq] at hcounted
    obtain ⟨j, hj⟩ := List.mem_iff_getElem?.1 hv
    rw [List.getElem?_take] at hj
    split_ifs at hj with hlt
    have hi : i < numLoads + numExecs + numStores := hsound.length ▸ (List.getElem?_eq_some_iff.1 hu).1
    have htype {k : ℕ} {w : InstructionUop} (hk : k < numLoads + numExecs + numStores) (hw : us[k]? = some w) :
        w.uop = decodeAt numLoads numExecs numStores k := by
      obtain ⟨w', hw', huop, -⟩ := hsound.getElem? hk
      rw [hw, Option.some.injEq] at hw'
      rw [hw', huop]
    -- the micro-ops between are of this type too
    have hstart : start numLoads numExecs u.uop.uopType ≤ j := by
      have hiff := @decodeAt_uopType_iff numLoads numExecs numStores i j hi hlt.le
      rw [← htype (hlt.trans hi) hj, ← htype hi hu] at hiff
      exact hiff.1 hcounted.2
    have hlast := h.type j v hlt hj (by simpa [survives] using hcounted.1) fun k w hjk hki hw => by
      have hiff := @decodeAt_uopType_iff numLoads numExecs numStores i k hi hki.le
      rw [← htype (hki.trans hi) hw, ← htype hi hu] at hiff
      rw [hcounted.2]
      exact hiff.2 (hstart.trans hjk)
    rw [hcounted.2] at hlast
    exact hsame hlast.symm

/-- The first loop from an index on. -/
theorem getElem?_count (hsound : Sound numLoads numExecs numStores us) {i : ℕ} {c : Counting} (rest : List InstructionUop)
    (hrest : us.drop i = rest) (h : CountsBefore us i c) (k : ℕ) :
    (count c rest)[k]? = rest[k]?.map (counted us (i + k)) := by
  induction rest generalizing i c k with
  | nil => rfl
  | cons u rest ih =>
    have hu : us[i]? = some u := by
      rw [← List.head?_drop, hrest, List.head?_cons]
    have hdrop : us.drop (i + 1) = rest := by
      rw [← List.tail_drop, hrest, List.tail_cons]
    have hsquashed := squashedBefore_succ hu
    have hoffset := h.offset_eq hsound hu
    by_cases hgone : u.dynamic.squashed = true
    · rw [count, if_pos hgone]
      have hnext : CountsBefore us (i + 1) { c with squashedCount := c.squashedCount + 1 } := by
        constructor
        · rw [hsquashed, if_pos hgone, h.squashed]
        · intro j v hj hv hstays hbetween
          have hne : j ≠ i := by
            rintro rfl
            rw [hu, Option.some.injEq] at hv
            rw [← hv, hgone] at hstays
            cases hstays
          exact h.type j v (by omega) hv hstays fun k w hjk hki => hbetween k w hjk (by omega)
        · intro type htype
          rw [typeBefore_succ hu, survives, hgone]
          exact h.offset type htype
      cases k with
      | zero =>
        rw [List.getElem?_cons_zero, List.getElem?_cons_zero, Option.map_some, counted, Nat.add_zero, hsquashed,
          if_pos hgone, if_pos hgone, h.squashed]
      | succ k =>
        rw [List.getElem?_cons_succ, List.getElem?_cons_succ, ih hdrop hnext, Nat.add_assoc, Nat.add_comm 1 k]
    · rw [count, if_neg hgone, hoffset]
      have hnext : CountsBefore us (i + 1) ⟨some u.uop.uopType, typeBefore us i u.uop.uopType + 1, c.squashedCount⟩ := by
        constructor
        · rw [hsquashed, if_neg hgone, h.squashed]
          rfl
        · intro j v hj hv hstays hbetween
          rw [hbetween i u (by omega) (by omega) hu]
        · intro type htype
          rw [Option.some.injEq] at htype
          subst htype
          rw [typeBefore_succ hu, if_pos (by simpa [survives] using hgone)]
      cases k with
      | zero =>
        rw [List.getElem?_cons_zero, List.getElem?_cons_zero, Option.map_some, counted, Nat.add_zero, hsquashed,
          if_neg hgone, if_neg hgone, h.squashed]
        rfl
      | succ k =>
        rw [List.getElem?_cons_succ, List.getElem?_cons_succ, ih hdrop hnext, Nat.add_assoc, Nat.add_comm 1 k]

/-! ### The second loop -/

/-- If no assertion fails, the second loop goes through all micro-ops. -/
theorem getElem?_recountAll (f : ℕ → InstructionUop → InstructionUop) (rest : List InstructionUop) (i : ℕ)
    (h : ∀ k u, rest[k]? = some u → recount us (i + k) u = some (f (i + k) u)) :
    ∃ vs, recountAll us 0 rest i = some vs ∧ ∀ k, vs[k]? = rest[k]?.map (f (i + k)) := by
  induction rest generalizing i with
  | nil => exact ⟨[], rfl, fun k => rfl⟩
  | cons u rest ih =>
    have hfirst := h 0 u rfl
    rw [Nat.add_zero] at hfirst
    obtain ⟨vs, hvs, hget⟩ := ih (i + 1) fun k v hv => by
      have hrest := h (k + 1) v hv
      rwa [← Nat.add_assoc, Nat.add_right_comm] at hrest
    refine ⟨f i u :: vs, ?_, fun k => ?_⟩
    · rw [recountAll, if_pos (Nat.zero_le i), hfirst, hvs]
      rfl
    · cases k with
      | zero => rfl
      | succ k =>
        rw [List.getElem?_cons_succ, List.getElem?_cons_succ, hget, Nat.add_assoc, Nat.add_comm 1 k]

/-- A micro-op after the second loop. -/
def settled (us : List InstructionUop) (i : ℕ) (u : InstructionUop) : InstructionUop :=
  { u with dynamic := { u.dynamic with
    intraInstructionDependencies :=
      if u.dynamic.squashed ∨ u.dynamic.intraInstructionDependencies = 0 then u.dynamic.intraInstructionDependencies
      else
        Nat.count (Survives us) (i - u.uop.microOpTypeOffset) -
          Nat.count (Survives us) (i - u.uop.microOpTypeOffset - u.dynamic.intraInstructionDependencies) } }

/-- The number of micro-ops before an index that are not squashed. -/
theorem count_survives (us : List InstructionUop) (i : ℕ) :
    Nat.count (Survives us) i = (us.take i).countP survives :=
  count_getElem? survives us i

theorem squashedBefore_add_count {i : ℕ} (hi : i ≤ us.length) :
    squashedBefore us i + Nat.count (Survives us) i = i := by
  have hlength := List.length_eq_countP_add_countP (fun u : InstructionUop => u.dynamic.squashed) (l := us.take i)
  rw [List.length_take_of_le hi] at hlength
  rw [count_survives, squashedBefore]
  have hsame : (us.take i).countP (fun u => decide ¬ u.dynamic.squashed = true) = (us.take i).countP survives :=
    List.countP_congr fun u _ => by cases hu : u.dynamic.squashed <;> simp [survives, hu]
  rw [hsame] at hlength
  exact hlength.symm

theorem squashedBefore_mono {i j : ℕ} (h : i ≤ j) : squashedBefore us i ≤ squashedBefore us j :=
  (List.take_sublist_take_left h).countP_le

/-- The first micro-op of a type is not squashed. -/
theorem Sound.squashedBefore_start (h : Sound numLoads numExecs numStores us) {type : UopType}
    (hpos : 0 < amount numLoads numExecs numStores type) :
    start numLoads numExecs type < us.length ∧
      squashedBefore us (start numLoads numExecs type + 1) = squashedBefore us (start numLoads numExecs type) := by
  obtain ⟨-, hoffset, hlength⟩ := decodeAt_start hpos
  rw [Nat.add_zero] at hoffset hlength
  obtain ⟨u, hu, huop, -⟩ := h.getElem? hlength
  have hstays : u.dynamic.squashed = false := by
    by_contra hgone
    have hkeeps := h.keeps u (List.mem_of_getElem? hu) (by simpa [survives] using hgone)
    exact hkeeps.2 (huop ▸ hoffset)
  refine ⟨h.length ▸ hlength, ?_⟩
  rw [squashedBefore_succ hu, hstays]
  rfl

/-- The assertion of the second loop holds, and the number of dependencies becomes the number of those that survive. -/
theorem Sound.recount (h : Sound numLoads numExecs numStores us) {i : ℕ} {u : InstructionUop} (hu : us[i]? = some u) :
    recount (count ⟨none, 0, 0⟩ us) i (counted us i u) = some (settled us i (counted us i u)) := by
  have hsquashed : (counted us i u).dynamic.squashed = u.dynamic.squashed := by
    rw [counted]
    split_ifs <;> rfl
  have hintra : (counted us i u).dynamic.intraInstructionDependencies = u.dynamic.intraInstructionDependencies := by
    rw [counted]
    dsimp only
    split_ifs <;> rfl
  have huop : (counted us i u).uop = u.uop := rfl
  rw [InstructionUop.recount, settled, hsquashed, hintra, huop]
  by_cases hnone : u.dynamic.squashed = true ∨ u.dynamic.intraInstructionDependencies = 0
  · rw [if_pos hnone, if_pos hnone, ← hintra]
    rfl
  · rw [if_neg hnone, if_neg hnone]
    have hi : i < numLoads + numExecs + numStores := h.length ▸ (List.getElem?_eq_some_iff.1 hu).1
    obtain ⟨u', hu', hdecoded, -, hintra', -⟩ := h.getElem? hi
    rw [hu, Option.some.injEq] at hu'
    subst hu'
    obtain ⟨hplace, hamount, hzero | ⟨type, -, hlength, hstart⟩⟩ := @decodeAt_spec numLoads numExecs numStores i hi
    · rw [hintra', hdecoded] at hnone
      exact absurd (.inr hzero) hnone
    · rw [← hdecoded] at hplace hamount hlength hstart
      rw [← hintra'] at hlength hstart
      have hcount (j : ℕ) : squashedCountAt (count ⟨none, 0, 0⟩ us) j =
          (us[j]?.map fun _ => squashedBefore us (j + 1)).getD 0 := by
        rw [squashedCountAt, getElem?_count h us (List.drop_zero) ⟨rfl, fun _ _ hj => absurd hj (Nat.not_lt_zero _),
          fun _ htype => absurd htype (by simp)⟩, Option.map_map, Nat.zero_add]
        rfl
      have hbase : i - u.uop.microOpTypeOffset = start numLoads numExecs u.uop.uopType := by omega
      have hbefore : start numLoads numExecs u.uop.uopType - u.dynamic.intraInstructionDependencies =
          start numLoads numExecs type := by omega
      obtain ⟨hbaseLength, hbaseStays⟩ := h.squashedBefore_start (Nat.zero_lt_of_lt hamount)
      have hpositive : 0 < amount numLoads numExecs numStores type := by
        rw [← hlength]
        exact Nat.pos_of_ne_zero fun hzero => hnone (.inr hzero)
      obtain ⟨hbeforeLength, hbeforeStays⟩ := h.squashedBefore_start hpositive
      have hbaseSum := squashedBefore_add_count hbaseLength.le
      have hbeforeSum := squashedBefore_add_count hbeforeLength.le
      have hmono := @squashedBefore_mono us _ _ (Nat.le.intro hstart)
      have hdifference : u.dynamic.intraInstructionDependencies -
          (squashedBefore us (start numLoads numExecs u.uop.uopType) - squashedBefore us (start numLoads numExecs type)) =
            Nat.count (Survives us) (start numLoads numExecs u.uop.uopType) -
              Nat.count (Survives us) (start numLoads numExecs type) := by omega
      rw [hbase, if_pos (by omega), hbefore, hcount, hcount, List.getElem?_eq_getElem hbaseLength,
        List.getElem?_eq_getElem hbeforeLength, Option.map_some, Option.map_some, Option.getD_some, Option.getD_some,
        hbaseStays, hbeforeStays, hdifference]

/-- `doSquashing` ends without a failed assertion. -/
theorem Sound.doSquashing (h : Sound numLoads numExecs numStores us) :
    ∃ vs, doSquashing us 0 = some vs ∧ ∀ i, vs[i]? = us[i]?.map fun u => settled us i (counted us i u) := by
  have hcount (k : ℕ) : (count ⟨none, 0, 0⟩ us)[k]? = us[k]?.map (counted us k) := by
    rw [getElem?_count h us (List.drop_zero) ⟨rfl, fun _ _ hj => absurd hj (Nat.not_lt_zero _),
      fun _ htype => absurd htype (by simp)⟩, Nat.zero_add]
  obtain ⟨vs, hvs, hget⟩ := @getElem?_recountAll (count ⟨none, 0, 0⟩ us) (settled us)
    (count ⟨none, 0, 0⟩ us) 0 fun k v hv => by
      rw [hcount, Option.map_eq_some_iff] at hv
      obtain ⟨u, hu, rfl⟩ := hv
      rw [Nat.zero_add]
      exact h.recount hu
  refine ⟨vs, hvs, fun i => ?_⟩
  rw [hget, hcount, Option.map_map, Nat.zero_add]
  rfl

end InstructionUop

/-- The operand is a read. -/
def Operand.isRead : Operand → Bool
  | .read _ => true
  | _ => false

/-- The operand is a write. -/
def Operand.isWrite : Operand → Bool
  | .write _ => true
  | _ => false

namespace Handling

/-- An instruction while its operands are handled. -/
structure Sound (numLoads numExecs numStores : ℕ) (h : Handling) : Prop where
  uops : InstructionUop.Sound numLoads numExecs numStores h.uops
  reads : h.reads.lines.length = h.reads.done
  writes : h.writes.lines.length = h.writes.done
  flag : h.doSquashing = false → ∀ b ∈ h.uops.map InstructionUop.survives, b = true

/-- The loop over the operands ends if there are not more of them than micro-ops. -/
theorem Sound.operands {core : MicroOp → DynamicMicroOp} (operands : List Operand) {h : Handling}
    (hsound : h.Sound numLoads numExecs numStores)
    (hreads : h.reads.done + operands.countP Operand.isRead ≤ numLoads)
    (hwrites : h.writes.done + operands.countP Operand.isWrite ≤ numStores) :
    let us := (MicroOp.decode numLoads numExecs numStores).map (InstructionUop.create core)
    ∃ h', operands.foldlM (operand (baseIndex us .load) (baseIndex us .store)) h = some h' ∧
      h'.Sound numLoads numExecs numStores := by
  dsimp only
  induction operands generalizing h with
  | nil => exact ⟨h, rfl, hsound⟩
  | cons o operands ih =>
    rw [List.foldlM_cons]
    cases o with
    | other => exact ih hsound hreads hwrites
    | read address =>
      rw [List.countP_cons_of_pos rfl] at hreads
      rw [List.countP_cons_of_neg (by simp [Operand.isWrite])] at hwrites
      have hdone : h.reads.done < MicroOp.amount numLoads numExecs numStores .load := by
        change h.reads.done < numLoads
        omega
      obtain ⟨us, reads, again, haccess, huops, hnext, hlines, hsame⟩ :=
        hsound.uops.handleAccess (by decide) address hdone hsound.reads
      rw [InstructionUop.baseIndex_create core (Nat.zero_lt_of_lt hdone)] at ih ⊢
      have hstep : operand (some (MicroOp.start numLoads numExecs .load))
          (baseIndex ((MicroOp.decode numLoads numExecs numStores).map (InstructionUop.create core)) .store) h
          (.read address) = some ⟨us, reads, h.writes, h.doSquashing || again⟩ := by
        rw [operand, haccess]
        rfl
      rw [hstep, Option.bind_eq_bind, Option.bind_some]
      refine ih ⟨huops, hlines, hsound.writes, fun hflag => ?_⟩ (by dsimp only; omega) hwrites
      rw [Bool.or_eq_false_iff] at hflag
      rw [hsame hflag.2]
      exact hsound.flag hflag.1
    | write address =>
      rw [List.countP_cons_of_neg (by simp [Operand.isRead])] at hreads
      rw [List.countP_cons_of_pos rfl] at hwrites
      have hdone : h.writes.done < MicroOp.amount numLoads numExecs numStores .store := by
        change h.writes.done < numStores
        omega
      obtain ⟨us, writes, again, haccess, huops, hnext, hlines, hsame⟩ :=
        hsound.uops.handleAccess (by decide) address hdone hsound.writes
      rw [InstructionUop.baseIndex_create core (Nat.zero_lt_of_lt hdone)] at ih ⊢
      have hstep : operand (baseIndex ((MicroOp.decode numLoads numExecs numStores).map (InstructionUop.create core))
          .load) (some (MicroOp.start numLoads numExecs .store)) h (.write address) =
            some ⟨us, h.reads, writes, h.doSquashing || again⟩ := by
        rw [operand, haccess]
        rfl
      rw [hstep, Option.bind_eq_bind, Option.bind_some]
      refine ih ⟨huops, hsound.reads, hlines, fun hflag => ?_⟩ hreads (by dsimp only; omega)
      rw [Bool.or_eq_false_iff] at hflag
      rw [hsame hflag.2]
      exact hsound.flag hflag.1

end Handling

namespace InstructionUop

open MicroOp

/-! ### Survivors -/

/-- The offsets and the numbers of dependencies count survivors. -/
structure Renumbered (numLoads numExecs numStores : ℕ) (vs : List InstructionUop) : Prop where
  length : vs.length = numLoads + numExecs + numStores
  ends : Ends vs
  survives : ∀ i v, vs[i]? = some v → v.dynamic.squashed = false →
    let u := decodeAt numLoads numExecs numStores i
    v.dynamic.dependencies = [] ∧
      v.dynamic.microOpTypeOffset + Nat.count (Survives vs) (i - u.microOpTypeOffset) = Nat.count (Survives vs) i ∧
      v.dynamic.intraInstructionDependencies =
        Nat.count (Survives vs) (i - u.microOpTypeOffset) -
          Nat.count (Survives vs) (i - u.microOpTypeOffset - u.intraInstructionDependencies)
  first : 0 < numLoads + numExecs + numStores → ∃ v, vs[0]? = some v ∧ v.dynamic.squashed = false

variable {us vs : List InstructionUop}

/-- Which micro-ops survive decides how many do. -/
theorem count_survives_congr (h : vs.map survives = us.map survives) (i : ℕ) :
    Nat.count (Survives vs) i = Nat.count (Survives us) i := by
  have hmap (us : List InstructionUop) : Nat.count (Survives us) i = ((us.map survives).take i).countP id := by
    rw [count_survives, ← List.map_take, List.countP_map]
    rfl
  rw [hmap, hmap, h]

/-- The first micro-op of an instruction survives. -/
theorem Sound.first (h : Sound numLoads numExecs numStores us) (hpos : 0 < numLoads + numExecs + numStores) :
    ∃ u, us[0]? = some u ∧ u.dynamic.squashed = false := by
  obtain ⟨u, hu, huop, -⟩ := h.getElem? hpos
  obtain ⟨hplace, -, -⟩ := @decodeAt_spec numLoads numExecs numStores 0 hpos
  refine ⟨u, hu, ?_⟩
  by_contra hgone
  have hkeeps := h.keeps u (List.mem_of_getElem? hu) (by simpa [InstructionUop.survives] using hgone)
  rw [huop] at hkeeps
  exact hkeeps.2 (by omega)

/-- Without a squashed micro-op the counts are what they have been. -/
theorem Sound.renumbered (h : Sound numLoads numExecs numStores us)
    (hall : ∀ b ∈ us.map InstructionUop.survives, b = true) : Renumbered numLoads numExecs numStores us := by
  have hcount {i : ℕ} (hi : i ≤ us.length) : Nat.count (Survives us) i = i := by
    rw [count_survives, List.countP_eq_length.2 fun u hu => hall _ (List.mem_map_of_mem (List.mem_of_mem_take hu)),
      List.length_take_of_le hi]
  refine ⟨h.length, h.ends, fun i u hu hstays => ?_, h.first⟩
  have hlt := (List.getElem?_eq_some_iff.1 hu).1
  have hi : i < numLoads + numExecs + numStores := h.length ▸ hlt
  obtain ⟨u', hu', hdecoded, hoffset, hintra, hdependencies⟩ := h.getElem? hi
  rw [hu, Option.some.injEq] at hu'
  subst hu'
  obtain ⟨hplace, -, hspec⟩ := @decodeAt_spec numLoads numExecs numStores i hi
  dsimp only
  rw [hcount hlt.le, hcount (by omega), hcount (by omega), hoffset, hintra, hdecoded]
  refine ⟨hdependencies, by omega, ?_⟩
  obtain hzero | ⟨type, -, -, hstart⟩ := hspec
  · omega
  · omega

/-- The micro-ops of a type before one of them are those from the first one on. -/
theorem Sound.typeBefore_add_count (h : Sound numLoads numExecs numStores us) {i : ℕ} {u : InstructionUop}
    (hu : us[i]? = some u) :
    typeBefore us i u.uop.uopType + Nat.count (Survives us) (i - u.uop.microOpTypeOffset) =
      Nat.count (Survives us) i := by
  have hi : i < numLoads + numExecs + numStores := h.length ▸ (List.getElem?_eq_some_iff.1 hu).1
  have hdecoded {j : ℕ} {v : InstructionUop} (hj : j ≤ i) (hv : us[j]? = some v) :
      v.uop = decodeAt numLoads numExecs numStores j := by
    obtain ⟨v', hv', huop, -⟩ := h.getElem? (lt_of_le_of_lt hj hi)
    rw [hv, Option.some.injEq] at hv'
    rw [hv', huop]
  obtain ⟨hplace, -, -⟩ := @decodeAt_spec numLoads numExecs numStores i hi
  rw [← hdecoded (le_refl i) hu] at hplace
  have hstart : i - u.uop.microOpTypeOffset = start numLoads numExecs u.uop.uopType := by omega
  have htype {j : ℕ} {v : InstructionUop} (hj : j ≤ i) (hv : us[j]? = some v) :
      v.uop.uopType = u.uop.uopType ↔ start numLoads numExecs u.uop.uopType ≤ j := by
    have hiff := decodeAt_uopType_iff hi hj
    rwa [← hdecoded hj hv, ← hdecoded (le_refl i) hu] at hiff
  rw [hstart]
  -- from the first micro-op of the type on, both counts go on together
  have hloop (k : ℕ) (hk : start numLoads numExecs u.uop.uopType + k ≤ i) :
      typeBefore us (start numLoads numExecs u.uop.uopType + k) u.uop.uopType +
          Nat.count (Survives us) (start numLoads numExecs u.uop.uopType) =
        Nat.count (Survives us) (start numLoads numExecs u.uop.uopType + k) := by
    induction k with
    | zero =>
      have hnone : typeBefore us (start numLoads numExecs u.uop.uopType) u.uop.uopType = 0 := by
        rw [typeBefore, List.countP_eq_zero]
        intro v hv hcounted
        rw [Bool.and_eq_true, decide_eq_true_eq] at hcounted
        obtain ⟨j, hj⟩ := List.mem_iff_getElem?.1 hv
        rw [List.getElem?_take] at hj
        split_ifs at hj with hlt
        have hle := (htype (by omega) hj).1 hcounted.2
        omega
      rw [Nat.add_zero, hnone, Nat.zero_add]
    | succ k ih =>
      obtain ⟨v, hv, -⟩ := h.getElem? (i := start numLoads numExecs u.uop.uopType + k) (by omega)
      have hsame : v.uop.uopType = u.uop.uopType := (htype (by omega) hv).2 (Nat.le_add_right _ _)
      have hsurvives : Survives us (start numLoads numExecs u.uop.uopType + k) ↔ InstructionUop.survives v = true := by
        rw [Survives, hv, Option.any_some]
      rw [← Nat.add_assoc, typeBefore_succ hv, Nat.count_succ, ← ih (by omega), hsame]
      by_cases hstays : InstructionUop.survives v = true
      · rw [if_pos (hsurvives.2 hstays), if_pos (by simp [hstays])]
        omega
      · rw [if_neg fun hs => hstays (hsurvives.1 hs), if_neg (by simp [hstays])]
        omega
  have hend := hloop u.uop.microOpTypeOffset (by omega)
  rwa [← hplace] at hend

/-- `doSquashing` counts survivors. -/
theorem Sound.renumbered_doSquashing (h : Sound numLoads numExecs numStores us) :
    ∃ vs, InstructionUop.doSquashing us 0 = some vs ∧ Renumbered numLoads numExecs numStores vs := by
  obtain ⟨vs, hvs, hget⟩ := h.doSquashing
  have hsame {β : Type} (g : InstructionUop → β) (hg : ∀ i u, g (settled us i (counted us i u)) = g u) :
      vs.map g = us.map g := by
    apply List.ext_getElem?
    intro i
    rw [List.getElem?_map, List.getElem?_map, hget, Option.map_map]
    exact congrArg (Option.map · us[i]?) (funext (hg i))
  have hsquashed (i : ℕ) (u : InstructionUop) : (counted us i u).dynamic.squashed = u.dynamic.squashed := by
    rw [counted]
    split_ifs <;> rfl
  have hsurvives : vs.map InstructionUop.survives = us.map InstructionUop.survives := hsame _ fun i u => by
    change (!(counted us i u).dynamic.squashed) = _
    rw [hsquashed]
    rfl
  have hends : Ends vs := h.ends.congr (hsame _ fun i u => by
    change (!(counted us i u).dynamic.squashed, u.first, u.last) = _
    rw [hsquashed]
    rfl)
  have hlength : vs.length = us.length := by
    have hmap := congrArg List.length hsurvives
    rwa [List.length_map, List.length_map] at hmap
  refine ⟨vs, hvs, hlength.trans h.length, hends, fun i v hv hstays => ?_, fun hpos => ?_⟩
  · rw [hget, Option.map_eq_some_iff] at hv
    obtain ⟨u, hu, rfl⟩ := hv
    have hi : i < numLoads + numExecs + numStores := h.length ▸ (List.getElem?_eq_some_iff.1 hu).1
    obtain ⟨u', hu', hdecoded, -, hintra, hdependencies⟩ := h.getElem? hi
    rw [hu, Option.some.injEq] at hu'
    subst hu'
    have hustays : u.dynamic.squashed = false := (hsquashed i u).symm.trans hstays
    have hcounted : (counted us i u).dynamic =
        { u.dynamic with microOpTypeOffset := typeBefore us i u.uop.uopType } := by
      rw [counted, hustays]
      rfl
    dsimp only
    rw [count_survives_congr hsurvives, count_survives_congr hsurvives, count_survives_congr hsurvives, ← hdecoded,
      settled, hcounted]
    dsimp only
    refine ⟨hdependencies, h.typeBefore_add_count hu, ?_⟩
    rw [hustays, hintra]
    by_cases hzero : u.uop.intraInstructionDependencies = 0
    · rw [if_pos (.inr hzero), hzero, Nat.sub_zero, Nat.sub_self]
    · rw [if_neg (by simp [hzero])]
      rfl
  · obtain ⟨u, hu, hstays⟩ := h.first hpos
    exact ⟨settled us 0 (counted us 0 u), by rw [hget, hu, Option.map_some], (hsquashed 0 u).trans hstays⟩

/-- The number that a survivor gets. -/
theorem getElem?_renumber (b : ℕ) {i : ℕ} {v : InstructionUop} (hv : vs[i]? = some v)
    (hstays : v.dynamic.squashed = false) : (renumber b vs)[Nat.count (Survives vs) i]? =
      some { v.dynamic with sequenceNumber := b + Nat.count (Survives vs) i } := by
  rw [count_survives]
  induction vs generalizing b i with
  | nil => cases hv
  | cons u vs ih =>
    cases i with
    | zero =>
      rw [List.getElem?_cons_zero, Option.some.injEq] at hv
      subst hv
      rw [renumber, if_neg (by simp [hstays])]
      rfl
    | succ i =>
      rw [List.getElem?_cons_succ] at hv
      rw [renumber, List.take_succ_cons, List.countP_cons]
      by_cases hgone : u.dynamic.squashed = true
      · rw [if_pos hgone, if_neg (by simp [InstructionUop.survives, hgone]), Nat.add_zero]
        exact ih b hv
      · rw [if_neg hgone, if_pos (by simpa [InstructionUop.survives] using hgone), List.getElem?_cons_succ, ih (b + 1) hv,
          Nat.add_right_comm, Nat.add_assoc b]

/-- The dependencies within an instruction, as numbers. -/
theorem getDependencies_eq (u : DynamicMicroOp) (hdependencies : u.dependencies = []) {low : ℕ}
    (hlow : u.sequenceNumber = low + u.intraInstructionDependencies + u.microOpTypeOffset) :
    u.getDependencies = (List.range' low u.intraInstructionDependencies).map fun n => n % 2 ^ 64 := by
  have hfirst : u.firstDependency = low % 2 ^ 64 := by
    rw [DynamicMicroOp.firstDependency, hlow, sub64, sub64]
    omega
  rw [DynamicMicroOp.getDependencies, hdependencies, List.append_nil, hfirst, List.range'_eq_map_range, List.map_map]
  exact List.map_congr_left fun k _ => Nat.mod_add_mod low _ k

/-- Handling the operands keeps the dependencies between the micro-ops that are not squashed. Before, micro-ops that are
numbered from `b` on depend on the positions of `range`. Afterwards a micro-op that survives depends on those of them that
survive, by their new numbers. One survivor is the first one, and one is the last one. -/
structure Preserved (us vs : List InstructionUop) : Prop where
  before : ∀ (b i : ℕ) (u : InstructionUop), us[i]? = some u →
    { u.dynamic with sequenceNumber := b + i }.getDependencies = (u.range i).map fun j => (b + j) % 2 ^ 64
  after : ∀ (b i : ℕ) (u v : InstructionUop), us[i]? = some u → vs[i]? = some v → v.dynamic.squashed = false →
    ∃ w, (renumber b vs)[Nat.count (Survives vs) i]? = some w ∧
      w = { v.dynamic with sequenceNumber := b + Nat.count (Survives vs) i } ∧
      w.getDependencies = ((u.range i).filter (Survives vs)).map fun j => (b + Nat.count (Survives vs) j) % 2 ^ 64
  first : (vs.filter survives).countP InstructionUop.first = 1
  last : (vs.filter survives).countP InstructionUop.last = 1

/-- The dependencies of a survivor. -/
theorem Renumbered.preserved (hus : Sound numLoads numExecs numStores us) (h : Renumbered numLoads numExecs numStores vs)
    (hpos : 0 < numLoads + numExecs + numStores) : Preserved us vs := by
  have hspec {i : ℕ} {u : InstructionUop} (hu : us[i]? = some u) :
      u.uop = decodeAt numLoads numExecs numStores i ∧ u.dynamic.microOpTypeOffset = u.uop.microOpTypeOffset ∧
        u.dynamic.intraInstructionDependencies = u.uop.intraInstructionDependencies ∧ u.dynamic.dependencies = [] ∧
        u.uop.microOpTypeOffset + u.uop.intraInstructionDependencies ≤ i := by
    have hi : i < numLoads + numExecs + numStores := hus.length ▸ (List.getElem?_eq_some_iff.1 hu).1
    obtain ⟨u', hu', hdecoded, hoffset, hintra, hdependencies⟩ := hus.getElem? hi
    rw [hu, Option.some.injEq] at hu'
    subst hu'
    obtain ⟨hplace, -, hzero | ⟨type, -, -, hstart⟩⟩ := @decodeAt_spec numLoads numExecs numStores i hi
    · exact ⟨hdecoded, hoffset, hintra, hdependencies, by rw [hdecoded]; omega⟩
    · exact ⟨hdecoded, hoffset, hintra, hdependencies, by rw [hdecoded]; omega⟩
  obtain ⟨v₀, hv₀, hstays₀⟩ := h.first hpos
  have hne : vs.filter InstructionUop.survives ≠ [] :=
    List.ne_nil_of_mem (List.mem_filter.2 ⟨List.mem_of_getElem? hv₀, by simp [InstructionUop.survives, hstays₀]⟩)
  constructor
  · intro b i u hu
    obtain ⟨hdecoded, hoffset, hintra, hdependencies, hle⟩ := hspec hu
    have hlow : b + i = b + (i - u.dynamic.microOpTypeOffset - u.dynamic.intraInstructionDependencies) +
        u.dynamic.intraInstructionDependencies + u.dynamic.microOpTypeOffset := by omega
    rw [getDependencies_eq { u.dynamic with sequenceNumber := b + i } hdependencies hlow, range, ← List.map_add_range',
      List.map_map]
    rfl
  · intro b i u v hu hv hstays
    obtain ⟨hdecoded, hoffset, hintra, -, hle⟩ := hspec hu
    obtain ⟨hdependencies, hvoffset, hvintra⟩ := h.survives i v hv hstays
    rw [← hdecoded] at hvoffset hvintra
    have hmono : Nat.count (Survives vs) (i - u.uop.microOpTypeOffset - u.uop.intraInstructionDependencies) ≤
        Nat.count (Survives vs) (i - u.uop.microOpTypeOffset) := Nat.count_monotone _ (Nat.sub_le _ _)
    have hlow : b + Nat.count (Survives vs) i =
        b + Nat.count (Survives vs) (i - u.uop.microOpTypeOffset - u.uop.intraInstructionDependencies) +
          v.dynamic.intraInstructionDependencies + v.dynamic.microOpTypeOffset := by omega
    have hcount := map_count_filter (Survives vs) (i - u.uop.microOpTypeOffset - u.uop.intraInstructionDependencies)
      u.uop.intraInstructionDependencies
    rw [Nat.sub_add_cancel (by omega)] at hcount
    refine ⟨_, getElem?_renumber b hv hstays, rfl, ?_⟩
    rw [getDependencies_eq { v.dynamic with sequenceNumber := b + Nat.count (Survives vs) i } hdependencies hlow, range,
      hoffset, hintra]
    dsimp only
    rw [hvintra, ← List.map_add_range', ← hcount, List.map_map, List.map_map]
    rfl
  · have hfirst := h.ends.first.countP (by simpa using hne)
    rwa [List.countP_map] at hfirst
  · have hlast := h.ends.last.countP (by simpa using hne)
    rwa [List.countP_reverse, List.countP_map] at hlast

/-- An instruction with any numbers of loads, micro-ops that execute and stores, and at most as many operands as loads and
stores: the squashing succeeds and preserves the dependencies. -/
theorem squashing_exact (core : MicroOp → DynamicMicroOp) (numLoads numExecs numStores : ℕ) (operands : List Operand)
    (hpos : 0 < numLoads + numExecs + numStores) (hreads : operands.countP Operand.isRead ≤ numLoads)
    (hwrites : operands.countP Operand.isWrite ≤ numStores) :
    ∃ vs, Handling.handleInstruction ((decode numLoads numExecs numStores).map (create core)) operands = some vs ∧
      Preserved ((decode numLoads numExecs numStores).map (create core)) vs := by
  have hcreated := @Sound.created numLoads numExecs numStores core
  have hall : ∀ b ∈ ((decode numLoads numExecs numStores).map (create core)).map InstructionUop.survives, b = true := by
    intro b hb
    rw [List.map_map] at hb
    obtain ⟨u, -, rfl⟩ := List.mem_map.1 hb
    rfl
  obtain ⟨h, hloop, hsound⟩ := @Handling.Sound.operands numLoads numExecs numStores core operands
    ⟨(decode numLoads numExecs numStores).map (create core), ⟨0, []⟩, ⟨0, []⟩, false⟩
    ⟨hcreated, rfl, rfl, fun _ => hall⟩ (by simpa using hreads) (by simpa using hwrites)
  rw [Handling.handleInstruction, hloop, Option.bind_eq_bind, Option.bind_some]
  cases hflag : h.doSquashing with
  | false => exact ⟨h.uops, rfl, (hsound.uops.renumbered (hsound.flag hflag)).preserved hcreated hpos⟩
  | true =>
    obtain ⟨vs, hvs, hrenumbered⟩ := hsound.uops.renumbered_doSquashing
    exact ⟨vs, hvs, hrenumbered.preserved hcreated hpos⟩

/-- An instruction with three loads, of which the second and the third are from one line, and two stores to one line. -/
theorem squashing_exact_gather : ∃ vs, Handling.handleInstruction ((decode 3 1 2).map (create fun _ => .plain))
      [.read 0, .read 64, .write 0, .read 72, .write 8] = some vs ∧
    Preserved ((decode 3 1 2).map (create fun _ => .plain)) vs :=
  squashing_exact (fun _ => .plain) 3 1 2 [.read 0, .read 64, .write 0, .read 72, .write 8] (by decide) (by decide)
    (by decide)

end InstructionUop

end LifeSim.Rob
