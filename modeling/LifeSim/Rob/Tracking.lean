import LifeSim.Lib.Machine
import LifeSim.Lib.Recent
import LifeSim.Rob.Uop

/-!
# Dependence tracking

The tables of the last producers against the micro-ops that have passed. A register or a store is found whenever its
number is not below the lowest valid one, although the tables forget what is below. A barrier is found only above the
lowest valid number: the first micro-op of the window is no barrier to the others.

The tables are limited too: a micro-op has room for fourteen dependencies, and the queue for 1024 stores.
-/

namespace LifeSim.Rob

open LifeSim.Lib

/-! ### Adding several dependencies -/

/-- There is room for as many numbers as the array holds. -/
theorem addDependencies_isSome (ns : List ℕ) {u : DynamicMicroOp} (hnodup : u.dependencies.Nodup)
    (hlength : u.dependencies.length ≤ maximumNumberOfDependencies) :
    (ns.foldlM DynamicMicroOp.addDependency u).isSome ↔
      (u.dependencies ++ ns).toFinset.card ≤ maximumNumberOfDependencies := by
  induction ns generalizing u with
  | nil =>
    rw [List.append_nil, List.toFinset_card_of_nodup hnodup]
    exact iff_of_true rfl hlength
  | cons n ns ih =>
    rw [List.foldlM_cons, DynamicMicroOp.addDependency]
    split_ifs with hmem hroom
    · have hset : (u.dependencies ++ n :: ns).toFinset = (u.dependencies ++ ns).toFinset := by
        ext m
        simp only [List.mem_toFinset, List.mem_append, List.mem_cons]
        constructor
        · rintro (h | rfl | h)
          · exact .inl h
          · exact .inl hmem
          · exact .inr h
        · rintro (h | h)
          · exact .inl h
          · exact .inr (.inr h)
      rw [hset]
      exact ih hnodup hlength
    · have hnodup' : (u.dependencies ++ [n]).Nodup := by
        rw [List.nodup_append]
        refine ⟨hnodup, List.nodup_singleton n, fun a ha b hb => ?_⟩
        rw [List.mem_singleton] at hb
        rintro rfl
        exact hmem (hb ▸ ha)
      have hlength' : (u.dependencies ++ [n]).length ≤ maximumNumberOfDependencies := by
        rw [List.length_append, List.length_singleton]
        omega
      have hrest := ih (u := { u with dependencies := u.dependencies ++ [n] }) hnodup' hlength'
      rw [List.append_assoc] at hrest
      exact hrest
    · refine iff_of_false (by simp) fun hcard => ?_
      have hsub : insert n u.dependencies.toFinset ⊆ (u.dependencies ++ n :: ns).toFinset := by
        intro m hm
        rw [Finset.mem_insert, List.mem_toFinset] at hm
        rw [List.mem_toFinset, List.mem_append, List.mem_cons]
        rcases hm with rfl | hm
        · exact .inr (.inl rfl)
        · exact .inl hm
      have hle := Finset.card_le_card hsub
      rw [Finset.card_insert_of_notMem (by rwa [List.mem_toFinset]), List.toFinset_card_of_nodup hnodup] at hle
      omega

/-- Numbers that are added are members then, and nothing else changes. -/
theorem addDependencies_mem {ns : List ℕ} {u v : DynamicMicroOp} (h : ns.foldlM DynamicMicroOp.addDependency u = some v) :
    (∀ n, n ∈ v.dependencies ↔ n ∈ u.dependencies ∨ n ∈ ns) ∧ v = { u with dependencies := v.dependencies } := by
  induction ns generalizing u with
  | nil =>
    cases h
    simp
  | cons n ns ih =>
    rw [List.foldlM_cons, DynamicMicroOp.addDependency] at h
    split_ifs at h with hmem hroom
    · obtain ⟨hrest, hfields⟩ := ih h
      refine ⟨fun m => ?_, hfields⟩
      rw [hrest, List.mem_cons]
      constructor
      · rintro (h | h)
        · exact .inl h
        · exact .inr (.inr h)
      · rintro (h | rfl | h)
        · exact .inl h
        · exact .inl hmem
        · exact .inr h
    · obtain ⟨hrest, hfields⟩ := ih h
      refine ⟨fun m => ?_, hfields⟩
      rw [hrest, List.mem_append, List.mem_singleton, List.mem_cons, or_assoc]
    · cases h

/-! ### What has passed -/

/-- A store to an address. A micro-op is a load, a store or neither. -/
def storesTo (address : BitVec 64) (u : DynamicMicroOp) : Bool := !u.isLoad && u.isStore && decide (u.phys = address)

/-- A memory barrier, which is no load or store. -/
def isBarrier (u : DynamicMicroOp) : Bool := !u.isLoad && !u.isStore && u.isMemBarrier

/-- A load, a store or a memory barrier. -/
def ordered (u : DynamicMicroOp) : Bool := u.isLoad || u.isStore || u.isMemBarrier

/-- The number of the latest micro-op that meets a test, where the latest ones come first. -/
def latest (earlier : List DynamicMicroOp) (test : DynamicMicroOp → Bool) : Option ℕ :=
  (earlier.find? test).map DynamicMicroOp.sequenceNumber

/-- The latest writers of the source registers. -/
def registerProducers (earlier : List DynamicMicroOp) (u : DynamicMicroOp) : List ℕ :=
  u.sourceRegisters.filterMap fun reg => latest earlier fun w => reg ∈ w.destinationRegisters

/-- The latest store to the address of a load. -/
def storeProducer (earlier : List DynamicMicroOp) (u : DynamicMicroOp) : Option ℕ :=
  if u.isLoad then latest earlier (storesTo u.phys) else none

/-- The latest barrier before a load, a store or a barrier. -/
def barrierProducer (earlier : List DynamicMicroOp) (u : DynamicMicroOp) : Option ℕ :=
  if ordered u then latest earlier isBarrier else none

/-- The dependencies of a micro-op. -/
def producers (earlier : List DynamicMicroOp) (u : DynamicMicroOp) : List ℕ :=
  registerProducers earlier u ++ (storeProducer earlier u).toList ++ (barrierProducer earlier u).toList

/-- The tables, with the micro-ops that have passed, the latest one first. -/
structure Tracker where
  registers : RegisterDependencies
  memory : MemoryDependencies
  earlier : List DynamicMicroOp
  nextNumber : ℕ
  lowest : ℕ

/-- The tables before the first micro-op, which has any number. -/
def Tracker.new (first : ℕ) : Tracker := ⟨fun _ => none, ⟨[], none⟩, [], first, 0⟩

/-- A micro-op with the lowest valid number when it comes. -/
structure Arrival where
  uop : DynamicMicroOp
  lowest : ℕ

/-- A micro-op as it is created. -/
def Arrival.create (a : Arrival) (n : ℕ) : DynamicMicroOp := { a.uop with dependencies := [], sequenceNumber := n }

/-- Both calls of `setDependencies`. -/
def Tracker.setDependencies (s : Tracker) (a : Arrival) :
    Option (RegisterDependencies × MemoryDependencies × DynamicMicroOp) := do
  let (registers, u) ← s.registers.setDependencies (a.create s.nextNumber) a.lowest
  let (memory, u) ← s.memory.setDependencies u a.lowest
  return (registers, memory, u)

/-- The tables as a machine, which stops at a failed assertion. -/
def tracking : Machine Tracker Arrival Unit where
  step s a :=
    match s.setDependencies a with
    | some (registers, memory, u) => .ok ⟨registers, memory, u :: s.earlier, s.nextNumber + 1, a.lowest⟩
    | none => .error ()

/-- The lowest valid number does not go back and is not above the number of the micro-op. -/
def Ordered (s : Tracker) (a : Arrival) : Prop := s.lowest ≤ a.lowest ∧ a.lowest ≤ s.nextNumber

/-- The micro-op gets the dependencies that are valid, and no others. -/
def Tracked (s : Tracker) (a : Arrival) : Prop :=
  ∃ registers memory u, s.setDependencies a = some (registers, memory, u) ∧
    ∀ n, n ∈ u.dependencies ↔ n ∈ producers s.earlier (a.create s.nextNumber) ∧ a.lowest ≤ n

/-- The stores in flight, the latest one first. -/
def storesFrom (lowest : ℕ) (earlier : List DynamicMicroOp) : List DynamicMicroOp :=
  earlier.filter fun w => !w.isLoad && w.isStore && decide (lowest ≤ w.sequenceNumber)

/-- The queue has room for a store. -/
def StoreFits (earlier : List DynamicMicroOp) (lowest : ℕ) (u : DynamicMicroOp) : Prop :=
  u.isLoad = false → u.isStore = true → (storesFrom lowest earlier).length < MemoryDependencies.capacity

instance (earlier : List DynamicMicroOp) (lowest : ℕ) (u : DynamicMicroOp) : Decidable (StoreFits earlier lowest u) :=
  inferInstanceAs (Decidable (_ → _ → _))

/-- A barrier at the lowest valid number is another dependency too, and there is room for the dependencies and for the
stores from the lowest valid number on. -/
def Trackable (s : Tracker) (a : Arrival) : Prop :=
  let u := a.create s.nextNumber
  (barrierProducer s.earlier u = some a.lowest →
      a.lowest ∈ registerProducers s.earlier u ∨ storeProducer s.earlier u = some a.lowest) ∧
    ((producers s.earlier u).filter fun n => a.lowest ≤ n).toFinset.card ≤ maximumNumberOfDependencies ∧
    StoreFits s.earlier a.lowest u

/-! ### What the tables hold -/

/-- The producer of a register, if it is not below a bound. -/
def RegisterDependencies.valid (r : RegisterDependencies) (bound reg : ℕ) : Option ℕ :=
  (r reg).filter fun n => bound ≤ n

/-- Two tables of registers agree from a bound on. -/
def AgreeFrom (lowest : ℕ) (r r' : RegisterDependencies) : Prop :=
  ∀ reg bound, lowest ≤ bound → r.valid bound reg = r'.valid bound reg

/-- The tables hold the latest producers, as far as they were valid when they were last looked at. -/
structure Tables (s : Tracker) : Prop where
  numbers : s.earlier.Pairwise fun v u => u.sequenceNumber < v.sequenceNumber
  below : ∀ u ∈ s.earlier, u.sequenceNumber < s.nextNumber
  registers : AgreeFrom s.lowest s.registers fun reg => latest s.earlier fun w => reg ∈ w.destinationRegisters
  stores : s.memory.producers = ((s.earlier.filter fun w => !w.isLoad && w.isStore &&
    decide (s.lowest ≤ w.sequenceNumber)).map fun w => (w.sequenceNumber, w.phys)).reverse
  membar : s.memory.membar = latest s.earlier isBarrier

theorem valid_none {r : RegisterDependencies} {reg : ℕ} (h : r reg = none) (bound : ℕ) : r.valid bound reg = none := by
  rw [RegisterDependencies.valid, h, Option.filter_none]

theorem valid_some {r : RegisterDependencies} {reg n bound : ℕ} (h : r reg = some n) (hle : bound ≤ n) :
    r.valid bound reg = some n := by
  rw [RegisterDependencies.valid, h, Option.filter_some, if_pos (by simpa using hle)]

theorem valid_old {r : RegisterDependencies} {reg n bound : ℕ} (h : r reg = some n) (hlt : n < bound) :
    r.valid bound reg = none := by
  rw [RegisterDependencies.valid, h, Option.filter_some, if_neg (by simpa using hlt)]

/-- Forgetting a producer below the bound. -/
theorem AgreeFrom.forget {lowest reg producer : ℕ} {r r' : RegisterDependencies} (h : AgreeFrom lowest r r')
    (hproducer : r reg = some producer) (hlt : producer < lowest) :
    AgreeFrom lowest (Function.update r reg none) r' := by
  intro reg' bound hbound
  by_cases hreg : reg' = reg
  · subst hreg
    rw [← h reg' bound hbound, valid_none (Function.update_self _ _ _), valid_old hproducer (by omega)]
  · rw [← h reg' bound hbound, RegisterDependencies.valid, RegisterDependencies.valid, Function.update_of_ne hreg]

/-- The source registers add what is valid of the producers in the table. -/
theorem foldlM_addSource {lowest : ℕ} {r₀ : RegisterDependencies} (sources : List ℕ) {r : RegisterDependencies}
    (u : DynamicMicroOp) (h : AgreeFrom lowest r r₀) : ∃ r', AgreeFrom lowest r' r₀ ∧
      sources.foldlM (RegisterDependencies.addSource lowest) (r, u) =
        ((sources.filterMap (r₀.valid lowest)).foldlM DynamicMicroOp.addDependency u).map fun v => (r', v) := by
  induction sources generalizing r u with
  | nil => exact ⟨r, h, rfl⟩
  | cons reg sources ih =>
    have hreg := h reg lowest (le_refl lowest)
    rw [List.foldlM_cons]
    cases hproducer : r reg with
    | none =>
      have hsource : RegisterDependencies.addSource lowest (r, u) reg = some (r, u) := by
        simp only [RegisterDependencies.addSource, hproducer]
      rw [valid_none hproducer] at hreg
      rw [hsource, List.filterMap_cons_none hreg.symm]
      exact ih u h
    | some producer =>
      by_cases hle : lowest ≤ producer
      · have hsource : RegisterDependencies.addSource lowest (r, u) reg =
            (u.addDependency producer).map fun v => (r, v) := by
          simp only [RegisterDependencies.addSource, hproducer, if_pos hle]
        rw [valid_some hproducer hle] at hreg
        rw [hsource, List.filterMap_cons_some hreg.symm, List.foldlM_cons]
        cases u.addDependency producer with
        | none => exact ⟨r, h, rfl⟩
        | some v => exact ih v h
      · have hlt : producer < lowest := by omega
        have hsource : RegisterDependencies.addSource lowest (r, u) reg = some (Function.update r reg none, u) := by
          simp only [RegisterDependencies.addSource, hproducer, if_neg hle]
        rw [valid_old hproducer hlt] at hreg
        rw [hsource, List.filterMap_cons_none hreg.symm]
        exact ih u (h.forget hproducer hlt)

/-- The destination registers get a new producer. -/
theorem foldl_update (dests : List ℕ) (n : ℕ) (r : RegisterDependencies) (reg : ℕ) :
    dests.foldl (fun r reg => Function.update r reg (some n)) r reg = if reg ∈ dests then some n else r reg := by
  induction dests generalizing r with
  | nil => rfl
  | cons d dests ih =>
    rw [List.foldl_cons, ih]
    by_cases hmem : reg ∈ dests
    · rw [if_pos hmem, if_pos (List.mem_cons_of_mem d hmem)]
    · rw [if_neg hmem]
      by_cases hd : reg = d
      · rw [hd, Function.update_self, if_pos List.mem_cons_self]
      · rw [Function.update_of_ne hd, if_neg (by simp [hd, hmem])]

/-- The latest micro-op is looked at first. -/
theorem latest_cons (u : DynamicMicroOp) (earlier : List DynamicMicroOp) (test : DynamicMicroOp → Bool) :
    latest (u :: earlier) test = if test u then some u.sequenceNumber else latest earlier test := by
  rw [latest, List.find?_cons, latest]
  cases test u <;> rfl

variable {s : Tracker} {lowest : ℕ}

/-- The entry of a store. -/
def storeEntry (w : DynamicMicroOp) : ℕ × BitVec 64 := (w.sequenceNumber, w.phys)

/-- Cleaning leaves the stores from the lowest valid number on. -/
theorem Tables.clean_producers (h : Tables s) (hle : s.lowest ≤ lowest) :
    (s.memory.clean lowest).producers = ((storesFrom lowest s.earlier).map storeEntry).reverse := by
  have hsorted : (((storesFrom s.lowest s.earlier).map storeEntry).reverse).Pairwise fun a b => a.1 < b.1 := by
    rw [List.pairwise_reverse, List.pairwise_map]
    exact h.numbers.filter _
  have hstores : s.memory.producers = ((storesFrom s.lowest s.earlier).map storeEntry).reverse := h.stores
  rw [MemoryDependencies.clean, hstores, dropWhile_eq_filter _ (hsorted.imp Nat.le_of_lt), List.filter_reverse, List.filter_map, storesFrom,
    List.filter_filter, storesFrom]
  refine congrArg List.reverse (congrArg (List.map storeEntry) (List.filter_congr fun w _ => ?_))
  simp only [Function.comp_apply, storeEntry]
  by_cases hw : lowest ≤ w.sequenceNumber
  · simp [hw, hle.trans hw]
  · simp [hw]

/-- The search finds the latest store, if it is valid. -/
theorem Tables.find_clean (h : Tables s) (hle : s.lowest ≤ lowest) (address : BitVec 64) :
    (s.memory.clean lowest).find address = (latest s.earlier (storesTo address)).filter fun n => lowest ≤ n := by
  have hfind := find?_filter_bound h.numbers (storesTo address) lowest
  have htests : (storesFrom lowest s.earlier).find? (fun w => w.phys = address) =
      (s.earlier.filter fun w => lowest ≤ w.sequenceNumber).find? (storesTo address) := by
    rw [storesFrom, List.find?_filter, List.find?_filter]
    congr 1
    funext w
    rw [Bool.eq_iff_iff]
    simp only [storesTo, decide_eq_true_eq, Bool.and_eq_true]
    tauto
  have hentries : ((storesFrom lowest s.earlier).map storeEntry).find? (fun p => p.2 = address) =
      ((storesFrom lowest s.earlier).find? fun w => w.phys = address).map storeEntry := List.find?_map
  rw [MemoryDependencies.find, h.clean_producers hle, List.reverse_reverse, hentries, htests, hfind, latest]
  cases s.earlier.find? (storesTo address) with
  | none => rfl
  | some w =>
    rw [Option.map_some, Option.filter_some, Option.filter_some]
    split_ifs <;> rfl

/-- A dependency on a barrier is added if it is above the lowest valid number. -/
theorem addMembar_eq (m : MemoryDependencies) (u : DynamicMicroOp) :
    m.addMembar lowest u = (m.membar.filter fun n => lowest < n).toList.foldlM DynamicMicroOp.addDependency u := by
  rw [MemoryDependencies.addMembar]
  cases m.membar with
  | none => rfl
  | some n =>
    rw [Option.filter_some]
    by_cases hlt : lowest < n
    · simp [hlt]
    · simp [hlt]

theorem addProducer_eq (m : MemoryDependencies) (u : DynamicMicroOp) :
    m.addProducer u = (m.find u.phys).toList.foldlM DynamicMicroOp.addDependency u := by
  rw [MemoryDependencies.addProducer]
  cases m.find u.phys with
  | none => rfl
  | some n => simp

/-- The store or the barrier is kept. -/
def MemoryDependencies.keep (m : MemoryDependencies) (u : DynamicMicroOp) : MemoryDependencies :=
  if u.isLoad then m
  else if u.isStore then { m with producers := m.producers ++ [(u.sequenceNumber, u.phys)] }
  else if u.isMemBarrier then { m with membar := some u.sequenceNumber }
  else m

/-- The dependencies that are found in memory. -/
def memoryFound (earlier : List DynamicMicroOp) (lowest : ℕ) (u : DynamicMicroOp) : List ℕ :=
  ((storeProducer earlier u).filter fun n => lowest ≤ n).toList ++
    ((barrierProducer earlier u).filter fun n => lowest < n).toList

theorem bind_return_pair {α β γ : Type} (x : Option α) (f : α → Option β) (c : γ) :
    (do
      let v ← x
      let w ← f v
      return (c, w)) = (x >>= f).map fun w => (c, w) := by
  cases x with
  | none => rfl
  | some v =>
    change (do
      let w ← f v
      return (c, w)) = (f v).map fun w => (c, w)
    cases f v <;> rfl

/-- What `MemoryDependencies::setDependencies` does. -/
theorem Tables.memory_setDependencies (h : Tables s) (hle : s.lowest ≤ lowest) (u : DynamicMicroOp) :
    s.memory.setDependencies u lowest =
      if StoreFits s.earlier lowest u then
        ((memoryFound s.earlier lowest u).foldlM DynamicMicroOp.addDependency u).map fun v =>
          ((s.memory.clean lowest).keep u, v)
      else none := by
  have hmembar : (s.memory.clean lowest).membar = latest s.earlier isBarrier := h.membar
  have hfind := h.find_clean hle u.phys
  have hlength : (s.memory.clean lowest).producers.length = (storesFrom lowest s.earlier).length := by
    rw [h.clean_producers hle, List.length_reverse, List.length_map]
  rw [MemoryDependencies.setDependencies, MemoryDependencies.keep, memoryFound, storeProducer, barrierProducer, ordered,
    List.foldlM_append]
  generalize s.memory.clean lowest = m at *
  cases hload : u.isLoad with
  | true =>
    have hfits : StoreFits s.earlier lowest u := fun h => by rw [hload] at h; cases h
    rw [if_pos hfits, if_pos rfl, if_pos rfl, if_pos rfl, Bool.true_or, Bool.true_or, if_pos rfl, addProducer_eq, hfind]
    simp only [addMembar_eq, hmembar]
    exact bind_return_pair _ _ _
  | false =>
    cases hstore : u.isStore with
    | true =>
      rw [if_neg Bool.false_ne_true, if_pos rfl, if_neg Bool.false_ne_true, if_pos rfl, if_neg Bool.false_ne_true,
        Bool.false_or, Bool.true_or, if_pos rfl, MemoryDependencies.add, hlength]
      by_cases hroom : (storesFrom lowest s.earlier).length < MemoryDependencies.capacity
      · have hfits : StoreFits s.earlier lowest u := fun _ _ => hroom
        rw [if_pos hfits, if_pos hroom]
        simp only [addMembar_eq]
        change (do
          let w ← (m.membar.filter fun n => lowest < n).toList.foldlM DynamicMicroOp.addDependency u
          return (_, w)) = _
        rw [hmembar]
        exact bind_return_pair (some u) (fun u => ((latest s.earlier isBarrier).filter fun n => lowest < n).toList.foldlM
          DynamicMicroOp.addDependency u) _
      · have hfits : ¬ StoreFits s.earlier lowest u := fun h => hroom (h hload hstore)
        rw [if_neg hfits, if_neg hroom]
        rfl
    | false =>
      have hfits : StoreFits s.earlier lowest u := fun _ h => by rw [hstore] at h; cases h
      rw [if_pos hfits, if_neg Bool.false_ne_true, if_neg Bool.false_ne_true, if_neg Bool.false_ne_true,
        if_neg Bool.false_ne_true, if_neg Bool.false_ne_true, Bool.false_or, Bool.false_or]
      cases hbarrier : u.isMemBarrier with
      | true =>
        rw [if_pos rfl, if_pos rfl, if_pos rfl, addMembar_eq, hmembar]
        exact bind_return_pair (some u) (fun u => ((latest s.earlier isBarrier).filter fun n => lowest < n).toList.foldlM
          DynamicMicroOp.addDependency u) _
      | false => rfl

/-! ### One micro-op -/

variable {a : Arrival}

/-- The dependencies that are found. -/
def found (earlier : List DynamicMicroOp) (lowest : ℕ) (u : DynamicMicroOp) : List ℕ :=
  (registerProducers earlier u).filter (fun n => lowest ≤ n) ++ memoryFound earlier lowest u

/-- The valid producers of the source registers. -/
theorem filterMap_valid (earlier : List DynamicMicroOp) (lowest : ℕ) (u : DynamicMicroOp) :
    u.sourceRegisters.filterMap (RegisterDependencies.valid
        (fun reg => latest earlier fun w => reg ∈ w.destinationRegisters) lowest) =
      (registerProducers earlier u).filter fun n => lowest ≤ n := by
  rw [registerProducers, List.filter_filterMap]
  rfl

/-- Both tables together. -/
theorem Tables.setDependencies (h : Tables s) (hle : s.lowest ≤ a.lowest) :
    ∃ r, AgreeFrom a.lowest r (fun reg => latest s.earlier fun w => reg ∈ w.destinationRegisters) ∧
      s.setDependencies a =
        if StoreFits s.earlier a.lowest (a.create s.nextNumber) then
          ((found s.earlier a.lowest (a.create s.nextNumber)).foldlM DynamicMicroOp.addDependency
            (a.create s.nextNumber)).map fun v =>
              ((a.create s.nextNumber).destinationRegisters.foldl
                (fun r reg => Function.update r reg (some s.nextNumber)) r,
              (s.memory.clean a.lowest).keep (a.create s.nextNumber), v)
        else none := by
  have hagree : AgreeFrom a.lowest s.registers fun reg => latest s.earlier fun w => reg ∈ w.destinationRegisters :=
    fun reg bound hbound => h.registers reg bound (hle.trans hbound)
  obtain ⟨r, hr, hfold⟩ := foldlM_addSource (a.create s.nextNumber).sourceRegisters (a.create s.nextNumber) hagree
  refine ⟨r, hr, ?_⟩
  rw [filterMap_valid] at hfold
  rw [Tracker.setDependencies, RegisterDependencies.setDependencies, hfold, found, List.foldlM_append]
  -- the registers leave all but the list of dependencies as it was
  cases hregs : ((registerProducers s.earlier (a.create s.nextNumber)).filter fun n => a.lowest ≤ n).foldlM
      DynamicMicroOp.addDependency (a.create s.nextNumber) with
  | none =>
    split_ifs <;> rfl
  | some v =>
    obtain ⟨ds, rfl⟩ : ∃ ds, v = { a.create s.nextNumber with dependencies := ds } := ⟨_, (addDependencies_mem hregs).2⟩
    have hmemory : s.memory.setDependencies { a.create s.nextNumber with dependencies := ds } a.lowest =
        if StoreFits s.earlier a.lowest (a.create s.nextNumber) then
          ((memoryFound s.earlier a.lowest (a.create s.nextNumber)).foldlM DynamicMicroOp.addDependency
            { a.create s.nextNumber with dependencies := ds }).map fun w =>
              ((s.memory.clean a.lowest).keep (a.create s.nextNumber), w)
        else none := h.memory_setDependencies hle _
    simp only [Option.map_some, Option.bind_eq_bind, Option.bind_some, hmemory]
    split_ifs
    · cases (memoryFound s.earlier a.lowest (a.create s.nextNumber)).foldlM DynamicMicroOp.addDependency
        { a.create s.nextNumber with dependencies := ds } <;> rfl
    · rfl

/-- The tables hold the latest producers after the next micro-op too. -/
theorem Tables.next (h : Tables s) (hle : s.lowest ≤ lowest) (hbelow : lowest ≤ s.nextNumber) {r : RegisterDependencies}
    (hr : AgreeFrom lowest r fun reg => latest s.earlier fun w => reg ∈ w.destinationRegisters) {v : DynamicMicroOp}
    (hnumber : v.sequenceNumber = s.nextNumber) :
    Tables ⟨v.destinationRegisters.foldl (fun r reg => Function.update r reg (some s.nextNumber)) r,
      (s.memory.clean lowest).keep v, v :: s.earlier, s.nextNumber + 1, lowest⟩ := by
  have hproducers := h.clean_producers hle
  have hmembar : (s.memory.clean lowest).membar = latest s.earlier isBarrier := h.membar
  constructor
  · exact List.pairwise_cons.2 ⟨fun u hu => hnumber ▸ h.below u hu, h.numbers⟩
  · intro u hu
    change u.sequenceNumber < s.nextNumber + 1
    rcases List.mem_cons.1 hu with rfl | hu
    · omega
    · exact (h.below u hu).trans (Nat.lt_succ_self _)
  · intro reg bound hbound
    have hreg := hr reg bound hbound
    simp only [RegisterDependencies.valid, foldl_update, latest_cons, decide_eq_true_eq, hnumber] at hreg ⊢
    split_ifs
    · rfl
    · exact hreg
  · change ((s.memory.clean lowest).keep v).producers = ((storesFrom lowest (v :: s.earlier)).map storeEntry).reverse
    rw [MemoryDependencies.keep]
    have hold (hstore : (!v.isLoad && v.isStore) = false) :
        storesFrom lowest (v :: s.earlier) = storesFrom lowest s.earlier :=
      List.filter_cons_of_neg (by simp [hstore])
    split_ifs with hload hstore hbarrier
    · rw [hold (by simp [hload]), hproducers]
    · have hnew : storesFrom lowest (v :: s.earlier) = v :: storesFrom lowest s.earlier :=
        List.filter_cons_of_pos (by simp [hload, hstore, hnumber, hbelow])
      rw [hnew, List.map_cons, List.reverse_cons, ← hproducers]
      rfl
    · rw [hold (by simp [hstore]), ← hproducers]
    · rw [hold (by simp [hstore]), ← hproducers]
  · change ((s.memory.clean lowest).keep v).membar = latest (v :: s.earlier) isBarrier
    rw [MemoryDependencies.keep, latest_cons, isBarrier]
    split_ifs with hload hstore hbarrier <;> simp_all

/-- Before the first micro-op nothing has passed. -/
theorem Tables.new (first : ℕ) : Tables (.new first) :=
  ⟨.nil, fun _ hu => absurd hu List.not_mem_nil, fun _ _ _ => rfl, rfl, rfl⟩

theorem mem_producers {earlier : List DynamicMicroOp} {u : DynamicMicroOp} {n : ℕ} : n ∈ producers earlier u ↔
    n ∈ registerProducers earlier u ∨ storeProducer earlier u = some n ∨ barrierProducer earlier u = some n := by
  simp only [producers, List.mem_append, Option.mem_toList, or_assoc]

theorem mem_found {earlier : List DynamicMicroOp} {u : DynamicMicroOp} {n : ℕ} : n ∈ found earlier lowest u ↔
    (n ∈ registerProducers earlier u ∨ storeProducer earlier u = some n) ∧ lowest ≤ n ∨
      barrierProducer earlier u = some n ∧ lowest < n := by
  simp only [found, memoryFound, List.mem_append, List.mem_filter, Option.mem_toList, decide_eq_true_eq,
    Option.filter_eq_some_iff]
  tauto

/-- What is found is what is valid, unless it is a barrier at the lowest valid number. -/
theorem found_iff {earlier : List DynamicMicroOp} {u : DynamicMicroOp} :
    (∀ n, n ∈ found earlier lowest u ↔ n ∈ producers earlier u ∧ lowest ≤ n) ↔
      (barrierProducer earlier u = some lowest →
        lowest ∈ registerProducers earlier u ∨ storeProducer earlier u = some lowest) := by
  constructor
  · intro h hbarrier
    rcases mem_found.1 ((h lowest).2 ⟨mem_producers.2 (.inr (.inr hbarrier)), le_refl _⟩) with ⟨hother, -⟩ | ⟨-, hlt⟩
    · exact hother
    · exact absurd hlt (lt_irrefl _)
  · intro h n
    rw [mem_found, mem_producers]
    constructor
    · rintro (⟨hreg | hstore, hle⟩ | ⟨hbarrier, hlt⟩)
      · exact ⟨.inl hreg, hle⟩
      · exact ⟨.inr (.inl hstore), hle⟩
      · exact ⟨.inr (.inr hbarrier), hlt.le⟩
    · rintro ⟨hreg | hstore | hbarrier, hle⟩
      · exact .inl ⟨.inl hreg, hle⟩
      · exact .inl ⟨.inr hstore, hle⟩
      · rcases Nat.eq_or_lt_of_le hle with rfl | hlt
        · exact .inl ⟨h hbarrier, le_refl _⟩
        · exact .inr ⟨hbarrier, hlt⟩

/-- Which micro-ops get the dependencies that they should. -/
theorem Tables.tracked_iff (h : Tables s) (hle : s.lowest ≤ a.lowest) : Tracked s a ↔ Trackable s a := by
  obtain ⟨r, -, hset⟩ := h.setDependencies hle
  rw [Tracked, hset, Trackable, ← found_iff]
  have hroom := addDependencies_isSome (found s.earlier a.lowest (a.create s.nextNumber))
    (u := a.create s.nextNumber) List.nodup_nil (Nat.zero_le _)
  have hnil : (a.create s.nextNumber).dependencies = [] := rfl
  rw [hnil, List.nil_append] at hroom
  have hcard (hfound : ∀ n, n ∈ found s.earlier a.lowest (a.create s.nextNumber) ↔
      n ∈ producers s.earlier (a.create s.nextNumber) ∧ a.lowest ≤ n) :
      (found s.earlier a.lowest (a.create s.nextNumber)).toFinset =
        ((producers s.earlier (a.create s.nextNumber)).filter fun n => a.lowest ≤ n).toFinset := by
    ext n
    simp only [List.mem_toFinset, hfound, List.mem_filter, decide_eq_true_eq]
  constructor
  · rintro ⟨registers, memory, u, hu, hdeps⟩
    split_ifs at hu with hfits
    obtain ⟨v, hv, hpair⟩ := Option.map_eq_some_iff.1 hu
    cases hpair
    obtain ⟨hmem, -⟩ := addDependencies_mem hv
    have hfound : ∀ n, n ∈ found s.earlier a.lowest (a.create s.nextNumber) ↔
        n ∈ producers s.earlier (a.create s.nextNumber) ∧ a.lowest ≤ n := by
      intro n
      rw [← hdeps, hmem, hnil]
      simp
    refine ⟨hfound, ?_, hfits⟩
    rw [← hcard hfound]
    exact hroom.1 (by rw [hv]; rfl)
  · rintro ⟨hfound, hcard', hfits⟩
    rw [← hcard hfound] at hcard'
    obtain ⟨v, hv⟩ := Option.isSome_iff_exists.1 (hroom.2 hcard')
    obtain ⟨hmem, -⟩ := addDependencies_mem hv
    refine ⟨_, _, v, by rw [if_pos hfits, hv]; rfl, fun n => ?_⟩
    rw [hmem, hnil, hfound]
    simp

/-- The tables stay right. -/
theorem Tables.step {s' : Tracker} (h : Tables s) (ha : Ordered s a) (hstep : tracking.step s a = .ok s') : Tables s' := by
  obtain ⟨r, hr, hset⟩ := h.setDependencies ha.1
  change (match s.setDependencies a with
    | some (registers, memory, u) => .ok ⟨registers, memory, u :: s.earlier, s.nextNumber + 1, a.lowest⟩
    | none => .error ()) = Except.ok s' at hstep
  rw [hset] at hstep
  split_ifs at hstep
  · cases hfold : (found s.earlier a.lowest (a.create s.nextNumber)).foldlM DynamicMicroOp.addDependency
      (a.create s.nextNumber) with
    | none =>
      rw [hfold] at hstep
      cases hstep
    | some v =>
      rw [hfold] at hstep
      cases hstep
      obtain ⟨ds, rfl⟩ : ∃ ds, v = { a.create s.nextNumber with dependencies := ds } := ⟨_, (addDependencies_mem hfold).2⟩
      exact h.next ha.1 ha.2 hr (v := { a.create s.nextNumber with dependencies := ds }) rfl

/-- In a stream of micro-ops with a lowest valid number that does not go back, each one gets the dependencies that are
valid exactly when no barrier is at the lowest valid number at the time and there is room for the dependencies. -/
theorem tracking_exact (first : ℕ) (arrivals : List Arrival) (h : tracking.Guarded Ordered (.new first) arrivals) :
    tracking.Guarded Tracked (.new first) arrivals ↔ tracking.Guarded Trackable (.new first) arrivals :=
  tracking.guarded_congr (fun s _ _ (htables : Tables s) ha hstep => htables.step ha hstep)
    (fun s _ (htables : Tables s) ha => htables.tracked_iff ha.1) (.new first) h

/-- A barrier is the oldest micro-op of the window. -/
def oldestBarrier : Arrival := ⟨{ DynamicMicroOp.plain with isMemBarrier := true }, 0⟩

/-- A load comes then. -/
def barrierThenLoad : List Arrival := [oldestBarrier, ⟨{ DynamicMicroOp.plain with isLoad := true }, 0⟩]

theorem barrierThenLoad_ordered : tracking.Guarded Ordered (.new 0) barrierThenLoad := by
  refine ⟨⟨le_refl 0, le_refl 0⟩, fun s hs => ?_⟩
  have hlowest : tracking.step (.new 0) oldestBarrier =
      .ok ⟨fun _ => none, ⟨[], some 0⟩, [{ DynamicMicroOp.plain with isMemBarrier := true }], 1, 0⟩ := rfl
  cases hlowest.symm.trans hs
  exact ⟨⟨le_refl 0, Nat.zero_le 1⟩, fun _ _ => trivial⟩

/-- The equivalence for a barrier and a load. -/
theorem tracking_exact_barrier : tracking.Guarded Ordered (.new 0) barrierThenLoad ∧
    (tracking.Guarded Tracked (.new 0) barrierThenLoad ↔ tracking.Guarded Trackable (.new 0) barrierThenLoad) :=
  ⟨barrierThenLoad_ordered, tracking_exact 0 barrierThenLoad barrierThenLoad_ordered⟩

/-- The load does not depend on the barrier. -/
theorem barrier_not_tracked : ¬ ∀ first arrivals, tracking.Guarded Ordered (.new first) arrivals →
    tracking.Guarded Tracked (.new first) arrivals := by
  intro h
  have hload := ((h 0 barrierThenLoad barrierThenLoad_ordered).2 _ rfl).1
  have htables := (Tables.new 0).step (a := oldestBarrier) ⟨le_refl 0, le_refl 0⟩ rfl
  rcases ((htables.tracked_iff (le_refl 0)).1 hload).1 rfl with hregister | hstore
  · cases hregister
  · cases hstore

end LifeSim.Rob
