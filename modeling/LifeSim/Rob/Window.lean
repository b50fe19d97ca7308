import LifeSim.Rob.Program

/-!
# The part of the buffer that the tables know

The first entries of the buffer have been looked up in the tables of the last producers, and the tables know them. What is
found for the next micro-op are the latest of these entries that write its source registers, store to its address or are
a barrier. So the dependencies that `simulate` and `setDependencies` collect in `deps_to_remove` can be told from the
entries: those on which the micro-op depends and that have issued.
-/

namespace LifeSim.Rob

open LifeSim.Lib

/-! ### What a micro-op depends on -/

/-- What is promised of a micro-op when it comes. No dependency on another instruction is known, and the loads are the
first micro-ops of their instruction. -/
structure DynamicMicroOp.Decoded (u : DynamicMicroOp) : Prop where
  dependencies : u.dependencies = []
  load : u.isLoad = true → u.intraInstructionDependencies = 0

instance (u : DynamicMicroOp) : Decidable u.Decoded :=
  decidable_of_iff (u.dependencies = [] ∧ (u.isLoad = true → u.intraInstructionDependencies = 0))
    ⟨fun h => ⟨h.1, h.2⟩, fun h => ⟨h.1, h.2⟩⟩

/-- The entries on which a micro-op depends: the latest writers of its source registers, the latest store to the address
of a load, and the latest barrier, unless it is the oldest micro-op in the buffer. -/
def producersIn (known : List RobEntry) (front : ℕ) (u : DynamicMicroOp) : List ℕ :=
  let earlier := (known.map RobEntry.uop).reverse
  registerProducers earlier u ++ (storeProducer earlier u).toList ++
    ((barrierProducer earlier u).filter fun n => front < n).toList

/-- The first store among some micro-ops. -/
def firstStore (rob : List RobEntry) (front : ℕ) (ns : List ℕ) : Option RobEntry :=
  ns.findSome? fun n => (findEntry rob front n).filter fun p => p.uop.isStore

/-- What a micro-op waits for besides its own instruction, when the first `k` entries are known. With forwarding a load
does not wait for the first store that it depends on, but for everything that the store still waits for. -/
def awaited (cfg : Config) (s : RobTimer) (k front : ℕ) (u : DynamicMicroOp) : Finset ℕ :=
  let producers := producersIn (s.rob.take k) front u
  match if cfg.storeToLoadForwarding && u.isLoad then firstStore s.rob front producers else none with
  | none => producers.toFinset
  | some p => producers.toFinset.erase p.uop.sequenceNumber ∪ p.uop.getDependencies.toFinset

/-! ### Entries that are known -/

/-- A micro-op without what changes while it is in the buffer. -/
def DynamicMicroOp.traits (u : DynamicMicroOp) : DynamicMicroOp := { u.bare with execLatency := 0, dCacheKnown := false }

theorem traits_eq_of_bare {u v : DynamicMicroOp} (h : u.bare = v.bare) : u.traits = v.traits := by
  rw [DynamicMicroOp.traits, h, DynamicMicroOp.traits]

theorem number_eq_of_traits {u v : DynamicMicroOp} (h : u.traits = v.traits) : u.sequenceNumber = v.sequenceNumber := by
  have hcongr := congrArg DynamicMicroOp.sequenceNumber h
  exact hcongr

/-- Entries with the same traits have the same numbers. -/
theorem numbers_of_traits {l l' : List RobEntry}
    (h : l.map (fun e => e.uop.traits) = l'.map fun e => e.uop.traits) : numbers l = numbers l' := by
  have hnumbers := congrArg (List.map DynamicMicroOp.sequenceNumber) h
  rwa [List.map_map, List.map_map] at hnumbers

/-- The dependants of an entry are none of its traits. -/
theorem traits_of_forget {l l' : List RobEntry} (h : l.map RobEntry.forget = l'.map RobEntry.forget) :
    l.map (fun e => e.uop.traits) = l'.map fun e => e.uop.traits := by
  have htraits := congrArg (List.map fun e : RobEntry => e.uop.traits) h
  rwa [List.map_map, List.map_map] at htraits

theorem length_of_map {β : Type} {g : RobEntry → β} {l l' : List RobEntry} (h : l.map g = l'.map g) :
    l.length = l'.length := by
  have hlength := congrArg List.length h
  rwa [List.length_map, List.length_map] at hlength

/-- A test that looks at nothing that changes finds the same micro-op. -/
theorem latest_traits {test : DynamicMicroOp → Bool} (htest : ∀ u : DynamicMicroOp, test u.traits = test u)
    (l : List DynamicMicroOp) : latest (l.map DynamicMicroOp.traits) test = latest l test := by
  have hsame : test ∘ DynamicMicroOp.traits = test := funext htest
  rw [latest, latest, List.find?_map, hsame, Option.map_map]
  rfl

/-- The tables know the first `k` entries of a buffer that starts with the number `first`, and the other entries are as
they came. -/
structure Knows (first k : ℕ) (s : RobTimer) : Prop where
  consecutive : Consecutive first s.rob
  inside : k ≤ s.rob.length
  fresh : ∀ i e, k ≤ i → s.rob[i]? = some e → e.uop.Decoded
  dependants : ∀ e ∈ s.rob, ∀ d ∈ e.dependants, d < first + k
  tables : ∃ earlier lowest, lowest ≤ first ∧
    Tables ⟨s.registerDependencies, s.memoryDependencies, earlier, first + k, lowest⟩ ∧
    (earlier.filter fun u => first ≤ u.sequenceNumber).map DynamicMicroOp.traits =
      ((s.rob.take k).map fun e => e.uop.traits).reverse

variable {cfg : Config} {s : RobTimer} {first k : ℕ}

/-- The latest micro-op that meets a test is the latest of the known entries, unless it has left the buffer. -/
theorem latest_known {earlier : List DynamicMicroOp} {known : List RobEntry}
    (hnumbers : earlier.Pairwise fun v u => u.sequenceNumber < v.sequenceNumber)
    (hknown : (earlier.filter fun u => first ≤ u.sequenceNumber).map DynamicMicroOp.traits =
      (known.map fun e => e.uop.traits).reverse)
    {test : DynamicMicroOp → Bool} (htest : ∀ u : DynamicMicroOp, test u.traits = test u) :
    (latest earlier test).filter (fun n => first ≤ n) = latest (known.map RobEntry.uop).reverse test := by
  have hreverse : ((known.map RobEntry.uop).reverse).map DynamicMicroOp.traits =
      (known.map fun e => e.uop.traits).reverse := by
    rw [List.map_reverse, List.map_map]
    rfl
  rw [← latest_traits htest (known.map RobEntry.uop).reverse, hreverse, ← hknown, latest_traits htest, latest, latest,
    find?_filter_bound hnumbers test first]
  cases earlier.find? test with
  | none => rfl
  | some w =>
    rw [Option.map_some, Option.filter_some, Option.filter_some]
    split_ifs <;> rfl

/-- What is found in the tables are the known entries on which the micro-op depends. -/
theorem found_known {earlier : List DynamicMicroOp} {known : List RobEntry}
    (hnumbers : earlier.Pairwise fun v u => u.sequenceNumber < v.sequenceNumber)
    (hknown : (earlier.filter fun u => first ≤ u.sequenceNumber).map DynamicMicroOp.traits =
      (known.map fun e => e.uop.traits).reverse) (u : DynamicMicroOp) :
    found earlier first u = producersIn known first u := by
  have hlatest {test : DynamicMicroOp → Bool} (htest : ∀ u : DynamicMicroOp, test u.traits = test u) :=
    latest_known hnumbers hknown htest
  have hregisters : (registerProducers earlier u).filter (fun n => first ≤ n) =
      registerProducers (known.map RobEntry.uop).reverse u := by
    rw [registerProducers, List.filter_filterMap, registerProducers]
    exact List.filterMap_congr fun reg _ => hlatest fun _ => rfl
  have hstore : (storeProducer earlier u).filter (fun n => first ≤ n) =
      storeProducer (known.map RobEntry.uop).reverse u := by
    rw [storeProducer, storeProducer]
    split_ifs
    · exact hlatest fun _ => rfl
    · rfl
  have hbarrier : (barrierProducer earlier u).filter (fun n => first < n) =
      (barrierProducer (known.map RobEntry.uop).reverse u).filter fun n => first < n := by
    rw [barrierProducer, barrierProducer]
    split_ifs
    · rw [← hlatest fun _ => rfl]
      cases latest earlier isBarrier with
      | none => rfl
      | some n =>
        by_cases hlt : first < n
        · simp [Option.filter_some, hlt, hlt.le]
        · by_cases hle : first ≤ n
          · simp [Option.filter_some, hle]
          · simp [Option.filter_some, hle, hlt]
    · rfl
  rw [found, memoryFound, hregisters, hstore, hbarrier, producersIn, List.append_assoc]

/-! ### The dependencies of the next micro-op -/

/-- Additions keep the order in which things are found. -/
theorem addDependencies_find? {ns : List ℕ} {u v : DynamicMicroOp}
    (h : ns.foldlM DynamicMicroOp.addDependency u = some v) (q : ℕ → Bool) :
    v.dependencies.find? q = (u.dependencies ++ ns).find? q := by
  induction ns generalizing u with
  | nil =>
    cases h
    rw [List.append_nil]
  | cons n ns ih =>
    rw [List.foldlM_cons, DynamicMicroOp.addDependency] at h
    split_ifs at h with hmem hroom
    · rw [ih h, List.find?_append, List.find?_append, List.find?_cons]
      cases hq : q n with
      | false => rfl
      | true =>
        -- an earlier member is found
        have hsome : (u.dependencies.find? q).isSome := List.find?_isSome.2 ⟨n, hmem, hq⟩
        obtain ⟨m, hm⟩ := Option.isSome_iff_exists.1 hsome
        rw [hm]
        rfl
    · rw [ih h]
      change ((u.dependencies ++ [n]) ++ ns).find? q = _
      rw [List.append_assoc, List.singleton_append]
    · cases h

/-- Additions do not repeat a member. -/
theorem addDependencies_nodup {ns : List ℕ} {u v : DynamicMicroOp} (hu : u.dependencies.Nodup)
    (h : ns.foldlM DynamicMicroOp.addDependency u = some v) : v.dependencies.Nodup := by
  induction ns generalizing u with
  | nil =>
    cases h
    exact hu
  | cons n ns ih =>
    rw [List.foldlM_cons, DynamicMicroOp.addDependency] at h
    split_ifs at h with hmem hroom
    · exact ih (u := u) hu h
    · have hnodup : (u.dependencies ++ [n]).Nodup := by
        refine List.nodup_append.2 ⟨hu, List.nodup_singleton n, fun a ha b hb => ?_⟩
        rintro rfl
        exact hmem (List.mem_singleton.1 hb ▸ ha)
      exact ih (u := { u with dependencies := u.dependencies ++ [n] }) hnodup h
    · cases h

/-- The search for a store in the buffer. -/
theorem firstStore_of_findStore {rob : List RobEntry} {front : ℕ} {ns : List ℕ} {found : Option (ℕ × RobEntry)}
    (h : findStore rob front ns = some found) : firstStore rob front ns = found.map Prod.snd ∧
      ∀ n p, found = some (n, p) → findEntry rob front n = some p := by
  induction ns with
  | nil =>
    cases h
    exact ⟨rfl, fun _ _ heq => by cases heq⟩
  | cons n ns ih =>
    rw [findStore] at h
    rw [firstStore, List.findSome?_cons]
    split at h
    · cases h
    · rename_i p hp
      rw [hp, Option.filter_some]
      split_ifs at h ⊢ with hstore
      · cases h
        exact ⟨rfl, fun m q heq => by cases heq; exact hp⟩
      · exact ih h

/-- Only the first store counts, and additions do not change which one it is. -/
theorem firstStore_congr {rob : List RobEntry} {front : ℕ} {ns ns' : List ℕ} (h : ∀ q, ns.find? q = ns'.find? q) :
    firstStore rob front ns = firstStore rob front ns' := by
  have hfind (ns : List ℕ) : firstStore rob front ns =
      (ns.find? fun n => ((findEntry rob front n).filter fun p => p.uop.isStore).isSome).bind fun n =>
        (findEntry rob front n).filter fun p => p.uop.isStore := by
    induction ns with
    | nil => rfl
    | cons n ns ih =>
      rw [firstStore, List.findSome?_cons, List.find?_cons]
      cases hn : (findEntry rob front n).filter fun p => p.uop.isStore with
      | none => exact ih
      | some p => exact hn.symm
  rw [hfind, hfind, h]

/-- A removal outside the range within the instruction. -/
theorem removeDependency_array {u v : DynamicMicroOp} {n : ℕ} (h : u.removeDependency n = some v)
    (hintra : u.intraInstructionDependencies = 0) (hnodup : u.dependencies.Nodup) :
    v.intraDependencies = u.intraDependencies ∧ v.dependencies.Nodup ∧
      v.dependencies.toFinset = u.dependencies.toFinset.erase n := by
  have hperm := DynamicMicroOp.removeDependency_perm h
  have hsame : v.intraInstructionDependencies = 0 := by
    rw [DynamicMicroOp.removeDependency, hintra] at h
    split_ifs at h
    · cases h
    · split at h
      · cases h
      · cases h
        rfl
  have hnil {w : DynamicMicroOp} (hw : w.intraInstructionDependencies = 0) : w.intraDependencies = [] := by
    rw [DynamicMicroOp.intraDependencies, hw]
    rfl
  rw [DynamicMicroOp.getDependencies_eq, DynamicMicroOp.getDependencies_eq, hnil hsame, hnil hintra, List.nil_append,
    List.nil_append] at hperm
  have hcons := hperm.nodup_iff.2 hnodup
  refine ⟨by rw [hnil hsame, hnil hintra], (List.nodup_cons.1 hcons).2, ?_⟩
  rw [← List.toFinset_eq_of_perm _ _ hperm, List.toFinset_cons, Finset.erase_insert]
  rw [List.mem_toFinset]
  exact (List.nodup_cons.1 hcons).1

/-- An entry is found by its number. -/
theorem Consecutive.number_of_find {rob : List RobEntry} {n : ℕ} {p : RobEntry} (h : Consecutive first rob)
    (hfind : Rob.findEntry rob first n = some p) : p ∈ rob ∧ p.uop.sequenceNumber = n := by
  rw [Rob.findEntry] at hfind
  split_ifs at hfind with hle
  refine ⟨List.mem_of_getElem? hfind, ?_⟩
  rw [h.number hfind]
  omega

/-- The next micro-op, with what `depend` gives it. -/
structure Depends (cfg : Config) (s : RobTimer) (first k : ℕ) (e : RobEntry) (registers : RegisterDependencies)
    (stores : MemoryDependencies) (v : DynamicMicroOp) : Prop where
  number : e.uop.sequenceNumber = first + k
  decoded : e.uop.Decoded
  depend : depend cfg s first e = .ok (registers, stores, v)

variable {e : RobEntry} {registers : RegisterDependencies} {stores : MemoryDependencies} {v : DynamicMicroOp}

/-- The tables give the micro-op the known entries on which it depends, and they go on as they should. -/
theorem Knows.setDependencies (h : Knows first k s) (hnext : Depends cfg s first k e registers stores v) :
    ∃ w, (producersIn (s.rob.take k) first e.uop).foldlM DynamicMicroOp.addDependency e.uop = some w ∧
      (if cfg.storeToLoadForwarding && w.isLoad then forward s.rob first w else some w) = some v ∧
      ∃ earlier lowest, lowest ≤ first ∧ Tables ⟨registers, stores, earlier, first + (k + 1), lowest⟩ ∧
        (earlier.filter fun u => first ≤ u.sequenceNumber).map DynamicMicroOp.traits =
          ((s.rob.take k).map (fun e => e.uop.traits) ++ [e.uop.traits]).reverse := by
  obtain ⟨earlier, lowest, hle, htables, hknown⟩ := h.tables
  obtain ⟨u, w, hregisters, hstores, hforward⟩ := depend_cases hnext.depend
  have hcreate : Arrival.create ⟨e.uop, first⟩ (first + k) = e.uop := by
    rw [Arrival.create, ← hnext.number, ← hnext.decoded.dependencies]
  have hboth : Tracker.setDependencies ⟨s.registerDependencies, s.memoryDependencies, earlier, first + k, lowest⟩
      ⟨e.uop, first⟩ = some (registers, stores, w) := by
    rw [Tracker.setDependencies, hcreate]
    simp only [hregisters, hstores, Option.bind_eq_bind, Option.bind_some]
    rfl
  have hbare := (MemoryDependencies.setDependencies_bare hstores).trans
    (RegisterDependencies.setDependencies_bare hregisters)
  have hafter : Tables ⟨registers, stores, w :: earlier, first + k + 1, first⟩ :=
    htables.step (a := ⟨e.uop, first⟩) ⟨hle, Nat.le_add_right first k⟩ (by rw [tracking]; simp only [hboth])
  obtain ⟨r, -, hset⟩ := htables.setDependencies (a := ⟨e.uop, first⟩) hle
  simp only [hboth, hcreate] at hset
  split_ifs at hset with hfits
  obtain ⟨w', hfold, heq⟩ := Option.map_eq_some_iff.1 hset.symm
  cases heq
  rw [found_known htables.numbers hknown] at hfold
  refine ⟨w, hfold, hforward, w :: earlier, first, le_rfl, hafter, ?_⟩
  have hnumber : first ≤ w.sequenceNumber := by
    rw [number_eq_of_bare hbare, hnext.number]
    exact Nat.le_add_right first k
  rw [List.filter_cons_of_pos (by simpa using hnumber), List.map_cons, hknown, List.reverse_append,
    traits_eq_of_bare hbare]
  rfl

/-- The dependencies of the next micro-op are those within its instruction, and what it waits for besides. -/
theorem Knows.dependencies (h : Knows first k s) (hnext : Depends cfg s first k e registers stores v) :
    v.intraDependencies = e.uop.intraDependencies ∧ v.dependencies.Nodup ∧
      v.dependencies.toFinset = awaited cfg s k first e.uop := by
  obtain ⟨w, hfold, hforward, -⟩ := h.setDependencies hnext
  obtain ⟨hmem, hfields⟩ := addDependencies_mem hfold
  have hempty := hnext.decoded.dependencies
  have hnodup : w.dependencies.Nodup := addDependencies_nodup (hempty ▸ List.nodup_nil) hfold
  have hfind (q : ℕ → Bool) : w.dependencies.find? q = (producersIn (s.rob.take k) first e.uop).find? q := by
    rw [addDependencies_find? hfold q, hempty, List.nil_append]
  have hset : w.dependencies.toFinset = (producersIn (s.rob.take k) first e.uop).toFinset := by
    ext n
    rw [List.mem_toFinset, hmem, hempty, List.mem_toFinset]
    exact or_iff_right List.not_mem_nil
  have hintra : w.intraDependencies = e.uop.intraDependencies := by
    rw [hfields]
    rfl
  have hisLoad : w.isLoad = e.uop.isLoad := by rw [hfields]
  rw [hisLoad] at hforward
  rw [awaited]
  by_cases hload : (cfg.storeToLoadForwarding && e.uop.isLoad) = true
  · rw [if_pos hload] at hforward
    have hzero : w.intraInstructionDependencies = 0 := by
      rw [hfields]
      exact hnext.decoded.load (Bool.and_eq_true_iff.1 hload).2
    have hall : w.getDependencies = w.dependencies := by
      rw [DynamicMicroOp.getDependencies_eq, DynamicMicroOp.intraDependencies, hzero]
      rfl
    simp only [if_pos hload, ← firstStore_congr hfind]
    obtain ⟨hfound, rfl⟩ | ⟨n, p, x, hfound, hremove, hadd⟩ := forward_cases hforward
    · rw [hall] at hfound
      rw [(firstStore_of_findStore hfound).1]
      exact ⟨hintra, hnodup, hset⟩
    · rw [hall] at hfound
      obtain ⟨hstore, hentry⟩ := firstStore_of_findStore hfound
      obtain ⟨-, hnumber⟩ := h.consecutive.number_of_find (hentry n p rfl)
      obtain ⟨hremoved, hnodup', herase⟩ := removeDependency_array hremove hzero hnodup
      obtain ⟨hmem', hfields'⟩ := addDependencies_mem hadd
      have hsame : v.intraDependencies = x.intraDependencies := by
        rw [hfields']
        rfl
      rw [hstore]
      refine ⟨hsame.trans (hremoved.trans hintra), addDependencies_nodup hnodup' hadd, ?_⟩
      change _ = (producersIn (s.rob.take k) first e.uop).toFinset.erase p.uop.sequenceNumber ∪ _
      rw [hnumber, ← hset, ← herase]
      ext d
      rw [List.mem_toFinset, hmem', Finset.mem_union, List.mem_toFinset, List.mem_toFinset]
  · rw [if_neg hload] at hforward
    cases hforward
    simp only [if_neg hload]
    exact ⟨hintra, hnodup, hset⟩

/-! ### What is collected -/

/-- How many of the micro-ops that a micro-op waits for meet a test, those within its instruction first. -/
def awaitedCount (cfg : Config) (s : RobTimer) (k front : ℕ) (u : DynamicMicroOp) (test : ℕ → Bool) : ℕ :=
  u.intraDependencies.countP test + ((awaited cfg s k front u).filter fun n => test n = true).card

/-- The number can be told before the dependencies are set. -/
theorem Knows.countP (h : Knows first k s) (hnext : Depends cfg s first k e registers stores v) (test : ℕ → Bool) :
    v.getDependencies.countP test = awaitedCount cfg s k first e.uop test := by
  obtain ⟨hintra, hnodup, hset⟩ := h.dependencies hnext
  have hcount : v.dependencies.countP test = (v.dependencies.filter test).length := List.countP_eq_length_filter
  rw [awaitedCount, ← hset, DynamicMicroOp.getDependencies_eq, List.countP_append, hintra, hcount,
    ← List.toFinset_card_of_nodup (hnodup.filter _), List.toFinset_filter]

/-- The producer of a dependency is in the buffer and has issued. -/
def hasIssued (rob : List RobEntry) (front dependency : ℕ) : Bool :=
  (findEntry rob front dependency).any fun p => decide (p.done ≠ ⊤)

/-- A new dependant does not change when an entry is done. -/
theorem findEntry_forget {rob rob' : List RobEntry} (h : rob'.map RobEntry.forget = rob.map RobEntry.forget)
    (front n : ℕ) : (findEntry rob' front n).map RobEntry.done = (findEntry rob front n).map RobEntry.done := by
  rw [findEntry, findEntry]
  split_ifs
  · have hentry : rob'[n - front]?.map RobEntry.forget = rob[n - front]?.map RobEntry.forget := by
      rw [← List.getElem?_map, ← List.getElem?_map, h]
    have hdone := congrArg (Option.map RobEntry.done) hentry
    rw [Option.map_map, Option.map_map] at hdone
    exact hdone
  · rfl

/-- A loop over dependencies stores those that meet a test, as long as there is room. -/
structure Collects (f : Linking → ℕ → Except Fault Linking) (rob : List RobEntry) (test : ℕ → Bool) : Prop where
  forget : ∀ l d l', f l d = .ok l' → l'.rob.map RobEntry.forget = l.rob.map RobEntry.forget
  stored : ∀ l d l', l.rob.map RobEntry.forget = rob.map RobEntry.forget → f l d = .ok l' →
    l'.toRemove.length = l.toRemove.length + if test d then 1 else 0
  full : ∀ l d, l.rob.map RobEntry.forget = rob.map RobEntry.forget → f l d = .error .depsToRemove →
    test d = true ∧ removalCapacity ≤ l.toRemove.length
  room : ∀ l d l', f l d = .ok l' → l.toRemove.length ≤ removalCapacity → l'.toRemove.length ≤ removalCapacity

namespace Collects

variable {f : Linking → ℕ → Except Fault Linking} {rob : List RobEntry} {test : ℕ → Bool} {l l' : Linking}

/-- A loop without a fault has room for one element for each dependency that meets the test. -/
theorem fits (h : Collects f rob test) (dependencies : List ℕ)
    (hrob : l.rob.map RobEntry.forget = rob.map RobEntry.forget) (hfits : l.toRemove.length ≤ removalCapacity)
    (hloop : dependencies.foldlM f l = .ok l') : l.toRemove.length + dependencies.countP test ≤ removalCapacity := by
  induction dependencies generalizing l with
  | nil => exact hfits
  | cons d dependencies ih =>
    rw [List.foldlM_cons] at hloop
    obtain ⟨m, hm, hrest⟩ := exists_of_bind_ok hloop
    have hroom := ih ((h.forget l d m hm).trans hrob) (h.room l d m hm hfits) hrest
    rw [h.stored l d m hrob hm] at hroom
    rw [List.countP_cons]
    omega

/-- The loop stores an element behind the end of the array only if there are too many of them. -/
theorem overflow (h : Collects f rob test) (dependencies : List ℕ)
    (hrob : l.rob.map RobEntry.forget = rob.map RobEntry.forget)
    (hloop : dependencies.foldlM f l = .error .depsToRemove) :
    removalCapacity < l.toRemove.length + dependencies.countP test := by
  induction dependencies generalizing l with
  | nil => cases hloop
  | cons d dependencies ih =>
    rw [List.foldlM_cons] at hloop
    rw [List.countP_cons]
    cases hm : f l d with
    | ok m =>
      rw [hm] at hloop
      have hrest := ih ((h.forget l d m hm).trans hrob) hloop
      rw [h.stored l d m hrob hm] at hrest
      omega
    | error fault =>
      rw [hm] at hloop
      cases hloop
      obtain ⟨htest, hfull⟩ := h.full l d hrob hm
      rw [if_pos htest]
      omega

end Collects

/-- `deps_to_remove` has no more elements than it has room for. -/
theorem Linking.remove_cases {l l' : Linking} {d : ℕ} (h : l.remove d = .ok l') :
    l.toRemove.length < removalCapacity ∧ l' = { l with toRemove := l.toRemove ++ [d] } := by
  rw [remove] at h
  split_ifs at h with hroom
  cases h
  exact ⟨hroom, rfl⟩

/-- `simulate` collects the dependencies that have issued. -/
theorem collects_link (front n : ℕ) (rob : List RobEntry) : Collects (link front n) rob (hasIssued rob front) := by
  have htest {l : Linking} (hrob : l.rob.map RobEntry.forget = rob.map RobEntry.forget) {d : ℕ} {p : RobEntry}
      (hp : findEntry l.rob front d = some p) : hasIssued rob front d = decide (p.done ≠ ⊤) := by
    have hsame := findEntry_forget hrob front d
    rw [hp, Option.map_some, eq_comm, Option.map_eq_some_iff] at hsame
    obtain ⟨p', hp', hdone⟩ := hsame
    rw [hasIssued, hp', Option.any_some, hdone]
  refine ⟨fun l d l' => map_link, fun l d l' hrob h => ?_, fun l d hrob h => ?_, fun l d l' h hle => ?_⟩
  · obtain ⟨p, hp, ⟨hdone, -, rfl⟩ | ⟨hdone, rfl⟩⟩ := link_cases h
    · rw [htest hrob hp, decide_eq_true hdone, if_pos rfl, List.length_append, List.length_singleton]
    · rw [htest hrob hp, decide_eq_false (not_not.2 hdone)]
      rfl
  · rw [link] at h
    split at h
    · cases h
    · rename_i p hp
      by_cases hdone : p.done = ⊤
      · rw [if_neg (not_not.2 hdone)] at h
        cases h
      · rw [if_pos hdone, Linking.remove] at h
        split_ifs at h with hroom
        exact ⟨(htest hrob hp).trans (decide_eq_true hdone), not_lt.1 hroom⟩
  · obtain ⟨p, -, ⟨-, hroom, rfl⟩ | ⟨-, rfl⟩⟩ := link_cases h
    · rwa [List.length_append, List.length_singleton]
    · exact hle

/-- A loop that does not fail has found all dependencies. -/
theorem found_of_links {front n : ℕ} {dependencies : List ℕ} {l l' : Linking}
    (h : dependencies.foldlM (link front n) l = .ok l') : ∀ d ∈ dependencies, ∃ p, findEntry l.rob front d = some p := by
  induction dependencies generalizing l with
  | nil => exact fun d hd => absurd hd List.not_mem_nil
  | cons d dependencies ih =>
    rw [List.foldlM_cons] at h
    obtain ⟨m, hm, hrest⟩ := exists_of_bind_ok h
    obtain ⟨p, hp, -⟩ := link_cases hm
    refine List.forall_mem_cons.2 ⟨⟨p, hp⟩, fun d' hd' => ?_⟩
    obtain ⟨q, hq⟩ := ih hrest d' hd'
    have hsame := findEntry_forget (map_link hm) front d'
    rw [hq, Option.map_some, eq_comm, Option.map_eq_some_iff] at hsame
    obtain ⟨q', hq', -⟩ := hsame
    exact ⟨q', hq'⟩

/-! ### What the stages keep -/

/-- Only the numbers and the traits of the entries count. -/
theorem Knows.congr {s' : RobTimer} (h : Knows first k s)
    (htraits : s'.rob.map (fun e => e.uop.traits) = s.rob.map fun e => e.uop.traits)
    (hregisters : s'.registerDependencies = s.registerDependencies)
    (hmemory : s'.memoryDependencies = s.memoryDependencies)
    (hfresh : ∀ i e, k ≤ i → s'.rob[i]? = some e → e.uop.Decoded)
    (hdependants : ∀ e ∈ s'.rob, ∀ d ∈ e.dependants, d < first + k) : Knows first k s' where
  consecutive := h.consecutive.congr (numbers_of_traits htraits)
  inside := (length_of_map htraits).symm ▸ h.inside
  fresh := hfresh
  dependants := hdependants
  tables := by
    obtain ⟨earlier, lowest, hle, htables, hknown⟩ := h.tables
    refine ⟨earlier, lowest, hle, ?_, ?_⟩
    · rw [hregisters, hmemory]
      exact htables
    · rw [hknown, List.map_take, List.map_take, htraits]

/-- What issuing does to the buffer and the log. -/
theorem issueInstruction_spec (i : ℕ) (e : RobEntry) : ∃ (u : DynamicMicroOp) (depend done : ℕ),
    u.traits = e.uop.traits ∧ u.getDependencies = e.uop.getDependencies ∧ depend ≤ done ∧
      (issueInstruction cfg i e s).2 = done ∧
      (issueInstruction cfg i e s).1.rob = e.dependants.foldl (wake e.uop.sequenceNumber depend)
        (s.rob.set i { e with uop := u, issued := s.now, done := done }) ∧
      (issueInstruction cfg i e s).1.log = s.log ++ [.issued e.uop.sequenceNumber s.now depend done] := by
  rw [issueInstruction]
  dsimp only
  split_ifs <;> refine ⟨_, _, _, ?_, ?_, ?_, rfl, rfl, rfl⟩ <;> first | rfl | omega

theorem dropDependency_traits (u : DynamicMicroOp) (n : ℕ) : (dropDependency u n).traits = u.traits :=
  traits_eq_of_bare (dropDependency_bare u n)

/-- An entry that is known issues. -/
theorem Knows.issue (h : Knows first k s) {i : ℕ} (hi : i < k) (he : s.rob[i]? = some e) :
    Knows first k (issueInstruction cfg i e s).1 := by
  obtain ⟨u, depend, done, htraits, -, -, -, hrob, -⟩ := @issueInstruction_spec cfg s i e
  have hmem := List.mem_of_getElem? he
  have hset : (s.rob.set i { e with uop := u, issued := s.now, done := done }).map (fun e => e.uop.traits) =
      s.rob.map fun e => e.uop.traits := map_set_of_eq he htraits
  have hconsecutive : Consecutive first (s.rob.set i { e with uop := u, issued := s.now, done := done }) :=
    h.consecutive.congr (map_set_of_eq he (number_eq_of_traits htraits))
  refine h.congr ?_ rfl rfl (fun j f hj hf => ?_) ?_
  · rw [hrob, map_wake (fun e e' hwoken => by rw [hwoken.uop, dropDependency_traits]), hset]
  · rw [hrob, getElem?_wake hconsecutive e.dependants (h.dependants e hmem) hj, List.getElem?_set_ne (by omega)] at hf
    exact h.fresh j f hj hf
  · rw [hrob]
    refine forall_mem_wake (fun e e' hwoken hd => hwoken.dependants ▸ hd) _ fun f hf => ?_
    rcases List.mem_or_eq_of_mem_set hf with hf | rfl
    · exact h.dependants f hf
    · exact h.dependants e hmem

/-- The entry at the front leaves. -/
theorem Knows.commit {s' : RobTimer} {rest : List RobEntry} (h : Knows first k s) (hrob : s.rob = e :: rest)
    (hpos : 0 < k) (hrest : s'.rob = rest) (hregisters : s'.registerDependencies = s.registerDependencies)
    (hmemory : s'.memoryDependencies = s.memoryDependencies) : Knows (first + 1) (k - 1) s' := by
  obtain ⟨k, rfl⟩ := Nat.exists_eq_succ_of_ne_zero (Nat.ne_of_gt hpos)
  have hconsecutive := h.consecutive
  have hfirst : e.uop.sequenceNumber = first := hconsecutive.number (i := 0) (by rw [hrob]; rfl)
  have hbehind : ∀ f ∈ rest, first + 1 ≤ f.uop.sequenceNumber := by
    intro f hf
    obtain ⟨i, hi⟩ := List.mem_iff_getElem?.1 hf
    have hnumber := hconsecutive.number (i := i + 1) (by rw [hrob]; exact hi)
    omega
  rw [Consecutive, hrob, numbers, List.map_cons, List.length_cons, List.range'_succ, List.cons.injEq] at hconsecutive
  constructor
  · rw [hrest]
    exact hconsecutive.2
  · have hinside := h.inside
    rw [hrob, List.length_cons] at hinside
    rw [hrest]
    omega
  · intro i f hi hf
    rw [hrest] at hf
    exact h.fresh (i + 1) f (by omega) (by rw [hrob]; exact hf)
  · intro f hf d hd
    rw [hrest] at hf
    have hlt := h.dependants f (hrob ▸ List.mem_cons_of_mem e hf) d hd
    omega
  · obtain ⟨earlier, lowest, hle, htables, hknown⟩ := h.tables
    have hsum : first + 1 + (k.succ - 1) = first + k.succ := by omega
    refine ⟨earlier, lowest, hle.trans (Nat.le_succ first), ?_, ?_⟩
    · rw [hregisters, hmemory, hsum]
      exact htables
    · have hfilter (l : List DynamicMicroOp) (bound : ℕ) :
          (l.filter fun u => bound ≤ u.sequenceNumber).map DynamicMicroOp.traits =
            (l.map DynamicMicroOp.traits).filter fun u => bound ≤ u.sequenceNumber := by
        rw [List.filter_map]
        rfl
      have htwice : earlier.filter (fun u => first + 1 ≤ u.sequenceNumber) =
          (earlier.filter fun u => first ≤ u.sequenceNumber).filter fun u => first + 1 ≤ u.sequenceNumber := by
        rw [List.filter_filter]
        refine List.filter_congr fun u _ => ?_
        simpa using Nat.le_of_succ_le
      have hall : ((rest.take k).map fun e => e.uop.traits).filter (fun u => first + 1 ≤ u.sequenceNumber) =
          (rest.take k).map fun e => e.uop.traits := by
        refine List.filter_eq_self.2 fun u hu => ?_
        obtain ⟨f, hf, rfl⟩ := List.mem_map.1 hu
        exact decide_eq_true (hbehind f (List.mem_of_mem_take hf))
      have hfront : e.uop.traits.sequenceNumber = first := hfirst
      rw [hrest, htwice, hfilter, hknown, hrob, List.take_succ_cons, List.map_cons, List.filter_reverse,
        List.filter_cons_of_neg (by simp [hfront]), hall, Nat.succ_sub_one]

/-- A micro-op that comes is not known yet. -/
theorem Knows.push {s' : RobTimer} (h : Knows first k s) {u : DynamicMicroOp} (hdecoded : u.Decoded)
    (hnumber : u.sequenceNumber = first + s.rob.length) (hrob : s'.rob = s.rob ++ [.init u])
    (hregisters : s'.registerDependencies = s.registerDependencies)
    (hmemory : s'.memoryDependencies = s.memoryDependencies) : Knows first k s' where
  consecutive := by
    rw [Consecutive, hrob, numbers, List.map_append, List.length_append, List.length_singleton, List.range'_concat,
      Nat.one_mul, ← hnumber, ← h.consecutive]
    rfl
  inside := by
    rw [hrob, List.length_append]
    exact Nat.le_add_right_of_le h.inside
  fresh i f hi hf := by
    rw [hrob] at hf
    rcases Nat.lt_or_ge i s.rob.length with hlt | hge
    · rw [List.getElem?_append_left hlt] at hf
      exact h.fresh i f hi hf
    · rw [List.getElem?_append_right hge] at hf
      obtain rfl := List.mem_singleton.1 (List.mem_of_getElem? hf)
      exact hdecoded
  dependants f hf d hd := by
    rw [hrob] at hf
    rcases List.mem_append.1 hf with hf | hf
    · exact h.dependants f hf d hd
    · obtain rfl := List.mem_singleton.1 hf
      cases hd
  tables := by
    obtain ⟨earlier, lowest, hle, htables, hknown⟩ := h.tables
    refine ⟨earlier, lowest, hle, ?_, ?_⟩
    · rw [hregisters, hmemory]
      exact htables
    · rw [hknown, hrob, List.take_append_of_le_length h.inside]

/-! ### What entering keeps -/

/-- A producer gets the number of the new entry as a dependant. -/
theorem link_dependants {front n bound : ℕ} {l l' : Linking} {d : ℕ} (h : link front n l d = .ok l') (hn : n < bound)
    (hl : ∀ e ∈ l.rob, ∀ d ∈ e.dependants, d < bound) : ∀ e ∈ l'.rob, ∀ d ∈ e.dependants, d < bound := by
  obtain ⟨p, -, ⟨-, -, rfl⟩ | ⟨-, rfl⟩⟩ := link_cases h
  · exact hl
  · refine forall_mem_changeEntry (fun e he d hd => ?_) hl _ _
    rcases List.mem_append.1 hd with hd | hd
    · exact he d hd
    · rwa [List.mem_singleton.1 hd]

/-- The first number of the buffer is known also when it is empty. -/
theorem Knows.front (h : Knows first k s) : frontNumber s.rob (first + s.rob.length) = first := by
  cases hrob : s.rob with
  | nil => rfl
  | cons e rest =>
    rw [← hrob]
    exact h.consecutive.frontNumber (by rw [hrob]; exact List.cons_ne_nil e rest) _

/-- The tables know the whole buffer. -/
def Known (s : RobTimer) : Prop :=
  ∃ first, s.nextSequenceNumber = first + s.rob.length ∧ Knows first s.rob.length s

/-- Before the first micro-op there is nothing to know. -/
theorem Known.new : Known (.new cfg) :=
  ⟨0, rfl, rfl, le_rfl, fun _ _ _ h => absurd h (by simp [RobTimer.new]), fun _ h => absurd h List.not_mem_nil,
    [], 0, le_rfl, .new 0, rfl⟩

/-- The new entry before its dependencies. -/
theorem newEntry_uop (u : DynamicMicroOp) : (newEntry s u).uop = { u with sequenceNumber := s.nextSequenceNumber } := by
  rw [newEntry, (setAddress_fields _ _).1]
  rfl

/-- A micro-op that enters is known then. -/
theorem Known.enter {s' : RobTimer} (h : Known s) {u : DynamicMicroOp} (hdecoded : u.Decoded)
    (henter : enter cfg s u = .ok s') : Known s' := by
  obtain ⟨first, hnumber, hknows⟩ := h
  have hentered := enter_cases henter
  cases hentered with
  | squashed _ => exact ⟨first, hnumber, hknows⟩
  | @entered registers stores v l e _ hdepend hlinks hresolve =>
    have hfront : frontNumber s.rob s.nextSequenceNumber = first := by rw [hnumber, hknows.front]
    rw [hfront] at hdepend hlinks
    have huop := @newEntry_uop s u
    have hnext : Depends cfg s first s.rob.length (newEntry s u) registers stores v :=
      ⟨by rw [huop]; exact hnumber, by rw [huop]; exact ⟨hdecoded.dependencies, hdecoded.load⟩, hdepend⟩
    have htraits : e.uop.traits = (newEntry s u).uop.traits :=
      traits_eq_of_bare ((resolve_bare hresolve).trans (depend_bare hdepend))
    have hold := traits_of_forget (map_links hlinks)
    have hlength := length_of_map hold
    have hlast : (l.rob ++ [e]).length = s.rob.length + 1 := by
      rw [List.length_append, hlength, List.length_singleton]
    refine ⟨first, ?_, ?_⟩
    · change s.nextSequenceNumber + 1 = first + (l.rob ++ [e]).length
      rw [hlast, hnumber, Nat.add_assoc]
    change Knows first (l.rob ++ [e]).length _
    rw [hlast]
    constructor
    · have hnumbers := numbers_of_traits hold
      change numbers (l.rob ++ [e]) = List.range' first (l.rob ++ [e]).length
      rw [hlast, List.range'_concat, Nat.one_mul, ← hknows.consecutive, ← hnumbers, numbers, List.map_append,
        List.map_singleton, number_eq_of_traits htraits, hnext.number]
      rfl
    · exact hlast.ge
    · intro i f hi hf
      change (l.rob ++ [e])[i]? = some f at hf
      rw [List.getElem?_eq_none (hlast.trans_le hi)] at hf
      cases hf
    · intro f hf d hd
      rcases List.mem_append.1 hf with hf | hf
      · refine foldlM_ok_invariant (P := fun m => ∀ e ∈ m.rob, ∀ d ∈ e.dependants, d < first + (s.rob.length + 1))
          (fun m b m' hm hlink => link_dependants hlink (by omega) hm) ?_ hlinks f hf d hd
        exact fun e he d hd => (hknows.dependants e he d hd).trans (Nat.lt_succ_self _)
      · obtain rfl := List.mem_singleton.1 hf
        have hnone : f.dependants = [] := (resolve_fields hresolve).2.trans (setAddress_fields _ _).2.2.2.2
        rw [hnone] at hd
        cases hd
    · obtain ⟨w', -, -, earlier, lowest, hle, htables, hknown⟩ := hknows.setDependencies hnext
      refine ⟨earlier, lowest, hle, htables, ?_⟩
      rw [hknown, List.take_length]
      change _ = (((l.rob ++ [e]).take (s.rob.length + 1)).map fun e => e.uop.traits).reverse
      rw [← hlast, List.take_length, List.map_append, hold, List.map_singleton, htraits]

/-- A known entry changes, but not its micro-op. -/
theorem Knows.set {s' : RobTimer} (h : Knows first k s) {i : ℕ} {f : RobEntry} (he : s.rob[i]? = some e)
    (huop : f.uop = e.uop) (hdependants : f.dependants = e.dependants) (hrob : s'.rob = s.rob.set i f)
    (hregisters : s'.registerDependencies = s.registerDependencies)
    (hmemory : s'.memoryDependencies = s.memoryDependencies) : Knows first k s' := by
  refine h.congr ?_ hregisters hmemory (fun j g hj hg => ?_) fun g hg => ?_
  · rw [hrob]
    exact map_set_of_eq he (congrArg DynamicMicroOp.traits huop)
  · rw [hrob] at hg
    by_cases hij : i = j
    · rw [← hij, List.getElem?_set_self (List.getElem?_eq_some_iff.1 he).1] at hg
      obtain rfl := Option.some.inj hg
      rw [huop]
      exact h.fresh i e (hij ▸ hj) he
    · rw [List.getElem?_set_ne hij] at hg
      exact h.fresh j g hj hg
  · rw [hrob] at hg
    rcases List.mem_or_eq_of_mem_set hg with hg | rfl
    · exact h.dependants g hg
    · rw [hdependants]
      exact h.dependants e (List.mem_of_getElem? he)

/-- Every move keeps the whole buffer known. -/
theorem Known.move {s' : RobTimer} (h : Known s) (hmove : Move cfg s s') : Known s' := by
  obtain ⟨first, hnumber, hknows⟩ := h
  cases hmove with
  | frontend stalled miss =>
    exact ⟨first, hnumber, hknows.consecutive, hknows.inside, hknows.fresh, hknows.dependants, hknows.tables⟩
  | @dispatch e hentry _ _ =>
    have hlength : (dispatchEntry e s).rob.length = s.rob.length := List.length_set
    refine ⟨first, hlength ▸ hnumber, hlength ▸ hknows.set (f := { e with
      dispatched := s.now, ready := max e.ready (s.now + 1 : ℕ) }) hentry rfl rfl rfl rfl rfl⟩
  | @issue i e hinside hentry hdone hready =>
    have hlength := @length_issueInstruction cfg s i e
    have hi := (List.getElem?_eq_some_iff.1 hentry).1
    exact ⟨first, hlength ▸ hnumber, hlength ▸ hknows.issue hi hentry⟩
  | @commit e rest hrob hdone =>
    have hlength : s.rob.length = rest.length + 1 := by rw [hrob, List.length_cons]
    rw [hlength] at hnumber hknows
    refine ⟨first + 1, ?_, hknows.commit hrob (Nat.succ_pos _) rfl rfl rfl⟩
    change s.nextSequenceNumber = first + 1 + rest.length
    omega
  | time now =>
    exact ⟨first, hnumber, hknows.consecutive, hknows.inside, hknows.fresh, hknows.dependants, hknows.tables⟩

theorem Known.moves {s' : RobTimer} (h : Known s) (hmoves : Moves cfg s s') : Known s' :=
  hmoves.invariant h fun _ _ hknown hmove => hknown.move hmove

end LifeSim.Rob
