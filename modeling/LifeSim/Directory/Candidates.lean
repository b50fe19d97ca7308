import Mathlib
import LifeSim.Directory.Cache
import LifeSim.Lib.Machine

/-!
# The order of the replacement candidates

`DramDirectoryCache::getReplacementCandidates`: the entries of a set are offered in turn, from a pointer on that is moved
on at each call. The pointer has 32 bits and is added to the number of a way before it is reduced. So near its end the sum
wraps around, which is harmless only if the associativity divides 2^32. The pointers are not set at first.

The call asserts that the address has no entry. That is about the entries and not about their order, and the directory
cache asserts it as well.
-/

namespace LifeSim.Directory

open LifeSim.Lib

/-- The sizes that the constructor is called with. It divides by the associativity. -/
structure DirectoryShape where
  totalEntries : ℕ
  associativity : ℕ
  cacheBlockSize : ℕ
  totalEntries_lt : totalEntries < 2 ^ 32
  associativity_pos : 0 < associativity
  associativity_lt : associativity < 2 ^ 32

/-- Why there is no list of candidates. -/
inductive CandidateFault
  /-- There is no pointer for the set. -/
  | outOfBounds
  /-- `Directory::getDirectoryEntry`: there is no such entry. -/
  | invalidEntry
  deriving DecidableEq

namespace DirectoryShape

variable (d : DirectoryShape)

def numSets : ℕ := d.totalEntries / d.associativity

/-- The index in `splitAddress`. -/
def setIndex (address : ℕ) : ℕ :=
  ((address >>> Nat.log2 d.cacheBlockSize) % 2 ^ 32) &&& ((d.numSets + 2 ^ 32 - 1) % 2 ^ 32)

/-- The number of a candidate. -/
def candidate (set pointer i : ℕ) : ℕ := (set * d.associativity + (i + pointer) % 2 ^ 32 % d.associativity) % 2 ^ 32

/-- The candidates, as numbers of directory entries, and the pointers afterwards. -/
def getReplacementCandidates (ptrs : ℕ → ℕ) (address : ℕ) : Except CandidateFault (List ℕ × (ℕ → ℕ)) :=
  let set := d.setIndex address
  if d.numSets ≤ set then .error .outOfBounds
  else
    let entries := (List.range d.associativity).map (d.candidate set (ptrs set))
    if entries.all (· < d.totalEntries) then .ok (entries, Function.update ptrs set ((ptrs set + 1) % 2 ^ 32))
    else .error .invalidEntry

/-- The entries of a set in round-robin order, beginning with a way. -/
def roundRobin (set way : ℕ) : List ℕ :=
  ((List.range d.associativity).rotate way).map fun i => set * d.associativity + i

end DirectoryShape

/-- The pointers, and with which way the last call for each set began. -/
structure CandidateState where
  ptrs : ℕ → ℕ
  began : ℕ → Option ℕ

namespace CandidateState

/-- No call has been made. -/
def start (ptrs : ℕ → ℕ) : CandidateState := ⟨ptrs, fun _ => none⟩

variable (d : DirectoryShape)

/-- A call for an address. -/
def step (s : CandidateState) (address : ℕ) : Except CandidateFault CandidateState :=
  match d.getReplacementCandidates s.ptrs address with
  | .error f => .error f
  | .ok (entries, ptrs) => .ok
    { ptrs := ptrs
      began := Function.update s.began (d.setIndex address)
        (entries.head?.map fun entry => entry - d.setIndex address * d.associativity) }

end CandidateState

/-- Calls for one address after the other. -/
def candidateMachine (d : DirectoryShape) : Machine CandidateState ℕ CandidateFault := ⟨CandidateState.step d⟩

/-- The set of the address exists, all of its entries are returned once, and they are in round-robin order, beginning one
way later than at the last call for the set. -/
def CandidatesRight (d : DirectoryShape) (s : CandidateState) (address : ℕ) : Prop :=
  d.setIndex address < d.numSets ∧ ∃ ptrs way, way < d.associativity ∧
    d.getReplacementCandidates s.ptrs address = .ok (d.roundRobin (d.setIndex address) way, ptrs) ∧
    (d.roundRobin (d.setIndex address) way).Perm
      ((List.range d.associativity).map fun i => d.setIndex address * d.associativity + i) ∧
    ∀ last ∈ s.began (d.setIndex address), way = (last + 1) % d.associativity

/-- There is a set, and adding the pointer to the ways does not wrap around, unless the associativity divides 2^32. -/
def PointerFits (d : DirectoryShape) (s : CandidateState) (address : ℕ) : Prop :=
  d.associativity ≤ d.totalEntries ∧
    (d.associativity ∣ 2 ^ 32 ∨ s.ptrs (d.setIndex address) + d.associativity ≤ 2 ^ 32)

namespace DirectoryShape

variable {d : DirectoryShape} {set pointer way i address : ℕ}

theorem numSets_pos_iff : 0 < d.numSets ↔ d.associativity ≤ d.totalEntries := by
  rw [numSets, Nat.div_pos_iff]
  exact ⟨fun h => h.2, fun h => ⟨d.associativity_pos, h⟩⟩

/-- Every address has a set, if there is one. -/
theorem setIndex_lt (hsets : 0 < d.numSets) (address : ℕ) : d.setIndex address < d.numSets := by
  have hle : d.numSets ≤ d.totalEntries := Nat.div_le_self ..
  have hlt := d.totalEntries_lt
  have hmask : (d.numSets + 2 ^ 32 - 1) % 2 ^ 32 = d.numSets - 1 := by omega
  have hand := Nat.and_le_right (n := (address >>> Nat.log2 d.cacheBlockSize) % 2 ^ 32) (m := d.numSets - 1)
  rw [setIndex, hmask]
  omega

/-- The entries of a set exist. -/
theorem entry_lt (hset : set < d.numSets) (hway : way < d.associativity) :
    set * d.associativity + way < d.totalEntries := by
  have hmul := Nat.mul_le_mul_right d.associativity (Nat.succ_le_of_lt hset)
  have hself : d.numSets * d.associativity ≤ d.totalEntries := Nat.div_mul_le_self ..
  rw [Nat.succ_mul] at hmul
  omega

theorem candidate_eq (hset : set < d.numSets) (pointer i : ℕ) :
    d.candidate set pointer i = set * d.associativity + (i + pointer) % 2 ^ 32 % d.associativity := by
  have hlt := d.entry_lt hset (Nat.mod_lt ((i + pointer) % 2 ^ 32) d.associativity_pos)
  have htotal := d.totalEntries_lt
  rw [candidate, Nat.mod_eq_of_lt (hlt.trans htotal)]

/-- A call returns a list. -/
theorem getReplacementCandidates_eq (hset : d.setIndex address < d.numSets) (ptrs : ℕ → ℕ) :
    d.getReplacementCandidates ptrs address =
      .ok ((List.range d.associativity).map (d.candidate (d.setIndex address) (ptrs (d.setIndex address))),
        Function.update ptrs (d.setIndex address) ((ptrs (d.setIndex address) + 1) % 2 ^ 32)) := by
  rw [getReplacementCandidates]
  dsimp only
  rw [if_neg (by omega), if_pos]
  rw [List.all_eq_true]
  intro entry hentry
  obtain ⟨i, -, rfl⟩ := List.mem_map.1 hentry
  rw [decide_eq_true_eq, candidate_eq hset]
  exact d.entry_lt hset (Nat.mod_lt _ d.associativity_pos)

theorem length_roundRobin : (d.roundRobin set way).length = d.associativity := by simp [roundRobin]

theorem getElem?_roundRobin (hi : i < d.associativity) :
    (d.roundRobin set way)[i]? = some (set * d.associativity + (i + way) % d.associativity) := by
  rw [roundRobin, List.getElem?_map, List.getElem?_rotate (by simpa using hi), List.length_range,
    List.getElem?_range (Nat.mod_lt _ d.associativity_pos), Option.map_some]

theorem roundRobin_perm : (d.roundRobin set way).Perm ((List.range d.associativity).map fun i =>
    set * d.associativity + i) := (List.rotate_perm _ _).map _

/-- The candidates are in order if each is the next one. -/
theorem candidates_eq_roundRobin (hset : set < d.numSets) (hway : ∀ i < d.associativity,
    (i + pointer) % 2 ^ 32 % d.associativity = (i + way) % d.associativity) :
    (List.range d.associativity).map (d.candidate set pointer) = d.roundRobin set way := by
  apply List.ext_getElem?
  intro i
  by_cases hi : i < d.associativity
  · rw [List.getElem?_map, List.getElem?_range hi, Option.map_some, candidate_eq hset, hway i hi,
      getElem?_roundRobin hi]
  · rw [List.getElem?_eq_none (by simpa using hi), List.getElem?_eq_none (by rw [length_roundRobin]; omega)]

/-- The way of each candidate, if they are in order. -/
theorem way_of_candidates_eq (hset : set < d.numSets)
    (h : (List.range d.associativity).map (d.candidate set pointer) = d.roundRobin set way) (hi : i < d.associativity) :
    (i + pointer) % 2 ^ 32 % d.associativity = (i + way) % d.associativity := by
  have hget := congrArg (fun l : List ℕ => l[i]?) h
  rw [List.getElem?_map, List.getElem?_range hi, Option.map_some, candidate_eq hset, getElem?_roundRobin hi,
    Option.some.injEq] at hget
  omega

/-- If the sum wraps around between two candidates in order, the associativity divides 2^32. -/
theorem dvd_of_candidates_eq (hset : set < d.numSets) (hpointer : pointer < 2 ^ 32)
    (h : (List.range d.associativity).map (d.candidate set pointer) = d.roundRobin set way)
    (hwraps : 2 ^ 32 < pointer + d.associativity) : d.associativity ∣ 2 ^ 32 := by
  have hbefore := way_of_candidates_eq hset h (i := 2 ^ 32 - pointer - 1) (by omega)
  have hbehind := way_of_candidates_eq hset h (i := 2 ^ 32 - pointer) (by omega)
  have hlast : 2 ^ 32 - pointer - 1 + pointer = 2 ^ 32 - 1 := by omega
  have hnext : 2 ^ 32 - pointer - 1 + way + 1 = 2 ^ 32 - pointer + way := by omega
  rw [hlast, Nat.mod_eq_of_lt (b := 2 ^ 32) (by decide)] at hbefore
  rw [Nat.sub_add_cancel hpointer.le, Nat.mod_self, Nat.zero_mod, ← hnext] at hbehind
  have hmod : (2 ^ 32 - 1 + 1) % d.associativity = 0 := by
    rw [← Nat.mod_add_mod, hbefore, Nat.mod_add_mod, hbehind]
  exact Nat.dvd_of_mod_eq_zero hmod

end DirectoryShape

/-- The pointers have 32 bits, and each is one way behind the beginning of the last call. -/
structure CandidatesInOrder (d : DirectoryShape) (s : CandidateState) : Prop where
  ptrs_lt : ∀ set, s.ptrs set < 2 ^ 32
  began : ∀ set, ∀ last ∈ s.began set, (last + 1) % d.associativity = s.ptrs set % d.associativity

namespace CandidatesInOrder

variable {d : DirectoryShape} {s s' : CandidateState} {address : ℕ} (h : CandidatesInOrder d s)
include h

omit h in
/-- A pointer that fits counts the ways. -/
theorem way_eq (hfits : PointerFits d s address) {i : ℕ} (hi : i < d.associativity) :
    (i + s.ptrs (d.setIndex address)) % 2 ^ 32 % d.associativity =
      (i + s.ptrs (d.setIndex address) % d.associativity) % d.associativity := by
  rw [Nat.add_mod_mod]
  rcases hfits.2 with hdvd | hle
  · exact Nat.mod_mod_of_dvd _ hdvd
  · rw [Nat.mod_eq_of_lt (b := 2 ^ 32) (by omega)]

omit h in
/-- The list begins with the way of the pointer. -/
theorem candidates_eq (hfits : PointerFits d s address) :
    (List.range d.associativity).map (d.candidate (d.setIndex address) (s.ptrs (d.setIndex address))) =
      d.roundRobin (d.setIndex address) (s.ptrs (d.setIndex address) % d.associativity) :=
  DirectoryShape.candidates_eq_roundRobin (d.setIndex_lt (DirectoryShape.numSets_pos_iff.2 hfits.1) address)
    fun _ hi => way_eq hfits hi

/-- A call whose pointer fits moves on by one way. -/
theorem step (hfits : PointerFits d s address) (hstep : CandidateState.step d s address = .ok s') :
    CandidatesInOrder d s' := by
  have hset := d.setIndex_lt (DirectoryShape.numSets_pos_iff.2 hfits.1) address
  have hpos := d.associativity_pos
  rw [CandidateState.step, DirectoryShape.getReplacementCandidates_eq hset, candidates_eq hfits] at hstep
  cases hstep
  refine ⟨fun set => ?_, fun set last hlast => ?_⟩
  · dsimp only
    by_cases heq : set = d.setIndex address
    · rw [heq, Function.update_self]
      exact Nat.mod_lt _ (by decide)
    · rw [Function.update_of_ne heq]
      exact h.ptrs_lt set
  · dsimp only at hlast ⊢
    by_cases heq : set = d.setIndex address
    · rw [heq, Function.update_self, List.head?_eq_getElem?, DirectoryShape.getElem?_roundRobin hpos, Option.map_some,
        Option.mem_some_iff, Nat.zero_add, Nat.mod_mod, Nat.add_sub_cancel_left] at hlast
      rw [heq, Function.update_self, ← hlast, Nat.mod_add_mod]
      rcases hfits.2 with hdvd | hle
      · exact (Nat.mod_mod_of_dvd _ hdvd).symm
      · by_cases hone : d.associativity = 1
        · rw [hone, Nat.mod_one, Nat.mod_one]
        · rw [Nat.mod_eq_of_lt (b := 2 ^ 32) (by omega)]
    · rw [Function.update_of_ne heq] at hlast ⊢
      exact h.began set last hlast

theorem right_iff (address : ℕ) : CandidatesRight d s address ↔ PointerFits d s address := by
  constructor
  · rintro ⟨hset, ptrs, way, -, hcall, -⟩
    rw [DirectoryShape.getReplacementCandidates_eq hset, Except.ok.injEq, Prod.mk.injEq] at hcall
    refine ⟨DirectoryShape.numSets_pos_iff.1 (by omega), ?_⟩
    by_cases hle : s.ptrs (d.setIndex address) + d.associativity ≤ 2 ^ 32
    · exact .inr hle
    · exact .inl (DirectoryShape.dvd_of_candidates_eq hset (h.ptrs_lt _) hcall.1 (by omega))
  · intro hfits
    have hset := d.setIndex_lt (DirectoryShape.numSets_pos_iff.2 hfits.1) address
    have hcall := DirectoryShape.getReplacementCandidates_eq hset s.ptrs
    rw [candidates_eq hfits] at hcall
    exact ⟨hset, _, _, Nat.mod_lt _ d.associativity_pos, hcall, DirectoryShape.roundRobin_perm,
      fun last hlast => (h.began _ last hlast).symm⟩

end CandidatesInOrder

/-- **Replacement candidates.** In a run of calls, with any values in the pointers at first, all calls are right exactly
if there is a set and at every call the pointer fits: the associativity divides 2^32, or the pointer is at most
2^32 less the associativity. -/
theorem candidates_right_iff (d : DirectoryShape) (ptrs : ℕ → ℕ) (hptrs : ∀ set, ptrs set < 2 ^ 32)
    (addresses : List ℕ) :
    (candidateMachine d).Guarded (CandidatesRight d) (.start ptrs) addresses ↔
      (candidateMachine d).Guarded (PointerFits d) (.start ptrs) addresses := by
  have hstart : CandidatesInOrder d (.start ptrs) := ⟨hptrs, fun _ _ hlast => by cases hlast⟩
  have hstep : ∀ s address s', CandidatesInOrder d s → True → PointerFits d s address →
      (candidateMachine d).step s address = .ok s' → CandidatesInOrder d s' :=
    fun s address s' h _ hfits hstep => h.step hfits hstep
  exact (candidateMachine d).guarded_congr_of_kept hstep (fun s address h _ => h.right_iff address) hstart
    ((candidateMachine d).guarded_true _ _)

/-- A directory with one set of three ways. -/
def threeWays : DirectoryShape := ⟨3, 3, 64, by decide, by decide, by decide⟩

theorem candidates_right_iff_threeWays :
    (candidateMachine threeWays).Guarded (CandidatesRight threeWays) (.start fun _ => 7) [0, 64] ↔
      (candidateMachine threeWays).Guarded (PointerFits threeWays) (.start fun _ => 7) [0, 64] :=
  candidates_right_iff threeWays (fun _ => 7) (fun _ => by decide) [0, 64]

/-- With the pointer 4294967295 the first way is a candidate twice, and the last one is none. -/
theorem candidates_repeatWay :
    (threeWays.getReplacementCandidates (fun _ => 4294967295) 0).map Prod.fst = .ok [0, 0, 1] ∧
      ¬ CandidatesRight threeWays (.start fun _ => 4294967295) 0 := by
  refine ⟨rfl, ?_⟩
  rintro ⟨-, ptrs, way, -, hcall, hperm, -⟩
  have hlist := congrArg (Except.map Prod.fst) hcall
  have heq : [0, 0, 1] = threeWays.roundRobin (threeWays.setIndex 0) way := Except.ok.inj hlist
  rw [← heq] at hperm
  exact absurd hperm (by decide)

/-! ### The directory cache -/

/-- The directory cache of these sizes. -/
def DirectoryShape.toCacheConfig (d : DirectoryShape) (h : d.associativity ≤ d.totalEntries) : CacheConfig where
  numSets := d.numSets
  associativity := d.associativity
  logCacheBlockSize := Nat.log2 d.cacheBlockSize
  numSets_pos := DirectoryShape.numSets_pos_iff.2 h

/-- The directory cache returns these candidates and moves this pointer. -/
theorem DramDirectoryCache.candidates_eq {n : ℕ} (d : DirectoryShape) (h : d.associativity ≤ d.totalEntries)
    (c : DramDirectoryCache n) (address : ℕ) :
    d.getReplacementCandidates c.replacementPtrs address =
      .ok (c.candidates (d.toCacheConfig h) address, (c.advance (d.toCacheConfig h) address).replacementPtrs) := by
  have hpos := DirectoryShape.numSets_pos_iff.2 h
  have hle : d.numSets ≤ d.totalEntries := Nat.div_le_self ..
  have hlt := d.totalEntries_lt
  have hset := d.setIndex_lt hpos address
  have hindex : (d.toCacheConfig h).setIndex address = d.setIndex address := by
    have hmask : (d.numSets + 2 ^ 32 - 1) % 2 ^ 32 = d.numSets - 1 := by omega
    rw [DirectoryShape.setIndex, hmask]
    rfl
  rw [DirectoryShape.getReplacementCandidates_eq hset, candidates, advance, hindex]
  congr 2
  apply List.map_congr_left
  intro i _
  exact DirectoryShape.candidate_eq hset _ i

end LifeSim.Directory
