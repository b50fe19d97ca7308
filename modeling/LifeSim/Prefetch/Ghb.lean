import LifeSim.Lib.Checked
import LifeSim.Lib.Machine
import LifeSim.Cache.Address

/-!
# The GHB prefetcher

`ghb_prefetcher.cc`: a circular buffer holds the last deltas between addresses, a table points from a delta to the place
in the buffer where a delta was recorded after it, and the places that belong to one delta are linked. The vectors are
read and written with a check of the index. The times and the list of all recorded deltas are not in the source; the code
does not read them.
-/

namespace LifeSim.Prefetch

open LifeSim.Lib LifeSim.Cache

/-- An index is used that the vector does not have. -/
inductive Fault
  | outOfBounds
  deriving DecidableEq, Repr

/-- `SInt64`, with the subtraction and the addition of the machine. -/
abbrev Delta := BitVec 64

/-- `INVALID_ADDRESS`. -/
def invalidAddress : Address := 0xFFFFFFFFFFFFFFFF#64

/-- `INVALID_DELTA`. -/
def invalidDelta : Delta := 0x7FFFFFFFFFFFFFFF#64

/-- `INVALID_INDEX`. -/
def invalidIndex : ℕ := 0xFFFFFFFF

/-- `GHBEntry`, with the time when it was recorded, and the time of the entry that it is linked to. -/
structure GHBEntry where
  nextIndex : ℕ
  delta : Delta
  generation : ℕ
  recordedAt : ℕ
  nextAt : ℕ
  deriving DecidableEq, Repr

/-- `TableEntry`, with the time of the entry that it points to. -/
structure TableEntry where
  ghbIndex : ℕ
  delta : Delta
  generation : ℕ
  recordedAt : ℕ
  deriving DecidableEq, Repr

/-- `GHBEntry()`. -/
def GHBEntry.new : GHBEntry := ⟨invalidIndex, invalidDelta, 0, 0, 0⟩

/-- `TableEntry()`. -/
def TableEntry.new : TableEntry := ⟨invalidIndex, invalidDelta, 0, 0⟩

/-- The parameters, with sizes of 32 bits. -/
structure GhbConfig where
  prefetchWidth : ℕ
  prefetchDepth : ℕ
  ghbSize : ℕ
  tableSize : ℕ
  ghbSize_pos : 0 < ghbSize
  ghbSize_le : ghbSize ≤ invalidIndex
  tableSize_pos : 0 < tableSize

/-- `GhbPrefetcher`. -/
structure GhbPrefetcher (cfg : GhbConfig) where
  lastAddress : Address
  ghbHead : ℕ
  generation : ℕ
  ghb : ℕ → GHBEntry
  tableHead : ℕ
  ghbTable : ℕ → TableEntry
  /-- All deltas that have been recorded. -/
  recorded : List Delta

/-- What `getNextAddress` returns, with the places at which its chains start. -/
structure Answer where
  prefetchList : List Address
  chains : List ℕ
  deriving DecidableEq, Repr

namespace GhbPrefetcher

variable {cfg : GhbConfig}

/-- `GhbPrefetcher::GhbPrefetcher`. -/
def start (cfg : GhbConfig) : GhbPrefetcher cfg :=
  ⟨invalidAddress, 0, 0, fun _ => .new, 0, fun _ => .new, []⟩

/-- `m_ghb[i]`. -/
def ghbAt (g : GhbPrefetcher cfg) (i : ℕ) : Except Fault GHBEntry :=
  if i < cfg.ghbSize then .ok (g.ghb i) else .error .outOfBounds

/-- `m_ghbTable[i]`. -/
def tableAt (g : GhbPrefetcher cfg) (i : ℕ) : Except Fault TableEntry :=
  if i < cfg.tableSize then .ok (g.ghbTable i) else .error .outOfBounds

/-- A write to `m_ghb[i]`. -/
def setGhb (g : GhbPrefetcher cfg) (i : ℕ) (e : GHBEntry) : Except Fault (GhbPrefetcher cfg) :=
  if i < cfg.ghbSize then .ok { g with ghb := Function.update g.ghb i e } else .error .outOfBounds

/-- A write to `m_ghbTable[i]`. -/
def setTable (g : GhbPrefetcher cfg) (i : ℕ) (e : TableEntry) : Except Fault (GhbPrefetcher cfg) :=
  if i < cfg.tableSize then .ok { g with ghbTable := Function.update g.ghbTable i e } else .error .outOfBounds

/-- The search of the table from `i` on, with the number of entries that are left. -/
def search (g : GhbPrefetcher cfg) (delta : Delta) : ℕ → ℕ → Except Fault ℕ
  | 0, i => return i
  | left + 1, i => do
    let e ← g.tableAt i
    if e.delta ≠ invalidDelta ∧ e.delta ≠ delta then g.search delta left (i + 1) else return i

/-- The entry of a delta. -/
def found (g : GhbPrefetcher cfg) (delta : Delta) : Except Fault (Option (ℕ × TableEntry)) := do
  let i ← g.search delta cfg.tableSize 0
  if i = cfg.tableSize then return none
  let e ← g.tableAt i
  return if e.delta = delta then some (i, e) else none

/-- The loop over the depth, with the number of its rounds that are left. The sum of the indices has 32 bits. -/
def walk (g : GhbPrefetcher cfg) (ghbIndex : ℕ) : ℕ → ℕ → Address → List Address → Except Fault (List Address)
  | 0, _, _, prefetchList => return prefetchList
  | left + 1, depth, newAddress, prefetchList => do
    let e ← g.ghbAt ((ghbIndex + depth) % 4294967296 % cfg.ghbSize)
    if e.delta = invalidDelta then return prefetchList
    let newAddress := newAddress + e.delta
    g.walk ghbIndex left (depth + 1) newAddress
      (if newAddress ∈ prefetchList then prefetchList else prefetchList ++ [newAddress])

/-- The place at which the next chain starts. -/
def following (g : GhbPrefetcher cfg) (ghbIndex nextIndex : ℕ) : ℕ :=
  if (ghbIndex < nextIndex ∨ g.ghbHead < ghbIndex) ∧ nextIndex < g.ghbHead then invalidIndex else nextIndex

/-- The loop over the width, with the number of its rounds that are left. -/
def follow (g : GhbPrefetcher cfg) (currentAddress : Address) : ℕ → ℕ → Answer → Except Fault Answer
  | 0, _, answer => return answer
  | left + 1, ghbIndex, answer => do
    if ghbIndex = invalidIndex then return answer
    let prefetchList ← g.walk ghbIndex cfg.prefetchDepth 0 currentAddress answer.prefetchList
    let e ← g.ghbAt ghbIndex
    g.follow currentAddress left (g.following ghbIndex e.nextIndex) ⟨prefetchList, answer.chains ++ [ghbIndex]⟩

/-- The first half of `getNextAddress`. -/
def predict (g : GhbPrefetcher cfg) (currentAddress : Address) (delta : Delta) : Except Fault Answer := do
  match ← g.found delta with
  | none => return ⟨[], []⟩
  | some (_, entry) => do
    let e ← g.ghbAt entry.ghbIndex
    if entry.generation = e.generation then g.follow currentAddress cfg.prefetchWidth entry.ghbIndex ⟨[], []⟩
    else return ⟨[], []⟩

/-- The new delta gets into the table, and is linked. -/
def link (g : GhbPrefetcher cfg) (prevDelta : Delta) : Except Fault (GhbPrefetcher cfg) := do
  match ← g.found prevDelta with
  | some (i, entry) => do
    let e ← g.ghbAt entry.ghbIndex
    let head ← g.ghbAt g.ghbHead
    let g ← g.setGhb g.ghbHead (if entry.generation = e.generation
      then { head with nextIndex := entry.ghbIndex, nextAt := entry.recordedAt } else { head with nextIndex := invalidIndex })
    g.setTable i { entry with ghbIndex := g.ghbHead, generation := g.generation, recordedAt := g.recorded.length }
  | none => do
    let g ← g.setTable g.tableHead ⟨g.ghbHead, prevDelta, g.generation, g.recorded.length⟩
    return { g with tableHead := (g.tableHead + 1) % cfg.tableSize }

/-- The head moves on. -/
def advance (g : GhbPrefetcher cfg) (delta : Delta) : GhbPrefetcher cfg :=
  if g.ghbHead + 1 = cfg.ghbSize then
    { g with ghbHead := 0, generation := (g.generation + 1) % 4, recorded := g.recorded ++ [delta] }
  else { g with ghbHead := g.ghbHead + 1, recorded := g.recorded ++ [delta] }

/-- The place before the head. -/
def prevHead (g : GhbPrefetcher cfg) : ℕ := if 0 < g.ghbHead then g.ghbHead - 1 else cfg.ghbSize - 1

/-- The second half of `getNextAddress`. -/
def record (g : GhbPrefetcher cfg) (delta : Delta) : Except Fault (GhbPrefetcher cfg) := do
  let g ← g.setGhb g.ghbHead ⟨invalidIndex, delta, g.generation, g.recorded.length, 0⟩
  let prev ← g.ghbAt g.prevHead
  let g ← if prev.delta ≠ invalidDelta then g.link prev.delta else pure g
  return g.advance delta

/-- `GhbPrefetcher::getNextAddress`. -/
def getNextAddress (g : GhbPrefetcher cfg) (currentAddress : Address) : Except Fault (Answer × GhbPrefetcher cfg) := do
  if g.lastAddress = invalidAddress then
    return (⟨[], []⟩, { g with lastAddress := currentAddress })
  let delta := currentAddress - g.lastAddress
  let g := { g with lastAddress := currentAddress }
  let answer ← g.predict currentAddress delta
  let g ← g.record delta
  return (answer, g)

end GhbPrefetcher

/-- The accesses one after the other. -/
def ghbMachine (cfg : GhbConfig) : Machine (GhbPrefetcher cfg) Address Fault where
  step g address := Prod.snd <$> g.getNextAddress address

/-! ### Indices -/

namespace GhbPrefetcher

variable {cfg : GhbConfig} {g g' : GhbPrefetcher cfg} {delta : Delta} {i : ℕ}

/-- No fault is possible. -/
abbrev Safe {α : Type} (x : Except Fault α) (Q : α → Prop) : Prop := Ensures x Q fun _ => False

theorem safe_ghbAt (hi : i < cfg.ghbSize) : Safe (g.ghbAt i) fun e => e = g.ghb i := by
  rw [ghbAt, if_pos hi]
  exact .ok rfl

theorem safe_tableAt (hi : i < cfg.tableSize) : Safe (g.tableAt i) fun e => e = g.ghbTable i := by
  rw [tableAt, if_pos hi]
  exact .ok rfl

theorem safe_setGhb (hi : i < cfg.ghbSize) (e : GHBEntry) :
    Safe (g.setGhb i e) fun g' => g' = { g with ghb := Function.update g.ghb i e } := by
  rw [setGhb, if_pos hi]
  exact .ok rfl

theorem safe_setTable (hi : i < cfg.tableSize) (e : TableEntry) :
    Safe (g.setTable i e) fun g' => g' = { g with ghbTable := Function.update g.ghbTable i e } := by
  rw [setTable, if_pos hi]
  exact .ok rfl

/-- The indices that are stored are those of the vectors. -/
structure Bounded (g : GhbPrefetcher cfg) : Prop where
  ghbHead : g.ghbHead < cfg.ghbSize
  tableHead : g.tableHead < cfg.tableSize
  next : ∀ i < cfg.ghbSize, (g.ghb i).nextIndex = invalidIndex ∨ (g.ghb i).nextIndex < cfg.ghbSize
  entry : ∀ i < cfg.tableSize, (g.ghbTable i).delta ≠ invalidDelta → (g.ghbTable i).ghbIndex < cfg.ghbSize

theorem safe_search (delta : Delta) {left : ℕ} (hleft : left + i = cfg.tableSize) :
    Safe (g.search delta left i) fun j => j ≤ cfg.tableSize := by
  induction left generalizing i with
  | zero => exact .ok (by omega)
  | succ left ih =>
    refine (safe_tableAt (by omega)).bind fun e _ => ?_
    split
    · exact ih (by omega)
    · exact .ok (by omega)

/-- What is found is an entry of the table for the delta. -/
theorem safe_found (g : GhbPrefetcher cfg) (delta : Delta) :
    Safe (g.found delta) fun r => ∀ i entry, r = some (i, entry) →
      i < cfg.tableSize ∧ entry = g.ghbTable i ∧ entry.delta = delta := by
  refine (safe_search delta (Nat.add_zero _)).bind fun j hj => ?_
  by_cases hend : j = cfg.tableSize
  · rw [if_pos hend]
    exact .ok fun i entry h => by cases h
  · rw [if_neg hend]
    refine (safe_tableAt (by omega)).bind fun e he => .ok fun i entry h => ?_
    split_ifs at h with hdelta
    cases h
    exact ⟨by omega, he, hdelta⟩

/-- A chain adds at most as many addresses as it is deep, and none twice. -/
theorem safe_walk (ghbIndex : ℕ) (left depth : ℕ) (newAddress : Address) (prefetchList : List Address) :
    Safe (g.walk ghbIndex left depth newAddress prefetchList) fun l =>
      (prefetchList.Nodup → l.Nodup) ∧ l.length ≤ prefetchList.length + left := by
  induction left generalizing depth newAddress prefetchList with
  | zero => exact .ok ⟨id, le_rfl⟩
  | succ left ih =>
    refine (safe_ghbAt (Nat.mod_lt _ cfg.ghbSize_pos)).bind fun e _ => ?_
    split
    · exact .ok ⟨id, Nat.le_add_right _ _⟩
    · refine (ih _ _ _).mono (fun l hl => ?_) fun _ h => h
      split_ifs at hl with hmem
      · exact ⟨hl.1, by omega⟩
      · rw [List.length_append, List.length_singleton] at hl
        exact ⟨fun hnodup => hl.1 (hnodup.append (List.nodup_singleton _) (List.disjoint_singleton.2 hmem)), by omega⟩

theorem following_lt (hg : Bounded g) (hi : i < cfg.ghbSize) :
    g.following i (g.ghb i).nextIndex = invalidIndex ∨ g.following i (g.ghb i).nextIndex < cfg.ghbSize := by
  rw [following]
  split_ifs
  · exact .inl rfl
  · exact hg.next i hi

/-- The answer has no address twice, and at most as many as the width and the depth allow. -/
structure Fits (cfg : GhbConfig) (rounds : ℕ) (answer : Answer) : Prop where
  nodup : answer.prefetchList.Nodup
  length : answer.prefetchList.length ≤ rounds * cfg.prefetchDepth
  chains : answer.chains.length ≤ rounds

theorem safe_follow (hg : Bounded g) (currentAddress : Address) {left rounds ghbIndex : ℕ} {answer : Answer}
    (hindex : ghbIndex = invalidIndex ∨ ghbIndex < cfg.ghbSize) (hanswer : Fits cfg rounds answer) :
    Safe (g.follow currentAddress left ghbIndex answer) (Fits cfg (rounds + left)) := by
  induction left generalizing rounds ghbIndex answer with
  | zero => exact .ok hanswer
  | succ left ih =>
    rw [follow]
    by_cases hinvalid : ghbIndex = invalidIndex
    · rw [if_pos hinvalid]
      refine .ok ⟨hanswer.nodup, hanswer.length.trans ?_, hanswer.chains.trans (Nat.le_add_right _ _)⟩
      exact Nat.mul_le_mul_right _ (Nat.le_add_right _ _)
    · rw [if_neg hinvalid]
      have hlt := hindex.resolve_left hinvalid
      refine (safe_walk _ _ _ _ _).bind fun l hl => (safe_ghbAt hlt).bind fun e he => ?_
      subst he
      rw [show rounds + (left + 1) = rounds + 1 + left by omega]
      refine ih (following_lt hg hlt) ⟨hl.1 hanswer.nodup, ?_, ?_⟩
      · have hlength := hanswer.length
        change l.length ≤ _
        rw [Nat.succ_mul]
        omega
      · rw [List.length_append, List.length_singleton]
        exact Nat.succ_le_succ hanswer.chains

theorem safe_predict (hg : Bounded g) (currentAddress : Address) (hdelta : delta ≠ invalidDelta) :
    Safe (g.predict currentAddress delta) (Fits cfg cfg.prefetchWidth) := by
  have hnone : Fits cfg cfg.prefetchWidth ⟨[], []⟩ := ⟨List.nodup_nil, Nat.zero_le _, Nat.zero_le _⟩
  refine (safe_found g delta).bind fun r hr => ?_
  cases r with
  | none => exact .ok hnone
  | some x =>
    obtain ⟨hi, hentry, hsame⟩ := hr x.1 x.2 rfl
    have hindex : x.2.ghbIndex < cfg.ghbSize := by
      rw [hentry] at hsame ⊢
      exact hg.entry _ hi (hsame ▸ hdelta)
    refine (safe_ghbAt hindex).bind fun e _ => ?_
    split
    · have hstart : Fits cfg 0 ⟨[], []⟩ := ⟨List.nodup_nil, Nat.zero_le _, Nat.zero_le _⟩
      refine (safe_follow hg currentAddress (.inr hindex) hstart).mono (fun answer h => ?_) fun _ h => h
      rwa [Nat.zero_add] at h
    · exact .ok hnone

/-- The buffer with a new delta at its head. -/
def withHead (g : GhbPrefetcher cfg) (delta : Delta) : ℕ → GHBEntry :=
  Function.update g.ghb g.ghbHead ⟨invalidIndex, delta, g.generation, g.recorded.length, 0⟩

/-- The delta that is taken to be the one before. -/
def prevDelta (g : GhbPrefetcher cfg) (delta : Delta) : Delta := (g.withHead delta g.prevHead).delta

/-- The entry of the delta before, if it is in the table. -/
def PrevEntry (g : GhbPrefetcher cfg) (delta : Delta) (entry : TableEntry) : Prop :=
  g.prevDelta delta ≠ invalidDelta ∧ ∃ i < cfg.tableSize, g.ghbTable i = entry ∧ entry.delta = g.prevDelta delta

/-- The new entry has no link, or it is linked to the place of the entry of the delta before. -/
structure NewEntry (g : GhbPrefetcher cfg) (delta : Delta) (e : GHBEntry) : Prop where
  holds : e.delta = delta
  time : e.recordedAt = g.recorded.length
  next : e.nextIndex = invalidIndex ∨ ∃ entry, g.PrevEntry delta entry ∧
    e.nextIndex = entry.ghbIndex ∧ e.nextAt = entry.recordedAt

/-- What a recording does to the buffer and to the table, before the head moves on. -/
structure Linked (g : GhbPrefetcher cfg) (delta : Delta) (g' : GhbPrefetcher cfg) : Prop where
  ghbHead : g'.ghbHead = g.ghbHead
  recorded : g'.recorded = g.recorded
  ghb : ∃ e, NewEntry g delta e ∧ g'.ghb = Function.update g.ghb g.ghbHead e
  tableHead : g'.tableHead < cfg.tableSize
  /-- At most the entry of the delta before has changed, and points to the head. -/
  table : ∀ i, g'.ghbTable i = g.ghbTable i ∨ g.prevDelta delta ≠ invalidDelta ∧
    g'.ghbTable i = ⟨g.ghbHead, g.prevDelta delta, g.generation, g.recorded.length⟩

/-- The delta is written, and not yet linked. -/
def written (g : GhbPrefetcher cfg) (delta : Delta) : GhbPrefetcher cfg := { g with ghb := g.withHead delta }

theorem linked_written (hg : Bounded g) (delta : Delta) : Linked g delta (g.written delta) :=
  ⟨rfl, rfl, ⟨_, ⟨rfl, rfl, .inl rfl⟩, rfl⟩, hg.tableHead, fun _ => .inl rfl⟩

/-- The table with one entry that points to the head. -/
theorem table_update {entry : TableEntry} (hprev : g.prevDelta delta ≠ invalidDelta)
    (hentry : entry = ⟨g.ghbHead, g.prevDelta delta, g.generation, g.recorded.length⟩) (i j : ℕ) :
    Function.update g.ghbTable i entry j = g.ghbTable j ∨ g.prevDelta delta ≠ invalidDelta ∧
      Function.update g.ghbTable i entry j = ⟨g.ghbHead, g.prevDelta delta, g.generation, g.recorded.length⟩ := by
  rw [Function.update_apply]
  split_ifs
  · exact .inr ⟨hprev, hentry⟩
  · exact .inl rfl

theorem safe_link (hg : Bounded g) (hprev : g.prevDelta delta ≠ invalidDelta) :
    Safe ((g.written delta).link (g.prevDelta delta)) (Linked g delta) := by
  refine (safe_found (g.written delta) _).bind fun r hr => ?_
  cases r with
  | none =>
    refine (safe_setTable hg.tableHead _).bind fun g₂ hg₂ => .ok ?_
    subst hg₂
    exact ⟨rfl, rfl, ⟨_, ⟨rfl, rfl, .inl rfl⟩, rfl⟩, Nat.mod_lt _ cfg.tableSize_pos, table_update hprev rfl _⟩
  | some x =>
    obtain ⟨i, entry⟩ := x
    obtain ⟨hi, hentry, hsame⟩ := hr i entry rfl
    have hindex : entry.ghbIndex < cfg.ghbSize := by
      rw [hentry] at hsame ⊢
      exact hg.entry _ hi (hsame ▸ hprev)
    refine (safe_ghbAt hindex).bind fun e _ => ?_
    refine (safe_ghbAt hg.ghbHead).bind fun head hhead => ?_
    have hself : head = ⟨invalidIndex, delta, g.generation, g.recorded.length, 0⟩ := by
      rw [hhead]
      exact Function.update_self ..
    refine (safe_setGhb hg.ghbHead _).bind fun g₂ hg₂ => ?_
    subst hg₂
    refine (safe_setTable hi _).mono (fun g₃ hg₃ => ?_) fun _ h => h
    subst hg₃
    refine ⟨rfl, rfl, ⟨_, ?_, Function.update_idem ..⟩, hg.tableHead, table_update hprev ?_ _⟩
    · subst hself
      split_ifs
      · exact ⟨rfl, rfl, .inr ⟨entry, ⟨hprev, i, hi, hentry.symm, hsame⟩, rfl, rfl⟩⟩
      · exact ⟨rfl, rfl, .inl rfl⟩
    · rw [hsame]
      rfl

theorem prevHead_lt (hg : Bounded g) : g.prevHead < cfg.ghbSize := by
  have hhead := hg.ghbHead
  rw [prevHead]
  split_ifs <;> omega

theorem safe_record (hg : Bounded g) (delta : Delta) :
    Safe (g.record delta) fun g' => ∃ g₁, Linked g delta g₁ ∧ g' = g₁.advance delta := by
  refine (safe_setGhb hg.ghbHead _).bind fun g₁ hg₁ => ?_
  replace hg₁ : g₁ = g.written delta := hg₁
  subst hg₁
  refine (safe_ghbAt (prevHead_lt (g := g) hg)).bind fun prev hprev => ?_
  replace hprev : prev.delta = g.prevDelta delta := congrArg GHBEntry.delta hprev
  rw [hprev]
  by_cases hinvalid : g.prevDelta delta ≠ invalidDelta
  · rw [if_pos hinvalid]
    exact (safe_link hg hinvalid).bind fun g₂ h => .ok ⟨g₂, h, rfl⟩
  · rw [if_neg hinvalid]
    exact .ok ⟨_, linked_written hg delta, rfl⟩

/-- The place after the head. -/
def nextHead (g : GhbPrefetcher cfg) : ℕ := if g.ghbHead + 1 = cfg.ghbSize then 0 else g.ghbHead + 1

@[simp] theorem advance_ghb : (g.advance delta).ghb = g.ghb := by
  rw [advance]
  split_ifs <;> rfl

@[simp] theorem advance_ghbTable : (g.advance delta).ghbTable = g.ghbTable := by
  rw [advance]
  split_ifs <;> rfl

@[simp] theorem advance_tableHead : (g.advance delta).tableHead = g.tableHead := by
  rw [advance]
  split_ifs <;> rfl

@[simp] theorem advance_recorded : (g.advance delta).recorded = g.recorded ++ [delta] := by
  rw [advance]
  split_ifs <;> rfl

@[simp] theorem advance_ghbHead : (g.advance delta).ghbHead = g.nextHead := by
  rw [advance, nextHead]
  split_ifs <;> rfl

theorem Linked.bounded (hg : Bounded g) (h : Linked g delta g') : Bounded (g'.advance delta) := by
  obtain ⟨e, hnew, hghb⟩ := h.ghb
  refine ⟨?_, by simpa using h.tableHead, fun i hi => ?_, fun i hi hvalid => ?_⟩
  · have hhead := hg.ghbHead
    rw [advance_ghbHead, nextHead, h.ghbHead]
    split_ifs <;> omega
  · rw [advance_ghb, hghb, Function.update_apply]
    split_ifs
    · refine hnew.next.imp_right fun hlink => ?_
      obtain ⟨entry, ⟨hprev, j, hj, hentry, hsame⟩, hnext, -⟩ := hlink
      subst hentry
      rw [hnext]
      exact hg.entry j hj (hsame ▸ hprev)
    · exact hg.next i hi
  · rw [advance_ghbTable] at hvalid ⊢
    rcases h.table i with hsame | ⟨-, hchanged⟩
    · rw [hsame] at hvalid ⊢
      exact hg.entry i hi hvalid
    · rw [hchanged]
      exact hg.ghbHead

end GhbPrefetcher

end LifeSim.Prefetch
