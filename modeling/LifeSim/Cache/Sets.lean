import LifeSim.Cache.Policies

/-!
# Sets of blocks

`cache_set.cc`: a set looks a tag up in its ways, and a new block goes to the way that the replacement policy tells. The
data of the blocks exist only for fault injection.

Every operation changes one way at most. If no tag stands in two ways, what is looked up afterwards follows from what was
looked up before, whatever the policy is.
-/

namespace LifeSim.Cache

open LifeSim.Lib

/-- The bytes of a block, by their offsets. -/
abbrev Bytes := ℕ → BitVec 8

/-- `CacheSet`. -/
structure CacheSet where
  associativity : ℕ
  blocksize : ℕ
  /-- Whether there is a fault injection manager, so that `m_blocks` is not `NULL`. -/
  hasData : Bool
  blocks : Blocks
  data : ℕ → Bytes
  replacement : Replacement

/-- A block with its data. -/
structure CacheLine where
  info : CacheBlockInfo
  data : Option Bytes

namespace CacheSet

variable {s s' : CacheSet} {t : BitVec 64} {i : ℕ} {b : CacheBlockInfo} {d : Bytes}

/-- The constructor, for a policy that has been created. -/
def new (associativity blocksize : ℕ) (hasData : Bool) (replacement : Replacement) : CacheSet :=
  ⟨associativity, blocksize, hasData, fun _ => CacheBlockInfo.create, fun _ _ => 0, replacement⟩

/-- `CacheSet::find`: the last way with this tag. -/
def find (s : CacheSet) (tag : BitVec 64) : Option ℕ :=
  (List.range s.associativity).reverse.find? fun i => (s.blocks i).tag = tag

/-- What a way holds. -/
def content (s : CacheSet) (i : ℕ) : CacheLine := ⟨s.blocks i, if s.hasData then some (s.data i) else none⟩

/-- What is found for a tag. -/
def lookup (s : CacheSet) (tag : BitVec 64) : Option CacheLine := (s.find tag).map s.content

/-- A way gets a block and its data. -/
def setWay (s : CacheSet) (i : ℕ) (b : CacheBlockInfo) (d : Bytes) : CacheSet :=
  { s with blocks := Function.update s.blocks i b, data := Function.update s.data i d }

/-- `CacheSet::invalidate`. -/
def invalidate (s : CacheSet) (tag : BitVec 64) : Bool × CacheSet :=
  match s.find tag with
  | some i => (true, s.setWay i (s.blocks i).invalidate (s.data i))
  | none => (false, s)

/-- `CacheSet::insert`. The result tells the block that has been evicted. -/
def insert (s : CacheSet) (block : CacheBlockInfo) (fill : Option Bytes) (calls : ℕ) (answers : Answers) :
    Except Fault (Option CacheLine × CacheSet) := do
  let (index, replacement) ← s.replacement.getReplacementIndex calls s.blocks answers
  require (index < s.associativity) .noSuchWay
  .ok (if (s.blocks index).isValid then some (s.content index) else none,
    { s.setWay index block (if s.hasData then fill.getD (s.data index) else s.data index) with replacement })

/-- The end of `read_line` and `write_line`. -/
def touchWay (s : CacheSet) (line : ℕ) (updateReplacement : Bool) : Except Fault CacheSet :=
  if updateReplacement then do
    let replacement ← s.replacement.updateReplacementIndex line
    .ok { s with replacement }
  else .ok s

/-- `CacheSet::read_line`, with the bytes that it reads. -/
def readLine (s : CacheSet) (line offset bytes : ℕ) (updateReplacement : Bool) :
    Except Fault (Option (List (BitVec 8)) × CacheSet) := do
  require (offset + bytes ≤ s.blocksize) .beyondBlock
  let s' ← s.touchWay line updateReplacement
  .ok (if s.hasData then some ((List.range bytes).map fun k => s.data line (offset + k)) else none, s')

/-- Some bytes of a block are written. -/
def overwrite (d : Bytes) (offset bytes : ℕ) (buff : Bytes) : Bytes := fun k =>
  if offset ≤ k ∧ k < offset + bytes then buff (k - offset) else d k

/-- `CacheSet::write_line`. -/
def writeLine (s : CacheSet) (line offset : ℕ) (buff : Option Bytes) (bytes : ℕ) (updateReplacement : Bool) :
    Except Fault CacheSet := do
  require (offset + bytes ≤ s.blocksize) .beyondBlock
  (s.setWay line (s.blocks line)
    (if s.hasData then (buff.map (overwrite (s.data line) offset bytes)).getD (s.data line)
      else s.data line)).touchWay line updateReplacement

/-! ### Looking up -/

/-- No tag stands in two ways, except that of the blocks that are not valid. -/
def Unique (s : CacheSet) : Prop :=
  ∀ i < s.associativity, ∀ j < s.associativity, (s.blocks i).tag ≠ invalidTag →
    (s.blocks i).tag = (s.blocks j).tag → i = j

theorem find_some (h : s.find t = some i) : i < s.associativity ∧ (s.blocks i).tag = t := by
  have hmem := List.mem_of_find?_eq_some h
  have htest := @List.find?_some _ _ _ _ h
  exact ⟨List.mem_range.1 (List.mem_reverse.1 hmem), of_decide_eq_true htest⟩

theorem find_none : s.find t = none ↔ ∀ i < s.associativity, (s.blocks i).tag ≠ t := by
  rw [find, List.find?_eq_none]
  simp

theorem find_eq_some_iff (hunique : s.Unique) (ht : t ≠ invalidTag) :
    s.find t = some i ↔ i < s.associativity ∧ (s.blocks i).tag = t := by
  refine ⟨find_some, fun h => ?_⟩
  cases hfind : s.find t with
  | none => exact absurd h.2 (find_none.1 hfind i h.1)
  | some j =>
    obtain ⟨hj, htag⟩ := find_some hfind
    exact congrArg some (hunique j hj i h.1 (by rwa [htag]) (htag.trans h.2.symm))

theorem lookup_eq_none : s.lookup t = none ↔ ∀ i < s.associativity, (s.blocks i).tag ≠ t := by
  rw [lookup, Option.map_eq_none_iff, find_none]

theorem lookup_of_tag (hunique : s.Unique) (ht : t ≠ invalidTag) (hi : i < s.associativity)
    (htag : (s.blocks i).tag = t) : s.lookup t = some (s.content i) := by
  rw [lookup, (find_eq_some_iff hunique ht).2 ⟨hi, htag⟩, Option.map_some]

theorem unique_new (associativity blocksize : ℕ) (hasData : Bool) (replacement : Replacement) :
    (new associativity blocksize hasData replacement).Unique := fun _ _ _ _ h _ => absurd rfl h

theorem lookup_new (associativity blocksize : ℕ) (hasData : Bool) (replacement : Replacement) (ht : t ≠ invalidTag) :
    (new associativity blocksize hasData replacement).lookup t = none :=
  lookup_eq_none.2 fun _ _ h => ht h.symm

/-! ### Changing a way -/

section SetWay

theorem setWay_self (s : CacheSet) : ((s.setWay i b d).blocks i) = b := Function.update_self ..

theorem setWay_of_ne (s : CacheSet) {j : ℕ} (h : j ≠ i) : (s.setWay i b d).blocks j = s.blocks j :=
  Function.update_of_ne h ..

theorem content_setWay_self (s : CacheSet) :
    (s.setWay i b d).content i = ⟨b, if s.hasData then some d else none⟩ := by
  rw [content, setWay_self]
  simp [setWay]

theorem content_setWay_of_ne (s : CacheSet) {j : ℕ} (h : j ≠ i) : (s.setWay i b d).content j = s.content j := by
  rw [content, content, setWay_of_ne s h]
  simp [setWay, h]

/-- The new tag stands in no other way. -/
def Fits (s : CacheSet) (i : ℕ) (b : CacheBlockInfo) : Prop :=
  b.tag = invalidTag ∨ ∀ j < s.associativity, j ≠ i → (s.blocks j).tag ≠ b.tag

theorem Unique.setWay (hunique : s.Unique) (hfits : s.Fits i b) : (s.setWay i b d).Unique := by
  intro j hj k hk hvalid htag
  by_cases hji : j = i
  · by_cases hki : k = i
    · rw [hji, hki]
    · rw [hji, setWay_self] at hvalid htag
      rw [setWay_of_ne s hki] at htag
      exact absurd htag.symm ((hfits.resolve_left hvalid) k hk hki)
  · rw [setWay_of_ne s hji] at hvalid htag
    by_cases hki : k = i
    · rw [hki, setWay_self] at htag
      exact absurd htag ((hfits.resolve_left (htag ▸ hvalid)) j hj hji)
    · rw [setWay_of_ne s hki] at htag
      exact hunique j hj k hk hvalid htag

/-- What the way held is not found any more, what it holds is, and nothing else changes. -/
theorem lookup_setWay (hunique : s.Unique) (hi : i < s.associativity) (hfits : s.Fits i b) (ht : t ≠ invalidTag) :
    (s.setWay i b d).lookup t =
      if t = b.tag then some ⟨b, if s.hasData then some d else none⟩
      else if t = (s.blocks i).tag then none else s.lookup t := by
  have hunique' := hunique.setWay (d := d) hfits
  by_cases hnew : t = b.tag
  · rw [if_pos hnew, lookup_of_tag hunique' ht hi (by rw [setWay_self, hnew]), content_setWay_self]
  rw [if_neg hnew]
  by_cases hold : t = (s.blocks i).tag
  · rw [if_pos hold, lookup_eq_none]
    intro j hj htag
    by_cases hji : j = i
    · rw [hji, setWay_self] at htag
      exact hnew htag.symm
    · rw [setWay_of_ne s hji] at htag
      exact hji (hunique j hj i hi (htag ▸ ht) (htag.trans hold))
  · rw [if_neg hold]
    cases hfind : s.find t with
    | none =>
      have hnone := find_none.1 hfind
      rw [lookup_eq_none.2 hnone, lookup_eq_none]
      intro j hj htag
      by_cases hji : j = i
      · rw [hji, setWay_self] at htag
        exact hnew htag.symm
      · rw [setWay_of_ne s hji] at htag
        exact hnone j hj htag
    | some j =>
      obtain ⟨hj, htag⟩ := find_some hfind
      have hji : j ≠ i := fun h => hold (by rw [← h, htag])
      rw [lookup_of_tag hunique ht hj htag, lookup_of_tag hunique' ht hj (by rw [setWay_of_ne s hji, htag]),
        content_setWay_of_ne s hji]

end SetWay

end CacheSet

end LifeSim.Cache
