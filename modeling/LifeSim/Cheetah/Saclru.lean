import Mathlib.Data.Nat.Bitwise
import Mathlib.Logic.Function.Basic
import LifeSim.Lib.StackTree

/-!
# Many caches in one pass

`CheetahSACLRU`: one pass over the addresses of a program counts the hits in all caches of up to `2^N` ways with least
recently used replacement whose number of sets is a power of two from `2^A` to `2^B`. The lines of each of the `2^A`
coarsest sets are kept in a tree in a flat array. A node is a row of `2^N` locations with a count in front, which is the
number of the first location that is in use.

The row of the level `depth` in which a line belongs is found from the low bits of its tag. A search goes down the rows of
its line and pushes the entries of each by one, the last one out. What a row loses is put into the row of its own at the
next level that is not empty on the way.

Addresses are signed in the source, and are shifted as such. The counters, which have 64 bits, are numbers here, and the
results of `hits` beyond the tables are not modelled: `none` stands for a failed assertion only.
-/

namespace LifeSim.Cheetah

open LifeSim.Lib

/-- The parameters of `CheetahSACLRU`. -/
structure Params where
  /-- Degree of associativity = 2^N. -/
  N : ℕ
  /-- Max set field width. -/
  B : ℕ
  /-- Min set field width. -/
  A : ℕ
  /-- Line field width. -/
  L : ℕ
  deriving DecidableEq, Repr

namespace Params

variable (p : Params)

/-- `TWO_PWR_N`. -/
def twoPwrN : ℕ := 2 ^ p.N

/-- `MAX_DEPTH`. -/
def maxDepth : ℕ := p.B - p.A

/-- `SET_MASK`. -/
def setMask : ℕ := 2 ^ p.A - 1

/-- `DIFF_SET_MASK`. -/
def diffSetMask : ℕ := 2 ^ p.maxDepth - 1

/-- `BASE`: a row and its count. -/
def base : ℕ := p.twoPwrN + 1

/-- `SIZE_OF_TREE`. -/
def sizeOfTree : ℕ := 2 ^ p.maxDepth * 2 * p.base

/-- What `init_saclru` asserts, where `MAX_DEPTH` is a difference of unsigned numbers. -/
def Fits : Prop := p.A ≤ p.B ∧ 2 ^ p.A * 2 ^ p.maxDepth * 2 * p.base < 2 ^ 32

instance : Decidable p.Fits := inferInstanceAs (Decidable (_ ∧ _))

/-- `addr >>= L`. -/
def line (addr : BitVec 64) : BitVec 64 := addr.sshiftRight p.L

/-- `set_no`. -/
def setNo (line : BitVec 64) : ℕ := line.toNat &&& p.setMask

/-- `orig_tag`. -/
def origTag (line : BitVec 64) : ℕ := (line.sshiftRight p.A).toNat

/-- `arr_ptr`. -/
def arrPtr (set : ℕ) : ℕ := set * p.sizeOfTree

/-- `entry`, for the low bits of a tag. -/
def entry (depth tag : ℕ) : ℕ := ((2 ^ depth + (tag &&& (2 ^ depth - 1))) - 1) * p.base

/-- `rm_arr`: the place of the lowest bit that is set. -/
def rmArr (i : ℕ) : ℕ :=
  if i = 0 then p.maxDepth
  else ((List.range (p.maxDepth + 1)).find? fun j => (i &&& 2 ^ j) ≠ 0).getD 0

/-- `t = rm_arr[(orig_tag ^ t1) & DIFF_SET_MASK]`: how many low bits two tags share. -/
def rightMatch (origTag t1 : ℕ) : ℕ := p.rmArr ((origTag ^^^ t1) &&& p.diffSetMask)

end Params

/-- `B80000000`. -/
def firstInitValue : ℕ := 0x80000000

section Init

variable (p : Params)

/-- A row is filled with one value. -/
def fillRow (slotPtr value : ℕ) (arr : ℕ → ℕ) : ℕ → ℕ := fun i =>
  if i = slotPtr then 1 else if slotPtr < i ∧ i ≤ slotPtr + p.twoPwrN then value else arr i

/-- The rows of the first half of a level are empty. -/
def emptyRows (arrPtr first : ℕ) : ℕ → (ℕ → ℕ) → ℕ → ℕ
  | 0, arr => arr
  | count + 1, arr =>
    emptyRows arrPtr (first + 1) count (Function.update arr (arrPtr + first * (p.twoPwrN + 1)) (p.twoPwrN + 1))

/-- The rows of the second half get one value each. -/
def fillRows (arrPtr first : ℕ) : ℕ → (ℕ → ℕ) × ℕ → (ℕ → ℕ) × ℕ
  | 0, s => s
  | count + 1, (arr, initValue) =>
    fillRows arrPtr (first + 1) count (fillRow p (arrPtr + first * (p.twoPwrN + 1)) initValue arr, initValue + 1)

/-- The loop over the levels, from `j` on. -/
def initLevels (arrPtr : ℕ) : ℕ → ℕ → (ℕ → ℕ) × ℕ → (ℕ → ℕ) × ℕ
  | 0, _, s => s
  | count + 1, j, (arr, initValue) =>
    initLevels arrPtr count (j + 1)
      (fillRows p arrPtr (2 ^ j - 1 + 2 ^ (j - 1)) (2 ^ (j - 1))
        (emptyRows p arrPtr (2 ^ j - 1) (2 ^ (j - 1)) arr, initValue))

/-- One tree. -/
def initTree (arrPtr : ℕ) (arr : ℕ → ℕ) : ℕ → ℕ :=
  (initLevels p arrPtr p.maxDepth 1 (fillRow p arrPtr firstInitValue arr, firstInitValue + 1)).1

/-- The loop over the trees. -/
def initTrees : ℕ → ℕ → ℕ
  | 0 => fun _ => 0
  | set + 1 => initTree p (p.arrPtr set) (initTrees set)

end Init

/-- `CheetahSACLRU`. -/
structure Saclru where
  /-- `arr`: the rows of all trees. -/
  arr : ℕ → ℕ
  /-- `sac_hits`, by stack depth and level. -/
  sacHits : ℕ → ℕ → ℕ
  /-- `t_entries`. -/
  tEntries : ℕ
  /-- `hitarr0`: the hits of the line used last. -/
  hitarr0 : ℕ
  /-- `tag`: what was pushed out last. -/
  tag : ℕ

/-- `init_saclru`. -/
def Saclru.new (p : Params) : Saclru where
  arr := initTrees p (2 ^ p.A)
  sacHits := fun _ _ => 0
  tEntries := 0
  hitarr0 := 0
  tag := 0

/-- The variables of a search. -/
structure Search where
  arr : ℕ → ℕ
  tag : ℕ
  depths : ℕ → ℕ
  /-- The tag that goes into a row of the level. -/
  atag : ℕ

section Access

variable (p : Params) (origTag : ℕ)

/-- The loop over the locations of a row, with whether the tag was there. -/
def scanRow (slotPtr : ℕ) : ℕ → ℕ → Search → Search × Bool
  | 0, _, s => (s, false)
  | count + 1, i, s =>
    let t1 := s.arr (slotPtr + i)
    let arr := Function.update s.arr (slotPtr + i) s.tag
    if t1 = origTag then ({ s with arr := arr }, true)
    else
      let t := p.rightMatch origTag t1
      scanRow slotPtr count (i + 1)
        { s with arr := arr, tag := t1, depths := Function.update s.depths t (s.depths t + 1) }

/-- The row has lost its first location, and a row of the level gets a new one. -/
def moveIn (arrPtr slotPtr depth : ℕ) (s : Search) : Search :=
  let arr := Function.update s.arr slotPtr (s.arr slotPtr + 1)
  let slot := arrPtr + p.entry depth s.atag
  let arr := Function.update arr slot (arr slot - 1)
  { s with arr := Function.update arr (slot + arr slot) s.atag }

/-- The loop that counts a hit, from the finest level up. -/
def countHits (depths : ℕ → ℕ) : ℕ → ℕ → (ℕ → ℕ → ℕ) → ℕ → ℕ → ℕ
  | 0, _, sacHits => sacHits
  | i + 1, sum, sacHits =>
    let sum := sum + depths i
    if sum < p.twoPwrN then
      countHits depths i sum
        (Function.update sacHits sum (Function.update (sacHits sum) i (sacHits sum i + 1)))
    else sacHits

/-- The loop over the levels. A row that is empty is passed over. -/
def descend (arrPtr : ℕ) : ℕ → ℕ → Search → (ℕ → ℕ → ℕ) → Search × (ℕ → ℕ → ℕ)
  | 0, _, s, sacHits => (s, sacHits)
  | count + 1, depth, s, sacHits =>
    let slotPtr := arrPtr + p.entry depth origTag
    let fst := if depth = 0 then 1 else s.arr slotPtr
    if p.twoPwrN < fst then descend arrPtr count (depth + 1) s sacHits
    else
      match scanRow p origTag slotPtr (p.twoPwrN + 1 - fst) fst s with
      | (s', true) => (moveIn p arrPtr slotPtr depth s', countHits p s'.depths (p.maxDepth + 1) 0 sacHits)
      | (s', false) =>
        let s'' := moveIn p arrPtr slotPtr depth s'
        descend arrPtr count (depth + 1) { s'' with atag := s''.tag } sacHits

end Access

namespace Saclru

variable (p : Params) (s : Saclru)

/-- `sacnmul_woarr`. -/
def sacnmulWoarr (addr : BitVec 64) : Saclru :=
  let s := { s with tEntries := s.tEntries + 1 }
  let line := p.line addr
  let arrPtr := p.arrPtr (p.setNo line)
  let origTag := p.origTag line
  if s.arr (arrPtr + 1) = origTag then { s with hitarr0 := s.hitarr0 + 1 }
  else
    let r := descend p origTag arrPtr (p.maxDepth + 1) 0
      { arr := s.arr, tag := s.tag, depths := fun _ => 0, atag := origTag } s.sacHits
    { s with arr := r.1.arr, tag := r.1.tag, sacHits := r.2 }

/-- `flush`. -/
def flush : Saclru :=
  { s with
    sacHits := Function.update s.sacHits 0 fun i =>
      if i ≤ p.maxDepth then s.sacHits 0 i + s.hitarr0 else s.sacHits 0 i
    hitarr0 := 0 }

/-- `hits`: the number of hits in a cache, and the state with the counts brought up to date. -/
def hits (setsLog2 assoc : ℕ) : Option (ℕ × Saclru) :=
  if p.A ≤ setsLog2 ∧ setsLog2 ≤ p.B then
    let s := if s.hitarr0 ≠ 0 then s.flush p else s
    some (((List.range assoc).map fun j => s.sacHits j (setsLog2 - p.A)).sum, s)
  else none

end Saclru

end LifeSim.Cheetah
