import Mathlib

/-!
# Micro-ops, their dependencies and the units they compete for

`dynamic_micro_op.cc`, `register_dependencies.cc`, `memory_dependencies.cc`, `contention_model.cc` and
`rob_contention_nehalem.cc`, as far as the timing of the reorder buffer depends on them. Times are cycle numbers of
a clock with a constant period, and `MaxTime` is `⊤`. Producers are named by sequence numbers. Statistics are left out.
-/

namespace LifeSim.Rob

/-- A cycle number, or `SubsecondTime::MaxTime()`. -/
abbrev Time := WithTop ℕ

/-- `uop_port_t`. -/
inductive Port
  | port0
  | port1
  | port2
  | port34
  | port5
  | port05
  | port015
  deriving DecidableEq, Repr

/-- `DynamicMicroOp`, with what is asked of its `MicroOp`. -/
structure DynamicMicroOp where
  isLoad : Bool
  isStore : Bool
  isBranch : Bool
  isSerializing : Bool
  isMemBarrier : Bool
  sourceRegisters : List ℕ
  addressRegisters : List ℕ
  destinationRegisters : List ℕ
  address : BitVec 64
  phys : BitVec 64
  squashed : Bool
  branchMispredicted : Bool
  microOpTypeOffset : ℕ
  intraInstructionDependencies : ℕ
  dependencies : List ℕ
  execLatency : ℕ
  /-- `getICacheHitWhere() != HitWhere::L1I`. -/
  iCacheMiss : Bool
  iCacheLatency : ℕ
  /-- `getDCacheHitWhere() != HitWhere::UNKNOWN`. -/
  dCacheKnown : Bool
  port : Port
  /-- The micro-op needs the one arithmetic unit that is not pipelined. -/
  alu : Bool
  aluLatency : ℕ
  sequenceNumber : ℕ

/-- A micro-op that computes in one cycle on any port and depends on nothing. -/
def DynamicMicroOp.plain : DynamicMicroOp where
  isLoad := false
  isStore := false
  isBranch := false
  isSerializing := false
  isMemBarrier := false
  sourceRegisters := []
  addressRegisters := []
  destinationRegisters := []
  address := 0
  phys := 0
  squashed := false
  branchMispredicted := false
  microOpTypeOffset := 0
  intraInstructionDependencies := 0
  dependencies := []
  execLatency := 1
  iCacheMiss := false
  iCacheLatency := 0
  dCacheKnown := false
  port := .port015
  alu := false
  aluLatency := 0
  sequenceNumber := 0

/-- `MAXIMUM_NUMBER_OF_DEPENDENCIES`. -/
def maximumNumberOfDependencies : ℕ := 14

/-- A difference of sequence numbers, which have 64 bits. -/
def sub64 (a b : ℕ) : ℕ := (a + (2 ^ 64 - b % 2 ^ 64)) % 2 ^ 64

namespace DynamicMicroOp

variable (u : DynamicMicroOp)

/-- The first dependency within the instruction. -/
def firstDependency : ℕ :=
  sub64 (sub64 u.sequenceNumber u.microOpTypeOffset) u.intraInstructionDependencies

def getDependenciesLength : ℕ := u.intraInstructionDependencies + u.dependencies.length

/-- `getDependency` for every index. -/
def getDependencies : List ℕ :=
  (List.range u.intraInstructionDependencies).map (fun k => (u.firstDependency + k) % 2 ^ 64) ++ u.dependencies

/-- `addDependency`, or nothing if an assertion fails. -/
def addDependency (n : ℕ) : Option DynamicMicroOp :=
  if n ∈ u.dependencies then some u
  else if u.dependencies.length < maximumNumberOfDependencies then some { u with dependencies := u.dependencies ++ [n] }
  else none

/-- The first dependency within the instruction becomes a regular one. -/
def spill : DynamicMicroOp :=
  { u with
    dependencies := u.dependencies ++ [u.firstDependency]
    intraInstructionDependencies := u.intraInstructionDependencies - 1 }

/-- The removal of a dependency within the instruction: those before it become regular ones. -/
def removeIntra (n : ℕ) : ℕ → DynamicMicroOp → Option DynamicMicroOp
  | 0, _ => none
  | k + 1, u =>
    if n = u.firstDependency then some { u with intraInstructionDependencies := u.intraInstructionDependencies - 1 }
    else if u.spill.dependencies.length < maximumNumberOfDependencies then removeIntra n k u.spill
    else none

/-- `removeDependency`, or nothing if an assertion fails. -/
def removeDependency (n : ℕ) : Option DynamicMicroOp :=
  if u.firstDependency ≤ n then removeIntra n u.intraInstructionDependencies u
  else if n ∈ u.dependencies then
    -- the last dependency takes the place of the one that goes
    match u.dependencies.getLast? with
    | none => none
    | some last => some { u with dependencies := (u.dependencies.set (u.dependencies.idxOf n) last).dropLast }
  else none

end DynamicMicroOp

/-! ### Dependencies -/

/-- `RegisterDependencies`: the last producer of each register. -/
abbrev RegisterDependencies := ℕ → Option ℕ

namespace RegisterDependencies

/-- A source register. -/
def addSource (lowest : ℕ) (x : RegisterDependencies × DynamicMicroOp) (reg : ℕ) :
    Option (RegisterDependencies × DynamicMicroOp) :=
  match x.1 reg with
  | none => some x
  | some producer =>
    if lowest ≤ producer then (x.2.addDependency producer).map fun u => (x.1, u)
    else some (Function.update x.1 reg none, x.2)

/-- `setDependencies`, or nothing if an assertion fails. -/
def setDependencies (r : RegisterDependencies) (u : DynamicMicroOp) (lowest : ℕ) :
    Option (RegisterDependencies × DynamicMicroOp) :=
  (u.sourceRegisters.foldlM (addSource lowest) (r, u)).map fun x =>
    (u.destinationRegisters.foldl (fun r reg => Function.update r reg (some u.sequenceNumber)) x.1, x.2)

/-- Register zero is `XED_REG_INVALID`. -/
def peekProducer (r : RegisterDependencies) (reg lowest : ℕ) : Option ℕ :=
  if reg = 0 then none
  else
    match r reg with
    | none => none
    | some producer => if producer < lowest then none else some producer

end RegisterDependencies

/-- `MemoryDependencies`: the stores in flight with their addresses, oldest first, and the last barrier. -/
structure MemoryDependencies where
  producers : List (ℕ × BitVec 64)
  membar : Option ℕ

namespace MemoryDependencies

/-- The size of the queue of producers. -/
def capacity : ℕ := 1024

def clean (lowest : ℕ) (m : MemoryDependencies) : MemoryDependencies :=
  { m with producers := m.producers.dropWhile fun p => p.1 < lowest }

/-- The latest store to an address. -/
def find (m : MemoryDependencies) (address : BitVec 64) : Option ℕ :=
  (m.producers.reverse.find? fun p => p.2 = address).map Prod.fst

/-- A new store, or nothing if the queue is full. -/
def add (m : MemoryDependencies) (n : ℕ) (address : BitVec 64) : Option MemoryDependencies :=
  if m.producers.length < capacity then some { m with producers := m.producers ++ [(n, address)] } else none

/-- A dependency on the last barrier. -/
def addMembar (m : MemoryDependencies) (lowest : ℕ) (u : DynamicMicroOp) : Option DynamicMicroOp :=
  match m.membar with
  | none => some u
  | some membar => if lowest < membar then u.addDependency membar else some u

/-- A dependency on the latest store to the address of a load. -/
def addProducer (m : MemoryDependencies) (u : DynamicMicroOp) : Option DynamicMicroOp :=
  match m.find u.phys with
  | none => some u
  | some producer => u.addDependency producer

/-- `setDependencies`, or nothing if an assertion fails. -/
def setDependencies (m : MemoryDependencies) (u : DynamicMicroOp) (lowest : ℕ) :
    Option (MemoryDependencies × DynamicMicroOp) :=
  let m := m.clean lowest
  if u.isLoad then do
    let v ← m.addProducer u
    let v ← m.addMembar lowest v
    return (m, v)
  else if u.isStore then do
    let m ← m.add u.sequenceNumber u.phys
    let v ← m.addMembar lowest u
    return (m, v)
  else if u.isMemBarrier then do
    let v ← m.addMembar lowest u
    return ({ m with membar := some u.sequenceNumber }, v)
  else return (m, u)

end MemoryDependencies

/-! ### Queues and ports -/

/-- `ContentionModel`: when each slot becomes free, with the tag of its last user, and the time of the last request. -/
structure ContentionModel where
  slots : List (ℕ × BitVec 64)
  last : ℕ

namespace ContentionModel

def new (numOutstanding : ℕ) : ContentionModel := ⟨List.replicate numOutstanding (0, 0), 0⟩

/-- `hasFreeSlot` with its default tag `-1`. -/
def hasFreeSlot (c : ContentionModel) (start : ℕ) : Bool :=
  c.slots.any fun slot => slot.1 ≤ start || slot.2 = BitVec.allOnes 64

/-- The slot that is taken: the first free one, or else the one that is free first. -/
def findUnit (start : ℕ) : List (ℕ × BitVec 64) → ℕ → ℕ → ℕ → ℕ
  | [], _, unit, _ => unit
  | slot :: slots, i, unit, time =>
    if slot.1 ≤ start then i
    else if slot.1 < time then findUnit start slots (i + 1) i slot.1
    else findUnit start slots (i + 1) unit time

/-- The effect of `getCompletionTime`, whose result is not used. -/
def request (c : ContentionModel) (start delay : ℕ) (tag : BitVec 64) : ContentionModel :=
  match c.slots with
  | [] => c
  | slot :: _ =>
    if start = 0 ∨ start < c.last then c
    else
      let unit := findUnit start c.slots 0 0 slot.1
      let free := (c.slots.getD unit (0, 0)).1
      ⟨c.slots.set unit (max start free + delay, tag), start⟩

end ContentionModel

/-- The ports that are taken in a cycle. -/
structure Ports where
  used : Port → Bool
  generic : ℕ
  generic05 : ℕ

namespace Ports

/-- `initCycle`. -/
def init : Ports := ⟨fun _ => false, 0, 0⟩

/-- The port contention in `tryIssue`. -/
def take (p : Ports) (port : Port) : Option Ports :=
  match port with
  | .port015 => if 3 ≤ p.generic then none else some { p with generic := p.generic + 1 }
  | .port05 => if 2 ≤ p.generic05 then none else some { p with generic05 := p.generic05 + 1 }
  | .port2 => if p.used .port2 then none else some { p with used := Function.update p.used .port2 true }
  | .port34 => if p.used .port34 then none else some { p with used := Function.update p.used .port34 true }
  | .port1 =>
    if p.used .port1 ∨ 3 ≤ p.generic then none
    else some { p with used := Function.update p.used .port1 true, generic := p.generic + 1 }
  | port =>
    if p.used port ∨ 3 ≤ p.generic ∨ 2 ≤ p.generic05 then none
    else some ⟨Function.update p.used port true, p.generic + 1, p.generic05 + 1⟩

/-- `tryIssue`. A port stays taken when the arithmetic unit is not free. -/
def tryIssue (p : Ports) (u : DynamicMicroOp) (aluUsedUntil now : ℕ) : Bool × Ports :=
  match p.take u.port with
  | none => (false, p)
  | some p => (!(u.alu && decide (now < aluUsedUntil)), p)

/-- `noMore`. -/
def noMore (p : Ports) : Bool := p.used .port2 && p.used .port34 && decide (3 ≤ p.generic)

end Ports

end LifeSim.Rob
