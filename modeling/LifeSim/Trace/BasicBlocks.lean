import Mathlib.Data.List.SplitBy
import Mathlib.Algebra.Order.BigOperators.Group.List
import Mathlib.Tactic

/-!
# Basic blocks of a trace

The loop of `TraceThread::run`. The instruction that was read before is simulated when the next one has been read, and
the basic blocks are put together on the way: a block is counted when the instruction after it is met. The block that
is open when the loop ends is never counted.
-/

namespace LifeSim.Trace

/-- What the loop reads of a `Sift::Instruction`. -/
structure TraceInstruction where
  addr : BitVec 64
  size : BitVec 8
  isBranch : Bool
  deriving DecidableEq, Repr

/-- Where the next instruction in memory starts. -/
def TraceInstruction.after (inst : TraceInstruction) : BitVec 64 := inst.addr + inst.size.setWidth 64

/-- `InstMode::inst_mode_t`. -/
inductive InstMode
  | detailed
  | cacheOnly
  | fastForward
  deriving DecidableEq, Repr

/-- What the loop calls. -/
inductive TraceCall
  | countInstructions (address : BitVec 64) (count : BitVec 32)
  /-- The body of the `switch`, where `CACHE_ONLY` gets the block to bring into the instruction cache. -/
  | simulate (mode : InstMode) (inst next : TraceInstruction) (icacheWarmup : Option (BitVec 64 × BitVec 64))
  deriving DecidableEq, Repr

/-- `m_bbv_base`, `m_bbv_count`, `m_bbv_last` and `m_bbv_end`. -/
structure Bbv where
  base : BitVec 64
  count : BitVec 64
  last : BitVec 64
  ends : Bool
  deriving DecidableEq, Repr

namespace Bbv

/-- The values of the constructor. -/
def init : Bbv := ⟨0, 0, 0, false⟩

/-- The instruction does not continue the block. -/
def closes (bbv : Bbv) (inst : TraceInstruction) : Bool := bbv.ends || bbv.last != inst.addr

/-- The block with one more instruction. -/
def add (bbv : Bbv) (inst : TraceInstruction) : Bbv :=
  { base := if bbv.closes inst then inst.addr else bbv.base
    count := (if bbv.closes inst then 0 else bbv.count) + 1
    last := inst.after
    ends := inst.isBranch }

/-- The calls of one iteration. -/
def calls (bbv : Bbv) (mode : InstMode) (inst next : TraceInstruction) : List TraceCall :=
  (if bbv.closes inst then [.countInstructions bbv.base (bbv.count.setWidth 32)] else []) ++
    [.simulate mode inst next
      (if bbv.closes inst ∧ bbv.base ≠ 0 then some (bbv.base, bbv.last - bbv.base) else none)]

end Bbv

/-- What an iteration finds: the instrumentation mode, and `m_stop` at its end. -/
structure Iteration where
  mode : InstMode
  stop : Bool

/-- The loop of `run` from its iteration `n` on. -/
def runLoop (env : ℕ → Iteration) : ℕ → Bbv → TraceInstruction → List TraceInstruction → List TraceCall
  | _, _, _, [] => []
  | n, bbv, inst, next :: trace =>
    bbv.calls (env n).mode inst next ++
      if (env n).stop then [] else runLoop env (n + 1) (bbv.add inst) next trace

/-- `run`. -/
def run (env : ℕ → Iteration) : List TraceInstruction → List TraceCall
  | [] => []
  | inst :: trace => runLoop env 0 Bbv.init inst trace

/-- The pairs given to `countInstructions` whose count is not zero. -/
def countedBlocks (calls : List TraceCall) : List (BitVec 64 × ℕ) :=
  (calls.filterMap fun
    | .countInstructions address count => some (address, count.toNat)
    | .simulate _ _ _ _ => none).filter fun block => 0 < block.2

/-- The instructions that were simulated. -/
def simulated (calls : List TraceCall) : List TraceInstruction :=
  calls.filterMap fun
    | .countInstructions _ _ => none
    | .simulate _ inst _ _ => some inst

/-- An instruction stands in the same basic block as the one before. -/
def follows (inst next : TraceInstruction) : Bool := !inst.isBranch && inst.after == next.addr

/-- The base and the number of instructions of a block. -/
def blockPair (block : List TraceInstruction) : BitVec 64 × ℕ := ((block.map (·.addr)).headD 0, block.length)

/-- The same pair as an argument of 32 bits. -/
def blockArgument (block : List TraceInstruction) : BitVec 64 × ℕ :=
  ((block.map (·.addr)).headD 0, block.length % 4294967296)

/-- The counted pairs are those of the basic blocks, and every instruction is counted. -/
def BlocksCounted (calls : List TraceCall) : Prop :=
  countedBlocks calls = ((simulated calls).splitBy follows).map blockPair ∧
    ((countedBlocks calls).map (·.2)).sum = (simulated calls).length

instance (calls : List TraceCall) : Decidable (BlocksCounted calls) := by
  unfold BlocksCounted
  infer_instance

/-! ### Projections of the calls -/

variable {bbv : Bbv} {block : List TraceInstruction} {inst next : TraceInstruction} {mode : InstMode}
  {calls rest : List TraceCall}

theorem countedBlocks_append : countedBlocks (calls ++ rest) = countedBlocks calls ++ countedBlocks rest := by
  simp only [countedBlocks, List.filterMap_append, List.filter_append]

theorem simulated_append : simulated (calls ++ rest) = simulated calls ++ simulated rest := by
  simp only [simulated, List.filterMap_append]

/-- An iteration simulates its instruction. -/
theorem simulated_calls : simulated (bbv.calls mode inst next) = [inst] := by
  unfold Bbv.calls
  split <;> rfl

/-- An iteration counts the block that it closes. -/
theorem countedBlocks_calls : countedBlocks (bbv.calls mode inst next) =
    if bbv.closes inst then [(bbv.base, (bbv.count.setWidth 32).toNat)].filter (fun block => 0 < block.2) else [] := by
  unfold Bbv.calls
  split <;> rfl

/-! ### The open block -/

/-- The state of the loop when these instructions are the open block. -/
structure Bbv.Open (bbv : Bbv) (block : List TraceInstruction) : Prop where
  base : ∃ first tail, block = first :: tail ∧ bbv.base = first.addr
  count : bbv.count = BitVec.ofNat 64 block.length
  last : ∃ front inst, block = front ++ [inst] ∧ bbv.last = inst.after ∧ bbv.ends = inst.isBranch
  chain : block.IsChain fun x y => follows x y

/-- An instruction closes the block exactly if it does not follow its last one. -/
theorem Bbv.Open.closes_iff (h : bbv.Open block) (inst : TraceInstruction) :
    (∃ front last, block = front ++ [last] ∧ bbv.closes inst = !follows last inst) := by
  obtain ⟨front, last, hblock, hlast, hends⟩ := h.last
  refine ⟨front, last, hblock, ?_⟩
  rw [Bbv.closes, follows, hlast, hends]
  cases last.isBranch <;> rfl

/-- What is given to `countInstructions` for the open block. -/
theorem Bbv.Open.argument (h : bbv.Open block) : (bbv.base, (bbv.count.setWidth 32).toNat) = blockArgument block := by
  obtain ⟨first, tail, hblock, hbase⟩ := h.base
  have hcount : (bbv.count.setWidth 32).toNat = block.length % 4294967296 := by
    rw [h.count, BitVec.toNat_setWidth, BitVec.toNat_ofNat]
    omega
  rw [hcount, hbase, blockArgument, hblock]
  rfl

/-- A block opens with the instruction that closed the one before. -/
theorem Bbv.open_singleton (h : bbv.closes inst = true) : (bbv.add inst).Open [inst] where
  base := ⟨inst, [], rfl, by rw [Bbv.add, if_pos h]⟩
  count := by
    change (if bbv.closes inst then 0 else bbv.count) + 1 = _
    rw [if_pos h]
    rfl
  last := ⟨[], inst, rfl, rfl, rfl⟩
  chain := List.isChain_singleton inst

/-- A block grows by the instruction that follows. -/
theorem Bbv.Open.add (h : bbv.Open block) (hcloses : bbv.closes inst = false) :
    (bbv.add inst).Open (block ++ [inst]) where
  base := by
    obtain ⟨first, tail, hblock, hbase⟩ := h.base
    refine ⟨first, tail ++ [inst], by rw [hblock, List.cons_append], ?_⟩
    rw [Bbv.add, if_neg (by rw [hcloses]; decide), hbase]
  count := by
    change (if bbv.closes inst then 0 else bbv.count) + 1 = _
    rw [if_neg (by rw [hcloses]; decide), h.count, List.length_append, List.length_singleton]
    exact (BitVec.ofNat_add block.length 1).symm
  last := ⟨block, inst, rfl, rfl, rfl⟩
  chain := by
    obtain ⟨front, last, hblock, hfollows⟩ := h.closes_iff inst
    rw [hcloses] at hfollows
    rw [List.isChain_append]
    refine ⟨h.chain, List.isChain_singleton inst, fun x hx y hy => ?_⟩
    rw [hblock, List.getLast?_concat, Option.mem_some] at hx
    rw [List.head?_cons, Option.mem_some] at hy
    subst hx hy
    simpa using hfollows

theorem Bbv.Open.ne_nil (h : bbv.Open block) : block ≠ [] := by
  obtain ⟨first, tail, hblock, -⟩ := h.base
  rw [hblock]
  exact List.cons_ne_nil _ _

/-- A block that is closed is the first of those that follow. -/
theorem splitBy_open (h : bbv.Open block) (hcloses : bbv.closes inst = true) (insts : List TraceInstruction) :
    (block ++ inst :: insts).splitBy follows = block :: (inst :: insts).splitBy follows := by
  obtain ⟨front, last, hblock, hfollows⟩ := h.closes_iff inst
  rw [hcloses] at hfollows
  rw [List.splitBy_append_cons insts ?_, List.splitBy_of_isChain h.ne_nil h.chain, List.singleton_append]
  intro x hx
  rw [hblock, List.getLast?_concat, Option.mem_some] at hx
  subst hx
  simpa using hfollows

/-! ### The loop -/

/-- The pairs of all blocks but the last, as they are given to `countInstructions`. -/
def closedPairs (insts : List TraceInstruction) : List (BitVec 64 × ℕ) :=
  ((insts.splitBy follows).dropLast.map blockArgument).filter fun block => 0 < block.2

/-- An open block alone has not been counted. -/
theorem closedPairs_open (h : bbv.Open block) : closedPairs block = [] := by
  rw [closedPairs, List.splitBy_of_isChain h.ne_nil h.chain]
  rfl

/-- A closed block is counted in front of the others. -/
theorem closedPairs_closes (h : bbv.Open block) (hcloses : bbv.closes inst = true) (insts : List TraceInstruction) :
    closedPairs (block ++ inst :: insts) =
      [blockArgument block].filter (fun block => 0 < block.2) ++ closedPairs (inst :: insts) := by
  have hne : (inst :: insts).splitBy follows ≠ [] := List.splitBy_ne_nil.2 (List.cons_ne_nil _ _)
  rw [closedPairs, splitBy_open h hcloses, List.dropLast_cons_of_ne_nil hne, List.map_cons, ← List.singleton_append,
    List.filter_append]
  rfl

/-- From an open block on the loop counts all blocks but the last. -/
theorem countedBlocks_runLoop (env : ℕ → Iteration) (n : ℕ) (trace : List TraceInstruction) (h : bbv.Open block) :
    countedBlocks (runLoop env n bbv inst trace) = closedPairs (block ++ simulated (runLoop env n bbv inst trace)) := by
  induction trace generalizing n bbv block inst with
  | nil =>
    change [] = closedPairs (block ++ [])
    rw [List.append_nil, closedPairs_open h]
  | cons next trace ih =>
    have hrest : ∀ {grown : List TraceInstruction}, (bbv.add inst).Open grown →
        countedBlocks (if (env n).stop then [] else runLoop env (n + 1) (bbv.add inst) next trace) =
          closedPairs (grown ++ simulated (if (env n).stop then [] else
            runLoop env (n + 1) (bbv.add inst) next trace)) := by
      intro grown hgrown
      split
      · change [] = closedPairs (grown ++ [])
        rw [List.append_nil, closedPairs_open hgrown]
      · exact ih (n + 1) hgrown
    rw [runLoop, countedBlocks_append, simulated_append, simulated_calls, countedBlocks_calls]
    cases hcloses : bbv.closes inst with
    | true =>
      rw [if_pos rfl, hrest (Bbv.open_singleton hcloses), h.argument, List.singleton_append,
        closedPairs_closes h hcloses]
    | false =>
      rw [if_neg Bool.false_ne_true, List.nil_append, hrest (h.add hcloses), List.append_assoc]

/-- The first instruction opens a block, also at address 0. -/
theorem Bbv.open_first (inst : TraceInstruction) : (Bbv.init.add inst).Open [inst] := by
  cases hcloses : Bbv.init.closes inst with
  | true => exact Bbv.open_singleton hcloses
  | false =>
    have hzero : inst.addr = 0 := by
      have hlast : (0 != inst.addr) = false := hcloses
      rw [bne_eq_false_iff_eq] at hlast
      exact hlast.symm
    refine ⟨⟨inst, [], rfl, ?_⟩, ?_, ⟨[], inst, rfl, rfl, rfl⟩, List.isChain_singleton inst⟩
    · rw [Bbv.add, hcloses, hzero]
      rfl
    · rw [Bbv.add, hcloses]
      rfl

/-- The run counts all blocks but the last one. -/
theorem countedBlocks_run (env : ℕ → Iteration) (trace : List TraceInstruction) :
    countedBlocks (run env trace) = closedPairs (simulated (run env trace)) := by
  cases trace with
  | nil => rfl
  | cons inst trace =>
    cases trace with
    | nil => rfl
    | cons next trace =>
      have hopen := Bbv.open_first inst
      have hfirst : countedBlocks (Bbv.init.calls (env 0).mode inst next) = [] := by
        rw [countedBlocks_calls]
        split <;> rfl
      rw [run, runLoop, countedBlocks_append, simulated_append, simulated_calls, hfirst, List.nil_append]
      split
      · change [] = closedPairs ([inst] ++ [])
        rw [List.append_nil, closedPairs_open hopen]
      · exact countedBlocks_runLoop env 1 trace hopen

/-- What is counted of some blocks is no more than their instructions. -/
theorem sum_blockArgument_le (blocks : List (List TraceInstruction)) :
    (((blocks.map blockArgument).filter fun block => 0 < block.2).map (·.2)).sum ≤ blocks.flatten.length := by
  induction blocks with
  | nil => exact le_rfl
  | cons block blocks ih =>
    have hle : (blockArgument block).2 ≤ block.length := Nat.mod_le _ _
    rw [List.map_cons, List.filter_cons, List.flatten_cons, List.length_append]
    split
    · rw [List.map_cons, List.sum_cons]
      exact Nat.add_le_add hle ih
    · exact ih.trans (Nat.le_add_left _ _)

/-- Some instructions are always left out. -/
theorem sum_closedPairs_lt {insts : List TraceInstruction} (h : insts ≠ []) :
    ((closedPairs insts).map (·.2)).sum < insts.length := by
  have hne := List.splitBy_ne_nil (r := follows).2 h
  have hlast := List.ne_nil_of_mem_splitBy (List.getLast_mem hne)
  have hlen : (insts.splitBy follows).dropLast.flatten.length + ((insts.splitBy follows).getLast hne).length =
      insts.length := by
    conv_rhs => rw [← List.flatten_splitBy follows insts, ← List.dropLast_append_getLast hne]
    rw [List.flatten_append, List.length_append, List.flatten_singleton]
  have hpos := List.length_pos_iff.2 hlast
  have hle := sum_blockArgument_le (insts.splitBy follows).dropLast
  rw [closedPairs]
  omega

/-- The basic blocks of a run are all counted if and only if no instruction is simulated: the trace has at most one. -/
theorem run_blocks_iff (env : ℕ → Iteration) (trace : List TraceInstruction) :
    BlocksCounted (run env trace) ↔ trace.length ≤ 1 := by
  cases trace with
  | nil => exact ⟨fun _ => Nat.zero_le 1, fun _ => ⟨rfl, rfl⟩⟩
  | cons inst trace =>
    cases trace with
    | nil => exact ⟨fun _ => le_rfl, fun _ => ⟨rfl, rfl⟩⟩
    | cons next trace =>
      have hsome : simulated (run env (inst :: next :: trace)) ≠ [] := by
        rw [run, runLoop, simulated_append, simulated_calls]
        exact List.cons_ne_nil _ _
      constructor
      · rintro ⟨-, hsum⟩
        rw [countedBlocks_run] at hsum
        exact absurd hsum (sum_closedPairs_lt hsome).ne
      · intro hlen
        simp at hlen

/-- Two instructions in a row: the first is simulated and never counted. -/
theorem run_leaves_last_block :
    ¬ BlocksCounted (run (fun _ => ⟨.detailed, false⟩) [⟨0x400000, 4, false⟩, ⟨0x400004, 4, false⟩]) := by
  decide

end LifeSim.Trace
