import LifeSim.Lib.Modify
import LifeSim.Lib.Rank
import LifeSim.Rob.Smt

/-!
# Micro-ops that access the same line

`micro_op_performance_model.cc`: an instruction is decoded into loads, micro-ops that execute, and stores. While the
memory operands of the instruction are handled, a load or a store is squashed if its cache line has been accessed by an
earlier one. The squashed micro-ops do not enter the reorder buffer, and `doSquashing` recomputes the offsets and the
dependencies within the instruction for those that do.
-/

namespace LifeSim.Rob

open LifeSim.Lib

/-! ### Decoding -/

/-- `MicroOp::uop_type_t`. -/
inductive UopType
  | load
  | execute
  | store
  deriving DecidableEq, Repr

/-- `MicroOp`. -/
structure MicroOp where
  uopType : UopType
  microOpTypeOffset : ℕ
  intraInstructionDependencies : ℕ
  first : Bool
  last : Bool

namespace MicroOp

/-- `makeLoad`. -/
def makeLoad (offset : ℕ) : MicroOp := ⟨.load, offset, 0, false, false⟩

/-- `makeExecute`. -/
def makeExecute (offset numLoads : ℕ) : MicroOp := ⟨.execute, offset, numLoads, false, false⟩

/-- `makeStore`. -/
def makeStore (offset numExecute : ℕ) : MicroOp := ⟨.store, offset, numExecute, false, false⟩

/-- The round of the loop in `decode` for one index. -/
def decodeAt (numLoads numExecs numStores index : ℕ) : MicroOp :=
  let u :=
    if index < numLoads then makeLoad index
    else if index < numLoads + numExecs then makeExecute (index - numLoads) numLoads
    else makeStore (index - numLoads - numExecs) numExecs
  { u with first := decide (index = 0), last := decide (index + 1 = numLoads + numExecs + numStores) }

/-- `decode`. -/
def decode (numLoads numExecs numStores : ℕ) : List MicroOp :=
  (List.range (numLoads + numExecs + numStores)).map (decodeAt numLoads numExecs numStores)

end MicroOp

/-- `DynamicMicroOp` with its `MicroOp`, while an instruction is handled. -/
structure InstructionUop where
  uop : MicroOp
  dynamic : DynamicMicroOp
  squashedCount : ℕ
  first : Bool
  last : Bool

namespace InstructionUop

/-- `createDynamicMicroOp`. The rest comes from the core model and the instruction. -/
def create (core : MicroOp → DynamicMicroOp) (u : MicroOp) : InstructionUop where
  uop := u
  dynamic := { core u with
    isLoad := decide (u.uopType = .load)
    isStore := decide (u.uopType = .store)
    squashed := false
    microOpTypeOffset := u.microOpTypeOffset
    intraInstructionDependencies := u.intraInstructionDependencies
    dependencies := [] }
  squashedCount := 0
  first := u.first
  last := u.last

/-- The loop of `squash` over the micro-ops, which marks the first one that is not squashed. -/
def mark (set : InstructionUop → InstructionUop) : List InstructionUop → List InstructionUop
  | [] => []
  | u :: us => if u.dynamic.squashed then u :: mark set us else set u :: us

/-- `setFirst`. -/
def setFirst (u : InstructionUop) : InstructionUop := { u with first := true }

/-- `setLast`. -/
def setLast (u : InstructionUop) : InstructionUop := { u with last := true }

/-- `squash`. -/
def squash (us : List InstructionUop) (index : ℕ) : List InstructionUop :=
  let us := us.modify index fun u => { u with dynamic := { u.dynamic with squashed := true } }
  (mark setLast (mark setFirst us).reverse).reverse

/-! ### Squashing -/

/-- The local variables of the first loop of `doSquashing`. -/
structure Counting where
  uopType : Option UopType
  microOpTypeOffset : ℕ
  squashedCount : ℕ

/-- The first loop of `doSquashing`. -/
def count : Counting → List InstructionUop → List InstructionUop
  | _, [] => []
  | c, u :: us =>
    if u.dynamic.squashed then
      { u with squashedCount := c.squashedCount + 1 } :: count { c with squashedCount := c.squashedCount + 1 } us
    else
      let offset := if some u.uop.uopType = c.uopType then c.microOpTypeOffset else 0
      { u with dynamic := { u.dynamic with microOpTypeOffset := offset }, squashedCount := c.squashedCount } ::
        count ⟨some u.uop.uopType, offset + 1, c.squashedCount⟩ us

/-- `current_uops[index]->getSquashedCount()`. -/
def squashedCountAt (us : List InstructionUop) (index : ℕ) : ℕ := (us[index]?.map squashedCount).getD 0

/-- A round of the second loop of `doSquashing`, or nothing if its assertion fails. -/
def recount (us : List InstructionUop) (index : ℕ) (u : InstructionUop) : Option InstructionUop :=
  let intraDeps := u.dynamic.intraInstructionDependencies
  if u.dynamic.squashed ∨ intraDeps = 0 then some u
  else
    let base := index - u.uop.microOpTypeOffset
    if intraDeps ≤ base then
      some { u with dynamic := { u.dynamic with
        intraInstructionDependencies :=
          intraDeps - (squashedCountAt us base - squashedCountAt us (base - intraDeps)) } }
    else none

/-- The second loop of `doSquashing`. It reads the counts only, which it does not change. -/
def recountAll (us : List InstructionUop) (firstSquashed : ℕ) : List InstructionUop → ℕ → Option (List InstructionUop)
  | [], _ => some []
  | u :: rest, index => do
    let u ← if firstSquashed ≤ index then recount us index u else some u
    let rest ← recountAll us firstSquashed rest (index + 1)
    return u :: rest

/-- `doSquashing`. -/
def doSquashing (us : List InstructionUop) (firstSquashed : ℕ) : Option (List InstructionUop) :=
  let us := count ⟨none, 0, 0⟩ us
  recountAll us firstSquashed us 0

/-! ### Memory operands -/

/-- The micro-op accesses an address. -/
def setAddress (address : BitVec 64) (u : InstructionUop) : InstructionUop :=
  { u with dynamic := { u.dynamic with address := address } }

end InstructionUop

/-- `Operand`, with the address that the access of a memory operand has had. -/
inductive Operand
  | read (address : BitVec 64)
  | write (address : BitVec 64)
  | other

/-- The accesses in one direction that have been handled, with their cache lines. -/
structure Accesses where
  done : ℕ
  lines : List (BitVec 64)

/-- The local variables of the loop over the operands in `handleInstruction`. -/
structure Handling where
  uops : List InstructionUop
  reads : Accesses
  writes : Accesses
  doSquashing : Bool

namespace Handling

/-- `load_base_index` and `store_base_index`. -/
def baseIndex (us : List InstructionUop) (type : UopType) : Option ℕ :=
  us.findIdx? fun u => decide (u.uop.uopType = type)

/-- The cache line of an address. -/
def cacheLine (address : BitVec 64) : BitVec 64 := address &&& ~~~63#64

/-- An access by the next micro-op of its type, or nothing if an assertion fails: the micro-ops, the accesses, and whether
the micro-op has been squashed. -/
def access (type : UopType) (base : Option ℕ) (address : BitVec 64) (us : List InstructionUop) (a : Accesses) :
    Option (List InstructionUop × Accesses × Bool) :=
  match base with
  | none => none
  | some base =>
    match us[base + a.done]? with
    | none => none
    | some u =>
      if u.uop.uopType = type then
        let again := decide (cacheLine address ∈ a.lines)
        let us := if again then InstructionUop.squash us (base + a.done) else us
        some (us.modify (base + a.done) (InstructionUop.setAddress address),
          ⟨a.done + 1, a.lines ++ [cacheLine address]⟩, again)
      else none

/-- A round of the loop over the operands. -/
def operand (loadBase storeBase : Option ℕ) (h : Handling) : Operand → Option Handling
  | .read address => (access .load loadBase address h.uops h.reads).map fun (us, reads, again) =>
      { h with uops := us, reads := reads, doSquashing := h.doSquashing || again }
  | .write address => (access .store storeBase address h.uops h.writes).map fun (us, writes, again) =>
      { h with uops := us, writes := writes, doSquashing := h.doSquashing || again }
  | .other => some h

/-- The part of `handleInstruction` that squashes, or nothing if an assertion fails. -/
def handleInstruction (us : List InstructionUop) (operands : List Operand) : Option (List InstructionUop) := do
  let loadBase := baseIndex us .load
  let storeBase := baseIndex us .store
  let h ← operands.foldlM (operand loadBase storeBase) ⟨us, ⟨0, []⟩, ⟨0, []⟩, false⟩
  if h.doSquashing then InstructionUop.doSquashing h.uops 0 else return h.uops

end Handling

namespace InstructionUop

/-! ### Dropping and renumbering -/

/-- The micro-ops that enter a reorder buffer, with their sequence numbers. -/
def renumber (number : ℕ) : List InstructionUop → List DynamicMicroOp
  | [] => []
  | u :: us =>
    if u.dynamic.squashed then renumber number us
    else { u.dynamic with sequenceNumber := number } :: renumber (number + 1) us

/-- This is what `pushInstructions` puts into the buffer. -/
theorem foldl_pushInstruction (us : List InstructionUop) (t : RobThread) :
    ((us.map dynamic).foldl RobSmtTimer.pushInstruction t).rob =
      t.rob ++ (renumber t.nextSequenceNumber us).map RobEntry.init := by
  induction us generalizing t with
  | nil => simp [renumber]
  | cons u us ih =>
    rw [List.map_cons, List.foldl_cons, ih, RobSmtTimer.pushInstruction, renumber]
    split_ifs
    · rfl
    · rw [List.map_cons, List.append_assoc]
      rfl

/-- The micro-op is not squashed. -/
def survives (u : InstructionUop) : Bool := !u.dynamic.squashed

/-- The micro-op at a position is not squashed. -/
def Survives (us : List InstructionUop) (i : ℕ) : Prop := us[i]?.any survives = true

instance (us : List InstructionUop) : DecidablePred (Survives us) := fun _ => inferInstanceAs (Decidable (_ = true))

/-- The positions that a micro-op depends on within its instruction. -/
def range (u : InstructionUop) (i : ℕ) : List ℕ :=
  List.range' (i - u.dynamic.microOpTypeOffset - u.dynamic.intraInstructionDependencies)
    u.dynamic.intraInstructionDependencies

/-! ### The first and the last micro-op -/

/-- The first flag of a list is set, and no other one. -/
def OnlyFirstSet : List Bool → Prop
  | [] => True
  | b :: bs => b = true ∧ ∀ c ∈ bs, c = false

/-- Dropping elements and setting the first flag again. -/
theorem OnlyFirstSet.sublist {bs bs' : List Bool} (h : OnlyFirstSet bs) (hsub : bs'.Sublist bs) :
    OnlyFirstSet (bs'.modifyHead fun _ => true) := by
  cases bs' with
  | nil => exact trivial
  | cons b' bs' =>
    cases bs with
    | nil => cases hsub
    | cons b bs =>
      have htail : bs'.Sublist bs := hsub.tail
      exact ⟨rfl, fun c hc => h.2 c (htail.subset hc)⟩

/-- The number of flags that are set. -/
theorem OnlyFirstSet.countP {bs : List Bool} (h : OnlyFirstSet bs) (hne : bs ≠ []) : bs.countP id = 1 := by
  cases bs with
  | nil => exact absurd rfl hne
  | cons b bs =>
    rw [List.countP_cons, List.countP_eq_zero.2 fun c hc => by simp [h.2 c hc], h.1]
    rfl

/-- Marking leaves everything else as it is. -/
theorem map_mark {β : Type} {g : InstructionUop → β} {set : InstructionUop → InstructionUop}
    (hset : ∀ u, g (set u) = g u) (us : List InstructionUop) : (mark set us).map g = us.map g := by
  induction us with
  | nil => rfl
  | cons u us ih =>
    rw [mark]
    split_ifs
    · rw [List.map_cons, List.map_cons, ih]
    · rw [List.map_cons, List.map_cons, hset]

/-- Marking sets the flag of the first micro-op that survives. -/
theorem filter_mark (set : InstructionUop → InstructionUop) (hset : ∀ u, survives (set u) = survives u)
    (us : List InstructionUop) : (mark set us).filter survives = (us.filter survives).modifyHead set := by
  induction us with
  | nil => rfl
  | cons u us ih =>
    rw [mark]
    cases hu : u.dynamic.squashed with
    | true =>
      have hgone : survives u = false := by simp [survives, hu]
      rw [if_pos rfl, List.filter_cons_of_neg (by simp [hgone]), List.filter_cons_of_neg (by simp [hgone]), ih]
    | false =>
      have hstays : survives u = true := by simp [survives, hu]
      rw [if_neg (by simp), List.filter_cons_of_pos (by rw [hset, hstays]), List.filter_cons_of_pos hstays,
        List.modifyHead_cons]

/-- The micro-op is squashed. -/
def kill (u : InstructionUop) : InstructionUop := { u with dynamic := { u.dynamic with squashed := true } }

theorem squash_eq (us : List InstructionUop) (index : ℕ) :
    squash us index = (mark setLast (mark setFirst (us.modify index kill)).reverse).reverse := rfl

/-- Squashing leaves everything else as it is, but for the flags. -/
theorem map_squash {β : Type} {g : InstructionUop → β} (hfirst : ∀ u, g (setFirst u) = g u)
    (hlast : ∀ u, g (setLast u) = g u) (us : List InstructionUop) (index : ℕ) :
    (squash us index).map g = (us.modify index kill).map g := by
  rw [squash_eq, List.map_reverse, map_mark hlast, List.map_reverse, List.reverse_reverse, map_mark hfirst]

/-- Fewer micro-ops survive. -/
theorem filter_kill_sublist (us : List InstructionUop) (index : ℕ) :
    ((us.modify index kill).filter survives).Sublist (us.filter survives) := by
  induction us generalizing index with
  | nil => cases index <;> exact List.Sublist.refl _
  | cons u us ih =>
    cases index with
    | zero =>
      have hgone : survives (kill u) = false := rfl
      rw [List.modify_zero_cons, List.filter_cons_of_neg (by simp [hgone])]
      exact (List.sublist_cons_self u us).filter survives
    | succ index =>
      rw [List.modify_succ_cons, List.filter_cons, List.filter_cons]
      split_ifs
      · exact (ih index).cons_cons u
      · exact ih index

/-- The survivors, with their flags set again. -/
theorem filter_squash (us : List InstructionUop) (index : ℕ) :
    (squash us index).filter survives =
      ((((us.modify index kill).filter survives).modifyHead setFirst).reverse.modifyHead setLast).reverse := by
  rw [squash_eq, List.filter_reverse, filter_mark setLast fun _ => rfl, List.filter_reverse,
    filter_mark setFirst fun _ => rfl]

/-- The flags of the survivors. -/
structure Ends (us : List InstructionUop) : Prop where
  first : OnlyFirstSet ((us.filter survives).map InstructionUop.first)
  last : OnlyFirstSet ((us.filter survives).map InstructionUop.last).reverse

theorem map_modifyHead_of_eq {α β : Type} {g : α → β} {f : α → α} (hf : ∀ a, g (f a) = g a) (l : List α) :
    (l.modifyHead f).map g = l.map g := by
  cases l with
  | nil => rfl
  | cons a l => rw [List.modifyHead_cons, List.map_cons, List.map_cons, hf]

theorem map_modifyHead_of_const {α β : Type} {g : α → β} {f : α → α} {b : β} (hf : ∀ a, g (f a) = b) (l : List α) :
    (l.modifyHead f).map g = (l.map g).modifyHead fun _ => b := by
  cases l with
  | nil => rfl
  | cons a l => rw [List.modifyHead_cons, List.map_cons, List.map_cons, hf, List.modifyHead_cons]

/-- Squashing keeps the flags at the ends. -/
theorem Ends.squash {us : List InstructionUop} (h : Ends us) (index : ℕ) : Ends (squash us index) := by
  have hsub := filter_kill_sublist us index
  constructor
  · rw [filter_squash, List.map_reverse, map_modifyHead_of_eq (f := setLast) fun _ => rfl, List.map_reverse,
      List.reverse_reverse,
      map_modifyHead_of_const (f := setFirst) fun _ => rfl]
    exact h.first.sublist (hsub.map _)
  · rw [filter_squash, List.map_reverse, List.reverse_reverse, map_modifyHead_of_const (f := setLast) fun _ => rfl,
      List.map_reverse,
      map_modifyHead_of_eq (f := setFirst) fun _ => rfl]
    exact h.last.sublist (hsub.map _).reverse

/-- The flags are a matter of which micro-ops survive with which flags. -/
theorem Ends.congr {us us' : List InstructionUop} (h : Ends us)
    (hsame : us'.map (fun u => (survives u, u.first, u.last)) = us.map fun u => (survives u, u.first, u.last)) :
    Ends us' := by
  have hflags (us : List InstructionUop) (g : Bool × Bool × Bool → Bool) :
      (us.filter survives).map (fun u => g (survives u, u.first, u.last)) =
        ((us.map fun u => (survives u, u.first, u.last)).filter Prod.fst).map g := by
    rw [List.filter_map, List.map_map]
    rfl
  have hfirst := hflags us' fun x => x.2.1
  have hlast := hflags us' fun x => x.2.2
  rw [hsame, ← hflags us] at hfirst hlast
  constructor
  · exact hfirst ▸ h.first
  · exact hlast ▸ h.last

end InstructionUop

end LifeSim.Rob
