import LifeSim.Lib.Machine
import Mathlib.Data.List.Nodup
import Mathlib.Logic.Function.Basic
import Mathlib.Order.Nat

/-!
# The detection of spin loops

`spin_loop_detector.cc`: a table of the latest backward branches, and a buffer of the registers that have changed. An
entry of the buffer has one old value and a mask of the loops for which the register may have changed. A loop spins when
no entry of the buffer has its bit.

When a register gets back its old value, its entry is deleted for all loops. The old value is the one before the first
change, and another loop, or the same loop one iteration later, may have seen another one.
-/

namespace LifeSim.Spin

open LifeSim.Lib

/-- `reg_t`. -/
abbrev Reg := BitVec 16

/-- The value of a register, or an address. -/
abbrev Word := BitVec 64

/-- `SdtEntry`. -/
structure SdtEntry where
  eip : Word
  id : ℕ
  icount : ℕ
  tcount : ℕ
  deriving DecidableEq

/-- An element of `m_rub`: a register, its old value, and the mask of loops. -/
structure RubEntry where
  reg : Reg
  oldValue : Word
  mask : BitVec 16
  deriving DecidableEq

/-- `SpinLoopDetector`. -/
structure SpinLoopDetector where
  rub : List RubEntry
  sdt : List SdtEntry
  sdtBitmask : BitVec 16
  sdtNextid : ℕ
  deriving DecidableEq

/-- `SDT_MAX_SIZE`. -/
def sdtMaxSize : ℕ := 16

/-- The bit of a loop. -/
def bit (id : ℕ) : BitVec 16 := 1#16 <<< id

namespace SpinLoopDetector

/-- The constructor. -/
def new : SpinLoopDetector := ⟨[], [], 0, 0⟩

variable (d : SpinLoopDetector)

/-- `m_rub.find`. -/
def find (reg : Reg) : Option RubEntry := d.rub.find? fun x => decide (x.reg = reg)

/-- `m_rub.erase`. -/
def erase (reg : Reg) : List RubEntry := d.rub.filter fun x => decide (x.reg ≠ reg)

/-- `m_rub[reg].second |= m_sdt_bitmask`. -/
def mark (reg : Reg) : List RubEntry :=
  d.rub.map fun x => if x.reg = reg then { x with mask := x.mask ||| d.sdtBitmask } else x

/-- The bit of a loop is reset in all entries. -/
def clear (id : ℕ) : List RubEntry := d.rub.map fun x => { x with mask := x.mask &&& ~~~bit id }

/-- `m_sdt.push_back`, which keeps the latest entries. -/
def push (e : SdtEntry) : List SdtEntry :=
  let sdt := d.sdt ++ [e]
  if sdtMaxSize < sdt.length then sdt.tail else sdt

/-- `commitBCT`, with the instruction count and the elapsed time of the core, and what it tells the core when it has
detected a spin loop. -/
def commitBCT (eip : Word) (icount tcount : ℕ) : SpinLoopDetector × Option (ℕ × ℕ) :=
  let i := d.sdt.findIdx fun e => decide (e.eip = eip)
  match d.sdt[i]? with
  | none =>
    let sdt := d.push ⟨eip, d.sdtNextid, icount, tcount⟩
    ({ d with
        sdt := sdt
        sdtNextid := (d.sdtNextid + 1) % sdtMaxSize
        sdtBitmask := sdt.foldl (fun mask e => mask ||| bit e.id) 0 }, none)
  | some e =>
    let spinning := d.rub.all fun x => decide (x.mask &&& bit e.id = 0)
    ({ d with
        rub := d.clear e.id
        sdt := d.sdt.set i { e with icount := icount, tcount := tcount } },
      if spinning then some (icount - e.icount, tcount - e.tcount) else none)

/-- `commitNonSilentStore`. -/
def commitNonSilentStore : SpinLoopDetector := { d with rub := [], sdt := [] }

/-- `commitRegisterWrite`. -/
def commitRegisterWrite (reg : Reg) (oldValue value : Word) : SpinLoopDetector :=
  match d.find reg with
  | none => if value ≠ oldValue then { d with rub := ⟨reg, oldValue, d.sdtBitmask⟩ :: d.rub } else d
  | some x =>
    if value = x.oldValue then { d with rub := d.erase reg }
    else if value ≠ oldValue then { d with rub := d.mark reg }
    else d

end SpinLoopDetector

/-- The state of the registers when a loop was committed, and whether there has been a store since. -/
structure Visit where
  registers : Reg → Word
  stored : Bool

/-- A thread: its detector, its registers, and the last visit of each loop. -/
structure SpinThread where
  detector : SpinLoopDetector
  registers : Reg → Word
  visits : Word → Option Visit

/-- What the thread commits. -/
inductive Commit
  | bct (eip : Word) (icount tcount : ℕ)
  | nonSilentStore
  | registerWrite (reg : Reg) (value : Word)

namespace SpinThread

/-- A thread that has not committed anything. -/
def new (registers : Reg → Word) : SpinThread := ⟨.new, registers, fun _ => none⟩

/-- One commit. The old value of a register is its true one. -/
def commit (s : SpinThread) : Commit → SpinThread
  | .bct eip icount tcount =>
    { s with
      detector := (s.detector.commitBCT eip icount tcount).1
      visits := Function.update s.visits eip (some ⟨s.registers, false⟩) }
  | .nonSilentStore =>
    { s with
      detector := s.detector.commitNonSilentStore
      visits := fun eip => (s.visits eip).map fun v => { v with stored := true } }
  | .registerWrite reg value =>
    { s with
      detector := s.detector.commitRegisterWrite reg (s.registers reg) value
      registers := Function.update s.registers reg value }

/-- Since the last visit of the loop there has been no store, and the registers have the values of then. -/
def Unchanged (s : SpinThread) (eip : Word) : Prop :=
  ∃ v, s.visits eip = some v ∧ v.stored = false ∧ ∀ r, s.registers r = v.registers r

/-- If a commit reports a spin, the thread has not changed since the last visit of the loop. -/
def ReportsSpin (s : SpinThread) : Commit → Prop
  | .bct eip icount tcount => (s.detector.commitBCT eip icount tcount).2.isSome = true → s.Unchanged eip
  | _ => True

/-- If a commit gives a register back the old value in the buffer, this is the value that each loop in the table has seen
at its last visit. -/
def RestoresAll (s : SpinThread) : Commit → Prop
  | .registerWrite reg value =>
    ∀ x ∈ s.detector.find reg, value = x.oldValue →
      ∀ e ∈ s.detector.sdt, ∀ v ∈ s.visits e.eip, v.registers reg = value
  | _ => True

instance (s : SpinThread) (c : Commit) : Decidable (s.RestoresAll c) :=
  match c with
  | .bct _ _ _ => .isTrue trivial
  | .nonSilentStore => .isTrue trivial
  | .registerWrite reg value => inferInstanceAs (Decidable (∀ x ∈ s.detector.find reg, value = x.oldValue →
      ∀ e ∈ s.detector.sdt, ∀ v ∈ s.visits e.eip, v.registers reg = value))

end SpinThread

/-! ### Masks -/

/-- The test of a bit. -/
theorem and_bit_eq_zero {id : ℕ} (hid : id < 16) (mask : BitVec 16) : mask &&& bit id = 0 ↔ mask.getLsbD id = false := by
  rw [bit, ← BitVec.twoPow_eq, BitVec.and_twoPow]
  cases hbit : mask.getLsbD id with
  | false => simp
  | true =>
    refine iff_of_false (fun hzero => ?_) Bool.noConfusion
    have hset := congrArg (fun m : BitVec 16 => m.getLsbD id) hzero
    simp [hid] at hset

/-- A bit is cleared. -/
theorem getLsbD_clear {id j : ℕ} (hj : j < 16) (mask : BitVec 16) :
    (mask &&& ~~~bit id).getLsbD j = (mask.getLsbD j && decide (j ≠ id)) := by
  rw [bit, ← BitVec.twoPow_eq]
  by_cases hsame : id = j
  · simp [hsame, hj]
  · simp [hj, Ne.symm hsame]

/-- The mask of all loops in the table. -/
theorem getLsbD_bitmask {sdt : List SdtEntry} (mask : BitVec 16) {j : ℕ} (hj : j < 16)
    (h : mask.getLsbD j = true ∨ ∃ e ∈ sdt, e.id = j) :
    (sdt.foldl (fun mask e => mask ||| bit e.id) mask).getLsbD j = true := by
  induction sdt generalizing mask with
  | nil => exact h.resolve_right fun ⟨e, he, _⟩ => List.not_mem_nil he
  | cons e sdt ih =>
    refine ih _ ?_
    rw [BitVec.getLsbD_or, bit, ← BitVec.twoPow_eq, BitVec.getLsbD_twoPow]
    rcases h with hmask | ⟨e', he', rfl⟩
    · simp [hmask]
    · rcases List.mem_cons.1 he' with rfl | he'
      · simp [hj]
      · exact .inr ⟨e', he', rfl⟩

/-- What is found in the buffer. -/
theorem SpinLoopDetector.find_some {d : SpinLoopDetector} {reg : Reg} {x : RubEntry} (h : d.find reg = some x) :
    x ∈ d.rub ∧ x.reg = reg := by
  rw [find] at h
  have hreg := List.find?_some h
  exact ⟨List.mem_of_find?_eq_some h, of_decide_eq_true hreg⟩

theorem SpinLoopDetector.find_erase (d : SpinLoopDetector) (reg r : Reg) :
    ((d.erase reg).find? fun x => decide (x.reg = r)) = if r = reg then none else d.find r := by
  rw [erase, List.find?_filter, find]
  split_ifs with hr
  · rw [List.find?_eq_none]
    intro x _
    simp [hr]
  · refine congrArg (fun p => List.find? p d.rub) ?_
    funext x
    by_cases hx : x.reg = r <;> simp [hx, hr]

theorem SpinLoopDetector.find_clear (d : SpinLoopDetector) (id : ℕ) (r : Reg) :
    ((d.clear id).find? fun x => decide (x.reg = r)) =
      (d.find r).map fun x => { x with mask := x.mask &&& ~~~bit id } := by
  rw [clear, List.find?_map, find]
  rfl

theorem SpinLoopDetector.find_mark (d : SpinLoopDetector) (reg r : Reg) :
    ((d.mark reg).find? fun x => decide (x.reg = r)) =
      (d.find r).map fun x => if r = reg then { x with mask := x.mask ||| d.sdtBitmask } else x := by
  have hreg : (fun x : RubEntry => decide (x.reg = r)) ∘ (fun x : RubEntry =>
      if x.reg = reg then { x with mask := x.mask ||| d.sdtBitmask } else x) = fun x => decide (x.reg = r) := by
    funext x
    by_cases hx : x.reg = reg <;> simp [hx]
  rw [mark, List.find?_map, hreg, find]
  cases hfind : d.rub.find? fun x => decide (x.reg = r) with
  | none => rfl
  | some x =>
    obtain ⟨-, rfl⟩ := find_some hfind
    rfl

/-! ### The invariant -/

/-- The loops in the table have had the latest ids, in turn. -/
structure SdtIds (d : SpinLoopDetector) : Prop where
  nextid : d.sdtNextid < 16
  size : d.sdt.length ≤ 16
  ids : ∀ (k : ℕ) (e : SdtEntry), d.sdt[k]? = some e → e.id = (d.sdtNextid + 16 - d.sdt.length + k) % 16

theorem SdtIds.lt {d : SpinLoopDetector} (h : SdtIds d) {e : SdtEntry} (he : e ∈ d.sdt) : e.id < 16 := by
  obtain ⟨k, hk⟩ := List.getElem?_of_mem he
  rw [h.ids k e hk]
  exact Nat.mod_lt _ (by decide)

/-- No two loops in the table share an id. -/
theorem SdtIds.inj {d : SpinLoopDetector} (h : SdtIds d) {e f : SdtEntry} (he : e ∈ d.sdt) (hf : f ∈ d.sdt)
    (hid : e.id = f.id) : e = f := by
  obtain ⟨k, hk⟩ := List.getElem?_of_mem he
  obtain ⟨j, hj⟩ := List.getElem?_of_mem hf
  obtain ⟨hklt, -⟩ := List.getElem?_eq_some_iff.1 hk
  obtain ⟨hjlt, -⟩ := List.getElem?_eq_some_iff.1 hj
  rw [h.ids k e hk, h.ids j f hj] at hid
  have hsize := h.size
  obtain rfl : k = j := by omega
  exact Option.some.inj (hk.symm.trans hj)

/-- A new loop takes the next id, and the oldest loop leaves a full table. -/
theorem SdtIds.push {d : SpinLoopDetector} (h : SdtIds d) (e : SdtEntry) (he : e.id = d.sdtNextid) (rub : List RubEntry)
    (mask : BitVec 16) :
    SdtIds ⟨rub, d.push e, mask, (d.sdtNextid + 1) % sdtMaxSize⟩ := by
  rw [SpinLoopDetector.push]
  obtain ⟨hnext, hsize, hids⟩ := h
  have happend (k : ℕ) (f : SdtEntry) (hk : (d.sdt ++ [e])[k]? = some f) :
      f.id = (d.sdtNextid + 16 - d.sdt.length + k) % 16 := by
    rw [List.getElem?_append] at hk
    split_ifs at hk with hlt
    · exact hids k f hk
    · obtain ⟨hsmall, hget⟩ := List.getElem?_eq_some_iff.1 hk
      rw [List.length_singleton] at hsmall
      obtain rfl : f = e := by
        rw [← hget, List.getElem_singleton]
      omega
  have hlength : (d.sdt ++ [e]).length = d.sdt.length + 1 := List.length_append
  have hmax : sdtMaxSize = 16 := rfl
  by_cases hfull : sdtMaxSize < (d.sdt ++ [e]).length
  · rw [if_pos hfull]
    have htail : (d.sdt ++ [e]).tail.length = d.sdt.length := by rw [List.length_tail, hlength, Nat.add_sub_cancel]
    refine ⟨Nat.mod_lt _ (by decide), htail.trans_le hsize, fun k f hk => ?_⟩
    rw [List.getElem?_tail] at hk
    rw [happend (k + 1) f hk, htail, hmax]
    dsimp only
    omega
  · rw [if_neg hfull]
    refine ⟨Nat.mod_lt _ (by decide), not_lt.1 hfull, fun k f hk => ?_⟩
    rw [happend k f hk, hlength, hmax]
    dsimp only
    rw [hlength, hmax] at hfull
    omega

theorem SpinLoopDetector.mem_push {d : SpinLoopDetector} {e f : SdtEntry} (h : f ∈ d.push e) : f ∈ d.sdt ∨ f = e := by
  have happend : f ∈ d.sdt ++ [e] := by
    rw [push] at h
    split_ifs at h
    · exact List.mem_of_mem_tail h
    · exact h
  exact (List.mem_append.1 happend).imp_right List.mem_singleton.1

/-- What the detector knows of a thread. -/
structure SpinInv (s : SpinThread) : Prop extends SdtIds s.detector where
  bitmask : ∀ e ∈ s.detector.sdt, s.detector.sdtBitmask.getLsbD e.id = true
  visited : ∀ e ∈ s.detector.sdt, ∃ v, s.visits e.eip = some v ∧ v.stored = false
  /-- A register that has changed since the last visit of a loop is in the buffer with the bit of the loop. -/
  changed : ∀ e ∈ s.detector.sdt, ∀ v, s.visits e.eip = some v → ∀ r, s.registers r ≠ v.registers r →
    ∃ x, s.detector.find r = some x ∧ x.mask.getLsbD e.id = true
  differs : ∀ r x, s.detector.find r = some x → s.registers r ≠ x.oldValue

theorem spinInv_new (registers : Reg → Word) : SpinInv (.new registers) where
  nextid := Nat.zero_lt_succ 15
  size := Nat.zero_le _
  ids k e hk := by cases hk
  bitmask e he := absurd he List.not_mem_nil
  visited e he := absurd he List.not_mem_nil
  changed e he := absurd he List.not_mem_nil
  differs r x hx := by cases hx

/-! ### Commits -/

namespace SpinInv

variable {s : SpinThread}

/-- After a store there are no candidates. -/
theorem nonSilentStore (h : SpinInv s) : SpinInv (s.commit .nonSilentStore) where
  nextid := h.nextid
  size := Nat.zero_le _
  ids k e hk := by cases hk
  bitmask e he := absurd he List.not_mem_nil
  visited e he := absurd he List.not_mem_nil
  changed e he := absurd he List.not_mem_nil
  differs r x hx := by cases hx

/-- The table, the mask and the visits are as before, and the buffer is right for the register that is written. -/
theorem write (h : SpinInv s) {reg : Reg} {value : Word} (rub : List RubEntry)
    (hd : s.detector.commitRegisterWrite reg (s.registers reg) value = { s.detector with rub := rub })
    (hother : ∀ r ≠ reg, (rub.find? fun x => decide (x.reg = r)) = s.detector.find r)
    (hsame : ∀ x, (rub.find? fun x => decide (x.reg = reg)) = some x → value ≠ x.oldValue)
    (hbits : ∀ e ∈ s.detector.sdt, ∀ v, s.visits e.eip = some v → value ≠ v.registers reg →
      ∃ x, (rub.find? fun x => decide (x.reg = reg)) = some x ∧ x.mask.getLsbD e.id = true) :
    SpinInv (s.commit (.registerWrite reg value)) := by
  rw [SpinThread.commit, hd]
  refine ⟨⟨h.nextid, h.size, h.ids⟩, h.bitmask, h.visited, fun e he v hv r hr => ?_, fun r x hx => ?_⟩
  · change Function.update s.registers reg value r ≠ v.registers r at hr
    rcases eq_or_ne r reg with rfl | hreg
    · rw [Function.update_self] at hr
      exact hbits e he v hv hr
    · rw [Function.update_of_ne hreg] at hr
      obtain ⟨x, hx, hbit⟩ := h.changed e he v hv r hr
      exact ⟨x, (hother r hreg).trans hx, hbit⟩
  · change Function.update s.registers reg value r ≠ x.oldValue
    rcases eq_or_ne r reg with rfl | hreg
    · rw [Function.update_self]
      exact hsame x hx
    · rw [Function.update_of_ne hreg]
      exact h.differs r x ((hother r hreg).symm.trans hx)

/-- A register that is not in the buffer is written. -/
theorem write_new (h : SpinInv s) {reg : Reg} {value : Word} (hfind : s.detector.find reg = none) :
    SpinInv (s.commit (.registerWrite reg value)) := by
  by_cases hsilent : value = s.registers reg
  · refine h.write s.detector.rub ?_ (fun r _ => rfl) (fun x hx => hsilent ▸ h.differs reg x hx) fun e he v hv hne => ?_
    · rw [SpinLoopDetector.commitRegisterWrite, hfind]
      exact if_neg (not_not.2 hsilent)
    · exact h.changed e he v hv reg (hsilent ▸ hne)
  · refine h.write (⟨reg, s.registers reg, s.detector.sdtBitmask⟩ :: s.detector.rub) ?_ (fun r hr => ?_) (fun x hx => ?_)
      fun e he v hv _ => ?_
    · rw [SpinLoopDetector.commitRegisterWrite, hfind]
      exact if_pos hsilent
    · exact List.find?_cons_of_neg (by simpa using hr.symm)
    · rw [List.find?_cons_of_pos (by simp)] at hx
      exact Option.some.inj hx ▸ hsilent
    · exact ⟨_, List.find?_cons_of_pos (by simp), h.bitmask e he⟩

/-- A register in the buffer is given another value than the one there. -/
theorem write_again (h : SpinInv s) {reg : Reg} {value : Word} {x : RubEntry} (hfind : s.detector.find reg = some x)
    (hold : value ≠ x.oldValue) : SpinInv (s.commit (.registerWrite reg value)) := by
  by_cases hsilent : value = s.registers reg
  · refine h.write s.detector.rub ?_ (fun r _ => rfl) (fun y hy => hsilent ▸ h.differs reg y hy) fun e he v hv hne => ?_
    · rw [SpinLoopDetector.commitRegisterWrite, hfind]
      dsimp only
      rw [if_neg hold, if_neg (not_not.2 hsilent)]
    · exact h.changed e he v hv reg (hsilent ▸ hne)
  · refine h.write (s.detector.mark reg) ?_ (fun r hr => ?_) (fun y hy => ?_) fun e he v hv _ => ?_
    · rw [SpinLoopDetector.commitRegisterWrite, hfind]
      dsimp only
      rw [if_neg hold, if_pos hsilent]
    · simp only [SpinLoopDetector.find_mark, if_neg hr, Option.map_id']
    · rw [SpinLoopDetector.find_mark, hfind, Option.map_some, if_pos rfl] at hy
      exact Option.some.inj hy ▸ hold
    · rw [SpinLoopDetector.find_mark, hfind, Option.map_some, if_pos rfl]
      refine ⟨_, rfl, ?_⟩
      rw [BitVec.getLsbD_or, h.bitmask e he, Bool.or_true]

/-- A register in the buffer gets back its old value, which all loops have seen. -/
theorem write_restore (h : SpinInv s) {reg : Reg} {value : Word} {x : RubEntry} (hfind : s.detector.find reg = some x)
    (hold : value = x.oldValue) (hrestores : s.RestoresAll (.registerWrite reg value)) :
    SpinInv (s.commit (.registerWrite reg value)) := by
  refine h.write (s.detector.erase reg) ?_ (fun r hr => ?_) (fun y hy => ?_) fun e he v hv hne => ?_
  · rw [SpinLoopDetector.commitRegisterWrite, hfind]
    exact if_pos hold
  · rw [SpinLoopDetector.find_erase, if_neg hr]
  · rw [SpinLoopDetector.find_erase, if_pos rfl] at hy
    cases hy
  · exact absurd (hrestores x hfind hold e he v hv).symm hne

theorem registerWrite (h : SpinInv s) {reg : Reg} {value : Word} (hrestores : s.RestoresAll (.registerWrite reg value)) :
    SpinInv (s.commit (.registerWrite reg value)) := by
  cases hfind : s.detector.find reg with
  | none => exact h.write_new hfind
  | some x =>
    by_cases hold : value = x.oldValue
    · exact h.write_restore hfind hold hrestores
    · exact h.write_again hfind hold

/-- A branch that is not in the table. -/
theorem bct_new (h : SpinInv s) {eip : Word} (icount tcount : ℕ) (hnew : ∀ e ∈ s.detector.sdt, e.eip ≠ eip)
    (hfind : s.detector.sdt[s.detector.sdt.findIdx fun e => decide (e.eip = eip)]? = none) :
    SpinInv (s.commit (.bct eip icount tcount)) ∧ s.ReportsSpin (.bct eip icount tcount) := by
  have hids := fun rub mask => h.toSdtIds.push ⟨eip, s.detector.sdtNextid, icount, tcount⟩ rfl rub mask
  rw [SpinThread.commit, SpinThread.ReportsSpin, SpinLoopDetector.commitBCT]
  simp only [hfind]
  refine ⟨?_, fun hreport => by cases hreport⟩
  refine ⟨hids _ _, fun e he => ?_, fun e he => ?_, fun e he v hv r hr => ?_, h.differs⟩
  · exact getLsbD_bitmask 0 ((hids s.detector.rub 0).lt he) (.inr ⟨e, he, rfl⟩)
  · change ∃ v, Function.update s.visits eip (some ⟨s.registers, false⟩) e.eip = some v ∧ v.stored = false
    rcases SpinLoopDetector.mem_push he with hold | rfl
    · rw [Function.update_of_ne (hnew e hold)]
      exact h.visited e hold
    · exact ⟨_, Function.update_self _ _ _, rfl⟩
  · change Function.update s.visits eip (some ⟨s.registers, false⟩) e.eip = some v at hv
    rcases SpinLoopDetector.mem_push he with hold | rfl
    · rw [Function.update_of_ne (hnew e hold)] at hv
      exact h.changed e hold v hv r hr
    · rw [Function.update_self] at hv
      exact absurd (Option.some.inj hv ▸ rfl) hr

/-- A branch in the table: the bit of its loop is cleared, and it spins if no register has the bit. -/
theorem bct_found (h : SpinInv s) {eip : Word} (icount tcount : ℕ) {e : SdtEntry} (he : e ∈ s.detector.sdt)
    (heip : e.eip = eip)
    (hfind : s.detector.sdt[s.detector.sdt.findIdx fun e => decide (e.eip = eip)]? = some e) :
    SpinInv (s.commit (.bct eip icount tcount)) ∧ s.ReportsSpin (.bct eip icount tcount) := by
  rw [SpinThread.commit, SpinThread.ReportsSpin, SpinLoopDetector.commitBCT]
  simp only [hfind]
  obtain ⟨v, hv, hstored⟩ := h.visited e he
  -- an entry of the table afterwards is that of the loop, or has been there before
  have hmem (f : SdtEntry) (hf : f ∈ s.detector.sdt.set (s.detector.sdt.findIdx fun e => decide (e.eip = eip))
      { e with icount := icount, tcount := tcount }) :
      f.eip = eip ∧ (∃ g ∈ s.detector.sdt, g.id = f.id) ∨ f ∈ s.detector.sdt := by
    rcases List.mem_or_eq_of_mem_set hf with hf | rfl
    · exact .inr hf
    · exact .inl ⟨heip, e, he, rfl⟩
  refine ⟨⟨⟨h.nextid, ?_, fun k f hk => ?_⟩, fun f hf => ?_, fun f hf => ?_, fun f hf u hu r hr => ?_, fun r x hx => ?_⟩,
    fun hreport => ?_⟩
  · exact List.length_set.trans_le h.size
  · dsimp only at hk ⊢
    rw [List.length_set]
    rw [List.getElem?_set] at hk
    split_ifs at hk with hi
    · subst hi
      obtain rfl := Option.some.inj hk
      exact h.ids _ e hfind
    · exact h.ids k f hk
  · rcases hmem f hf with ⟨-, g, hg, hid⟩ | hf
    · exact hid ▸ h.bitmask g hg
    · exact h.bitmask f hf
  · change ∃ v, Function.update s.visits eip (some ⟨s.registers, false⟩) f.eip = some v ∧ v.stored = false
    by_cases hsame : f.eip = eip
    · rw [hsame]
      exact ⟨_, Function.update_self _ _ _, rfl⟩
    · rw [Function.update_of_ne hsame]
      exact h.visited f ((hmem f hf).resolve_left fun hloop => hsame hloop.1)
  · change Function.update s.visits eip (some ⟨s.registers, false⟩) f.eip = some u at hu
    by_cases hsame : f.eip = eip
    · rw [hsame, Function.update_self] at hu
      exact absurd (Option.some.inj hu ▸ rfl) hr
    · rw [Function.update_of_ne hsame] at hu
      have hf := (hmem f hf).resolve_left fun hloop => hsame hloop.1
      obtain ⟨x, hx, hbit⟩ := h.changed f hf u hu r hr
      have hid : f.id ≠ e.id := fun hid => hsame (h.inj hf he hid ▸ heip)
      refine ⟨_, (s.detector.find_clear e.id r).trans (congrArg _ hx), ?_⟩
      rw [getLsbD_clear (h.lt hf), hbit, decide_eq_true hid, Bool.true_and]
  · have hclear := (s.detector.find_clear e.id r).symm.trans hx
    obtain ⟨y, hy, rfl⟩ := Option.map_eq_some_iff.1 hclear
    exact h.differs r y hy
  · refine ⟨v, heip ▸ hv, hstored, fun r => by_contra fun hr => ?_⟩
    obtain ⟨x, hx, hbit⟩ := h.changed e he v hv r hr
    split_ifs at hreport with hspinning
    · have hzero := of_decide_eq_true (List.all_eq_true.1 hspinning x (SpinLoopDetector.find_some hx).1)
      rw [and_bit_eq_zero (h.lt he), hbit] at hzero
      cases hzero
    · cases hreport

theorem bct (h : SpinInv s) (eip : Word) (icount tcount : ℕ) :
    SpinInv (s.commit (.bct eip icount tcount)) ∧ s.ReportsSpin (.bct eip icount tcount) := by
  cases hfind : s.detector.sdt[s.detector.sdt.findIdx fun e => decide (e.eip = eip)]? with
  | none =>
    refine h.bct_new icount tcount (fun e he heip => ?_) hfind
    have hlt : (s.detector.sdt.findIdx fun e => decide (e.eip = eip)) < s.detector.sdt.length :=
      List.findIdx_lt_length_of_exists ⟨e, he, by simpa using heip⟩
    exact absurd (List.getElem?_eq_none_iff.1 hfind) (not_le.2 hlt)
  | some e =>
    obtain ⟨hlt, hget⟩ := List.getElem?_eq_some_iff.1 hfind
    have heip := List.findIdx_getElem (w := hlt)
    rw [hget] at heip
    exact h.bct_found icount tcount (List.mem_of_getElem? hfind) (of_decide_eq_true heip) hfind

theorem commit (h : SpinInv s) (x : Commit) (hrestores : s.RestoresAll x) :
    SpinInv (s.commit x) ∧ s.ReportsSpin x := by
  cases x with
  | bct eip icount tcount => exact h.bct eip icount tcount
  | nonSilentStore => exact ⟨h.nonSilentStore, trivial⟩
  | registerWrite reg value => exact ⟨h.registerWrite hrestores, trivial⟩

end SpinInv

/-- In a run in which a register gets back an old value only together with the values that all loops in the table have
seen, a spin is reported only for a loop since whose last visit there has been no store and no change of a register. -/
theorem spin_sound (registers : Reg → Word) (commits : List Commit)
    (h : (Machine.always SpinThread.commit).Guarded SpinThread.RestoresAll (.new registers) commits) :
    (Machine.always SpinThread.commit).Guarded SpinThread.ReportsSpin (.new registers) commits := by
  have hinv := spinInv_new registers
  generalize SpinThread.new registers = s at h hinv
  induction commits generalizing s with
  | nil => trivial
  | cons x commits ih =>
    obtain ⟨hinv', hreport⟩ := hinv.commit x h.1
    refine ⟨hreport, fun t ht => ih t (h.2 t ht) ?_⟩
    obtain rfl := Except.ok.inj ht
    exact hinv'

/-- A register changes and changes back within an iteration. -/
def changesBack : List Commit :=
  [.bct 8 10 100, .registerWrite 0 1, .registerWrite 0 0, .bct 8 20 200]

/-- The second iteration of this loop is reported, and nothing has changed. -/
theorem spin_sound_changesBack :
    (((changesBack.take 3).foldl SpinThread.commit (.new fun _ => 0)).detector.commitBCT 8 20 200).2 = some (10, 100) ∧
      (Machine.always SpinThread.commit).Guarded SpinThread.ReportsSpin (.new fun _ => 0) changesBack := by
  have hrestores : (Machine.always SpinThread.commit).Guarded (fun s c => decide (s.RestoresAll c) = true)
      (.new fun _ => 0) changesBack := .of_follows (by decide)
  simp only [decide_eq_true_iff] at hrestores
  exact ⟨by decide, spin_sound _ _ hrestores⟩

/-- A register that has one value at the first visit and another one at the second. -/
def toggles : List Commit := [.bct 8 10 100, .registerWrite 0 1, .bct 8 20 200, .registerWrite 0 0]

/-- At the third visit it has the first value again, and a spin is reported. -/
theorem spin_toggles : ¬ ∀ (registers : Reg → Word) (commits : List Commit),
    (Machine.always SpinThread.commit).Guarded SpinThread.ReportsSpin (.new registers) commits := by
  intro h
  have hlast : (toggles.foldl SpinThread.commit (.new fun _ => 0)).ReportsSpin (.bct 8 30 300) :=
    (h (fun _ => 0) (toggles ++ [.bct 8 30 300])).at_event (Machine.always_run _ _ _)
  obtain ⟨v, hv, -, hsame⟩ := hlast (by decide)
  obtain rfl := Option.some.inj hv
  exact absurd (hsame 0) (by decide)

end LifeSim.Spin
