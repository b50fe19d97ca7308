import Mathlib

/-!
# Splitting a memory access into lines

`Core::initiateMemoryAccess` accesses the cache one line at a time. The first line starts at an offset, the last one
ends where the access ends, and a last piece without a byte is skipped.
-/

namespace LifeSim.Core

variable {σ : Type*}

/-- One call of `coreInitiateMemoryAccess`. -/
structure Request where
  line : ℕ
  offset : ℕ
  size : ℕ
  buffer : Option ℕ

/-- The addresses of the bytes that are requested. -/
def Request.bytes (r : Request) : List ℕ := List.range' (r.line + r.offset) r.size

/-- `HitWhere::UNKNOWN`. -/
def hitUnknown : ℕ := 21

/-- The arguments of a call, the size of a line, and the answers of the memory manager. -/
structure MemoryAccess (σ : Type*) where
  memComponent : ℕ
  address : BitVec 64
  dataBuf : Option ℕ
  dataSize : BitVec 32
  cacheBlockSize : BitVec 32
  /-- `coreInitiateMemoryAccess`, with where it hit. -/
  respond : σ → Request → σ × ℕ

/-- What the loop changes. -/
structure SplitState (σ : Type*) where
  memory : σ
  currAddrAligned : ℕ
  currDataBufferHead : ℕ
  hitWhere : ℕ
  requests : List Request

/-- Subtraction of `UInt32`. -/
def sub32 (a b : ℕ) : ℕ := (a + 2 ^ 32 - b) % 2 ^ 32

namespace MemoryAccess

variable (m : MemoryAccess σ)

def beginAddr : ℕ := m.address.toNat

def endAddr : ℕ := (m.address.toNat + m.dataSize.toNat) % 2 ^ 64

def beginAddrAligned : ℕ := m.beginAddr - m.beginAddr % m.cacheBlockSize.toNat

def endAddrAligned : ℕ := m.endAddr - m.endAddr % m.cacheBlockSize.toNat

def currOffset (curr : ℕ) : ℕ := if curr = m.beginAddrAligned then m.beginAddr % m.cacheBlockSize.toNat else 0

def currSize (curr : ℕ) : ℕ :=
  if curr = m.endAddrAligned then sub32 (m.endAddr % m.cacheBlockSize.toNat) (m.currOffset curr)
  else sub32 m.cacheBlockSize.toNat (m.currOffset curr)

/-- The request of a round. -/
def request (s : SplitState σ) : Request where
  line := s.currAddrAligned
  offset := m.currOffset s.currAddrAligned
  size := m.currSize s.currAddrAligned
  buffer := m.dataBuf.map fun _ => s.currDataBufferHead

/-- One round of the loop. -/
def round (s : SplitState σ) : SplitState σ :=
  let next := (s.currAddrAligned + m.cacheBlockSize.toNat) % 2 ^ 64
  if s.currAddrAligned = m.endAddrAligned ∧ m.currSize s.currAddrAligned = 0 then { s with currAddrAligned := next }
  else
    let answer := m.respond s.memory (m.request s)
    { memory := answer.1
      currAddrAligned := next
      currDataBufferHead := s.currDataBufferHead + m.currSize s.currAddrAligned
      hitWhere :=
        if s.hitWhere = hitUnknown ∨ answer.2 ≠ hitUnknown ∧ s.hitWhere < answer.2 then answer.2 else s.hitWhere
      requests := s.requests ++ [m.request s] }

/-- The loop, for at most a number of rounds. -/
def lines : ℕ → SplitState σ → Option (SplitState σ)
  | 0, _ => none
  | fuel + 1, s => if s.currAddrAligned ≤ m.endAddrAligned then lines fuel (m.round s) else some s

/-- The state before the loop. -/
def start (memory : σ) : SplitState σ where
  memory := memory
  currAddrAligned := m.beginAddrAligned
  currDataBufferHead := m.dataBuf.getD 0
  hitWhere := hitUnknown
  requests := []

/-- `Core::initiateMemoryAccess`: where it hit, and the memory and the requests. -/
def initiateMemoryAccess (fuel : ℕ) (memory : σ) : Option (ℕ × σ × List Request) :=
  if m.dataSize.toNat = 0 then some (m.memComponent, memory, [])
  else (m.lines fuel (m.start memory)).map fun s => (s.hitWhere, s.memory, s.requests)

/-- Every request lies inside one line, the lines increase, the bytes are those of the access up to an address, and each
request has the part of the buffer after the bytes before it. -/
structure SplitsUpTo (finish : ℕ) (requests : List Request) : Prop where
  inside : ∀ r ∈ requests, m.cacheBlockSize.toNat ∣ r.line ∧ 0 < r.size ∧ r.offset + r.size ≤ m.cacheBlockSize.toNat
  increasing : requests.Pairwise fun r q => r.line < q.line
  bytes : requests.flatMap Request.bytes = List.range' m.address.toNat (finish - m.address.toNat)
  buffers : ∀ before r after, requests = before ++ r :: after →
    r.buffer = m.dataBuf.map fun buf => buf + (before.map Request.size).sum

/-- The requests split the access. -/
def Splits (requests : List Request) : Prop := m.SplitsUpTo (m.address.toNat + m.dataSize.toNat) requests

/-! ### One more request -/

variable {m}

/-- The bytes of the requests are as many as the access has up to the address. -/
theorem SplitsUpTo.sum_size {finish : ℕ} {requests : List Request} (h : m.SplitsUpTo finish requests) :
    (requests.map Request.size).sum = finish - m.address.toNat := by
  have hlength := congrArg List.length h.bytes
  rw [List.length_flatMap, List.length_range'] at hlength
  simpa [Request.bytes] using hlength

/-- A request for the next bytes. -/
theorem SplitsUpTo.append {finish : ℕ} {requests : List Request} {r : Request} (h : m.SplitsUpTo finish requests)
    (hstart : m.address.toNat ≤ finish) (hline : m.cacheBlockSize.toNat ∣ r.line) (hsize : 0 < r.size)
    (hinside : r.offset + r.size ≤ m.cacheBlockSize.toNat) (hnext : r.line + r.offset = finish)
    (habove : ∀ q ∈ requests, q.line < r.line)
    (hbuffer : r.buffer = m.dataBuf.map fun buf => buf + (finish - m.address.toNat)) :
    m.SplitsUpTo (finish + r.size) (requests ++ [r]) where
  inside q hq := by
    rcases List.mem_append.1 hq with hq | hq
    · exact h.inside q hq
    · rw [List.mem_singleton] at hq
      subst hq
      exact ⟨hline, hsize, hinside⟩
  increasing := by
    rw [List.pairwise_append]
    refine ⟨h.increasing, List.pairwise_singleton .., fun q hq r' hr' => ?_⟩
    rw [List.mem_singleton] at hr'
    rw [hr']
    exact habove q hq
  bytes := by
    rw [List.flatMap_append, h.bytes, List.flatMap_singleton, Request.bytes, hnext]
    have hsum : finish + r.size - m.address.toNat = (finish - m.address.toNat) + r.size := by omega
    have hfinish : m.address.toNat + (finish - m.address.toNat) = finish := by omega
    rw [hsum, ← List.range'_append_1, hfinish]
  buffers before q after hsplit := by
    cases after using List.reverseRecOn with
    | nil =>
      obtain ⟨hbefore, hq⟩ := List.append_inj' hsplit rfl
      rw [List.cons.injEq] at hq
      rw [← hbefore, ← hq.1, hbuffer, h.sum_size]
    | append_singleton after last =>
      rw [← List.cons_append, ← List.append_assoc] at hsplit
      exact h.buffers before q after (List.append_inj' hsplit rfl).1

/-! ### Lines -/

/-- The access and one more line lie inside the address space. -/
structure Fits (m : MemoryAccess σ) : Prop where
  block : 1 ≤ m.cacheBlockSize.toNat
  size : 1 ≤ m.dataSize.toNat
  room : m.address.toNat + m.dataSize.toNat + m.cacheBlockSize.toNat < 2 ^ 64

variable {curr : ℕ}

theorem sub32_eq {a b : ℕ} (hle : b ≤ a) (hlt : a < 2 ^ 32) : sub32 a b = a - b := by
  rw [sub32]
  omega

theorem Fits.endAddr_eq (h : m.Fits) : m.endAddr = m.address.toNat + m.dataSize.toNat := by
  have hroom := h.room
  exact Nat.mod_eq_of_lt (by omega)

theorem beginAddrAligned_add (m : MemoryAccess σ) :
    m.beginAddrAligned + m.address.toNat % m.cacheBlockSize.toNat = m.address.toNat :=
  Nat.sub_add_cancel (Nat.mod_le ..)

theorem Fits.endAddrAligned_add (h : m.Fits) :
    m.endAddrAligned + m.endAddr % m.cacheBlockSize.toNat = m.address.toNat + m.dataSize.toNat := by
  rw [← h.endAddr_eq]
  exact Nat.sub_add_cancel (Nat.mod_le ..)

/-- Two lines are apart by at least the size of a line. -/
theorem add_le_of_dvd_of_lt {b x y : ℕ} (hx : b ∣ x) (hy : b ∣ y) (hlt : x < y) : x + b ≤ y := by
  have hle := Nat.le_of_dvd (Nat.sub_pos_of_lt hlt) (Nat.dvd_sub hy hx)
  omega

theorem beginAddrAligned_dvd (m : MemoryAccess σ) : m.cacheBlockSize.toNat ∣ m.beginAddrAligned := Nat.dvd_sub_mod _

theorem endAddrAligned_dvd (m : MemoryAccess σ) : m.cacheBlockSize.toNat ∣ m.endAddrAligned := Nat.dvd_sub_mod _

/-- The address up to which the access has been split when the loop reaches a line. -/
def covered (m : MemoryAccess σ) (curr : ℕ) : ℕ :=
  if curr ≤ m.endAddrAligned then max m.address.toNat curr else m.address.toNat + m.dataSize.toNat

/-- The first byte in a line is the first one that has not been covered. -/
theorem add_currOffset (hblock : 1 ≤ m.cacheBlockSize.toNat) (hdvd : m.cacheBlockSize.toNat ∣ curr)
    (habove : m.beginAddrAligned ≤ curr) : curr + m.currOffset curr = max m.address.toNat curr := by
  have hbegin := m.beginAddrAligned_add
  have hmod := Nat.mod_lt m.address.toNat hblock
  rw [currOffset, beginAddr]
  split_ifs with hfirst
  · rw [hfirst, hbegin]
    omega
  · have hnext := add_le_of_dvd_of_lt m.beginAddrAligned_dvd hdvd (by omega)
    omega

/-- The bytes in a line are those up to the next line, or up to the end of the access. -/
theorem Fits.add_currSize (h : m.Fits) (hdvd : m.cacheBlockSize.toNat ∣ curr) (habove : m.beginAddrAligned ≤ curr)
    (hbelow : curr ≤ m.endAddrAligned) :
    max m.address.toNat curr + m.currSize curr = m.covered (curr + m.cacheBlockSize.toNat) ∧
      m.currOffset curr + m.currSize curr ≤ m.cacheBlockSize.toNat := by
  have hoffset := add_currOffset h.block hdvd habove
  have hend := h.endAddrAligned_add
  have hmod := Nat.mod_lt m.endAddr h.block
  have hbegin := m.beginAddrAligned_add
  have hmodBegin := Nat.mod_lt m.address.toNat h.block
  have hwidth := m.cacheBlockSize.isLt
  have hsize := h.size
  rw [currSize, covered]
  split_ifs with hlast hle hle
  · have hblock := h.block
    omega
  · rw [sub32_eq (by omega) (by omega)]
    omega
  · rw [sub32_eq (by omega) hwidth]
    omega
  · have hnext := add_le_of_dvd_of_lt hdvd m.endAddrAligned_dvd (by omega)
    omega

/-! ### The loop -/

/-- What holds each time the loop reaches a line. -/
structure LoopInv (m : MemoryAccess σ) (s : SplitState σ) : Prop where
  aligned : m.cacheBlockSize.toNat ∣ s.currAddrAligned
  above : m.beginAddrAligned ≤ s.currAddrAligned
  split : m.SplitsUpTo (m.covered s.currAddrAligned) s.requests
  passed : ∀ r ∈ s.requests, r.line < s.currAddrAligned
  head : s.currDataBufferHead = m.dataBuf.getD 0 + (m.covered s.currAddrAligned - m.address.toNat)

theorem Fits.loopInv_start (h : m.Fits) (memory : σ) : m.LoopInv (m.start memory) := by
  have hend := h.endAddrAligned_add
  have hbegin := m.beginAddrAligned_add
  have hmod := Nat.mod_lt m.endAddr h.block
  have hsize := h.size
  have hle : m.beginAddrAligned ≤ m.endAddrAligned := by
    by_contra hlt
    have hnext := add_le_of_dvd_of_lt m.endAddrAligned_dvd m.beginAddrAligned_dvd (Nat.not_le.1 hlt)
    omega
  have hcovered : m.covered m.beginAddrAligned = m.address.toNat := by
    rw [covered, if_pos hle]
    omega
  refine ⟨m.beginAddrAligned_dvd, Nat.le_refl _, ?_, fun r hr => absurd hr List.not_mem_nil, ?_⟩
  · change m.SplitsUpTo (m.covered m.beginAddrAligned) []
    rw [hcovered]
    refine ⟨fun r hr => absurd hr List.not_mem_nil, .nil, ?_, fun before r after hsplit => ?_⟩
    · rw [Nat.sub_self]
      rfl
    · simp at hsplit
  · change _ = _ + (m.covered m.beginAddrAligned - _)
    rw [hcovered, Nat.sub_self]
    rfl

/-- One round. -/
theorem LoopInv.round {s : SplitState σ} (h : m.LoopInv s) (hfits : m.Fits) (hle : s.currAddrAligned ≤ m.endAddrAligned) :
    m.LoopInv (m.round s) := by
  obtain ⟨hnext, hinside⟩ := hfits.add_currSize h.aligned h.above hle
  have hoffset := add_currOffset hfits.block h.aligned h.above
  have hcovered : m.covered s.currAddrAligned = max m.address.toNat s.currAddrAligned := if_pos hle
  have hend := hfits.endAddrAligned_add
  have hroom := hfits.room
  have hblock := hfits.block
  have hwrap : (s.currAddrAligned + m.cacheBlockSize.toNat) % 2 ^ 64 = s.currAddrAligned + m.cacheBlockSize.toNat :=
    Nat.mod_eq_of_lt (by omega)
  have hdvd := Nat.dvd_add_self_right.2 h.aligned
  have habove : m.beginAddrAligned ≤ s.currAddrAligned + m.cacheBlockSize.toNat := h.above.trans (Nat.le_add_right ..)
  have hpassed : ∀ r ∈ s.requests, r.line < s.currAddrAligned + m.cacheBlockSize.toNat := fun r hr =>
    (h.passed r hr).trans_le (Nat.le_add_right ..)
  have hsplit := h.split
  have hhead := h.head
  rw [hcovered] at hsplit hhead
  rw [MemoryAccess.round, hwrap]
  by_cases hskip : s.currAddrAligned = m.endAddrAligned ∧ m.currSize s.currAddrAligned = 0
  · rw [if_pos hskip]
    rw [hskip.2, Nat.add_zero] at hnext
    refine ⟨hdvd, habove, ?_, hpassed, ?_⟩
    · rw [← hnext]
      exact hsplit
    · rw [← hnext]
      exact hhead
  · rw [if_neg hskip]
    have hpos : 0 < m.currSize s.currAddrAligned := by
      by_contra hzero
      have hlast : s.currAddrAligned ≠ m.endAddrAligned := fun hlast => hskip ⟨hlast, Nat.eq_zero_of_not_pos hzero⟩
      have hline := add_le_of_dvd_of_lt h.aligned m.endAddrAligned_dvd (by omega)
      have hbegin := m.beginAddrAligned_add
      have hmod := Nat.mod_lt m.address.toNat hblock
      have habove' := h.above
      rw [covered, if_pos hline] at hnext
      omega
    refine ⟨hdvd, habove, ?_, fun r hr => ?_, ?_⟩
    · rw [← hnext]
      apply hsplit.append (r := m.request s) (Nat.le_max_left ..) h.aligned hpos hinside hoffset h.passed
      rw [request, hhead]
      cases m.dataBuf with
      | none => rfl
      | some buf => rfl
    · rcases List.mem_append.1 hr with hr | hr
      · exact hpassed r hr
      · rw [List.mem_singleton] at hr
        rw [hr]
        exact Nat.lt_add_of_pos_right hblock
    · rw [← hnext]
      dsimp only
      rw [hhead]
      omega

/-- Enough rounds bring the loop past the last line. -/
theorem Fits.lines_finish (hfits : m.Fits) {k : ℕ} {s : SplitState σ} (h : m.LoopInv s)
    (hrounds : m.endAddrAligned < s.currAddrAligned + k * m.cacheBlockSize.toNat) :
    ∃ s', (∀ fuel > k, m.lines fuel s = some s') ∧ m.LoopInv s' ∧ m.endAddrAligned < s'.currAddrAligned := by
  induction k generalizing s with
  | zero =>
    rw [Nat.zero_mul, Nat.add_zero] at hrounds
    refine ⟨s, fun fuel hfuel => ?_, h, hrounds⟩
    obtain ⟨rest, rfl⟩ := Nat.exists_eq_add_of_lt hfuel
    exact if_neg (Nat.not_le.2 hrounds)
  | succ k ih =>
    by_cases hle : s.currAddrAligned ≤ m.endAddrAligned
    · have hcurr : (m.round s).currAddrAligned = s.currAddrAligned + m.cacheBlockSize.toNat := by
        have hend := hfits.endAddrAligned_add
        have hroom := hfits.room
        have hwrap := Nat.mod_eq_of_lt (a := s.currAddrAligned + m.cacheBlockSize.toNat) (b := 2 ^ 64) (by omega)
        rw [MemoryAccess.round]
        split_ifs
        · exact hwrap
        · exact hwrap
      have hless : m.endAddrAligned < (m.round s).currAddrAligned + k * m.cacheBlockSize.toNat := by
        rw [hcurr]
        rw [Nat.add_mul, Nat.one_mul] at hrounds
        omega
      obtain ⟨s', hfinish, hinv, hpast⟩ := ih (h.round hfits hle) hless
      refine ⟨s', fun fuel hfuel => ?_, hinv, hpast⟩
      obtain ⟨rest, rfl⟩ := Nat.exists_eq_add_of_lt hfuel
      rw [← hfinish (k + 1 + rest) (by omega)]
      exact if_pos hle
    · refine ⟨s, fun fuel hfuel => ?_, h, Nat.not_le.1 hle⟩
      obtain ⟨rest, rfl⟩ := Nat.exists_eq_add_of_lt hfuel
      exact if_neg hle

/-- The call returns, and its requests split the access. -/
theorem initiateMemoryAccess_splits (m : MemoryAccess σ) (memory : σ) (hblock : 1 ≤ m.cacheBlockSize.toNat)
    (hsize : 1 ≤ m.dataSize.toNat)
    (hroom : m.address.toNat + m.dataSize.toNat + m.cacheBlockSize.toNat < 2 ^ 64) :
    ∃ hitWhere memory' requests,
      (∀ fuel, m.dataSize.toNat / m.cacheBlockSize.toNat + 3 ≤ fuel →
        m.initiateMemoryAccess fuel memory = some (hitWhere, memory', requests)) ∧
      m.Splits requests := by
  have hfits : m.Fits := ⟨hblock, hsize, hroom⟩
  have hrounds : m.endAddrAligned < (m.start memory).currAddrAligned +
      (m.dataSize.toNat / m.cacheBlockSize.toNat + 2) * m.cacheBlockSize.toNat := by
    have hend := hfits.endAddrAligned_add
    have hbegin := m.beginAddrAligned_add
    have hmod := Nat.mod_lt m.address.toNat hblock
    have hquotient := Nat.lt_div_mul_add (a := m.dataSize.toNat) hblock
    rw [Nat.add_mul]
    change m.endAddrAligned < m.beginAddrAligned + _
    omega
  obtain ⟨s, hlines, hinv, hpast⟩ := hfits.lines_finish (hfits.loopInv_start memory) hrounds
  refine ⟨s.hitWhere, s.memory, s.requests, fun fuel hfuel => ?_, ?_⟩
  · rw [initiateMemoryAccess, if_neg (Nat.one_le_iff_ne_zero.1 hsize), hlines fuel (by omega)]
    rfl
  · have hsplit := hinv.split
    rwa [covered, if_neg (Nat.not_le.2 hpast)] at hsplit

/-- Forty bytes from the address 100, in lines of 64 bytes. -/
def fortyBytes : MemoryAccess ℕ where
  memComponent := 3
  address := 100
  dataBuf := some 5000
  dataSize := 40
  cacheBlockSize := 64
  respond count _ := (count + 1, 3)

theorem initiateMemoryAccess_fortyBytes :
    ∃ hitWhere memory' requests,
      (∀ fuel, 40 / 64 + 3 ≤ fuel → fortyBytes.initiateMemoryAccess fuel 0 = some (hitWhere, memory', requests)) ∧
      fortyBytes.Splits requests :=
  initiateMemoryAccess_splits fortyBytes 0 (by decide) (by decide) (by decide)

end MemoryAccess

end LifeSim.Core
