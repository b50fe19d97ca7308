import LifeSim.Sift.RoundTrip

/-!
# Writer and reader in step

`Lock` relates the state of the writer to the state of a reader that has read everything written so far. Each call of
the writer appends bytes that the reader takes record by record, and afterwards both sides are
in step again. `Delivers` is the reader's half: a number of records is read, and these are the items they lead to.
-/

namespace LifeSim.Sift

open LifeSim.Lib

/-! ### Static instructions -/

section Static

variable {code : Word → Byte} {sizeAt : Word → Byte} {r : Reader}

/-- A static instruction has the size and the code of its address. -/
structure StaticInstruction.Correct (code : Word → Byte) (sizeAt : Word → Byte) (sinst : StaticInstruction) :
    Prop where
  size : sinst.size = sizeAt sinst.addr
  data : sinst.data = (getCode code sinst.addr sinst.size.toNat).map some

/-- The static instructions of the reader are correct, and `scache` finds them. -/
structure Static (code : Word → Byte) (sizeAt : Word → Byte) (heap : List StaticInstruction)
    (scache : Word → Option ℕ) : Prop where
  correct : ∀ sinst ∈ heap, sinst.Correct code sizeAt
  found : ∀ a k, scache a = some k → ∃ sinst, heap[k]? = some sinst ∧ sinst.addr = a

open Reader

/-- The next pointer leads to the instruction that is looked for, or is not used. -/
theorem nextSinst_some {a : Word} {k : ℕ} (h : r.nextSinst a = some k) :
    ∃ sinst, r.heap[k]? = some sinst ∧ sinst.addr = a := by
  simp only [nextSinst, Option.bind_eq_bind, Option.bind_eq_some_iff] at h
  obtain ⟨last, -, sinst, -, next, -, nextSinst, hnext, hif⟩ := h
  split at hif
  · rename_i haddr
    cases hif
    exact ⟨nextSinst, hnext, haddr⟩
  · cases hif

/-- The static instruction is found, by one of three ways. -/
theorem findSinst_spec (h : Static code sizeAt r.heap r.scache) (a : Word)
    (hhas : ∀ k < (sizeAt a).toNat, r.HasByte code (a + BitVec.ofNat 64 k)) :
    ∃ heap scache k sinst, r.findSinst a (sizeAt a) = .ok ({ r with heap := heap, scache := scache }, k) ∧
      Static code sizeAt heap scache ∧ heap[k]? = some sinst ∧ sinst.addr = a := by
  rw [findSinst]
  cases hnext : r.nextSinst a with
  | some k =>
    obtain ⟨sinst, hk, haddr⟩ := nextSinst_some hnext
    exact ⟨r.heap, r.scache, k, sinst, rfl, h, hk, haddr⟩
  | none =>
    cases hcache : r.scache a with
    | some k =>
      obtain ⟨sinst, hk, haddr⟩ := h.found a k hcache
      have hsize : (r.heap[k]?.map StaticInstruction.size) = some (sizeAt a) := by
        rw [hk, Option.map_some, (h.correct sinst (List.mem_of_getElem? hk)).size, haddr]
      refine ⟨r.heap, r.scache, k, sinst, ?_, h, hk, haddr⟩
      simp only [hsize, if_pos]
    | none =>
      have hcode := copyCode_eq (r := r) (sizeAt a).toNat a (sizeAt a).toNat (Nat.le_refl _) hhas
      refine ⟨_, Function.update r.scache a (some r.heap.length), r.heap.length,
        ⟨a, sizeAt a, (getCode code a (sizeAt a).toNat).map some, none⟩, ?_, ⟨?_, ?_⟩,
        List.getElem?_concat_length, rfl⟩
      · simp only [decodeInstruction, hcode]
      · intro sinst hmem
        rcases List.mem_append.1 hmem with hold | hnew
        · exact h.correct sinst hold
        · rw [List.mem_singleton.1 hnew]
          exact ⟨rfl, rfl⟩
      · intro b k hb
        by_cases hba : b = a
        · subst hba
          rw [Function.update_self] at hb
          cases hb
          exact ⟨_, List.getElem?_concat_length, rfl⟩
        · rw [Function.update_of_ne hba] at hb
          obtain ⟨sinst, hk, haddr⟩ := h.found b k hb
          refine ⟨sinst, ?_, haddr⟩
          rw [List.getElem?_append_left (List.getElem?_eq_some_iff.1 hk).1]
          exact hk

/-- Links between instructions do not change what they are. -/
theorem linkLast_spec (h : Static code sizeAt r.heap r.scache) (k : ℕ) {j : ℕ} {sinst : StaticInstruction}
    (hj : r.heap[j]? = some sinst) :
    ∃ heap sinst', r.linkLast k = { r with heap := heap, lastSinst := some k } ∧
      Static code sizeAt heap r.scache ∧ heap[j]? = some sinst' ∧
      sinst'.addr = sinst.addr := by
  rw [linkLast]
  cases hlast : r.lastSinst with
  | none => exact ⟨r.heap, sinst, rfl, h, hj, rfl⟩
  | some last =>
    have hkeep : ∀ (i : ℕ) (s : StaticInstruction), r.heap[i]? = some s →
        ∃ s', (r.heap.modify last fun s => { s with next := some (s.next.getD k) })[i]? = some s' ∧ s'.addr = s.addr := by
      intro i s hi
      rw [List.getElem?_modify, hi]
      by_cases hil : last = i
      · exact ⟨{ s with next := some (s.next.getD k) }, by simp [hil], rfl⟩
      · exact ⟨s, by simp [hil], rfl⟩
    obtain ⟨sinst', hj', haddr⟩ := hkeep j sinst hj
    refine ⟨_, sinst', rfl, ⟨?_, fun a i hi => ?_⟩, hj', haddr⟩
    · exact forall_mem_modify (fun s hs => ⟨hs.size, hs.data⟩) h.correct
    · obtain ⟨s, hs, hsaddr⟩ := h.found a i hi
      obtain ⟨s', hs', hsaddr'⟩ := hkeep i s hs
      exact ⟨s', hs', hsaddr'.trans hsaddr⟩

/-- `getStaticInstruction` returns the instruction at the address. -/
theorem getStaticInstruction_spec (h : Static code sizeAt r.heap r.scache) (a : Word)
    (hhas : ∀ k < (sizeAt a).toNat, r.HasByte code (a + BitVec.ofNat 64 k)) :
    ∃ heap scache k sinst, r.getStaticInstruction a (sizeAt a)
        = .ok ({ r with heap := heap, scache := scache, lastSinst := some k }, k) ∧
      Static code sizeAt heap scache ∧ heap[k]? = some sinst ∧ sinst.addr = a := by
  obtain ⟨heap, scache, k, sinst, hfind, hstatic, hk, haddr⟩ := findSinst_spec h a hhas
  obtain ⟨heap', sinst', hlink, hstatic', hk', haddr'⟩ :=
    linkLast_spec (r := { r with heap := heap, scache := scache }) hstatic k hk
  refine ⟨heap', scache, k, sinst', ?_, hstatic', hk', haddr'.trans haddr⟩
  rw [getStaticInstruction, hfind]
  simp only [hlink]

end Static

/-! ### Records that the reader takes -/

open Reader

/-- A record with a size field is as long as it says. -/
def Announced (b : List Byte) : Prop := b.head? = some 0#8 → b.length = 6 + ofLeBytes ((b.drop 2).take 4)

theorem announced_other (type : RecOtherType) {size : ℕ} {body : List Byte} (h : body.length = size % 2 ^ 32) :
    Announced (otherHeader type size ++ body) := by
  intro _
  have hfield : ((otherHeader type size ++ body).drop 2).take 4 = leBytes 4 size := by
    rw [otherHeader, List.cons_append, List.cons_append, List.drop_succ_cons, List.drop_succ_cons, List.drop_zero,
      List.take_left' (length_leBytes 4 size)]
  rw [hfield, ofLeBytes_leBytes, List.length_append, length_otherHeader, h, show (256 : ℕ) ^ 4 = 2 ^ 32 from rfl]

/-- The reader takes these bytes record by record, and the records lead to these items. -/
inductive Delivers : Reader → List Byte → List Item → Reader → Prop
  | nil (r : Reader) : Delivers r [] [] r
  | cons {r r₁ r₂ : Reader} {b c : List Byte} {item : Option Item} {items : List Item} (hne : b ≠ [])
      (hsize : Announced b) (hb : Parses (readRecord r) b (r₁, item)) (hopen : r₁.seenEnd = false)
      (hc : Delivers r₁ c items r₂) : Delivers r (b ++ c) (item.toList ++ items) r₂

namespace Delivers

variable {r r₁ r₂ : Reader} {b c : List Byte} {items items' : List Item}

/-- One record. -/
theorem one {item : Option Item} (hne : b ≠ []) (hsize : Announced b) (hb : Parses (readRecord r) b (r₁, item))
    (hopen : r₁.seenEnd = false) : Delivers r b item.toList r₁ := by
  have h := cons hne hsize hb hopen (nil r₁)
  rwa [List.append_nil, List.append_nil] at h

/-- One record with a size field. -/
theorem other {type : RecOtherType} {size : ℕ} {item : Option Item} (hlength : b.length = size % 2 ^ 32)
    (hb : Parses (readBody type (size % 2 ^ 32) r) b (r₁, item)) (hopen : r₁.seenEnd = false) :
    Delivers r (otherHeader type size ++ b) item.toList r₁ :=
  one (by simp [otherHeader]) (announced_other type hlength) (parses_other hb) hopen

/-- One part after the other. -/
theorem append (hb : Delivers r b items r₁) (hc : Delivers r₁ c items' r₂) :
    Delivers r (b ++ c) (items ++ items') r₂ := by
  induction hb with
  | nil r => exact hc
  | cons hne hsize hb hopen _ ih =>
    rw [List.append_assoc, List.append_assoc]
    exact cons hne hsize hb hopen (ih hc)

end Delivers

/-! ### Both sides together -/

/-- The reader has read everything that the writer has written. -/
structure Lock (cfg : Config) (code : Word → Byte) (sizeAt : Word → Byte) (w : Writer) (r : Reader) : Prop where
  last : r.lastAddress = w.lastAddress
  insns : cfg.icachePerInsn = true → ∀ a, w.icache a = true → ∀ k < (sizeAt a).toNat,
    r.HasByte code (a + BitVec.ofNat 64 k)
  pages : cfg.icachePerInsn = false → ∀ x, w.icache (pageOf x) = true → r.HasByte code x
  static : Static code sizeAt r.heap r.scache
  seenEnd : r.seenEnd = false

/-- Nothing has been written. -/
theorem lock_new (cfg : Config) (code : Word → Byte) (sizeAt : Word → Byte) : Lock cfg code sizeAt .new .new where
  last := rfl
  insns _ _ ha := by cases ha
  pages _ _ ha := by cases ha
  static := ⟨fun _ h => absurd h (List.not_mem_nil), fun _ _ h => (by cases h)⟩
  seenEnd := rfl

section Calls

variable {cfg : Config} {code : Word → Byte} {sizeAt : Word → Byte} {w : Writer} {r : Reader}

/-- What a part of a call does: the reader takes the bytes and both sides are in step again. No code is lost. -/
def InStep (cfg : Config) (code : Word → Byte) (sizeAt : Word → Byte) (w : Writer) (r : Reader)
    (sent : Writer × List Byte) : Prop :=
  sent.1.lastAddress = w.lastAddress ∧ ∃ r', Delivers r sent.2 [] r' ∧ Lock cfg code sizeAt sent.1 r' ∧
    ∀ x, r.HasByte code x → r'.HasByte code x

/-- Nothing is sent. -/
theorem inStep_nil (h : Lock cfg code sizeAt w r) : InStep cfg code sizeAt w r (w, []) :=
  ⟨rfl, r, .nil r, h, fun _ hx => hx⟩

/-- The code of an instruction is sent in the mode with a record for each instruction. -/
theorem inStep_sendInsn (h : Lock cfg code sizeAt w r) (hcfg : cfg.icachePerInsn = true) (a : Word)
    (hsize : (sizeAt a).toNat < 16) : InStep cfg code sizeAt w r (w.sendInsn code a (sizeAt a).toNat) := by
  rw [Writer.sendInsn]
  split
  · exact inStep_nil h
  · obtain ⟨r', hparses, hhas, icache, rfl⟩ := parses_insn (r := r) code a hsize
    have hdelivers := Delivers.other (by simp; omega) hparses h.seenEnd
    rw [← List.append_assoc] at hdelivers
    refine ⟨rfl, _, hdelivers, ⟨h.last, fun _ b hb k hk => ?_, fun hpages => ?_, h.static, h.seenEnd⟩,
      fun x hx => hhas x (.inl hx)⟩
    · by_cases hba : b = a
      · subst hba
        exact hhas _ (.inr ⟨k, hk, rfl⟩)
      · simp only [Function.update_of_ne hba] at hb
        exact hhas _ (.inl (h.insns hcfg b hb k hk))
    · rw [hcfg] at hpages
      cases hpages

/-- An instruction is marked as sent. -/
theorem sendInsn_self (code : Word → Byte) (a : Word) (size : ℕ) (w : Writer) :
    (w.sendInsn code a size).1.icache a = true := by
  rw [Writer.sendInsn]
  split
  · assumption
  · exact Function.update_self ..

/-- A page is marked as sent. -/
theorem sendPage_self (code : Word → Byte) (base : Word) (w : Writer) :
    (w.sendPage code base).1.icache base = true := by
  rw [Writer.sendPage]
  split
  · assumption
  · exact Function.update_self ..

/-- The marks of other pages stay. -/
theorem sendPage_keeps (code : Word → Byte) (base a : Word) (ha : w.icache a = true) :
    (w.sendPage code base).1.icache a = true := by
  rw [Writer.sendPage]
  split
  · exact ha
  · by_cases hba : a = base
    · simp [hba]
    · simpa [hba] using ha

/-- The code of a page is sent. -/
theorem inStep_sendPage (h : Lock cfg code sizeAt w r) (hcfg : cfg.icachePerInsn = false) (base : Word) :
    InStep cfg code sizeAt w r (w.sendPage code base) := by
  rw [Writer.sendPage]
  split
  · exact inStep_nil h
  · obtain ⟨r', hparses, hhas, icache, rfl⟩ := parses_page (r := r) code base
    have hdelivers := Delivers.other (by simp [icacheSize]) hparses h.seenEnd
    rw [← List.append_assoc] at hdelivers
    refine ⟨rfl, _, hdelivers, ⟨h.last, fun hinsns => ?_, fun _ x hx => ?_, h.static, h.seenEnd⟩,
      fun x hx => hhas x (.inl hx)⟩
    · rw [hcfg] at hinsns
      cases hinsns
    · by_cases hba : pageOf x = base
      · exact hhas x (.inr hba)
      · simp only [Function.update_of_ne hba] at hx
        exact hhas x (.inl (h.pages hcfg x hx))

/-- One part of a call after another. -/
theorem InStep.trans {w₁ w₂ : Writer} {b c : List Byte} (hb : InStep cfg code sizeAt w r (w₁, b))
    (hc : ∀ r', Lock cfg code sizeAt w₁ r' → InStep cfg code sizeAt w₁ r' (w₂, c)) :
    InStep cfg code sizeAt w r (w₂, b ++ c) := by
  obtain ⟨hlast, r₁, hdelivers, hlock, hhas⟩ := hb
  obtain ⟨hlast', r₂, hdelivers', hlock', hhas'⟩ := hc r₁ hlock
  exact ⟨hlast'.trans hlast, r₂, hdelivers.append hdelivers', hlock', fun x hx => hhas' x (hhas x hx)⟩

/-- The loop over the pages ends before the last page of the address space, and every page up to the last one
has been sent. -/
theorem sendPages_spec (code : Word → Byte) (sizeAt : Word → Byte) (hcfg : cfg.icachePerInsn = false) (last : Word)
    (hlast : last.toNat + 4096 < 2 ^ 64) (fuel : ℕ) (base : Word) (n : ℕ)
    (hn : last.toNat + 4096 ≤ base.toNat + 4096 * n) (hfuel : n < fuel) (w : Writer) :
    ∃ sent, w.sendPages code fuel base last = .ok sent ∧
      (∀ r, Lock cfg code sizeAt w r → InStep cfg code sizeAt w r sent) ∧
      (∀ a, w.icache a = true → sent.1.icache a = true) ∧
      ∀ j, base.toNat + 4096 * j ≤ last.toNat → sent.1.icache (base + BitVec.ofNat 64 (4096 * j)) = true := by
  induction fuel generalizing base n w with
  | zero => exact absurd hfuel (Nat.not_lt_zero n)
  | succ fuel ih =>
    rw [Writer.sendPages]
    by_cases hle : base ≤ last
    · rw [if_pos hle]
      have hle' := BitVec.le_def.1 hle
      have hbase : (base + BitVec.ofNat 64 icacheSize).toNat = base.toNat + 4096 := by
        rw [BitVec.toNat_add, BitVec.toNat_ofNat, icacheSize]
        omega
      obtain ⟨sent, hsent, hstep, hkeep, hpages⟩ := ih (base + BitVec.ofNat 64 icacheSize) (n - 1) (by omega) (by omega)
        (w.sendPage code base).1
      refine ⟨(sent.1, (w.sendPage code base).2 ++ sent.2), by simp only [hsent], fun r h => ?_, fun a ha => ?_,
        fun j hj => ?_⟩
      · exact (inStep_sendPage h hcfg base).trans hstep
      · exact hkeep a (sendPage_keeps code base a ha)
      · cases j with
        | zero =>
          rw [Nat.mul_zero, BitVec.add_zero]
          exact hkeep base (sendPage_self code base w)
        | succ j =>
          have hnext := hpages j (by omega)
          rw [BitVec.add_assoc, ← BitVec.ofNat_add, icacheSize, Nat.add_comm, ← Nat.mul_succ] at hnext
          exact hnext
    · rw [if_neg hle]
      refine ⟨(w, []), rfl, fun r h => inStep_nil h, fun _ ha => ha, fun j hj => ?_⟩
      exact absurd (BitVec.le_def.2 (by omega)) hle

/-- An instruction within the limits of the format that does not touch the last page of the address space. -/
structure Insn.WellFormed (i : Insn) : Prop extends i.Encodable where
  lastPage : i.addr.toNat + i.size.toNat ≤ 2 ^ 64 - icacheSize

/-- The code of an instruction has arrived when it is needed. -/
theorem sendCode_spec (cfg : Config) (code : Word → Byte) {i : Insn} (hi : i.WellFormed)
    (hsize : sizeAt i.addr = i.size) (w : Writer) :
    ∃ sent, w.sendCode code cfg i = .ok sent ∧
      (∀ r, Lock cfg code sizeAt w r → InStep cfg code sizeAt w r sent) ∧
      ∀ r', Lock cfg code sizeAt sent.1 r' → ∀ k < i.size.toNat, r'.HasByte code (i.addr + BitVec.ofNat 64 k) := by
  rw [Writer.sendCode]
  by_cases hcfg : cfg.icachePerInsn = true
  · rw [if_pos hcfg, ← hsize]
    refine ⟨_, rfl, fun r h => inStep_sendInsn h hcfg i.addr (by rw [hsize]; exact hi.small), fun r' hlock k hk => ?_⟩
    exact hlock.insns hcfg i.addr (sendInsn_self code i.addr _ w) k hk
  · rw [if_neg hcfg]
    have hpages := Bool.eq_false_of_not_eq_true hcfg
    have hsmall := hi.small
    have hpos := hi.pos
    have hend := hi.lastPage
    rw [icacheSize] at hend
    have hlast : (i.addr + i.size.setWidth 64 - 1).toNat = i.addr.toNat + i.size.toNat - 1 := by
      rw [BitVec.toNat_sub, BitVec.toNat_add, BitVec.toNat_setWidth]
      simp only [BitVec.ofNat_eq_ofNat, BitVec.toNat_ofNat]
      omega
    obtain ⟨sent, hsent, hstep, -, hmarks⟩ := sendPages_spec code sizeAt hpages
      (pageOf (i.addr + i.size.setWidth 64 - 1)) (by rw [toNat_pageOf, hlast]; omega) Writer.pageRounds
      (pageOf i.addr) (2 ^ 52) (by rw [toNat_pageOf, toNat_pageOf, hlast]; omega) (by rw [Writer.pageRounds]; omega) w
    refine ⟨sent, hsent, hstep, fun r' hlock k hk => hlock.pages hpages _ ?_⟩
    have hk' : (i.addr + BitVec.ofNat 64 k).toNat = i.addr.toNat + k := by
      rw [BitVec.toNat_add, BitVec.toNat_ofNat]
      omega
    -- the page of the byte is one of the pages of the loop
    have hpage : pageOf (i.addr + BitVec.ofNat 64 k)
        = pageOf i.addr + BitVec.ofNat 64 (4096 * ((i.addr.toNat + k) / 4096 - i.addr.toNat / 4096)) := by
      apply BitVec.eq_of_toNat_eq
      rw [toNat_pageOf, hk', BitVec.toNat_add, toNat_pageOf, BitVec.toNat_ofNat]
      omega
    rw [hpage]
    refine hmarks _ ?_
    rw [toNat_pageOf, toNat_pageOf, hlast]
    omega

/-- A physical page is sent. -/
theorem inStep_sendVa2pa (h : Lock cfg code sizeAt w r) (pagemap : Word → Word) (va : Word) :
    InStep cfg code sizeAt w r (w.sendVa2pa pagemap cfg va) := by
  rw [Writer.sendVa2pa]
  split
  · exact inStep_nil h
  split
  · exact inStep_nil h
  · obtain ⟨pp, hpp⟩ : ∃ pp, pp = Writer.va2paLookup pagemap (va / 4096) := ⟨_, rfl⟩
    have hparses : Parses (readBody .logical2Physical (16 % 2 ^ 32) r) (wordBytes (va / 4096) ++ wordBytes pp)
        ({ r with vcache := Function.update r.vcache (va / 4096) (some pp) }, none) :=
      Parses.check_bind rfl ((parses_word _).bind ((parses_word _).bind_nil (Parses.pure _)))
    have hdelivers := Delivers.other (by simp) hparses h.seenEnd
    rw [← List.append_assoc] at hdelivers
    rw [← hpp]
    exact ⟨rfl, _, hdelivers, ⟨h.last, h.insns, h.pages, h.static, h.seenEnd⟩, fun _ hx => hx⟩

/-- Several physical pages are sent. -/
theorem inStep_sendVa2pas (pagemap : Word → Word) (vas : List Word) (w : Writer) (r : Reader)
    (h : Lock cfg code sizeAt w r) : InStep cfg code sizeAt w r (w.sendVa2pas pagemap cfg vas) := by
  induction vas generalizing w r with
  | nil => exact inStep_nil h
  | cons va vas ih => exact (inStep_sendVa2pa h pagemap va).trans fun r' h' => ih _ r' h'

/-- The reader returns the instruction that was written. What it says about execution counts only for a
predicated instruction. -/
structure Insn.Shown (code : Word → Byte) (i : Insn) (inst : Instruction) (sinst : StaticInstruction) : Prop where
  addr : sinst.addr = i.addr
  size : sinst.size = i.size
  data : sinst.data = (getCode code i.addr i.size.toNat).map some
  addresses : inst.addresses = i.addresses
  isBranch : inst.isBranch = i.isBranch
  taken : inst.taken = i.taken
  isPredicate : inst.isPredicate = i.isPredicate
  executed : i.isPredicate = true → inst.executed = i.executed

/-- The static instruction is looked up. -/
theorem parses_foundInstruction (h : Lock cfg code sizeAt w r) {i : Insn} (hsize : sizeAt i.addr = i.size)
    (hhas : ∀ k < i.size.toNat, r.HasByte code (i.addr + BitVec.ofNat 64 k)) (inst : ℕ → Instruction) :
    ∃ r' k sinst, Parses (foundInstruction i.addr i.size inst r) [] (r', some (.instruction (inst k) sinst)) ∧
      Lock cfg code sizeAt { w with lastAddress := i.addr + i.size.setWidth 64 } r' ∧
      sinst.addr = i.addr ∧ sinst.size = i.size ∧ sinst.data = (getCode code i.addr i.size.toNat).map some := by
  rw [← hsize] at hhas
  obtain ⟨heap, scache, k, sinst, hget, hstatic, hk, haddr⟩ :=
    getStaticInstruction_spec (r := { r with lastAddress := i.addr + i.size.setWidth 64 }) h.static i.addr hhas
  have hcorrect := hstatic.correct sinst (List.mem_of_getElem? hk)
  have hsize' : sinst.size = i.size := by
    rw [hcorrect.size, haddr, hsize]
  obtain ⟨r', hr'⟩ : ∃ r' : Reader, r' = { r with
      lastAddress := i.addr + i.size.setWidth 64, heap := heap, scache := scache, lastSinst := some k } := ⟨_, rfl⟩
  have hlock : Lock cfg code sizeAt { w with lastAddress := i.addr + i.size.setWidth 64 } r' := by
    subst hr'
    exact ⟨rfl, h.insns, h.pages, hstatic, h.seenEnd⟩
  refine ⟨r', k, sinst, fun rest => ?_, hlock, haddr, hsize', ?_⟩
  · rw [hsize] at hget
    simp only [foundInstruction, hget, ← hr', List.getD_eq_getElem?_getD]
    rw [hr']
    simp [hk]
  · rw [hcorrect.data, haddr, hsize']

/-- The record of an instruction. -/
theorem parses_sendRecord (h : Lock cfg code sizeAt w r) {i : Insn} (hi : i.Encodable) (hsize : sizeAt i.addr = i.size)
    (hhas : ∀ k < i.size.toNat, r.HasByte code (i.addr + BitVec.ofNat 64 k)) :
    ∃ r' inst sinst, Parses (readRecord r) (w.sendRecord i).2 (r', some (.instruction inst sinst)) ∧
      Lock cfg code sizeAt (w.sendRecord i).1 r' ∧ i.Shown code inst sinst := by
  rw [Writer.sendRecord]
  dsimp only
  split
  · rename_i hsimple
    obtain ⟨x, hx⟩ : ∃ x, x = simpleByte i.size i.addresses.length i.isBranch i.taken := ⟨_, rfl⟩
    obtain ⟨hxsize, hxn, hxbranch, hxtaken⟩ := hi.simple hx
    obtain ⟨r', k, sinst, hparses, hlock, haddr, hsinst, hdata⟩ := parses_foundInstruction h hsize hhas
      fun sinst => ⟨sinst, i.addresses, i.isBranch, i.taken, false, true⟩
    refine ⟨r', ⟨k, i.addresses, i.isBranch, i.taken, false, true⟩, sinst, ?_, hlock, haddr, hsinst, hdata, rfl, rfl, rfl,
      hsimple.2.symm, ?_⟩
    · have hread : Parses (readSimple r) ([x] ++ i.addresses.flatMap wordBytes)
          (r', some (.instruction ⟨k, i.addresses, i.isBranch, i.taken, false, true⟩ sinst)) := by
        refine (parses_byte x).bind ?_
        rw [hxn]
        refine (parses_addresses i.addresses).bind_nil ?_
        rw [h.last, ← hsimple.1, hxsize]
        simp only [hxbranch, hxtaken]
        exact hparses
      intro rest
      have hnibble : x &&& 0xf#8 ≠ 0#8 := by rw [hxsize]; exact hi.size_ne_zero
      have hzero : x ≠ 0#8 := by
        intro hzero
        rw [hzero] at hnibble
        exact hnibble rfl
      rw [← hx, List.singleton_append, List.cons_append, readRecord_cons, if_neg hzero, if_pos hnibble]
      exact hread rest
    · intro hpred
      rw [hsimple.2] at hpred
      cases hpred
  · obtain ⟨x, hx⟩ : ∃ x, x = extFlags i.addresses.length i.isBranch i.taken i.isPredicate i.executed := ⟨_, rfl⟩
    obtain ⟨hxn, hxbranch, hxtaken, hxpred, hxexec⟩ := hi.flags hx
    obtain ⟨hbsize, hbnibble, hbzero⟩ := hi.ext
    obtain ⟨r', k, sinst, hparses, hlock, haddr, hsinst, hdata⟩ := parses_foundInstruction h hsize hhas
      fun sinst => ⟨sinst, i.addresses, i.isBranch, i.taken, i.isPredicate, i.executed⟩
    refine ⟨r', ⟨k, i.addresses, i.isBranch, i.taken, i.isPredicate, i.executed⟩, sinst, ?_, hlock, haddr, hsinst, hdata,
      rfl, rfl, rfl, rfl, fun _ => rfl⟩
    have hread : Parses (readExt r) ([extByte i.size] ++ ([x] ++ (wordBytes i.addr ++ i.addresses.flatMap wordBytes)))
        (r', some (.instruction ⟨k, i.addresses, i.isBranch, i.taken, i.isPredicate, i.executed⟩ sinst)) := by
      refine (parses_byte _).bind ((parses_byte x).bind ((parses_word i.addr).bind ?_))
      rw [hxn]
      refine (parses_addresses i.addresses).bind_nil ?_
      simp only [hbsize, hxbranch, hxtaken, hxpred, hxexec]
      exact hparses
    intro rest
    rw [← hx, List.cons_append, List.cons_append, List.cons_append, readRecord_cons, if_neg hbzero,
      if_neg (not_not.2 hbnibble)]
    exact hread rest

/-- The record of an instruction does not start with a zero byte. -/
theorem sendRecord_head (w : Writer) {i : Insn} (hi : i.Encodable) :
    (w.sendRecord i).2 ≠ [] ∧ (w.sendRecord i).2.head? ≠ some 0#8 := by
  rw [Writer.sendRecord]
  dsimp only
  split
  · have hsize := (hi.simple rfl).1
    refine ⟨by simp, fun hzero => hi.size_ne_zero ?_⟩
    rw [← hsize, Option.some.inj hzero]
    rfl
  · exact ⟨by simp, fun hzero => hi.ext.2.2 (Option.some.inj hzero)⟩

/-- `Instruction`: the instruction arrives, and before it whatever the reader needs for it. -/
theorem instruction_delivers {i : Insn} (hi : i.WellFormed) (hsize : sizeAt i.addr = i.size) (pagemap : Word → Word)
    (h : Lock cfg code sizeAt w r) :
    ∃ w' bytes r' inst sinst, w.instruction code pagemap cfg i = .ok (w', bytes) ∧
      Delivers r bytes [.instruction inst sinst] r' ∧ Lock cfg code sizeAt w' r' ∧ i.Shown code inst sinst := by
  obtain ⟨⟨w₁, sent⟩, hsent, hstep, hcode⟩ := sendCode_spec cfg code hi hsize w
  obtain ⟨-, r₁, hdelivers₁, hlock₁, -⟩ := hstep r h
  have hmap := inStep_sendVa2pas pagemap (i.addr :: i.addresses) w₁ r₁ hlock₁
  cases hmapped : w₁.sendVa2pas pagemap cfg (i.addr :: i.addresses) with
  | mk w₂ mapped =>
  rw [hmapped] at hmap
  obtain ⟨-, r₂, hdelivers₂, hlock₂, hhas⟩ := hmap
  obtain ⟨r₃, inst, sinst, hparses, hlock₃, hshown⟩ := parses_sendRecord hlock₂ hi.toEncodable hsize
    fun k hk => hhas _ (hcode r₁ hlock₁ k hk)
  have hhead := sendRecord_head w₂ hi.toEncodable
  refine ⟨_, sent ++ mapped ++ (w₂.sendRecord i).2, r₃, inst, sinst, ?_, ?_, hlock₃, hshown⟩
  · have hsmall : i.size < 16 := BitVec.lt_def.2 hi.small
    simp only [Writer.instruction, not_not.2 hsmall, not_not.2 hi.addresses, if_false, hsent, hmapped]
  · have hrecord := Delivers.one (fun hnil => by rw [hnil] at hhead; exact hhead.1 rfl)
      (fun hzero => absurd hzero hhead.2) hparses hlock₃.seenEnd
    exact (hdelivers₁.append hdelivers₂).append hrecord

end Calls

end LifeSim.Sift
