import LifeSim.Lib.Modify
import LifeSim.Sift.Reader

/-!
# The reader understands the writer

Record by record: the bytes that the writer appends for a field, a header or a record are exactly those the reader
takes, and give the values back. The state that both sides keep is compared by `Lock`: the address after the
last instruction is the same, the reader has every byte of code that the writer has marked as sent, and the static
instructions that the reader has made agree with the code.
-/

namespace LifeSim.Sift

open LifeSim.Lib

namespace Reader

/-! ### Fields and headers -/

theorem parses_bytes {n : ℕ} {b : List Byte} (h : b.length = n) : Parses (bytes n) b b := Parses.read h

theorem parses_number (n v : ℕ) : Parses (number n) (leBytes n v) (v % 256 ^ n) := by
  rw [← ofLeBytes_leBytes]
  exact (parses_bytes (length_leBytes n v)).map ofLeBytes

theorem parses_word (v : Word) : Parses word (wordBytes v) v := by
  have hword : BitVec.ofNat 64 (v.toNat % 256 ^ 8) = v := by
    rw [← ofLeBytes_leBytes]
    exact ofNat_ofLeBytes rfl v
  have hnumber := (parses_number 8 v.toNat).map (BitVec.ofNat 64)
  rw [hword] at hnumber
  exact hnumber

theorem parses_byte (b : Byte) : Parses byte [b] b := by
  have hnumber : Parses (number 1) [b] b.toNat := (parses_bytes (b := [b]) rfl).map ofLeBytes
  have hbyte := hnumber.map (BitVec.ofNat 8)
  rw [BitVec.ofNat_toNat, BitVec.setWidth_eq] at hbyte
  exact hbyte

theorem parses_addresses (as : List Word) : Parses (readAddresses as.length) (as.flatMap wordBytes) as := by
  induction as with
  | nil => exact Parses.pure []
  | cons a as ih =>
    rw [List.flatMap_cons]
    exact (parses_word a).bind (ih.bind_nil (Parses.pure _))

/-- The first byte decides the kind of a record. -/
theorem readRecord_cons (r : Reader) (b : Byte) (rest : List Byte) : readRecord r (b :: rest) =
    if b = 0#8 then readOther r (b :: rest)
    else if b &&& 0xf#8 ≠ 0#8 then readSimple r (b :: rest)
    else readExt r (b :: rest) := rfl

/-- A record with the header of `Record::Other` is read by its body. -/
theorem parses_other {r : Reader} {type : RecOtherType} {size : ℕ} {b : List Byte} {x : Reader × Option Item}
    (h : Parses (readBody type (size % 2 ^ 32) r) b x) : Parses (readRecord r) (otherHeader type size ++ b) x := by
  have hother : Parses (readOther r) (otherHeader type size ++ b) x := by
    have hsize := (parses_number 4 size).bind (q := fun size => readBody type size r) h
    refine (parses_byte 0).bind (c := type.code :: leBytes 4 size ++ b) ?_
    refine (parses_byte type.code).bind (c := leBytes 4 size ++ b) ?_
    simpa only [RecOtherType.ofCode_code] using hsize
  intro rest
  exact hother rest

/-- A record whose body is refused is refused. -/
theorem rejects_other {r : Reader} {type : RecOtherType} {size : ℕ} {b : List Byte} {f : ReaderFault}
    (h : Rejects (readBody type (size % 2 ^ 32) r) b f) : Rejects (readRecord r) (otherHeader type size ++ b) f := by
  have hother : Rejects (readOther r) (otherHeader type size ++ b) f := by
    have hsize := Rejects.bind (q := fun size => readBody type size r) (parses_number 4 size) h
    refine Rejects.bind (c := type.code :: leBytes 4 size ++ b) (parses_byte 0) ?_
    refine Rejects.bind (c := leBytes 4 size ++ b) (parses_byte type.code) ?_
    simpa only [RecOtherType.ofCode_code] using hsize
  intro rest
  exact hother rest

end Reader

/-! ### The bit fields of instruction records -/

/-- An instruction within the limits of the format. -/
structure Insn.Encodable (i : Insn) : Prop where
  pos : 0 < i.size.toNat
  small : i.size.toNat < 16
  addresses : i.addresses.length ≤ maxDynamicAddresses

/-- The fields of the simple form, for every value they can have. -/
theorem simple_fields : ∀ (s : Fin 16) (n : Fin 3) (b t : Bool), ∀ x, x = simpleByte (BitVec.ofNat 8 s.val) n.val b t →
    x &&& 0xf#8 = BitVec.ofNat 8 s.val ∧ (x >>> 4 &&& 3#8).toNat = n.val ∧ decide ((x >>> 6 &&& 1#8) = 1#8) = b ∧
      decide ((x >>> 7 &&& 1#8) = 1#8) = t := by
  simp only [forall_eq]
  decide

/-- The fields of the extended form. -/
theorem ext_fields : ∀ (n : Fin 3) (b t p e : Bool), ∀ x, x = extFlags n.val b t p e →
    (x &&& 3#8).toNat = n.val ∧ decide ((x >>> 2 &&& 1#8) = 1#8) = b ∧ decide ((x >>> 3 &&& 1#8) = 1#8) = t ∧
      decide ((x >>> 4 &&& 1#8) = 1#8) = p ∧ decide ((x >>> 5 &&& 1#8) = 1#8) = e := by
  simp only [forall_eq]
  decide

/-- The size in the extended form. -/
theorem ext_size : ∀ s : Fin 16, extByte (BitVec.ofNat 8 s.val) >>> 4 = BitVec.ofNat 8 s.val ∧
    extByte (BitVec.ofNat 8 s.val) &&& 0xf#8 = 0#8 ∧ (s ≠ 0 → extByte (BitVec.ofNat 8 s.val) ≠ 0#8) := by
  decide

namespace Insn.Encodable

variable {i : Insn}

theorem size_ne_zero (h : i.Encodable) : i.size ≠ 0#8 := by
  intro hzero
  have hpos := h.pos
  rw [hzero] at hpos
  exact absurd hpos (Nat.lt_irrefl 0)

theorem length_lt (h : i.Encodable) : i.addresses.length < 3 := Nat.lt_succ_of_le h.addresses

theorem simple (h : i.Encodable) {x : Byte} (hx : x = simpleByte i.size i.addresses.length i.isBranch i.taken) :
    x &&& 0xf#8 = i.size ∧ (x >>> 4 &&& 3#8).toNat = i.addresses.length ∧
      decide ((x >>> 6 &&& 1#8) = 1#8) = i.isBranch ∧ decide ((x >>> 7 &&& 1#8) = 1#8) = i.taken := by
  have hfields := simple_fields ⟨i.size.toNat, h.small⟩ ⟨i.addresses.length, h.length_lt⟩ i.isBranch i.taken x
  simp only [BitVec.ofNat_toNat, BitVec.setWidth_eq] at hfields
  exact hfields hx

theorem ext (h : i.Encodable) : extByte i.size >>> 4 = i.size ∧ extByte i.size &&& 0xf#8 = 0#8 ∧
    extByte i.size ≠ 0#8 := by
  have hfields := ext_size ⟨i.size.toNat, h.small⟩
  simp only [BitVec.ofNat_toNat, BitVec.setWidth_eq] at hfields
  refine ⟨hfields.1, hfields.2.1, hfields.2.2 fun hzero => ?_⟩
  exact absurd (congrArg Fin.val hzero) (Nat.ne_of_gt h.pos)

theorem flags (h : i.Encodable) {x : Byte}
    (hx : x = extFlags i.addresses.length i.isBranch i.taken i.isPredicate i.executed) :
    (x &&& 3#8).toNat = i.addresses.length ∧ decide ((x >>> 2 &&& 1#8) = 1#8) = i.isBranch ∧
      decide ((x >>> 3 &&& 1#8) = 1#8) = i.taken ∧ decide ((x >>> 4 &&& 1#8) = 1#8) = i.isPredicate ∧
      decide ((x >>> 5 &&& 1#8) = 1#8) = i.executed :=
  ext_fields ⟨i.addresses.length, h.length_lt⟩ i.isBranch i.taken i.isPredicate i.executed x hx

end Insn.Encodable

/-! ### Code and pages -/

section Code

variable {code : Word → Byte}

/-- Code is read piece by piece. -/
theorem getCode_add (code : Word → Byte) (x : Word) (m n : ℕ) :
    getCode code x (m + n) = getCode code x m ++ getCode code (x + BitVec.ofNat 64 m) n := by
  rw [getCode, List.range_add, List.map_append, List.map_map]
  congr 1
  apply List.map_congr_left
  intro k _
  simp only [Function.comp_apply, BitVec.ofNat_add, BitVec.add_assoc]

theorem getCode_zero (code : Word → Byte) (x : Word) : getCode code x 0 = [] := rfl

theorem getElem?_getCode {x : Word} {n k : ℕ} (hk : k < n) :
    (getCode code x n)[k]? = some (code (x + BitVec.ofNat 64 k)) := by
  simp [getCode, hk]

theorem offsetOf_lt (x : Word) : offsetOf x < icacheSize := by
  rw [offsetOf_eq]
  exact Nat.mod_lt _ (by decide)

/-- An address is its page and its offset. -/
theorem pageOf_add_offsetOf (x : Word) : pageOf x + BitVec.ofNat 64 (offsetOf x) = x := by
  apply BitVec.eq_of_toNat_eq
  rw [BitVec.toNat_add, toNat_pageOf, BitVec.toNat_ofNat, offsetOf_eq]
  have hlt := x.isLt
  omega

/-- Inside a page. -/
theorem page_add {x : Word} {k : ℕ} (hk : offsetOf x + k < 4096) :
    pageOf (x + BitVec.ofNat 64 k) = pageOf x ∧ offsetOf (x + BitVec.ofNat 64 k) = offsetOf x + k := by
  have hlt := x.isLt
  rw [offsetOf_eq] at hk
  have hadd : (x + BitVec.ofNat 64 k).toNat = x.toNat + k := by
    rw [BitVec.toNat_add, BitVec.toNat_ofNat]
    omega
  constructor
  · apply BitVec.eq_of_toNat_eq
    rw [toNat_pageOf, toNat_pageOf, hadd]
    omega
  · rw [offsetOf_eq, offsetOf_eq, hadd]
    omega

/-- The next page starts after the last byte of this one. -/
theorem page_next {x : Word} {m : ℕ} (hm : offsetOf x + m = 4096) :
    pageOf x + BitVec.ofNat 64 icacheSize = x + BitVec.ofNat 64 m ∧
      pageOf (x + BitVec.ofNat 64 m) = x + BitVec.ofNat 64 m ∧ offsetOf (x + BitVec.ofNat 64 m) = 0 := by
  have hlt := x.isLt
  rw [offsetOf_eq] at hm
  have hadd : (x + BitVec.ofNat 64 m).toNat = (x.toNat + m) % 2 ^ 64 := by
    rw [BitVec.toNat_add, BitVec.toNat_ofNat]
    omega
  refine ⟨?_, ?_, ?_⟩
  · apply BitVec.eq_of_toNat_eq
    rw [hadd, BitVec.toNat_add, toNat_pageOf, BitVec.toNat_ofNat, icacheSize]
    omega
  · apply BitVec.eq_of_toNat_eq
    rw [toNat_pageOf, hadd]
    omega
  · rw [offsetOf_eq, hadd]
    omega

/-- Addresses of one page differ by their offsets. -/
theorem eq_add_of_pageOf_eq {x z : Word} (hpage : pageOf z = pageOf x) (hle : offsetOf x ≤ offsetOf z) :
    z = x + BitVec.ofNat 64 (offsetOf z - offsetOf x) := by
  have hnat := congrArg BitVec.toNat hpage
  rw [toNat_pageOf, toNat_pageOf] at hnat
  rw [offsetOf_eq, offsetOf_eq] at hle ⊢
  apply BitVec.eq_of_toNat_eq
  rw [BitVec.toNat_add, BitVec.toNat_ofNat]
  have hz := z.isLt
  have hx := x.isLt
  omega

end Code

/-! ### Code that has arrived -/

/-- The reader has the byte of code at an address. -/
def Reader.HasByte (code : Word → Byte) (r : Reader) (x : Word) : Prop :=
  ∃ page, r.icache (pageOf x) = some page ∧ page (offsetOf x) = some (code x)

section Arrived

variable {code : Word → Byte} {r : Reader}

open Reader

/-- A page that agrees with the code, wherever it was right before. -/
theorem hasByte_update {base : Word} (page : Page)
    (hpage : ∀ y, pageOf y = base → (r.HasByte code y ∨ page (offsetOf y) = some (code y)) →
      page (offsetOf y) = some (code y)) {x : Word}
    (hx : r.HasByte code x ∨ (pageOf x = base ∧ page (offsetOf x) = some (code x))) :
    { r with icache := Function.update r.icache base (some page) }.HasByte code x := by
  by_cases hbase : pageOf x = base
  · refine ⟨page, by rw [hbase]; exact Function.update_self .., hpage x hbase ?_⟩
    exact hx.imp id And.right
  · obtain ⟨old, hold, hbyte⟩ := hx.resolve_right fun h => hbase h.1
    exact ⟨old, by rw [← hold]; exact Function.update_of_ne hbase .., hbyte⟩

/-- A whole page of code arrives. -/
theorem parses_page (code : Word → Byte) (base : Word) :
    ∃ r', Parses (readBody .icache ((8 + icacheSize) % 2 ^ 32) r) (wordBytes base ++ getCode code base icacheSize)
        (r', none) ∧
      (∀ x, r.HasByte code x ∨ pageOf x = base → r'.HasByte code x) ∧
      ∃ icache, r' = { r with icache := icache } := by
  have hcode : ∀ y, pageOf y = base → (getCode code base icacheSize)[offsetOf y]? = some (code y) := by
    intro y hy
    rw [getElem?_getCode (offsetOf_lt y), ← hy, pageOf_add_offsetOf]
  refine ⟨{ r with icache := Function.update r.icache base (some fun k => (getCode code base icacheSize)[k]?) },
    ?_, fun x hx => ?_, _, rfl⟩
  · refine Parses.check_bind rfl ?_
    exact (parses_word base).bind ((parses_bytes (length_getCode ..)).bind_nil (Parses.pure _))
  · refine hasByte_update (fun k => (getCode code base icacheSize)[k]?) (fun y hy _ => hcode y hy) ?_
    exact hx.imp id fun h => ⟨h, hcode x h⟩

/-- A piece of a page of code arrives. -/
theorem hasByte_storeCode (x : Word) {m : ℕ} (hm : offsetOf x + m ≤ icacheSize) {y : Word}
    (hy : r.HasByte code y ∨ ∃ k < m, y = x + BitVec.ofNat 64 k) :
    (r.storeCode x (getCode code x m)).HasByte code y := by
  have hpage : ∀ k < m, pageOf (x + BitVec.ofNat 64 k) = pageOf x ∧
      offsetOf (x + BitVec.ofNat 64 k) = offsetOf x + k := by
    intro k hk
    exact page_add (by rw [icacheSize] at hm; omega)
  have hnew : ∀ k < m, writePage ((r.icache (pageOf x)).getD fun _ => none) (offsetOf x) (getCode code x m)
      (offsetOf (x + BitVec.ofNat 64 k)) = some (code (x + BitVec.ofNat 64 k)) := by
    intro k hk
    rw [(hpage k hk).2, writePage, length_getCode, if_pos ⟨by omega, by omega⟩, Nat.add_sub_cancel_left,
      getElem?_getCode hk]
  refine hasByte_update _ (fun z hz hold => ?_) ?_
  · by_cases hin : offsetOf x ≤ offsetOf z ∧ offsetOf z < offsetOf x + m
    · rw [eq_add_of_pageOf_eq hz hin.1]
      exact hnew _ (by omega)
    · rcases hold with ⟨page, hold, hbyte⟩ | hbyte
      · rw [writePage, length_getCode, if_neg hin, ← hz, hold]
        exact hbyte
      · exact hbyte
  · refine hy.imp id fun h => ?_
    obtain ⟨k, hk, rfl⟩ := h
    exact ⟨(hpage k hk).1, hnew k hk⟩

/-- Code of any length arrives, page by page. -/
theorem parses_variable (code : Word → Byte) (fuel : ℕ) (x : Word) (n : ℕ) (hn : n ≤ fuel) (r : Reader) :
    ∃ r', Parses (readVariable fuel x n r) (getCode code x n) r' ∧
      (∀ y, (r.HasByte code y ∨ ∃ k < n, y = x + BitVec.ofNat 64 k) → r'.HasByte code y) ∧
      ∃ icache, r' = { r with icache := icache } := by
  induction fuel generalizing x n r with
  | zero =>
    obtain rfl : n = 0 := Nat.le_zero.1 hn
    refine ⟨r, Parses.pure r, fun y hy => ?_, _, rfl⟩
    exact hy.resolve_right fun h => by obtain ⟨k, hk, -⟩ := h; exact absurd hk (Nat.not_lt_zero k)
  | succ fuel ih =>
    rw [readVariable]
    by_cases hzero : n = 0
    · subst hzero
      refine ⟨r, Parses.pure r, fun y hy => ?_, _, rfl⟩
      exact hy.resolve_right fun h => by obtain ⟨k, hk, -⟩ := h; exact absurd hk (Nat.not_lt_zero k)
    · rw [if_neg hzero]
      -- one round takes what is left of the page
      have hoff := offsetOf_lt x
      obtain ⟨m, hm⟩ : ∃ m, m = min n (icacheSize - offsetOf x) := ⟨_, rfl⟩
      have hsplit := getCode_add code x m (n - m)
      rw [Nat.add_sub_cancel' (by omega)] at hsplit
      have hnext : n - m = 0 ∨ pageOf x + BitVec.ofNat 64 icacheSize = x + BitVec.ofNat 64 m := by
        by_cases hall : n - m = 0
        · exact .inl hall
        · exact .inr (page_next (by rw [icacheSize] at hm hoff; omega)).1
      have hrest : getCode code (pageOf x + BitVec.ofNat 64 icacheSize) (n - m)
          = getCode code (x + BitVec.ofNat 64 m) (n - m) := by
        rcases hnext with hzero | heq
        · rw [hzero, getCode_zero, getCode_zero]
        · rw [heq]
      obtain ⟨r', hparses, hhas, icache, rfl⟩ := ih (pageOf x + BitVec.ofNat 64 icacheSize) (n - m) (by omega)
        (r.storeCode x (getCode code x m))
      refine ⟨_, ?_, fun y hy => hhas y ?_, icache, rfl⟩
      · rw [hsplit, ← hrest]
        refine (parses_bytes (by rw [length_getCode, hm])).bind ?_
        rw [length_getCode]
        exact hparses
      · rcases hy with hold | ⟨k, hk, rfl⟩
        · exact .inl (hasByte_storeCode x (by omega) (.inl hold))
        · by_cases hkm : k < m
          · exact .inl (hasByte_storeCode x (by omega) (.inr ⟨k, hkm, rfl⟩))
          · refine .inr ⟨k - m, by omega, ?_⟩
            rw [hnext.resolve_left (by omega), BitVec.add_assoc, ← BitVec.ofNat_add, Nat.add_sub_cancel' (by omega)]

/-- The code of one instruction arrives. -/
theorem parses_insn (code : Word → Byte) (x : Word) {n : ℕ} (hn : n < 16) :
    ∃ r', Parses (readBody .icacheVariable ((8 + n) % 2 ^ 32) r) (wordBytes x ++ getCode code x n) (r', none) ∧
      (∀ y, (r.HasByte code y ∨ ∃ k < n, y = x + BitVec.ofNat 64 k) → r'.HasByte code y) ∧
      ∃ icache, r' = { r with icache := icache } := by
  have hsize : sizeMinus ((8 + n) % 2 ^ 32) 8 = n := by
    rw [sizeMinus]
    omega
  obtain ⟨r', hparses, hhas⟩ := parses_variable code n x n (Nat.le_refl n) r
  refine ⟨r', ?_, hhas⟩
  refine (parses_word x).bind ?_
  rw [hsize]
  exact hparses.bind_nil (Parses.pure _)

/-- The code of an instruction is put together from the pages. -/
theorem copyCode_eq (fuel : ℕ) (x : Word) (n : ℕ) (hn : n ≤ fuel)
    (hhas : ∀ k < n, r.HasByte code (x + BitVec.ofNat 64 k)) :
    copyCode r.icache fuel (pageOf x) (offsetOf x) n = some ((getCode code x n).map some) := by
  induction fuel generalizing x n with
  | zero =>
    obtain rfl : n = 0 := Nat.le_zero.1 hn
    rfl
  | succ fuel ih =>
    rw [copyCode]
    by_cases hzero : n = 0
    · rw [if_pos hzero, hzero]
      rfl
    · rw [if_neg hzero]
      obtain ⟨page, hpage, -⟩ := hhas 0 (by omega)
      rw [BitVec.add_zero] at hpage
      have hoff := offsetOf_lt x
      obtain ⟨m, hm⟩ : ∃ m, m = min n (icacheSize - offsetOf x) := ⟨_, rfl⟩
      have hchunk : (List.range m).map (fun k => page (offsetOf x + k)) = (getCode code x m).map some := by
        rw [getCode, List.map_map]
        apply List.map_congr_left
        intro k hk
        have hkm := List.mem_range.1 hk
        obtain ⟨page', hpage', hbyte⟩ := hhas k (by omega)
        have hin := page_add (x := x) (k := k) (by rw [icacheSize] at hm hoff; omega)
        rw [hin.1, hpage] at hpage'
        rw [hin.2] at hbyte
        cases hpage'
        exact hbyte
      have hsplit := getCode_add code x m (n - m)
      rw [Nat.add_sub_cancel' (by omega)] at hsplit
      simp only [hpage, ← hm, hchunk]
      rw [hsplit, List.map_append]
      by_cases hall : n - m = 0
      · rw [hall, getCode_zero]
        cases fuel <;> simp [copyCode]
      · have hnext := page_next (x := x) (m := m) (by rw [icacheSize] at hm hoff; omega)
        have hrest := ih (x + BitVec.ofNat 64 m) (n - m) (by omega) fun k hk => by
          rw [BitVec.add_assoc, ← BitVec.ofNat_add]
          exact hhas (m + k) (by omega)
        rw [hnext.2.1, hnext.2.2] at hrest
        rw [hnext.1, hrest, Option.map_some]

end Arrived

end LifeSim.Sift
