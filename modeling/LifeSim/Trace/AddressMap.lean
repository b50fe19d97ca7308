import LifeSim.Cache.Address
import LifeSim.Lib.Shuffle

/-!
# The address spaces of the applications

`trace_thread.cc`: without physical addresses in the trace a virtual address is placed in the space of its application.
The id of the application is combined with the address by a bitwise or, on the highest 16 of 64 bits. Without
randomisation these bits of the address are cleared before. With randomisation they are not: the number
of the page keeps its bits from 24 on, and with them the highest 16 bits of the address.
-/

namespace LifeSim.Trace

open LifeSim.Lib

/-- The table of `TraceThread::TraceThread`, from what the memory held and the values of `rng_next` in their order. -/
def addressRandomizationTable (memory : ℕ → ℕ) (random : ℕ → ℕ) : ℕ → ℕ :=
  shuffle memory (fun i => random (i - 1) % (i + 1) % 256) 256

/-- The values of `rng_next` after the seed of an application. -/
def randomOf (app i : ℕ) : ℕ :=
  (Cache.rngValue (Cache.rngState^[i + 1] (Cache.rngSeed (BitVec.ofNat 64 app)))).toNat

/-- What `va2pa` reads of a `TraceThread` whose trace has no physical addresses. -/
structure AddressMap where
  appId : ℕ
  /-- `m_address_randomization`. -/
  addressRandomization : Bool
  /-- `m_address_randomization_table`. -/
  table : ℕ → ℕ

/-- The map that the constructor makes. -/
def AddressMap.new (appId : ℕ) (addressRandomization : Bool) (memory random : ℕ → ℕ) : AddressMap where
  appId := appId
  addressRandomization := addressRandomization
  table := if addressRandomization then addressRandomizationTable memory random else memory

namespace AddressMap

/-- `remapAddress`: the three low bytes are replaced. -/
def remapAddress (m : AddressMap) (vaPage : ℕ) : ℕ :=
  vaPage / 16777216 * 16777216 + m.table (vaPage / 65536 % 256) * 65536 + m.table (vaPage / 256 % 256) * 256 +
    m.table (vaPage % 256)

/-- `va2pa`, where `pa_core_shift` is 48 and `va_page_shift` is 12. -/
def va2pa (m : AddressMap) (va : ℕ) : ℕ :=
  if m.addressRandomization then
    (m.appId <<< 48 % 2 ^ 64) ||| (m.remapAddress (va >>> 12) <<< 12 % 2 ^ 64) ||| (va &&& 4095)
  else (m.appId <<< 48 % 2 ^ 64) ||| (va &&& (2 ^ 48 - 1))

/-- What becomes of the low 48 bits of an address. -/
def place (m : AddressMap) (low : ℕ) : ℕ :=
  if m.addressRandomization then m.remapAddress (low / 4096) * 4096 + low % 4096 else low

/-- What becomes of the high 16 bits. -/
def space (m : AddressMap) (high : ℕ) : ℕ :=
  m.appId % 65536 ||| if m.addressRandomization then high else 0

variable {m : AddressMap}

/-- The bytes of a number. -/
theorem eq_of_bytes {x y : ℕ} (hhigh : x / 16777216 = y / 16777216) (htwo : x / 65536 % 256 = y / 65536 % 256)
    (hone : x / 256 % 256 = y / 256 % 256) (hzero : x % 256 = y % 256) : x = y := by
  omega

/-- A remapped page stays within the 36 bits. -/
theorem remapAddress_lt (h : Set.MapsTo m.table (Set.Iio 256) (Set.Iio 256)) {page : ℕ} (hp : page < 2 ^ 36) :
    m.remapAddress page < 2 ^ 36 := by
  have hbyte (b : ℕ) : m.table (b % 256) < 256 := h (Nat.mod_lt b (by decide))
  have htwo := hbyte (page / 65536)
  have hone := hbyte (page / 256)
  have hzero := hbyte page
  unfold remapAddress
  omega

/-- The bits from 36 on are kept. -/
theorem remapAddress_add (high page : ℕ) :
    m.remapAddress (high * 2 ^ 36 + page) = high * 2 ^ 36 + m.remapAddress page := by
  have htwo : (high * 2 ^ 36 + page) / 65536 % 256 = page / 65536 % 256 := by omega
  have hone : (high * 2 ^ 36 + page) / 256 % 256 = page / 256 % 256 := by omega
  have hzero : (high * 2 ^ 36 + page) % 256 = page % 256 := by omega
  unfold remapAddress
  rw [htwo, hone, hzero]
  omega

/-- The remapping is a permutation of the pages. -/
theorem bijOn_remapAddress (h : Set.BijOn m.table (Set.Iio 256) (Set.Iio 256)) :
    Set.BijOn m.remapAddress (Set.Iio (2 ^ 36)) (Set.Iio (2 ^ 36)) := by
  have hbyte (b : ℕ) : m.table (b % 256) < 256 := h.mapsTo (Nat.mod_lt b (by decide))
  have hinj (b c : ℕ) (hbc : m.table (b % 256) = m.table (c % 256)) : b % 256 = c % 256 :=
    h.injOn (Nat.mod_lt b (by decide)) (Nat.mod_lt c (by decide)) hbc
  have hsurj (v : ℕ) : ∃ b < 256, m.table b = v % 256 := h.surjOn (Nat.mod_lt v (by decide))
  refine ⟨fun page hp => remapAddress_lt h.mapsTo hp, fun x _ y _ hxy => ?_, fun v hv => ?_⟩
  · have hx := And.intro (hbyte (x / 65536)) (And.intro (hbyte (x / 256)) (hbyte x))
    have hy := And.intro (hbyte (y / 65536)) (And.intro (hbyte (y / 256)) (hbyte y))
    unfold remapAddress at hxy
    exact eq_of_bytes (by omega) (hinj _ _ (by omega)) (hinj _ _ (by omega)) (hinj _ _ (by omega))
  · rw [Set.mem_Iio] at hv
    obtain ⟨b₂, hb₂, hv₂⟩ := hsurj (v / 65536)
    obtain ⟨b₁, hb₁, hv₁⟩ := hsurj (v / 256)
    obtain ⟨b₀, hb₀, hv₀⟩ := hsurj v
    refine ⟨v / 16777216 * 16777216 + b₂ * 65536 + b₁ * 256 + b₀, by rw [Set.mem_Iio]; omega, ?_⟩
    have htwo : (v / 16777216 * 16777216 + b₂ * 65536 + b₁ * 256 + b₀) / 65536 % 256 = b₂ := by omega
    have hone : (v / 16777216 * 16777216 + b₂ * 65536 + b₁ * 256 + b₀) / 256 % 256 = b₁ := by omega
    have hzero : (v / 16777216 * 16777216 + b₂ * 65536 + b₁ * 256 + b₀) % 256 = b₀ := by omega
    unfold remapAddress
    rw [htwo, hone, hzero, hv₂, hv₁, hv₀]
    omega

/-- The low 48 bits are permuted. -/
theorem bijOn_place (h : m.addressRandomization = true → Set.BijOn m.table (Set.Iio 256) (Set.Iio 256)) :
    Set.BijOn m.place (Set.Iio (2 ^ 48)) (Set.Iio (2 ^ 48)) := by
  cases hr : m.addressRandomization with
  | false =>
    have hid : m.place = id := by
      funext low
      simp [place, hr]
    rw [hid]
    exact Set.bijOn_id _
  | true =>
    have hpage := bijOn_remapAddress (h hr)
    have hlt (low : ℕ) (hl : low < 2 ^ 48) : m.remapAddress (low / 4096) < 2 ^ 36 :=
      hpage.mapsTo (show low / 4096 < 2 ^ 36 by omega)
    have heq (low : ℕ) : m.place low = m.remapAddress (low / 4096) * 4096 + low % 4096 := by
      simp [place, hr]
    refine ⟨fun low hl => ?_, fun x hx y hy hxy => ?_, fun v hv => ?_⟩
    · have := hlt low hl
      rw [heq, Set.mem_Iio]
      omega
    · rw [Set.mem_Iio] at hx hy
      rw [heq, heq] at hxy
      have hpages : x / 4096 = y / 4096 :=
        hpage.injOn (show x / 4096 < 2 ^ 36 by omega) (show y / 4096 < 2 ^ 36 by omega) (by omega)
      omega
    · rw [Set.mem_Iio] at hv
      obtain ⟨page, hp, hpv⟩ := hpage.surjOn (show v / 4096 < 2 ^ 36 by omega)
      rw [Set.mem_Iio] at hp
      refine ⟨page * 4096 + v % 4096, by rw [Set.mem_Iio]; omega, ?_⟩
      have hdiv : (page * 4096 + v % 4096) / 4096 = page := by omega
      rw [heq, hdiv, hpv]
      omega

theorem place_mod (m : AddressMap) (low : ℕ) : m.place low % 4096 = low % 4096 := by
  unfold place
  split <;> omega

/-- An or with a number above 48 bits. -/
theorem or_add {low : ℕ} (x y : ℕ) (hl : low < 2 ^ 48) :
    (x * 2 ^ 48) ||| (y * 2 ^ 48 + low) = (x ||| y) * 2 ^ 48 + low := by
  rw [← Nat.shiftLeft_eq, ← Nat.shiftLeft_eq, ← Nat.shiftLeft_eq, Nat.shiftLeft_add_eq_or_of_lt hl,
    Nat.shiftLeft_add_eq_or_of_lt hl, Nat.shiftLeft_or_distrib, Nat.or_assoc]

/-- The two parts of a physical address. -/
theorem va2pa_eq (h : m.addressRandomization = true → Set.BijOn m.table (Set.Iio 256) (Set.Iio 256)) {high low : ℕ}
    (hh : high < 65536) (hl : low < 2 ^ 48) :
    m.va2pa (high * 2 ^ 48 + low) = m.space high * 2 ^ 48 + m.place low := by
  have happ : m.appId <<< 48 % 2 ^ 64 = m.appId % 65536 * 2 ^ 48 := by
    rw [Nat.shiftLeft_eq]
    omega
  unfold va2pa space place
  cases hr : m.addressRandomization with
  | false =>
    have hmask : (high * 2 ^ 48 + low) &&& (2 ^ 48 - 1) = low := by
      rw [Nat.and_two_pow_sub_one_eq_mod]
      omega
    have hor := or_add (m.appId % 65536) 0 hl
    simp only [Nat.zero_mul, Nat.zero_add] at hor
    simp only [Bool.false_eq_true, if_false, happ, hmask, hor]
  | true =>
    have hpage : (high * 2 ^ 48 + low) >>> 12 = high * 2 ^ 36 + low / 4096 := by
      rw [Nat.shiftRight_eq_div_pow]
      omega
    have hlt : m.remapAddress (low / 4096) < 2 ^ 36 :=
      remapAddress_lt (h hr).mapsTo (show low / 4096 < 2 ^ 36 by omega)
    have hlow : m.remapAddress (low / 4096) * 4096 + low % 4096 < 2 ^ 48 := by omega
    have hshift : (high * 2 ^ 36 + m.remapAddress (low / 4096)) <<< 12 % 2 ^ 64 =
        (high * 2 ^ 36 + m.remapAddress (low / 4096)) <<< 12 := by
      rw [Nat.shiftLeft_eq]
      omega
    have hmask : (high * 2 ^ 48 + low) &&& 4095 = low % 4096 := by
      have := Nat.and_two_pow_sub_one_eq_mod (high * 2 ^ 48 + low) 12
      simp only [Nat.reducePow, Nat.reduceSub] at this ⊢
      rw [this]
      omega
    have hjoin : (high * 2 ^ 36 + m.remapAddress (low / 4096)) <<< 12 ||| low % 4096 =
        high * 2 ^ 48 + (m.remapAddress (low / 4096) * 4096 + low % 4096) := by
      rw [← Nat.shiftLeft_add_eq_or_of_lt (show low % 4096 < 2 ^ 12 by omega), Nat.shiftLeft_eq]
      omega
    simp only [if_true, hpage, remapAddress_add, happ, hshift, hmask, Nat.or_assoc, hjoin]
    exact or_add _ _ hlow

/-- The table is a permutation of the bytes. -/
theorem bijOn_addressRandomizationTable (memory random : ℕ → ℕ) :
    Set.BijOn (addressRandomizationTable memory random) (Set.Iio 256) (Set.Iio 256) := by
  refine bijOn_shuffle memory (fun i => ?_) 256
  have := Nat.mod_le (random (i - 1) % (i + 1)) 256
  have := Nat.mod_lt (random (i - 1)) (show 0 < i + 1 by omega)
  omega

/-- The table of a constructed map. -/
theorem bijOn_table (appId : ℕ) (randomization : Bool) (memory random : ℕ → ℕ)
    (hr : (AddressMap.new appId randomization memory random).addressRandomization = true) :
    Set.BijOn (AddressMap.new appId randomization memory random).table (Set.Iio 256) (Set.Iio 256) := by
  have htrue : randomization = true := hr
  subst htrue
  exact bijOn_addressRandomizationTable memory random

end AddressMap

open AddressMap

/-- The table is a permutation of the bytes, every map is injective on the addresses below `2 ^ 48` and keeps the offset
in the page. The addresses of two applications with given highest bits are kept apart exactly when these bits do not
count or do not make up for the difference between the ids. -/
theorem addressSpaces_separate_iff (randomization : Bool) (memory random : ℕ → ℕ → ℕ) :
    (∀ app, Set.BijOn (addressRandomizationTable (memory app) (random app)) (Set.Iio 256) (Set.Iio 256)) ∧
    (∀ app, Set.InjOn (AddressMap.new app randomization (memory app) (random app)).va2pa (Set.Iio (2 ^ 48)) ∧
      ∀ va < 2 ^ 64, (AddressMap.new app randomization (memory app) (random app)).va2pa va % 4096 = va % 4096) ∧
    ∀ app other high high' : ℕ, app < 2 ^ 16 → other < 2 ^ 16 → app ≠ other → high < 2 ^ 16 → high' < 2 ^ 16 →
      ((∀ va va' : ℕ, va / 2 ^ 48 = high → va' / 2 ^ 48 = high' →
          (AddressMap.new app randomization (memory app) (random app)).va2pa va ≠
            (AddressMap.new other randomization (memory other) (random other)).va2pa va') ↔
        (randomization = true → app ||| high ≠ other ||| high')) := by
  have hsplit (va : ℕ) : va = va / 2 ^ 48 * 2 ^ 48 + va % 2 ^ 48 := by omega
  have hlow (va : ℕ) : va % 2 ^ 48 < 2 ^ 48 := Nat.mod_lt va (by decide)
  have hpa (app va : ℕ) (hva : va < 2 ^ 64) :
      (AddressMap.new app randomization (memory app) (random app)).va2pa va =
        (AddressMap.new app randomization (memory app) (random app)).space (va / 2 ^ 48) * 2 ^ 48 +
          (AddressMap.new app randomization (memory app) (random app)).place (va % 2 ^ 48) := by
    conv_lhs => rw [hsplit va]
    exact va2pa_eq (bijOn_table _ _ _ _) (by omega) (hlow va)
  have hbij (app : ℕ) := bijOn_place (bijOn_table app randomization (memory app) (random app))
  refine ⟨fun app => bijOn_addressRandomizationTable _ _, fun app => ⟨fun x hx y hy hxy => ?_, fun va hva => ?_⟩,
    fun app other high high' happ hother hne hh hh' => ?_⟩
  · rw [Set.mem_Iio] at hx hy
    have hzero (z : ℕ) (hz : z < 2 ^ 48) : z / 2 ^ 48 = 0 ∧ z % 2 ^ 48 = z := by omega
    rw [hpa app x (by omega), hpa app y (by omega), (hzero x hx).1, (hzero y hy).1, (hzero x hx).2, (hzero y hy).2] at hxy
    exact (hbij app).injOn hx hy (Nat.add_left_cancel hxy)
  · have hmod := place_mod (AddressMap.new app randomization (memory app) (random app)) (va % 2 ^ 48)
    rw [hpa app va hva]
    omega
  · have hspace (app high : ℕ) (happ : app < 2 ^ 16) :
        (AddressMap.new app randomization (memory app) (random app)).space high =
          app ||| if randomization then high else 0 := by
      have hmod : app % 65536 = app := Nat.mod_eq_of_lt happ
      change (app % 65536 ||| if randomization then high else 0) = _
      rw [hmod]
    have hplace (app low : ℕ) (hl : low < 2 ^ 48) :
        (AddressMap.new app randomization (memory app) (random app)).place low < 2 ^ 48 := (hbij app).mapsTo hl
    constructor
    · intro hsep hr heq
      -- two low parts that become the same
      obtain ⟨low, hl, hl0⟩ := (hbij app).surjOn (show 0 ∈ Set.Iio (2 ^ 48) by decide)
      obtain ⟨low', hl', hl0'⟩ := (hbij other).surjOn (show 0 ∈ Set.Iio (2 ^ 48) by decide)
      rw [Set.mem_Iio] at hl hl'
      refine hsep (high * 2 ^ 48 + low) (high' * 2 ^ 48 + low') (by omega) (by omega) ?_
      rw [va2pa_eq (bijOn_table _ _ _ _) hh hl, va2pa_eq (bijOn_table _ _ _ _) hh' hl', hl0, hl0',
        hspace app high happ, hspace other high' hother, if_pos hr, if_pos hr, heq]
    · intro hcond va va' hva hva' heq
      rw [hpa app va (by omega), hpa other va' (by omega), hva, hva', hspace app high happ,
        hspace other high' hother] at heq
      have hp := hplace app (va % 2 ^ 48) (hlow va)
      have hp' := hplace other (va' % 2 ^ 48) (hlow va')
      cases hr : randomization with
      | true =>
        subst hr
        simp only [if_true] at heq hp hp'
        exact hcond rfl (by omega)
      | false =>
        subst hr
        simp only [Bool.false_eq_true, if_false, Nat.or_zero] at heq hp hp'
        exact hne (by omega)

/-- Applications 0 and 1 with addresses of the highest page range: all high bits are set in both. -/
theorem addressSpaces_separate_high :
    ¬ ∀ va va' : ℕ, va / 2 ^ 48 = 65535 → va' / 2 ^ 48 = 65535 →
      (AddressMap.new 0 true (fun _ => 0) (randomOf 0)).va2pa va ≠
        (AddressMap.new 1 true (fun _ => 0) (randomOf 1)).va2pa va' := by
  intro h
  exact ((addressSpaces_separate_iff true (fun _ _ => 0) randomOf).2.2 0 1 65535 65535 (by decide) (by decide)
    (by decide) (by decide) (by decide)).1 h rfl (by decide)

/-- The page of `vsyscall` in application 1 and another page of application 0. -/
theorem addressSpaces_collide :
    ¬ ∀ app other va va' : ℕ, app < 2 ^ 16 → other < 2 ^ 16 → app ≠ other → va < 2 ^ 64 → va' < 2 ^ 64 →
      (AddressMap.new app true (fun _ => 0) (randomOf app)).va2pa va ≠
        (AddressMap.new other true (fun _ => 0) (randomOf other)).va2pa va' := by
  intro h
  refine h 1 0 0xffffffffff600000 0xfffffff6e41be000 (by decide) (by decide) (by decide) (by decide) (by decide) ?_
  decide +kernel

end LifeSim.Trace
