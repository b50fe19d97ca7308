import LifeSim.Cache.Lines

/-!
# A cache is a partial map

Every valid tag stands in the set that its addresses belong to, and in one way only. So a cache is a partial map from
blocks to lines: an insertion adds a line and removes the one that it reports, an invalidation removes one, and no call
changes another line. The tag of a block that is not valid must not be the tag of an address; it is one for blocks of one
byte only.
-/

set_option linter.dupNamespace false

namespace LifeSim.Cache

open LifeSim.Lib

/-- The tags of a set belong there, and no tag stands in two ways. -/
structure SetOk (base : CacheBase) (index : ℕ) (s : CacheSet) : Prop where
  unique : s.Unique
  placed : ∀ i < s.associativity, (s.blocks i).tag ≠ invalidTag →
    ∃ a, base.tag a = (s.blocks i).tag ∧ base.setIndex a = index

namespace SetOk

variable {base : CacheBase} {index i : ℕ} {s s' : CacheSet} {b : CacheBlockInfo} {d : Bytes}

theorem new (base : CacheBase) (index associativity blocksize : ℕ) (hasData : Bool) (replacement : Replacement) :
    SetOk base index (CacheSet.new associativity blocksize hasData replacement) :=
  ⟨CacheSet.unique_new associativity blocksize hasData replacement, fun _ _ h => absurd rfl h⟩

theorem setWay (h : SetOk base index s) (hfits : s.Fits i b)
    (hplaced : b.tag ≠ invalidTag → ∃ a, base.tag a = b.tag ∧ base.setIndex a = index) :
    SetOk base index (s.setWay i b d) := by
  refine ⟨h.unique.setWay hfits, fun j hj hvalid => ?_⟩
  by_cases hji : j = i
  · rw [hji, CacheSet.setWay_self] at hvalid ⊢
    exact hplaced hvalid
  · rw [CacheSet.setWay_of_ne s hji] at hvalid ⊢
    exact h.placed j hj hvalid

/-- A block whose tag stays where it was. -/
theorem fits_of_tag (h : SetOk base index s) (hi : i < s.associativity) (htag : b.tag = (s.blocks i).tag) :
    s.Fits i b := by
  by_cases hvalid : b.tag = invalidTag
  · exact .inl hvalid
  · refine .inr fun j hj hne hj' => hne ?_
    exact h.unique j hj i hi (hj' ▸ hvalid) (hj'.trans htag)

theorem setWay_of_tag (h : SetOk base index s) (hi : i < s.associativity) (htag : b.tag = (s.blocks i).tag) :
    SetOk base index (s.setWay i b d) := by
  refine h.setWay (h.fits_of_tag hi htag) fun hvalid => ?_
  rw [htag] at hvalid ⊢
  exact h.placed i hi hvalid

end SetOk

/-- The state of the replacement does not matter. -/
structure SameLines (s s' : CacheSet) : Prop where
  associativity : s'.associativity = s.associativity
  hasData : s'.hasData = s.hasData
  blocks : s'.blocks = s.blocks
  data : s'.data = s.data

namespace SameLines

variable {base : CacheBase} {index : ℕ} {s s' : CacheSet}

theorem refl (s : CacheSet) : SameLines s s := ⟨rfl, rfl, rfl, rfl⟩

theorem lookup (h : SameLines s s') (t : BitVec 64) : s'.lookup t = s.lookup t := by
  obtain ⟨hassoc, hdata, hblocks, hbytes⟩ := h
  have hcontent : s'.content = s.content := by
    funext i
    rw [CacheSet.content, CacheSet.content, hdata, hblocks, hbytes]
  rw [CacheSet.lookup, CacheSet.lookup, CacheSet.find, CacheSet.find, hassoc, hblocks, hcontent]

theorem setOk (h : SameLines s s') (hs : SetOk base index s) : SetOk base index s' := by
  obtain ⟨hassoc, -, hblocks, -⟩ := h
  refine ⟨?_, ?_⟩
  · rw [CacheSet.Unique, hassoc, hblocks]
    exact hs.unique
  · rw [hassoc, hblocks]
    exact hs.placed

theorem of_touchWay {line : ℕ} {update : Bool} (h : s.touchWay line update = .ok s') : SameLines s s' := by
  rw [CacheSet.touchWay] at h
  split_ifs at h
  · obtain ⟨r, -, hr⟩ := exists_of_bind_ok h
    cases hr
    exact ⟨rfl, rfl, rfl, rfl⟩
  · cases h
    exact refl s

end SameLines

/-! ### What the operations of a set do -/

section Operations

variable {base : CacheBase} {index : ℕ} {s s' : CacheSet} {t : BitVec 64}

/-- Removing a line. -/
theorem SetOk.invalidate (h : SetOk base index s) (ht : t ≠ invalidTag) :
    (s.invalidate t).1 = (s.lookup t).isSome ∧ SetOk base index (s.invalidate t).2 ∧
      ∀ u, u ≠ invalidTag → (s.invalidate t).2.lookup u = if u = t then none else s.lookup u := by
  rw [CacheSet.invalidate]
  cases hfind : s.find t with
  | none =>
    have hnone : s.lookup t = none := CacheSet.lookup_eq_none.2 (CacheSet.find_none.1 hfind)
    refine ⟨by rw [hnone]; rfl, h, fun u _ => ?_⟩
    split_ifs with hu
    · rw [hu]
      exact hnone
    · rfl
  | some i =>
    obtain ⟨hi, htag⟩ := CacheSet.find_some hfind
    have hfits : s.Fits i (s.blocks i).invalidate := .inl rfl
    refine ⟨by rw [CacheSet.lookup_of_tag h.unique ht hi htag]; rfl, h.setWay hfits fun hne => absurd rfl hne,
      fun u hu => ?_⟩
    change (s.setWay i (s.blocks i).invalidate (s.data i)).lookup u = _
    rw [CacheSet.lookup_setWay h.unique hi hfits hu, if_neg (show u ≠ (s.blocks i).invalidate.tag from hu), htag]

/-- Changing the block or the data of a line, but not its tag. -/
theorem SetOk.change {i : ℕ} {b : CacheBlockInfo} {d : Bytes} (h : SetOk base index s)
    (hi : i < s.associativity) (htag : (s.blocks i).tag = t) (hb : b.tag = t) :
    SetOk base index (s.setWay i b d) ∧ ∀ u, u ≠ invalidTag → (s.setWay i b d).lookup u =
      if u = t then some ⟨b, if s.hasData then some d else none⟩ else s.lookup u := by
  have hsame : b.tag = (s.blocks i).tag := hb.trans htag.symm
  refine ⟨h.setWay_of_tag hi hsame, fun u hu => ?_⟩
  rw [CacheSet.lookup_setWay h.unique hi (h.fits_of_tag hi hsame) hu, hb, htag]
  split_ifs <;> rfl

/-- Adding a line. -/
theorem SetOk.insert {block : CacheBlockInfo} {fill : Option Bytes} {calls : ℕ} {answers : Answers}
    {evicted : Option CacheLine} (h : SetOk base index s) (hvalid : block.tag ≠ invalidTag)
    (hplaced : ∃ a, base.tag a = block.tag ∧ base.setIndex a = index) (habsent : s.lookup block.tag = none)
    (hinsert : s.insert block fill calls answers = .ok (evicted, s')) :
    SetOk base index s' ∧
      (∃ data, s'.lookup block.tag = some ⟨block, data⟩ ∧ ∀ d, s.hasData = true → fill = some d → data = some d) ∧
      (evicted = none → ∀ u, u ≠ invalidTag → u ≠ block.tag → s'.lookup u = s.lookup u) ∧
      ∀ l, evicted = some l → l.info.tag ≠ invalidTag ∧ (∃ a, base.tag a = l.info.tag ∧ base.setIndex a = index) ∧
        s.lookup l.info.tag = some l ∧ l.info.tag ≠ block.tag ∧
        ∀ u, u ≠ invalidTag → u ≠ block.tag → s'.lookup u = if u = l.info.tag then none else s.lookup u := by
  obtain ⟨⟨i, replacement⟩, -, hrest⟩ := exists_of_bind_ok hinsert
  obtain ⟨u, hin, hresult⟩ := exists_of_bind_ok hrest
  have hi : i < s.associativity := require_eq_ok_iff.1 hin
  have hfits : s.Fits i block := .inr fun j hj _ => CacheSet.lookup_eq_none.1 habsent j hj
  cases hresult
  -- the set with the new replacement state holds the same lines
  have hsame (d : Bytes) : SameLines (s.setWay i block d) { s.setWay i block d with replacement } := ⟨rfl, rfl, rfl, rfl⟩
  have hlookup (d : Bytes) (u : BitVec 64) (hu : u ≠ invalidTag) : CacheSet.lookup
      { s.setWay i block d with replacement } u = if u = block.tag then some ⟨block, if s.hasData then some d else none⟩
        else if u = (s.blocks i).tag then none else s.lookup u := by
    rw [(hsame d).lookup, CacheSet.lookup_setWay h.unique hi hfits hu]
  refine ⟨(hsame _).setOk (h.setWay hfits fun _ => hplaced), ?_, fun hnone u hu hne => ?_, fun l hl => ?_⟩
  · rw [hlookup _ _ hvalid, if_pos rfl]
    refine ⟨_, rfl, fun d hdata hfill => ?_⟩
    rw [if_pos hdata, if_pos hdata, hfill]
    rfl
  · have hinvalid : (s.blocks i).tag = invalidTag := by
      split_ifs at hnone with hblock
      simpa [CacheBlockInfo.isValid] using hblock
    rw [hlookup _ u hu, if_neg hne, hinvalid, if_neg hu]
  · split_ifs at hl with hblock
    cases hl
    have hold : (s.blocks i).tag ≠ invalidTag := by simpa [CacheBlockInfo.isValid] using hblock
    refine ⟨hold, h.placed i hi hold, CacheSet.lookup_of_tag h.unique hold hi rfl,
      CacheSet.lookup_eq_none.1 habsent i hi, fun u hu hne => ?_⟩
    rw [hlookup _ u hu, if_neg hne]
    rfl

end Operations

/-! ### What the operations of a cache do -/

/-- All sets are in order. -/
def CacheOk (c : Cache) : Prop := ∀ index, SetOk c.base index (c.sets index)

namespace Cache

variable {c c' : Cache} {addr a : Address} {s : CacheSet}

theorem lookup_congr (h : c.base.tag a = c.base.tag addr) : c.lookup a = c.lookup addr := by
  rw [lookup, lookup, set, set, CacheBase.setIndex_congr h, h]

theorem set_setSet (c : Cache) (addr : Address) (s : CacheSet) : (c.setSet addr s).set addr = s := Function.update_self ..

/-- A change of one set is seen at the addresses that belong to it. -/
theorem lookup_setSet_eq (c : Cache) (addr a : Address) (s : CacheSet) : (c.setSet addr s).lookup a =
    if c.base.setIndex a = c.base.setIndex addr then s.lookup (c.base.tag a) else c.lookup a := by
  change (Function.update c.sets (c.base.setIndex addr) s (c.base.setIndex a)).lookup (c.base.tag a) = _
  split_ifs with hindex
  · rw [hindex, Function.update_self]
  · rw [Function.update_of_ne hindex]
    rfl

/-- A change that keeps the other tags of the set does not change another line. -/
theorem lookup_setSet (hs : ∀ u, u ≠ invalidTag → u ≠ c.base.tag addr → s.lookup u = (c.set addr).lookup u)
    (ha : c.base.tag a ≠ invalidTag) :
    (c.setSet addr s).lookup a = if c.base.tag a = c.base.tag addr then s.lookup (c.base.tag addr) else c.lookup a := by
  rw [lookup_setSet_eq]
  by_cases htag : c.base.tag a = c.base.tag addr
  · rw [if_pos htag, if_pos (CacheBase.setIndex_congr htag), htag]
  · rw [if_neg htag]
    split_ifs with hindex
    · rw [hs _ ha htag, lookup, set, set, hindex]
    · rfl

end Cache

namespace CacheOk

variable {c c' : Cache} {addr a : Address} {s : CacheSet}

theorem setSet (h : CacheOk c) (hs : SetOk c.base (c.base.setIndex addr) s) : CacheOk (c.setSet addr s) := by
  intro index
  by_cases hindex : index = c.base.setIndex addr
  · rw [hindex]
    change SetOk c.base _ (Function.update c.sets (c.base.setIndex addr) s (c.base.setIndex addr))
    rwa [Function.update_self]
  · change SetOk c.base index (Function.update c.sets (c.base.setIndex addr) s index)
    rw [Function.update_of_ne hindex]
    exact h index

theorem new (base : CacheBase) (hasData : Bool) (replacements : ℕ → Replacement) :
    CacheOk (Cache.new base hasData replacements) :=
  fun index => SetOk.new base index base.associativity base.blocksize hasData (replacements index)

theorem invalidateSingleLine {found : Bool} (h : CacheOk c) (hvalid : c.base.tag addr ≠ invalidTag)
    (hcall : c.invalidateSingleLine addr = .ok (found, c')) :
    c'.base = c.base ∧ CacheOk c' ∧ found = (c.lookup addr).isSome ∧
      ∀ a, c.base.tag a ≠ invalidTag → c'.lookup a = if c.base.tag a = c.base.tag addr then none else c.lookup a := by
  obtain ⟨u, -, hresult⟩ := exists_of_bind_ok hcall
  obtain ⟨rfl, rfl⟩ : found = ((c.set addr).invalidate (c.base.tag addr)).1 ∧
      c' = c.setSet addr ((c.set addr).invalidate (c.base.tag addr)).2 := by
    cases hresult
    exact ⟨rfl, rfl⟩
  have hset : SetOk c.base (c.base.setIndex addr) (c.set addr) := h _
  obtain ⟨hfound, hok, hlookup⟩ := hset.invalidate hvalid
  refine ⟨rfl, h.setSet hok, hfound, fun a ha => ?_⟩
  rw [Cache.lookup_setSet (fun u hu hne => by rw [hlookup u hu, if_neg hne]) ha, hlookup _ hvalid, if_pos rfl]

theorem setCacheState (h : CacheOk c) (hvalid : c.base.tag addr ≠ invalidTag) (cstate : CState) :
    (c.setCacheState addr cstate).base = c.base ∧ CacheOk (c.setCacheState addr cstate) ∧
      ∀ a, c.base.tag a ≠ invalidTag → (c.setCacheState addr cstate).lookup a =
        if c.base.tag a = c.base.tag addr then (c.lookup addr).map fun l => ⟨{ l.info with cstate }, l.data⟩
        else c.lookup a := by
  rw [Cache.setCacheState]
  cases hfind : (c.set addr).find (c.base.tag addr) with
  | none =>
    have hnone : c.lookup addr = none := CacheSet.lookup_eq_none.2 (CacheSet.find_none.1 hfind)
    refine ⟨rfl, h, fun a _ => ?_⟩
    split_ifs with htag
    · rw [Cache.lookup_congr htag, hnone]
      rfl
    · rfl
  | some i =>
    obtain ⟨hi, htag⟩ := CacheSet.find_some hfind
    have hset : SetOk c.base (c.base.setIndex addr) (c.set addr) := h _
    obtain ⟨hok, hlookup⟩ := hset.change (b := { (c.set addr).blocks i with cstate })
      (d := (c.set addr).data i) hi htag htag
    refine ⟨rfl, h.setSet hok, fun a ha => ?_⟩
    have hline : c.lookup addr = some ((c.set addr).content i) := CacheSet.lookup_of_tag hset.unique hvalid hi htag
    dsimp only
    rw [Cache.lookup_setSet (fun u hu hne => by rw [hlookup u hu, if_neg hne]) ha, hlookup _ hvalid, if_pos rfl, hline]
    rfl

/-- An access does not change a tag, and what it changes in the data is in its own line. -/
theorem accessSingleLine {type : AccessType} {buff : Option Bytes} {bytes : ℕ} {update : Bool}
    {found : Option (CacheBlockInfo × Option (List (BitVec 8)))} (h : CacheOk c) (hvalid : c.base.tag addr ≠ invalidTag)
    (hcall : c.accessSingleLine addr type buff bytes update = .ok (found, c')) :
    c'.base = c.base ∧ CacheOk c' ∧ found.map Prod.fst = (c.lookup addr).map CacheLine.info ∧
      (∀ a, c.base.tag a ≠ invalidTag → c.base.tag a ≠ c.base.tag addr ∨ type = .load → c'.lookup a = c.lookup a) ∧
      (c'.lookup addr).map CacheLine.info = (c.lookup addr).map CacheLine.info := by
  have hset : SetOk c.base (c.base.setIndex addr) (c.set addr) := h _
  rw [Cache.accessSingleLine] at hcall
  cases hfind : (c.set addr).find (c.base.tag addr) with
  | none =>
    have hnone : c.lookup addr = none := CacheSet.lookup_eq_none.2 (CacheSet.find_none.1 hfind)
    rw [hfind] at hcall
    cases hcall
    exact ⟨rfl, h, by rw [hnone]; rfl, fun _ _ _ => rfl, rfl⟩
  | some line =>
    obtain ⟨hi, htag⟩ := CacheSet.find_some hfind
    have hline : c.lookup addr = some ((c.set addr).content line) := CacheSet.lookup_of_tag hset.unique hvalid hi htag
    rw [hfind] at hcall
    cases type with
    | load =>
      obtain ⟨⟨out, s⟩, hread, hresult⟩ := exists_of_bind_ok hcall
      obtain ⟨-, -, hrest⟩ := exists_of_bind_ok hread
      obtain ⟨s', htouch, hs⟩ := exists_of_bind_ok hrest
      cases hs
      cases hresult
      have hsame := SameLines.of_touchWay htouch
      have hlookup : ∀ a, c.base.tag a ≠ invalidTag → (c.setSet addr s).lookup a = c.lookup a := by
        intro a ha
        rw [Cache.lookup_setSet (fun u _ _ => hsame.lookup u) ha, hsame.lookup]
        split_ifs with hsametag
        · exact (Cache.lookup_congr hsametag).symm
        · rfl
      refine ⟨rfl, h.setSet (hsame.setOk hset), by rw [hline]; rfl, fun a ha _ => hlookup a ha, ?_⟩
      rw [hlookup addr hvalid]
    | store =>
      obtain ⟨s, hwrite, hresult⟩ := exists_of_bind_ok hcall
      obtain ⟨-, -, htouch⟩ := exists_of_bind_ok hwrite
      cases hresult
      have hsame := SameLines.of_touchWay htouch
      obtain ⟨hok, hlookup⟩ := @SetOk.change _ _ _ _ _ ((c.set addr).blocks line) (if (c.set addr).hasData then
        (buff.map (CacheSet.overwrite ((c.set addr).data line) (c.base.blockOffset addr) bytes)).getD
          ((c.set addr).data line) else (c.set addr).data line) hset hi htag htag
      have hother : ∀ u, u ≠ invalidTag → u ≠ c.base.tag addr → s.lookup u = (c.set addr).lookup u := by
        intro u hu hne
        rw [hsame.lookup, hlookup u hu, if_neg hne]
      refine ⟨rfl, h.setSet (hsame.setOk hok), by rw [hline]; rfl, fun a ha hne => ?_, ?_⟩
      · rw [Cache.lookup_setSet hother ha, if_neg (hne.resolve_right (by decide))]
      · rw [Cache.lookup_setSet hother hvalid, if_pos rfl, hsame.lookup, hlookup _ hvalid, if_pos rfl, hline]
        rfl

theorem insertSingleLine {fill : Option Bytes} {calls : ℕ} {answers : Answers} {eviction : Option Eviction}
    (h : CacheOk c) (hvalid : c.base.tag addr ≠ invalidTag) (habsent : c.lookup addr = none)
    (hcall : c.insertSingleLine addr fill calls answers = .ok (eviction, c')) :
    c'.base = c.base ∧ CacheOk c' ∧
      (∃ data, c'.lookup addr = some ⟨{ CacheBlockInfo.create with tag := c.base.tag addr }, data⟩ ∧
        ∀ d, (c.set addr).hasData = true → fill = some d → data = some d) ∧
      (eviction = none → ∀ a, c.base.tag a ≠ invalidTag → c.base.tag a ≠ c.base.tag addr → c'.lookup a = c.lookup a) ∧
      ∀ e, eviction = some e → c.base.tag e.addr ≠ invalidTag ∧ c.lookup e.addr = some e.line ∧
        c.base.tag e.addr ≠ c.base.tag addr ∧ ∀ a, c.base.tag a ≠ invalidTag → c.base.tag a ≠ c.base.tag addr →
          c'.lookup a = if c.base.tag a = c.base.tag e.addr then none else c.lookup a := by
  obtain ⟨⟨evicted, s⟩, hinsert, hresult⟩ := exists_of_bind_ok hcall
  have hset : SetOk c.base (c.base.setIndex addr) (c.set addr) := h _
  obtain ⟨hok, ⟨data, hnew, hfill⟩, hnone, hsome⟩ := @SetOk.insert c.base _ (c.set addr) s
    { CacheBlockInfo.create with tag := c.base.tag addr } fill calls answers evicted hset hvalid ⟨addr, rfl, rfl⟩
    habsent hinsert
  have hnew' : (c.setSet addr s).lookup addr = some ⟨{ CacheBlockInfo.create with tag := c.base.tag addr }, data⟩ := by
    change ((c.setSet addr s).set addr).lookup (c.base.tag addr) = _
    rw [Cache.set_setSet]
    exact hnew
  have hsame (a : Address) (hindex : c.base.setIndex a = c.base.setIndex addr) :
      c.lookup a = (c.set addr).lookup (c.base.tag a) := by
    rw [Cache.lookup, Cache.set, hindex]
    rfl
  cases hresult
  refine ⟨rfl, h.setSet hok, ⟨data, hnew', hfill⟩, fun hevicted a ha hne => ?_, fun e he => ?_⟩
  · rw [Cache.lookup_setSet_eq]
    split_ifs with hindex
    · rw [hnone (Option.map_eq_none_iff.1 hevicted) _ ha hne, hsame a hindex]
    · rfl
  · obtain ⟨l, hl, rfl⟩ := Option.map_eq_some_iff.1 he
    obtain ⟨hlvalid, ⟨a', ha', hplaced⟩, hold, hlne, hrest⟩ := hsome l hl
    have htag : c.base.tag (c.base.tagToAddress l.info.tag) = l.info.tag := by
      rw [← ha', CacheBase.tag_tagToAddress]
    have hindex : c.base.setIndex (c.base.tagToAddress l.info.tag) = c.base.setIndex addr := by
      rw [← hplaced]
      exact CacheBase.setIndex_congr (htag.trans ha'.symm)
    dsimp only
    rw [htag, hsame _ hindex, htag]
    refine ⟨hlvalid, hold, hlne, fun a ha hne => ?_⟩
    rw [Cache.lookup_setSet_eq]
    by_cases ha'index : c.base.setIndex a = c.base.setIndex addr
    · rw [if_pos ha'index, hrest _ ha hne, hsame a ha'index]
    · have hne' : c.base.tag a ≠ l.info.tag := fun heq =>
        ha'index ((CacheBase.setIndex_congr (heq.trans htag.symm)).trans hindex)
      rw [if_neg ha'index, if_neg hne']

end CacheOk

/-! ### Runs -/

/-- The calls of the cache controllers: only a block that is not there is inserted, and a line has a valid state. The tag
of the address is not the one of blocks that are not valid. -/
def LineEvent.Allowed (r : LineRun) : LineEvent → Prop
  | .insert addr _ cstate _ _ => r.cache.base.tag addr ≠ invalidTag ∧ r.present (r.cache.base.tag addr) = false ∧
    cstate ≠ .invalid
  | .access addr _ _ _ _ => r.cache.base.tag addr ≠ invalidTag
  | .peek addr => r.cache.base.tag addr ≠ invalidTag
  | .invalidate addr => r.cache.base.tag addr ≠ invalidTag
  | .setCacheState addr cstate => r.cache.base.tag addr ≠ invalidTag ∧ cstate ≠ .invalid

/-- Everything but the line of an address stays. -/
def Cache.Keeps (c c' : Cache) (addr : Address) : Prop :=
  ∀ a, c.base.tag a ≠ invalidTag → c.base.tag a ≠ c.base.tag addr → c'.lookup a = c.lookup a

/-- An insertion adds its line and removes the line that it reports, if it reports one. -/
structure Inserts (c c' : Cache) (addr : Address) (fill : Option Bytes) (cstate : CState) (eviction : Option Eviction) :
    Prop where
  added : ∃ data, c'.lookup addr = some ⟨{ CacheBlockInfo.create with tag := c.base.tag addr, cstate }, data⟩ ∧
    ∀ d, (c.set addr).hasData = true → fill = some d → data = some d
  kept : eviction = none → c.Keeps c' addr
  removed : ∀ e, eviction = some e → c.base.tag e.addr ≠ invalidTag ∧ c.lookup e.addr = some e.line ∧
    c.base.tag e.addr ≠ c.base.tag addr ∧ ∀ a, c.base.tag a ≠ invalidTag → c.base.tag a ≠ c.base.tag addr →
      c'.lookup a = if c.base.tag a = c.base.tag e.addr then none else c.lookup a

/-- What a call does to the lines, and what it tells. -/
def LineAnswer.Correct (c c' : Cache) : LineEvent → LineAnswer → Prop
  | .insert addr fill cstate _ _, .inserted eviction => Inserts c c' addr fill cstate eviction
  | .access addr type _ _ _, .accessed found =>
    found.map Prod.fst = (c.lookup addr).map CacheLine.info ∧ c.Keeps c' addr ∧
      (c'.lookup addr).map CacheLine.info = (c.lookup addr).map CacheLine.info ∧
      (type = .load → c'.lookup addr = c.lookup addr)
  | .peek addr, .peeked found => found = (c.lookup addr).map CacheLine.info ∧ c' = c
  | .invalidate addr, .invalidated found => found = (c.lookup addr).isSome ∧ c.Keeps c' addr ∧ c'.lookup addr = none
  | .setCacheState addr cstate, .stateSet => c.Keeps c' addr ∧
    c'.lookup addr = (c.lookup addr).map fun l => ⟨{ l.info with cstate }, l.data⟩
  | _, _ => False

/-- What every call keeps. -/
structure LineInv (r : LineRun) : Prop where
  ok : CacheOk r.cache
  present : ∀ a, r.cache.base.tag a ≠ invalidTag → (r.cache.lookup a).isSome = r.present (r.cache.base.tag a)
  state : ∀ a, r.cache.base.tag a ≠ invalidTag → ∀ l, r.cache.lookup a = some l → l.info.cstate ≠ .invalid

namespace LineInv

variable {r r' : LineRun} {e : LineEvent} {answer : LineAnswer} {c : Cache} {addr : Address}

/-- A call that changes the line of one address. -/
theorem of_keeps (h : LineInv r) (hbase : c.base = r.cache.base) (hok : CacheOk c) (hkeeps : r.cache.Keeps c addr)
    (value : Bool) (hvalue : (c.lookup addr).isSome = value)
    (hstate : ∀ l, c.lookup addr = some l → l.info.cstate ≠ .invalid) :
    LineInv ⟨c, Function.update r.present (r.cache.base.tag addr) value⟩ := by
  have hcongr (a : Address) (htag : r.cache.base.tag a = r.cache.base.tag addr) : c.lookup a = c.lookup addr :=
    Cache.lookup_congr (by rw [hbase, htag])
  refine ⟨hok, fun a ha => ?_, fun a ha l hl => ?_⟩
  · dsimp only at ha ⊢
    rw [hbase] at ha ⊢
    by_cases htag : r.cache.base.tag a = r.cache.base.tag addr
    · rw [htag, Function.update_self, hcongr a htag, hvalue]
    · rw [Function.update_of_ne htag, hkeeps a ha htag, h.present a ha]
  · dsimp only at ha hl
    rw [hbase] at ha
    by_cases htag : r.cache.base.tag a = r.cache.base.tag addr
    · rw [hcongr a htag] at hl
      exact hstate l hl
    · rw [hkeeps a ha htag] at hl
      exact h.state a ha l hl

/-- A call that changes the data of a line at most. -/
theorem of_sameInfo (h : LineInv r) (hbase : c.base = r.cache.base) (hok : CacheOk c)
    (hvalid : r.cache.base.tag addr ≠ invalidTag) (hkeeps : r.cache.Keeps c addr)
    (hinfo : (c.lookup addr).map CacheLine.info = (r.cache.lookup addr).map CacheLine.info) : LineInv ⟨c, r.present⟩ := by
  have hsome : (c.lookup addr).isSome = r.present (r.cache.base.tag addr) := by
    have hmap := congrArg Option.isSome hinfo
    rwa [Option.isSome_map, Option.isSome_map, h.present addr hvalid] at hmap
  have hsame := h.of_keeps hbase hok hkeeps (r.present (r.cache.base.tag addr)) hsome fun l hl => ?_
  · rwa [Function.update_eq_self] at hsame
  · rw [hl] at hinfo
    obtain ⟨l', hl', hinfo'⟩ := Option.map_eq_some_iff.1 hinfo.symm
    rw [← hinfo']
    exact h.state addr hvalid l' hl'

/-- An insertion, and the eviction that it reports. -/
theorem insert {fill : Option Bytes} {cstate : CState} {eviction : Option Eviction} (h : LineInv r)
    (hbase : c.base = r.cache.base) (hok : CacheOk c) (hstate : cstate ≠ .invalid)
    (hspec : Inserts r.cache c addr fill cstate eviction) :
    LineInv ⟨c, Function.update (withoutEvicted r.cache.base r.present eviction) (r.cache.base.tag addr) true⟩ := by
  obtain ⟨data, hadded, -⟩ := hspec.added
  have hnew : ∀ l, c.lookup addr = some l → l.info.cstate ≠ .invalid := by
    intro l hl
    rw [hadded] at hl
    cases hl
    exact hstate
  cases eviction with
  | none => exact h.of_keeps hbase hok (hspec.kept rfl) true (by rw [hadded]; rfl) hnew
  | some e =>
    obtain ⟨-, -, -, hrest⟩ := hspec.removed e rfl
    have hcongr (a : Address) (htag : r.cache.base.tag a = r.cache.base.tag addr) : c.lookup a = c.lookup addr :=
      Cache.lookup_congr (by rw [hbase, htag])
    refine ⟨hok, fun a ha => ?_, fun a ha l hl => ?_⟩
    · dsimp only at ha ⊢
      rw [hbase] at ha ⊢
      by_cases htag : r.cache.base.tag a = r.cache.base.tag addr
      · rw [htag, Function.update_self, hcongr a htag, hadded]
        rfl
      · rw [Function.update_of_ne htag, hrest a ha htag, withoutEvicted]
        by_cases hgone : r.cache.base.tag a = r.cache.base.tag e.addr
        · rw [if_pos hgone, hgone, Function.update_self]
          rfl
        · rw [if_neg hgone, Function.update_of_ne hgone, h.present a ha]
    · dsimp only at ha hl
      rw [hbase] at ha
      by_cases htag : r.cache.base.tag a = r.cache.base.tag addr
      · rw [hcongr a htag] at hl
        exact hnew l hl
      · rw [hrest a ha htag] at hl
        split_ifs at hl
        exact h.state a ha l hl

/-- The lookup before tells what is found, and the call does what it should. -/
theorem call (h : LineInv r) (he : e.Allowed r) (hcall : r.call e = .ok (answer, r')) :
    r'.cache.base = r.cache.base ∧ LineInv r' ∧ answer.Correct r.cache r'.cache e := by
  cases e with
  | insert addr fill cstate calls answers =>
    obtain ⟨hvalid, hpresent, hstate⟩ := he
    obtain ⟨⟨eviction, c⟩, hinsert, hresult⟩ := exists_of_bind_ok hcall
    have habsent : r.cache.lookup addr = none := by
      refine Option.not_isSome_iff_eq_none.1 ?_
      rw [h.present addr hvalid, hpresent]
      exact Bool.false_ne_true
    obtain ⟨hbase, hok, ⟨data, hadded, hfill⟩, hkept, hremoved⟩ := h.ok.insertSingleLine hvalid habsent hinsert
    obtain ⟨hbase', hok', hset⟩ := hok.setCacheState (hbase.symm ▸ hvalid) cstate
    rw [hbase] at hset hbase'
    cases hresult
    have hspec : Inserts r.cache (c.setCacheState addr cstate) addr fill cstate eviction := by
      refine ⟨⟨data, ?_, hfill⟩, fun hnone a ha hne => ?_, fun e he => ?_⟩
      · rw [hset addr hvalid, if_pos rfl, hadded]
        rfl
      · rw [hset a ha, if_neg hne]
        exact hkept hnone a ha hne
      · obtain ⟨hevalid, hold, hne', hrest⟩ := hremoved e he
        refine ⟨hevalid, hold, hne', fun a ha hne => ?_⟩
        rw [hset a ha, if_neg hne]
        exact hrest a ha hne
    exact ⟨hbase', h.insert hbase' hok' hstate hspec, hspec⟩
  | access addr type buff bytes updateReplacement =>
    obtain ⟨⟨found, c⟩, haccess, hresult⟩ := exists_of_bind_ok hcall
    obtain ⟨hbase, hok, hfound, hkept, hinfo⟩ := h.ok.accessSingleLine he haccess
    have hkeeps : r.cache.Keeps c addr := fun a ha hne => hkept a ha (.inl hne)
    cases hresult
    exact ⟨hbase, h.of_sameInfo hbase hok he hkeeps hinfo, hfound, hkeeps, hinfo, fun hload => hkept addr he (.inr hload)⟩
  | peek addr =>
    cases hcall
    refine ⟨rfl, h, ?_, rfl⟩
    rw [Cache.peekSingleLine, Cache.lookup, CacheSet.lookup, Option.map_map]
    rfl
  | invalidate addr =>
    obtain ⟨⟨found, c⟩, hinvalidate, hresult⟩ := exists_of_bind_ok hcall
    obtain ⟨hbase, hok, hfound, hlookup⟩ := h.ok.invalidateSingleLine he hinvalidate
    have hkeeps : r.cache.Keeps c addr := fun a ha hne => by rw [hlookup a ha, if_neg hne]
    have hgone : c.lookup addr = none := by rw [hlookup addr he, if_pos rfl]
    cases hresult
    refine ⟨hbase, h.of_keeps hbase hok hkeeps false (by rw [hgone]; rfl) fun l hl => ?_, hfound, hkeeps, hgone⟩
    rw [hgone] at hl
    cases hl
  | setCacheState addr cstate =>
    obtain ⟨hvalid, hstate⟩ := he
    obtain ⟨hbase, hok, hset⟩ := h.ok.setCacheState hvalid cstate
    have hkeeps : r.cache.Keeps (r.cache.setCacheState addr cstate) addr := fun a ha hne => by rw [hset a ha, if_neg hne]
    have hline := hset addr hvalid
    rw [if_pos rfl] at hline
    cases hcall
    refine ⟨hbase, ?_, hkeeps, hline⟩
    have hsame := h.of_keeps hbase hok hkeeps (r.present (r.cache.base.tag addr))
      (by rw [hline, Option.isSome_map, h.present addr hvalid]) fun l hl => ?_
    · rwa [Function.update_eq_self] at hsame
    · rw [hline] at hl
      obtain ⟨l', -, rfl⟩ := Option.map_eq_some_iff.1 hl
      exact hstate

end LineInv

/-- At most one way of all sets holds a valid line with a tag. -/
def AtMostOneWay (c : Cache) : Prop :=
  ∀ index i index' j, i < (c.sets index).associativity → j < (c.sets index').associativity →
    ((c.sets index).blocks i).isValid = true → ((c.sets index).blocks i).tag = ((c.sets index').blocks j).tag →
      index = index' ∧ i = j

theorem CacheOk.atMostOneWay {c : Cache} (h : CacheOk c) : AtMostOneWay c := by
  intro index i index' j hi hj hvalid htag
  have hvalid' : ((c.sets index).blocks i).tag ≠ invalidTag := by simpa [CacheBlockInfo.isValid] using hvalid
  obtain ⟨a, ha, hindex⟩ := (h index).placed i hi hvalid'
  obtain ⟨a', ha', hindex'⟩ := (h index').placed j hj (htag ▸ hvalid')
  have hset : index = index' := by
    rw [← hindex, ← hindex']
    exact CacheBase.setIndex_congr (ha.trans (htag.trans ha'.symm))
  subst hset
  exact ⟨rfl, (h index).unique i hi j hj hvalid' htag⟩

theorem lineInv_new (base : CacheBase) (hasData : Bool) (replacements : ℕ → Replacement) :
    LineInv (LineRun.new base hasData replacements) := by
  have hnone (a : Address) (ha : base.tag a ≠ invalidTag) : (Cache.new base hasData replacements).lookup a = none :=
    CacheSet.lookup_new _ _ _ _ ha
  refine ⟨CacheOk.new base hasData replacements, fun a ha => ?_, fun a ha l hl => ?_⟩
  · change ((Cache.new base hasData replacements).lookup a).isSome = false
    rw [hnone a ha]
    rfl
  · have hnone' := hnone a ha
    rw [LineRun.new] at hl
    dsimp only at hl
    rw [hnone'] at hl
    cases hl

/-- A cache is a partial map from addresses to lines, for all parameters and all replacement states, as long as no address
has the tag of the blocks that are not valid. -/
theorem cache_isPartialMap (base : CacheBase) (hasData : Bool) (replacements : ℕ → Replacement) (es : List LineEvent)
    (hes : lineMachine.Guarded (fun r e => e.Allowed r) (LineRun.new base hasData replacements) es) (r : LineRun)
    (hrun : lineMachine.run (LineRun.new base hasData replacements) es = .ok r) :
    AtMostOneWay r.cache ∧
      (∀ a, base.tag a ≠ invalidTag → (r.cache.lookup a).isSome = r.present (base.tag a)) ∧
      (∀ a, base.tag a ≠ invalidTag → ∀ l, r.cache.lookup a = some l → l.info.cstate ≠ .invalid) ∧
      (∀ e, e.Allowed r → ∀ answer r', r.call e = .ok (answer, r') → answer.Correct r.cache r'.cache e) ∧
      (2 ≤ base.blocksize → ∀ a, base.tag a ≠ invalidTag) := by
  have hinv : r.cache.base = base ∧ LineInv r := by
    refine lineMachine.guarded_induction (P := fun r => r.cache.base = base ∧ LineInv r) (fun s e s' hs he hstep => ?_)
      ⟨rfl, lineInv_new base hasData replacements⟩ hes hrun
    change Prod.snd <$> s.call e = .ok s' at hstep
    cases hcall : s.call e with
    | error f =>
      rw [hcall] at hstep
      cases hstep
    | ok x =>
      obtain ⟨answer, t⟩ := x
      rw [hcall] at hstep
      cases hstep
      obtain ⟨hbase, hnext, -⟩ := hs.2.call he hcall
      exact ⟨hbase.trans hs.1, hnext⟩
  obtain ⟨rfl, hinv⟩ := hinv
  exact ⟨hinv.ok.atMostOneWay, hinv.present, hinv.state, fun e he answer r' hcall => (hinv.call he hcall).2.2,
    CacheBase.tag_ne_invalidTag⟩

/-- One set with one way. -/
def oneWay (blocksize : ℕ) (h : 0 < blocksize) : CacheBase where
  numSets := 1
  associativity := 1
  blocksize := blocksize
  hash := .mod
  ahl := none
  numSets_pos := by decide
  numSets_lt := by decide
  mask_pow := fun h => by cases h
  blocksize_pos := h
  ahl_covers := fun l hl => by cases hl

/-- A block is inserted, and the next one takes its way. -/
def twoBlocks : List LineEvent := [.insert 0 none .shared 1 fun _ => false, .insert 64 none .modified 1 fun _ => false]

theorem cache_isPartialMap_twoBlocks : ((lineMachine.final
    (LineRun.new (oneWay 64 (by decide)) false fun _ => .random ⟨1, 0⟩) twoBlocks).cache.lookup 64).isSome =
      (lineMachine.final (LineRun.new (oneWay 64 (by decide)) false fun _ => .random ⟨1, 0⟩) twoBlocks).present 1 := by
  have hguard : lineMachine.Guarded (fun r e => e.Allowed r)
      (LineRun.new (oneWay 64 (by decide)) false fun _ => .random ⟨1, 0⟩) twoBlocks :=
    Machine.Guarded.cons_final (by decide +kernel) ⟨by decide +kernel, by decide +kernel, by decide⟩
      (Machine.Guarded.cons_final (by decide +kernel) ⟨by decide +kernel, by decide +kernel, by decide⟩ trivial)
  exact (cache_isPartialMap _ _ _ twoBlocks hguard _ (Machine.run_final _ (by decide +kernel))).2.1 64 (by decide +kernel)

/-- In a new cache with blocks of one byte, the address of all ones is found. -/
theorem peek_finds_invalidTag : ¬ ∀ (base : CacheBase) (hasData : Bool) (replacements : ℕ → Replacement) (a : Address),
    ((LineRun.new base hasData replacements).cache.peekSingleLine a).isSome =
      (LineRun.new base hasData replacements).present (base.tag a) := by
  intro h
  exact absurd (h (oneWay 1 (by decide)) false (fun _ => .random ⟨1, 0⟩) invalidTag) (by decide +kernel)

end LifeSim.Cache
