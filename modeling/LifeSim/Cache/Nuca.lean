import LifeSim.Cache.PartialMap

/-!
# A NUCA slice in front of DRAM

`nuca_cache.cc` and `DramDirectoryCntlr::sendDataToNUCA`: data that a directory writes back are put into the NUCA cache,
and are written to DRAM when their line is evicted in the state `MODIFIED`. A line gets this state only when it is
written while it is there; a line that a write-back has inserted keeps the state of a new block. And a write that finds
its line leaves the flag of an eviction as it was.
-/

set_option linter.dupNamespace false

namespace LifeSim.Cache

open LifeSim.Lib

/-- Two blocks have the same bytes. -/
def Agree (blocksize : ℕ) (d d' : Bytes) : Prop := ∀ k < blocksize, d k = d' k

/-- What a write finds around it. -/
structure WriteEnv where
  /-- What the variables `eviction`, `evict_address` and `evict_buf` of `sendDataToNUCA` happen to say. -/
  stray : Option (Address × Bytes)
  calls : ℕ
  answers : Answers

/-- What a write tells its caller. -/
structure WriteAnswer where
  /-- What is sent as a `DRAM_WRITE_REQ`. -/
  sent : Option (Address × Bytes)
  evicted : Option Eviction

namespace Cache

/-- `NucaCache::read`. -/
def nucaRead (c : Cache) (addr : Address) : Except Fault Cache :=
  match c.peekSingleLine addr with
  | some _ => Prod.snd <$> c.accessSingleLine addr .load none c.base.blocksize true
  | none => .ok c

/-- `NucaCache::write`, with the request that its caller sends. -/
def nucaWrite (c : Cache) (addr : Address) (data : Bytes) (env : WriteEnv) : Except Fault (WriteAnswer × Cache) :=
  match c.peekSingleLine addr with
  | some _ => do
    let (_, c') ← (c.setCacheState addr .modified).accessSingleLine addr .store (some data) c.base.blocksize true
    return (⟨env.stray, none⟩, c')
  | none => do
    let (eviction, c') ← c.insertSingleLine addr (some data) env.calls env.answers
    let dirty := eviction.filter fun e => e.line.info.cstate = .modified
    return (⟨dirty.bind fun e => e.line.data.map fun d => (e.addr, d), eviction⟩, c')

/-- The line that an insertion evicts. -/
def victim (c : Cache) (addr : Address) (env : WriteEnv) : Option CacheLine :=
  match (c.set addr).replacement.getReplacementIndex env.calls (c.set addr).blocks env.answers with
  | .ok (index, _) => if ((c.set addr).blocks index).isValid = true then some ((c.set addr).content index) else none
  | .error _ => none

end Cache

/-- The calls that the directory makes. -/
inductive NucaEvent
  | read (addr : Address)
  /-- `processDRAMReply` keeps what DRAM has sent. -/
  | keepClean (addr : Address) (env : WriteEnv)
  /-- `sendDataToDram`. -/
  | writeBack (addr : Address) (data : Bytes) (env : WriteEnv)

/-- The slice and the DRAM behind it, with the data of the last write-back of each block. -/
structure NucaRun where
  nuca : Cache
  dram : BitVec 64 → Bytes
  last : BitVec 64 → Bytes

namespace NucaRun

/-- DRAM with the block of a `DRAM_WRITE_REQ` in it. -/
def dramWith (r : NucaRun) : Option (Address × Bytes) → BitVec 64 → Bytes
  | some (addr, data) => Function.update r.dram (r.nuca.base.tag addr) data
  | none => r.dram

/-- `sendDataToNUCA`: what it sends is written to DRAM. -/
def sendDataToNUCA (r : NucaRun) (addr : Address) (data : Bytes) (env : WriteEnv) :
    Except Fault (WriteAnswer × NucaRun) := do
  let (answer, c) ← r.nuca.nucaWrite addr data env
  return (answer, { r with nuca := c, dram := r.dramWith answer.sent })

/-- One call, with its answer. -/
def call (r : NucaRun) : NucaEvent → Except Fault (WriteAnswer × NucaRun)
  | .read addr => do
    let c ← r.nuca.nucaRead addr
    return (⟨none, none⟩, { r with nuca := c })
  | .keepClean addr env => r.sendDataToNUCA addr (r.dram (r.nuca.base.tag addr)) env
  | .writeBack addr data env => do
    let (answer, r') ← r.sendDataToNUCA addr data env
    return (answer, { r' with last := Function.update r.last (r.nuca.base.tag addr) data })

/-- A new slice in front of a DRAM. -/
def start (base : CacheBase) (replacements : ℕ → Replacement) (dram : BitVec 64 → Bytes) : NucaRun :=
  ⟨.new base true replacements, dram, dram⟩

/-- The data of an address: those of the slice if the line is there, otherwise those of DRAM. -/
def seen (r : NucaRun) (addr : Address) : Bytes :=
  match r.nuca.lookup addr with
  | some line => line.data.getD (r.dram (r.nuca.base.tag addr))
  | none => r.dram (r.nuca.base.tag addr)

/-- All addresses have the data of their last write-back. -/
def Consistent (r : NucaRun) : Prop :=
  ∀ addr, r.nuca.base.tag addr ≠ invalidTag → Agree r.nuca.base.blocksize (r.seen addr) (r.last (r.nuca.base.tag addr))

/-- What is sent is a line that has been evicted. -/
def SendsEvicted (answer : WriteAnswer) : Prop :=
  ∀ w, answer.sent = some w → ∃ e, answer.evicted = some e ∧ w.1 = e.addr ∧ e.line.data = some w.2

/-- The call loses nothing, and what it sends to DRAM is a line that it has evicted. -/
def LosesNothing (r : NucaRun) (e : NucaEvent) : Prop :=
  r.Consistent ∧ ∀ answer r', r.call e = .ok (answer, r') → r'.Consistent ∧ SendsEvicted answer

/-- A line that is found is written while the flag happens to be clear; a line that is not marked is evicted only if
DRAM has its data. -/
def WriteKeeps (r : NucaRun) (addr : Address) (env : WriteEnv) : Prop :=
  (r.nuca.lookup addr ≠ none → env.stray = none) ∧
  (r.nuca.lookup addr = none → ∀ line, r.nuca.victim addr env = some line → line.info.cstate ≠ .modified →
    ∀ d, line.data = some d → Agree r.nuca.base.blocksize d (r.dram line.info.tag))

/-- The condition on a call. A copy of what DRAM has sent is up to date, if it is kept over a line that is there. -/
def Keeps (r : NucaRun) : NucaEvent → Prop
  | .read addr => r.nuca.base.tag addr ≠ invalidTag
  | .keepClean addr env => r.nuca.base.tag addr ≠ invalidTag ∧ r.WriteKeeps addr env ∧
      (r.nuca.lookup addr ≠ none →
        Agree r.nuca.base.blocksize (r.dram (r.nuca.base.tag addr)) (r.last (r.nuca.base.tag addr)))
  | .writeBack addr _ env => r.nuca.base.tag addr ≠ invalidTag ∧ r.WriteKeeps addr env

end NucaRun

/-- The calls one after the other. -/
def nucaMachine : Machine NucaRun NucaEvent Fault where
  step r e := Prod.snd <$> r.call e

/-! ### Writing into the cache -/

section Write

variable {c c' : Cache} {addr a : Address} {data : Bytes} {env : WriteEnv} {s : CacheSet}

/-- All sets store the data of blocks. -/
def Cache.Stores (c : Cache) : Prop :=
  ∀ index, (c.sets index).hasData = true ∧ (c.sets index).blocksize = c.base.blocksize

theorem Cache.Stores.setSet (h : c.Stores) (hdata : s.hasData = (c.set addr).hasData)
    (hsize : s.blocksize = (c.set addr).blocksize) : (c.setSet addr s).Stores := by
  intro index
  change (Function.update c.sets (c.base.setIndex addr) s index).hasData = true ∧
    (Function.update c.sets (c.base.setIndex addr) s index).blocksize = c.base.blocksize
  rw [Function.update_apply]
  split_ifs
  · rw [hdata, hsize]
    exact h _
  · exact h index

theorem Cache.Stores.setCacheState (h : c.Stores) (addr : Address) (cstate : CState) :
    (c.setCacheState addr cstate).Stores := by
  rw [Cache.setCacheState]
  split
  · exact h
  · exact h.setSet rfl rfl

theorem touchWay_blocksize {s' : CacheSet} {line : ℕ} {update : Bool} (h : s.touchWay line update = .ok s') :
    s'.blocksize = s.blocksize := by
  rw [CacheSet.touchWay] at h
  split_ifs at h
  · obtain ⟨r, -, hr⟩ := exists_of_bind_ok h
    cases hr
    rfl
  · cases h
    rfl

/-- A line of a cache that stores data has data. -/
theorem Cache.Stores.exists_data (h : c.Stores) {line : CacheLine} (hline : c.lookup addr = some line) :
    ∃ d, line.data = some d := by
  obtain ⟨i, -, rfl⟩ := Option.map_eq_some_iff.1 hline
  refine ⟨(c.set addr).data i, ?_⟩
  rw [CacheSet.content, Cache.set, (h _).1]
  rfl

/-- The peek of a call is a lookup. -/
theorem Cache.peekSingleLine_eq (c : Cache) (addr : Address) : c.peekSingleLine addr =
    (c.lookup addr).map CacheLine.info := by
  rw [peekSingleLine, lookup, CacheSet.lookup, Option.map_map]
  rfl

/-- A line is found by its tag. -/
theorem Cache.lookup_tag {line : CacheLine} (hline : c.lookup addr = some line) : line.info.tag = c.base.tag addr := by
  obtain ⟨i, hfind, rfl⟩ := Option.map_eq_some_iff.1 hline
  exact (CacheSet.find_some hfind).2

/-- The cache is in order and stores data. -/
structure NucaOk (base : CacheBase) (c : Cache) : Prop where
  base : c.base = base
  ok : CacheOk c
  stores : c.Stores

/-- A load. -/
theorem NucaOk.read {base : CacheBase} (h : NucaOk base c) (hvalid : base.tag addr ≠ invalidTag)
    (hcall : c.nucaRead addr = .ok c') : NucaOk base c' ∧ ∀ a, base.tag a ≠ invalidTag → c'.lookup a = c.lookup a := by
  obtain ⟨rfl, hok, hstores⟩ := h
  rw [Cache.nucaRead] at hcall
  split at hcall
  · cases haccess : c.accessSingleLine addr .load none c.base.blocksize true with
    | error f =>
      rw [haccess] at hcall
      cases hcall
    | ok x =>
      rw [haccess] at hcall
      cases hcall
      obtain ⟨hbase, hok', -, hkept, -⟩ := hok.accessSingleLine hvalid haccess
      refine ⟨⟨hbase, hok', ?_⟩, fun a ha => hkept a ha (.inr rfl)⟩
      rw [Cache.accessSingleLine] at haccess
      cases hfind : (c.set addr).find (c.base.tag addr) with
      | none =>
        rw [hfind] at haccess
        cases haccess
        exact hstores
      | some line =>
        rw [hfind] at haccess
        obtain ⟨⟨out, s⟩, hread, hresult⟩ := exists_of_bind_ok haccess
        obtain ⟨-, -, hrest⟩ := exists_of_bind_ok hread
        obtain ⟨s', htouch, hs⟩ := exists_of_bind_ok hrest
        cases hs
        cases hresult
        exact hstores.setSet (SameLines.of_touchWay htouch).hasData (touchWay_blocksize htouch)
  · cases hcall
    exact ⟨⟨rfl, hok, hstores⟩, fun _ _ => rfl⟩

/-- A store of a whole block into a line that is there. -/
theorem NucaOk.store {base : CacheBase} (h : NucaOk base c) (hvalid : base.tag addr ≠ invalidTag)
    (hpresent : c.lookup addr ≠ none) {found : Option (CacheBlockInfo × Option (List (BitVec 8)))}
    (hcall : c.accessSingleLine addr .store (some data) base.blocksize true = .ok (found, c')) :
    NucaOk base c' ∧ (∃ line d, c'.lookup addr = some line ∧ line.data = some d ∧ Agree base.blocksize d data) ∧
      ∀ a, base.tag a ≠ invalidTag → base.tag a ≠ base.tag addr → c'.lookup a = c.lookup a := by
  obtain ⟨rfl, hok, hstores⟩ := h
  obtain ⟨hbase, hok', -, hkept, -⟩ := hok.accessSingleLine hvalid hcall
  rw [Cache.accessSingleLine] at hcall
  cases hfind : (c.set addr).find (c.base.tag addr) with
  | none => exact absurd (CacheSet.lookup_eq_none.2 (CacheSet.find_none.1 hfind)) hpresent
  | some line =>
    obtain ⟨hi, htag⟩ := CacheSet.find_some hfind
    rw [hfind] at hcall
    obtain ⟨s, hwrite, hresult⟩ := exists_of_bind_ok hcall
    obtain ⟨u, hbytes, htouch⟩ := exists_of_bind_ok hwrite
    have hset : SetOk c.base (c.base.setIndex addr) (c.set addr) := hok _
    obtain ⟨hdata, hsize⟩ := hstores (c.base.setIndex addr)
    have hoffset : c.base.blockOffset addr + c.base.blocksize ≤ (c.set addr).blocksize := require_eq_ok_iff.1 hbytes
    rw [Cache.set, hsize] at hoffset
    cases hresult
    have hsame := SameLines.of_touchWay htouch
    have hkeptSize : s.blocksize = (c.set addr).blocksize := (touchWay_blocksize htouch).trans rfl
    have hkeptData : s.hasData = (c.set addr).hasData := hsame.hasData
    rw [Cache.set, hdata, if_pos rfl] at hsame
    obtain ⟨-, hlookup⟩ := hset.change (b := (c.set addr).blocks line)
      (d := CacheSet.overwrite ((c.set addr).data line) (c.base.blockOffset addr) c.base.blocksize data) hi htag htag
    have hnew := hlookup _ hvalid
    have hdata' : (c.set addr).hasData = true := hdata
    rw [if_pos rfl, hdata', if_pos rfl] at hnew
    have hline : (c.setSet addr s).lookup addr = s.lookup (c.base.tag addr) := by
      rw [Cache.lookup_setSet_eq, if_pos rfl]
    refine ⟨⟨rfl, hok', hstores.setSet hkeptData hkeptSize⟩, ?_, fun a ha hne => hkept a ha (.inl hne)⟩
    rw [hline, hsame.lookup]
    refine ⟨_, CacheSet.overwrite ((c.set addr).data line) (c.base.blockOffset addr) c.base.blocksize data,
      hnew, rfl, fun k hk => ?_⟩
    · have hzero : c.base.blockOffset addr = 0 := by omega
      rw [CacheSet.overwrite, hzero, if_pos (by omega), Nat.sub_zero]

/-- An insertion evicts the victim. -/
theorem NucaOk.insert {base : CacheBase} (h : NucaOk base c) {eviction : Option Eviction}
    (hcall : c.insertSingleLine addr (some data) env.calls env.answers = .ok (eviction, c')) :
    c'.Stores ∧ eviction = (c.victim addr env).map fun line => ⟨c.base.tagToAddress line.info.tag, line⟩ := by
  obtain ⟨⟨evicted, s⟩, hinsert, hresult⟩ := exists_of_bind_ok hcall
  obtain ⟨⟨index, replacement⟩, hget, hrest⟩ := exists_of_bind_ok hinsert
  obtain ⟨u, hindex, hset⟩ := exists_of_bind_ok hrest
  cases hset
  cases hresult
  refine ⟨h.stores.setSet rfl rfl, ?_⟩
  rw [Cache.victim, hget]

/-- What a write does: the line of the address has the data, and the others are kept, but for the one that is evicted. -/
structure Written (base : CacheBase) (c c' : Cache) (addr : Address) (data : Bytes)
    (evicted : Option Eviction) : Prop where
  ok : NucaOk base c'
  line : ∃ line d, c'.lookup addr = some line ∧ line.data = some d ∧ Agree base.blocksize d data
  kept : evicted = none → ∀ a, base.tag a ≠ invalidTag → base.tag a ≠ base.tag addr → c'.lookup a = c.lookup a
  removed : ∀ e, evicted = some e → base.tag e.addr ≠ invalidTag ∧ c.lookup e.addr = some e.line ∧
    base.tag e.addr = e.line.info.tag ∧ base.tag e.addr ≠ base.tag addr ∧
    ∀ a, base.tag a ≠ invalidTag → base.tag a ≠ base.tag addr →
      c'.lookup a = if base.tag a = base.tag e.addr then none else c.lookup a

/-- A write finds its line and leaves the flag as it was, or it inserts the line and sends a victim that is `MODIFIED`. -/
theorem NucaOk.write {base : CacheBase} (h : NucaOk base c) (hvalid : base.tag addr ≠ invalidTag) {answer : WriteAnswer}
    (hcall : c.nucaWrite addr data env = .ok (answer, c')) :
    Written base c c' addr data answer.evicted ∧
      (c.lookup addr ≠ none → answer = ⟨env.stray, none⟩) ∧
      (c.lookup addr = none → answer.evicted.map Eviction.line = c.victim addr env ∧
        answer.sent = (answer.evicted.filter fun e => e.line.info.cstate = .modified).bind fun e =>
          e.line.data.map fun d => (e.addr, d)) := by
  rw [Cache.nucaWrite, Cache.peekSingleLine_eq] at hcall
  have hbase := h.base
  cases hline : c.lookup addr with
  | some line =>
    rw [hline] at hcall
    obtain ⟨⟨found, c''⟩, haccess, hresult⟩ := exists_of_bind_ok hcall
    cases hresult
    obtain ⟨hbase', hok', hlookup⟩ := h.ok.setCacheState (hbase ▸ hvalid) .modified
    rw [hbase] at hbase' hlookup
    have hmarked : NucaOk base (c.setCacheState addr .modified) := ⟨hbase', hok', h.stores.setCacheState addr .modified⟩
    have hpresent : (c.setCacheState addr .modified).lookup addr ≠ none := by
      rw [hlookup addr hvalid, if_pos rfl, hline]
      exact Option.some_ne_none _
    rw [hbase] at haccess
    obtain ⟨hok, hdata, hkept⟩ := hmarked.store hvalid hpresent haccess
    refine ⟨⟨hok, hdata, fun _ a ha hne => ?_, fun e he => by cases he⟩, fun _ => rfl, fun hnone => by cases hnone⟩
    rw [hkept a ha hne, hlookup a ha, if_neg hne]
  | none =>
    rw [hline] at hcall
    obtain ⟨⟨eviction, c''⟩, hinsert, hresult⟩ := exists_of_bind_ok hcall
    cases hresult
    obtain ⟨hstores, hvictim⟩ := h.insert hinsert
    obtain ⟨hbase', hok', ⟨stored, hnew, hfill⟩, hkept, hremoved⟩ := h.ok.insertSingleLine (hbase ▸ hvalid) hline hinsert
    subst hbase
    refine ⟨⟨⟨hbase', hok', hstores⟩, ⟨_, data, hnew, hfill data (h.stores _).1 rfl, fun _ _ => rfl⟩, hkept,
      fun e he => ?_⟩,
      fun hpresent => absurd rfl hpresent, fun _ => ⟨?_, rfl⟩⟩
    · obtain ⟨hevalid, hold, hne, hrest⟩ := hremoved e he
      exact ⟨hevalid, hold, (Cache.lookup_tag hold).symm, hne, hrest⟩
    · rw [hvictim, Option.map_map]
      exact Option.map_id'

end Write

/-! ### One call -/

theorem Agree.refl (blocksize : ℕ) (d : Bytes) : Agree blocksize d d := fun _ _ => rfl

theorem Agree.symm {blocksize : ℕ} {d d' : Bytes} (h : Agree blocksize d d') : Agree blocksize d' d :=
  fun k hk => (h k hk).symm

theorem Agree.trans {blocksize : ℕ} {a b c : Bytes} (h : Agree blocksize a b)
    (h' : Agree blocksize b c) : Agree blocksize a c :=
  fun k hk => (h k hk).trans (h' k hk)

namespace NucaRun

variable {base : CacheBase} {r r' : NucaRun} {addr a : Address} {data d : Bytes} {env : WriteEnv} {answer : WriteAnswer}
  {line : CacheLine} {e : NucaEvent}

theorem seen_of_lookup (hline : r.nuca.lookup addr = some line) (hdata : line.data = some d) : r.seen addr = d := by
  rw [seen, hline]
  dsimp only
  rw [hdata]
  rfl

theorem seen_of_absent (hline : r.nuca.lookup addr = none) : r.seen addr = r.dram (r.nuca.base.tag addr) := by
  rw [seen, hline]

/-- Where the line and the data in DRAM have stayed, the data have. -/
theorem seen_congr (hbase : r'.nuca.base = r.nuca.base) (hline : r'.nuca.lookup addr = r.nuca.lookup addr)
    (hdram : r'.dram (r.nuca.base.tag addr) = r.dram (r.nuca.base.tag addr)) : r'.seen addr = r.seen addr := by
  rw [seen, seen, hline, hbase, hdram]

/-- The slice is in order, and all addresses have the data of their last write-back. -/
structure Inv (base : CacheBase) (r : NucaRun) : Prop where
  ok : NucaOk base r.nuca
  consistent : r.Consistent

@[simp] theorem dramWith_none : r.dramWith none = r.dram := rfl

@[simp] theorem dramWith_some (addr : Address) (data : Bytes) :
    r.dramWith (some (addr, data)) = Function.update r.dram (r.nuca.base.tag addr) data := rfl

/-- The parts of a write to the slice. -/
theorem sendDataToNUCA_eq (hcall : r.sendDataToNUCA addr data env = .ok (answer, r')) :
    r.nuca.nucaWrite addr data env = .ok (answer, r'.nuca) ∧ r'.last = r.last ∧
      r'.dram = r.dramWith answer.sent := by
  obtain ⟨⟨answer', c⟩, hwrite, hresult⟩ := exists_of_bind_ok hcall
  cases hresult
  exact ⟨hwrite, rfl, rfl⟩

/-- A write that finds its line. -/
theorem write_hit (h : Inv base r) (hvalid : base.tag addr ≠ invalidTag) (hpresent : r.nuca.lookup addr ≠ none)
    (hstray : env.stray = none) (hcall : r.sendDataToNUCA addr data env = .ok (answer, r')) :
    SendsEvicted answer ∧ ∀ a, base.tag a ≠ invalidTag → base.tag a ≠ base.tag addr → r'.seen a = r.seen a := by
  obtain ⟨hwrite, -, hdram⟩ := sendDataToNUCA_eq hcall
  obtain ⟨hwritten, hhit, -⟩ := h.ok.write hvalid hwrite
  have hbase := h.ok.base
  have hanswer := hhit hpresent
  rw [hstray] at hanswer
  rw [hanswer] at hdram hwritten ⊢
  refine And.intro (fun w hw => ?_) (fun a ha hne => ?_)
  · cases hw
  · exact seen_congr (hwritten.ok.base.trans hbase.symm) (hwritten.kept rfl a ha hne) (by rw [hdram, dramWith_none])

/-- A write that inserts its line: the victim is marked, or DRAM has its data. -/
theorem write_miss (h : Inv base r) (hvalid : base.tag addr ≠ invalidTag) (habsent : r.nuca.lookup addr = none)
    (hkeeps : ∀ line, r.nuca.victim addr env = some line → line.info.cstate ≠ .modified →
      ∀ d, line.data = some d → Agree base.blocksize d (r.dram line.info.tag))
    (hcall : r.sendDataToNUCA addr data env = .ok (answer, r')) :
    SendsEvicted answer ∧ ∀ a, base.tag a ≠ invalidTag → base.tag a ≠ base.tag addr →
      Agree base.blocksize (r'.seen a) (r.seen a) := by
  obtain ⟨hwrite, -, hdram⟩ := sendDataToNUCA_eq hcall
  obtain ⟨hwritten, -, hmiss⟩ := h.ok.write hvalid hwrite
  have hbase := h.ok.base
  have hbase' := hwritten.ok.base.trans hbase.symm
  obtain ⟨hvictim, hsent⟩ := hmiss habsent
  cases hevicted : answer.evicted with
  | none =>
    rw [hevicted] at hsent
    rw [show answer.sent = none from hsent, dramWith_none] at hdram
    refine ⟨fun w hw => ?_, fun a ha hne => ?_⟩
    · rw [show answer.sent = none from hsent] at hw
      cases hw
    · rw [seen_congr hbase' (hwritten.kept hevicted a ha hne) (by rw [hdram])]
      exact .refl _ _
  | some e =>
    obtain ⟨hevalid, hold, htag, -, hrest⟩ := hwritten.removed e hevicted
    obtain ⟨d, hd⟩ := h.ok.stores.exists_data hold
    rw [hevicted] at hsent hvictim
    have hgone : ∀ a, base.tag a ≠ base.tag addr → base.tag a = base.tag e.addr → base.tag a ≠ invalidTag →
        r'.seen a = r'.dram (base.tag e.addr) ∧ r.seen a = d := by
      intro a hne hsame ha
      have hnone := hrest a ha hne
      rw [if_pos hsame] at hnone
      rw [seen_of_absent hnone, hwritten.ok.base, hsame]
      refine ⟨rfl, seen_of_lookup ?_ hd⟩
      rw [← hold]
      exact Cache.lookup_congr (by rw [hbase, hsame])
    by_cases hmodified : e.line.info.cstate = .modified
    · have hsent' : answer.sent = some (e.addr, d) := by
        rw [hsent, Option.filter_some, if_pos (decide_eq_true hmodified), Option.bind_some, hd]
        rfl
      rw [hsent', dramWith_some] at hdram
      refine ⟨fun w hw => ?_, fun a ha hne => ?_⟩
      · rw [hsent'] at hw
        cases hw
        exact ⟨e, hevicted, rfl, hd⟩
      · by_cases hsame : base.tag a = base.tag e.addr
        · obtain ⟨hnow, hbefore⟩ := hgone a hne hsame ha
          rw [hnow, hbefore, hdram, hbase, Function.update_self]
          exact .refl _ _
        · have hline := hrest a ha hne
          rw [if_neg hsame] at hline
          rw [seen_congr hbase' hline (by rw [hdram, hbase, Function.update_of_ne hsame])]
          exact .refl _ _
    · have hsent' : answer.sent = none := by
        rw [hsent, Option.filter_some, if_neg (by simpa using hmodified), Option.bind_none]
      rw [hsent', dramWith_none] at hdram
      refine ⟨fun w hw => ?_, fun a ha hne => ?_⟩
      · rw [hsent'] at hw
        cases hw
      · by_cases hsame : base.tag a = base.tag e.addr
        · obtain ⟨hnow, hbefore⟩ := hgone a hne hsame ha
          rw [hnow, hbefore, hdram, htag]
          exact (hkeeps e.line hvictim.symm hmodified d hd).symm
        · have hline := hrest a ha hne
          rw [if_neg hsame] at hline
          rw [seen_congr hbase' hline (by rw [hdram])]
          exact .refl _ _

/-- A write that meets the condition: its address has the data, and the others keep theirs. -/
theorem sendDataToNUCA_seen (h : Inv base r) (hvalid : base.tag addr ≠ invalidTag) (hkeeps : r.WriteKeeps addr env)
    (hcall : r.sendDataToNUCA addr data env = .ok (answer, r')) :
    SendsEvicted answer ∧ (∀ a, base.tag a = base.tag addr → Agree base.blocksize (r'.seen a) data) ∧
      ∀ a, base.tag a ≠ invalidTag → base.tag a ≠ base.tag addr → Agree base.blocksize (r'.seen a) (r.seen a) := by
  have hbase := h.ok.base
  obtain ⟨hwrite, -, -⟩ := sendDataToNUCA_eq hcall
  obtain ⟨hwritten, -, -⟩ := h.ok.write hvalid hwrite
  have hnew : ∀ a, base.tag a = base.tag addr → Agree base.blocksize (r'.seen a) data := by
    intro a hsame
    obtain ⟨line, d, hline, hd, hagree⟩ := hwritten.line
    have hthere : r'.nuca.lookup a = some line := by
      rw [← hline]
      exact Cache.lookup_congr (by rw [hwritten.ok.base, hsame])
    rw [seen_of_lookup hthere hd]
    exact hagree
  by_cases hpresent : r.nuca.lookup addr = none
  · have hvictim := hkeeps.2 hpresent
    rw [hbase] at hvictim
    obtain ⟨hsends, hothers⟩ := write_miss h hvalid hpresent hvictim hcall
    exact ⟨hsends, hnew, hothers⟩
  · obtain ⟨hsends, hothers⟩ := write_hit h hvalid hpresent (hkeeps.1 hpresent) hcall
    refine ⟨hsends, hnew, fun a ha hne => ?_⟩
    rw [hothers a ha hne]
    exact .refl _ _

/-- A call that meets the condition keeps all data. -/
theorem Inv.call (h : Inv base r) (hkeeps : r.Keeps e) (hcall : r.call e = .ok (answer, r')) :
    Inv base r' ∧ SendsEvicted answer := by
  have hbase := h.ok.base
  have hconsistent := h.consistent
  rw [Consistent, hbase] at hconsistent
  cases e with
  | read addr =>
    obtain ⟨c, hread, hresult⟩ := exists_of_bind_ok hcall
    cases hresult
    rw [Keeps, hbase] at hkeeps
    obtain ⟨hok, hlookup⟩ := h.ok.read hkeeps hread
    refine ⟨⟨hok, ?_⟩, fun w hw => ?_⟩
    · intro a ha
      dsimp only at ha ⊢
      rw [hok.base] at ha ⊢
      have hseen : NucaRun.seen { r with nuca := c } a = r.seen a :=
        seen_congr (hok.base.trans hbase.symm) (hlookup a ha) rfl
      rw [hseen]
      exact hconsistent a ha
    · cases hw
  | keepClean addr env =>
    obtain ⟨hvalid, hwrite, hcopy⟩ := hkeeps
    rw [hbase] at hvalid hcopy
    obtain ⟨hnuca, hlast, -⟩ := sendDataToNUCA_eq hcall
    have hok := (h.ok.write hvalid hnuca).1.ok
    obtain ⟨hsends, hnew, hothers⟩ := sendDataToNUCA_seen h hvalid hwrite hcall
    refine ⟨⟨hok, fun a ha => ?_⟩, hsends⟩
    rw [hok.base] at ha ⊢
    rw [hlast]
    by_cases hsame : base.tag a = base.tag addr
    · refine (hnew a hsame).trans ?_
      rw [hbase, hsame]
      by_cases hpresent : r.nuca.lookup addr = none
      · have hold := hconsistent addr hvalid
        rw [seen_of_absent hpresent, hbase] at hold
        exact hold
      · exact hcopy hpresent
    · exact (hothers a ha hsame).trans (hconsistent a ha)
  | writeBack addr data env =>
    obtain ⟨hvalid, hwrite⟩ := hkeeps
    rw [hbase] at hvalid
    obtain ⟨⟨answer', r''⟩, hsend, hresult⟩ := exists_of_bind_ok hcall
    cases hresult
    obtain ⟨hnuca, hlast, -⟩ := sendDataToNUCA_eq hsend
    have hok := (h.ok.write hvalid hnuca).1.ok
    obtain ⟨hsends, hnew, hothers⟩ := sendDataToNUCA_seen h hvalid hwrite hsend
    refine ⟨⟨hok, fun a ha => ?_⟩, hsends⟩
    dsimp only at ha ⊢
    rw [hok.base] at ha ⊢
    rw [hbase]
    by_cases hsame : base.tag a = base.tag addr
    · rw [hsame, Function.update_self]
      exact hnew a hsame
    · rw [Function.update_of_ne hsame]
      exact (hothers a ha hsame).trans (hconsistent a ha)

/-- A new slice has no line, and DRAM has its first content. -/
theorem Inv.start (base : CacheBase) (replacements : ℕ → Replacement) (dram : BitVec 64 → Bytes) :
    Inv base (start base replacements dram) := by
  refine ⟨⟨rfl, CacheOk.new base true replacements, fun index => ⟨rfl, rfl⟩⟩, fun a ha => ?_⟩
  have hnone : (Cache.new base true replacements).lookup a = none := CacheSet.lookup_new _ _ _ _ ha
  have hseen : (NucaRun.start base replacements dram).seen a = dram (base.tag a) := seen_of_absent hnone
  rw [hseen]
  exact .refl _ _

theorem Inv.step (h : Inv base r) (hkeeps : r.Keeps e) (hstep : nucaMachine.step r e = .ok r') : Inv base r' := by
  obtain ⟨answer, hcall⟩ : ∃ answer, r.call e = .ok (answer, r') := exists_of_map_snd_ok hstep
  exact (h.call hkeeps hcall).1

theorem Inv.losesNothing (h : Inv base r) (hkeeps : r.Keeps e) : r.LosesNothing e := by
  refine ⟨h.consistent, fun answer r' hcall => ?_⟩
  obtain ⟨hnext, hsends⟩ := h.call hkeeps hcall
  exact ⟨hnext.consistent, hsends⟩

theorem Inv.guarded {es : List NucaEvent} (h : Inv base r) (hes : nucaMachine.Guarded Keeps r es) :
    nucaMachine.Guarded LosesNothing r es :=
  hes.mono_of_kept (fun _ _ _ hr he hstep => hr.step he hstep) (fun _ _ hr he => hr.losesNothing he) h

/-- In a run whose calls all meet the condition nothing is lost: all addresses have the data of their last write-back at
every point, and what is sent to DRAM is a line that the call has evicted. -/
theorem nuca_losesNothing (base : CacheBase) (replacements : ℕ → Replacement) (dram : BitVec 64 → Bytes)
    (es : List NucaEvent)
    (hes : nucaMachine.Guarded Keeps (start base replacements dram) es) :
    nucaMachine.Guarded LosesNothing (start base replacements dram) es ∧
      ∀ r, nucaMachine.run (start base replacements dram) es = .ok r → r.Consistent := by
  have hstart := Inv.start base replacements dram
  refine ⟨hstart.guarded hes, fun r hrun => ?_⟩
  exact (nucaMachine.guarded_induction (fun _ _ _ hr he hstep => Inv.step hr he hstep) hstart hes hrun).consistent

/-- A write that finds its line. -/
theorem writeKeeps_of_present (hpresent : (r.nuca.lookup addr).isSome = true) (hstray : env.stray = none) :
    r.WriteKeeps addr env := by
  refine ⟨fun _ => hstray, fun habsent => ?_⟩
  rw [habsent] at hpresent
  cases hpresent

/-- A write whose victim, if there is one, is marked. -/
theorem writeKeeps_of_marked (hstray : env.stray = none)
    (hmarked : (r.nuca.victim addr env).all (fun line => line.info.cstate = .modified) = true) : r.WriteKeeps addr env := by
  refine ⟨fun _ => hstray, fun _ line hline hclean => ?_⟩
  rw [hline, Option.all_some, decide_eq_true_eq] at hmarked
  exact absurd hmarked hclean

/-- What the examples write. -/
def blockOf (byte : BitVec 8) : Bytes := fun _ => byte

/-- A call of the examples: the flag is clear, and the replacement has its first way. -/
def calm : WriteEnv := ⟨none, 1, fun _ => false⟩

/-- One way in front of a DRAM of zeros. -/
def smallSlice : NucaRun := start (oneWay 64 (Nat.succ_pos 63)) (fun _ => .random ⟨1, 0⟩) fun _ => blockOf 0

/-- A block is written back twice, and the next one takes its way. -/
def rewritten : List NucaEvent := [.writeBack 0 (blockOf 1) calm, .writeBack 0 (blockOf 2) calm, .writeBack 64
    (blockOf 3) calm]

theorem nuca_losesNothing_rewritten : (nucaMachine.final smallSlice rewritten).Consistent := by
  have hguard : nucaMachine.Guarded Keeps smallSlice rewritten :=
    Machine.Guarded.cons_final (by decide +kernel) ⟨by decide +kernel, writeKeeps_of_marked rfl (by decide +kernel)⟩
      (Machine.Guarded.cons_final (by decide +kernel) ⟨by decide +kernel, writeKeeps_of_present (by decide +kernel) rfl⟩
        (Machine.Guarded.cons_final (by decide +kernel)
          ⟨by decide +kernel, writeKeeps_of_marked rfl (by decide +kernel)⟩ trivial))
  exact (nuca_losesNothing _ _ _ rewritten hguard).2 _ (Machine.run_final _ (by decide +kernel))

/-- A block is written back once, and the next one takes its way. -/
def writtenOnce : List NucaEvent := [.writeBack 0 (blockOf 1) calm, .writeBack 64 (blockOf 3) calm]

/-- A write-back that inserts its line does not mark it, and is lost with the line. -/
theorem nuca_loses_writtenOnce : ¬ ∀ (base : CacheBase) (replacements : ℕ → Replacement) (dram : BitVec 64 → Bytes)
    (es : List NucaEvent), nucaMachine.Guarded LosesNothing (start base replacements dram) es := by
  intro h
  have happend : nucaMachine.Guarded LosesNothing smallSlice (writtenOnce ++ [.read 64]) := h _ _ _ _
  have hrun := nucaMachine.run_final (show (nucaMachine.run smallSlice writtenOnce).isOk = true by decide +kernel)
  have hconsistent := (happend.at_event hrun).1
  have hfirst := hconsistent 0 (by decide +kernel) 0 (by decide +kernel)
  exact absurd hfirst (by decide +kernel)

end NucaRun

end LifeSim.Cache
