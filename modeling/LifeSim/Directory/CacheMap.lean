import LifeSim.Directory.Cache
import LifeSim.Lib.Checked

/-!
# The DRAM directory cache is a map

Whatever the handlers do, every line has at most one entry among the sets and the replaced entries together,
and a look-up finds it as the handlers of that line have left it.

A free entry of the set is taken before the replaced entries are searched. This does no harm because an
entry is only replaced when its set is full, and a full set stays full.
-/

namespace LifeSim.Directory

open LifeSim.Lib

variable {n : ℕ}

/-- The cache holds exactly the entries of the map. -/
structure Represents (cfg : Config n) (cc : CacheConfig) (c : DramDirectoryCache n)
    (known : ℕ → Option (DirectoryEntry n)) : Prop where
  inSet : ∀ k a, (c.directory k).address = some a → k ∈ cc.ways a
  slots : ∀ k k' a, (c.directory k).address = some a → (c.directory k').address = some a → k = k'
  apart : ∀ k a, (c.directory k).address = some a → some a ∉ c.replaced.map Line.address
  nodup : (c.replaced.map Line.address).Nodup
  full : ∀ l ∈ c.replaced, ∃ a, l.address = some a ∧ ∀ k ∈ cc.ways a, (c.directory k).address ≠ none
  fresh : ∀ k, (c.directory k).address = none → (c.directory k).entry = cfg.createDirectoryEntry
  known : ∀ a e, known a = some e ↔ (∃ k, c.directory k = ⟨some a, e⟩) ∨ ⟨some a, e⟩ ∈ c.replaced

/-- `invalidateDirectoryEntry` of a line that is replaced. -/
theorem DramDirectoryCache.invalidateDirectoryEntry_ok {c : DramDirectoryCache n} {a : ℕ}
    (h : some a ∈ c.replaced.map Line.address) : ∃ j e, c.replaced[j]? = some ⟨some a, e⟩ ∧
      c.invalidateDirectoryEntry a = .ok { c with replaced := c.replaced.eraseIdx j } := by
  unfold DramDirectoryCache.invalidateDirectoryEntry
  cases hj : c.replaced.findIdx? fun l => l.address = some a with
  | some j =>
    obtain ⟨hlt, haddr, -⟩ := List.findIdx?_eq_some_iff_getElem.mp hj
    have haddr : (c.replaced[j]).address = some a := by simpa using haddr
    refine ⟨j, (c.replaced[j]).entry, ?_, rfl⟩
    rw [List.getElem?_eq_getElem hlt, ← haddr]
  | none =>
    obtain ⟨l, hl, hla⟩ := List.mem_map.mp h
    have := List.findIdx?_eq_none_iff.mp hj l hl
    simp [hla] at this

namespace Represents

variable {cfg : Config n} {cc : CacheConfig} {c : DramDirectoryCache n}
  {known : ℕ → Option (DirectoryEntry n)} {a : ℕ}

/-- Nothing is known of a line that has no entry in its set and is not replaced. -/
theorem unknown (h : Represents cfg cc c known) (hlive : ∀ k ∈ cc.ways a, (c.directory k).address ≠ some a)
    (hrep : some a ∉ c.replaced.map Line.address) : known a = none := by
  cases hk : known a with
  | none => rfl
  | some e =>
    rcases (h.known a e).mp hk with ⟨k, hk⟩ | hl
    · have haddr : (c.directory k).address = some a := by rw [hk]
      exact absurd haddr (hlive k (h.inSet k a haddr))
    · exact absurd (List.mem_map_of_mem hl) hrep

/-- Where there is a free entry in its set, a line is not replaced. -/
theorem not_replaced (h : Represents cfg cc c known) {k : ℕ} (hk : k ∈ cc.ways a)
    (hfree : (c.directory k).address = none) : some a ∉ c.replaced.map Line.address := by
  intro hmem
  obtain ⟨l, hl, hla⟩ := List.mem_map.mp hmem
  obtain ⟨b, hb, hfull⟩ := h.full l hl
  have hab : b = a := Option.some.inj (hb.symm.trans hla)
  exact hfull k (hab ▸ hk) hfree

/-- The line of which nothing is known. -/
theorem of_unknown (h : Represents cfg cc c known) (hn : known a = none) :
    (∀ k, (c.directory k).address ≠ some a) ∧ some a ∉ c.replaced.map Line.address := by
  have hnone : ∀ e, ¬ ((∃ k, c.directory k = ⟨some a, e⟩) ∨ ⟨some a, e⟩ ∈ c.replaced) := by
    intro e he
    rw [← h.known a e, hn] at he
    cases he
  refine ⟨fun k hk => hnone (c.directory k).entry (.inl ⟨k, ?_⟩), fun hmem => ?_⟩
  · rw [← hk]
  · obtain ⟨l, hl, hla⟩ := List.mem_map.mp hmem
    refine hnone l.entry (.inr ?_)
    rw [← hla]
    exact hl

/-- The three outcomes of `getDirectoryEntry`: the entry that is known, a free one, or none. -/
theorem getDirectoryEntry_cases (h : Represents cfg cc c known) (a : ℕ) :
    (∃ r e, c.getDirectoryEntry cc a = (c, some r) ∧ known a = some e ∧ c.deref r = some ⟨some a, e⟩) ∨
    (∃ k ∈ cc.ways a, known a = none ∧ (c.directory k).address = none ∧ c.getDirectoryEntry cc a =
      ({ c with directory := Function.update c.directory k ⟨some a, cfg.createDirectoryEntry⟩ }, some (.live k))) ∨
    (known a = none ∧ c.getDirectoryEntry cc a = (c, none) ∧
      ∀ k ∈ cc.ways a, (c.directory k).address ≠ none) := by
  unfold DramDirectoryCache.getDirectoryEntry
  cases hlive : (cc.ways a).find? fun k => (c.directory k).address = some a with
  | some k =>
    have haddr : (c.directory k).address = some a := by simpa using List.find?_some hlive
    refine .inl ⟨.live k, (c.directory k).entry, rfl, ?_, ?_⟩
    · exact (h.known a _).mpr (.inl ⟨k, by rw [← haddr]⟩)
    · simp only [DramDirectoryCache.deref]
      rw [← haddr]
  | none =>
    have hno : ∀ k ∈ cc.ways a, (c.directory k).address ≠ some a := by
      simpa using List.find?_eq_none.mp hlive
    cases hfree : (cc.ways a).find? fun k => (c.directory k).address = none with
    | some k =>
      have hk := List.mem_of_find?_eq_some hfree
      have haddr : (c.directory k).address = none := by simpa using List.find?_some hfree
      refine .inr (.inl ⟨k, hk, h.unknown hno (h.not_replaced hk haddr), haddr, ?_⟩)
      simp only [h.fresh k haddr]
    | none =>
      have hfull : ∀ k ∈ cc.ways a, (c.directory k).address ≠ none := by
        simpa using List.find?_eq_none.mp hfree
      cases hrep : c.replaced.findIdx? fun l => l.address = some a with
      | some j =>
        obtain ⟨hj, haddr, -⟩ := List.findIdx?_eq_some_iff_getElem.mp hrep
        have haddr : (c.replaced[j]).address = some a := by simpa using haddr
        refine .inl ⟨.replaced j, (c.replaced[j]).entry, rfl, ?_, ?_⟩
        · refine (h.known a _).mpr (.inr ?_)
          rw [← haddr]
          exact List.getElem_mem hj
        · simp only [DramDirectoryCache.deref, List.getElem?_eq_getElem hj]
          rw [← haddr]
      | none =>
        refine .inr (.inr ⟨h.unknown hno fun hmem => ?_, rfl, hfull⟩)
        obtain ⟨l, hl, hla⟩ := List.mem_map.mp hmem
        have := List.findIdx?_eq_none_iff.mp hrep l hl
        simp [hla] at this

/-- An entry of the set of a line of which nothing is known is given to it. The replaced entries are
those of before, with the old entry if it had an address. -/
theorem put (h : Represents cfg cc c known) {k : ℕ} (hk : k ∈ cc.ways a) (hn : known a = none)
    (e : DirectoryEntry n) (replaced : List (Line n)) (hrep : replaced = c.replaced ++
      if (c.directory k).address = none then [] else [c.directory k])
    (hfull : (c.directory k).address ≠ none → ∀ b, (c.directory k).address = some b →
      ∀ j ∈ cc.ways b, (c.directory j).address ≠ none) :
    Represents cfg cc
      { c with directory := Function.update c.directory k ⟨some a, e⟩, replaced := replaced }
      (Function.update known a (some e)) := by
  obtain ⟨hlive, hnot⟩ := h.of_unknown hn
  -- an address that is found in the directory now was there before or is the new one
  have hold : ∀ j b, (Function.update c.directory k ⟨some a, e⟩ j).address = some b →
      (j = k ∧ b = a) ∨ (j ≠ k ∧ (c.directory j).address = some b) := by
    intro j b hj
    by_cases hjk : j = k
    · subst hjk
      rw [Function.update_self] at hj
      exact .inl ⟨rfl, (Option.some.inj hj).symm⟩
    · rw [Function.update_of_ne hjk] at hj
      exact .inr ⟨hjk, hj⟩
  have hmem : ∀ b, some b ∈ replaced.map Line.address ↔
      some b ∈ c.replaced.map Line.address ∨ (c.directory k).address = some b := by
    intro b
    rw [hrep]
    cases hak : (c.directory k).address with
    | none => simp
    | some v => simp [hak, eq_comm]
  refine ⟨fun j b hj => ?_, fun j j' b hj hj' => ?_, fun j b hj hb => ?_, ?_, ?_, fun j hj => ?_,
    fun b e' => ?_⟩
  · rcases hold j b hj with ⟨rfl, rfl⟩ | ⟨-, hj⟩
    · exact hk
    · exact h.inSet j b hj
  · rcases hold j b hj with ⟨rfl, rfl⟩ | ⟨hjk, hj⟩
    · rcases hold j' b hj' with ⟨rfl, -⟩ | ⟨-, hj'⟩
      · rfl
      · exact absurd hj' (hlive j')
    · rcases hold j' b hj' with ⟨-, hba⟩ | ⟨-, hj'⟩
      · exact absurd (hba ▸ hj) (hlive j)
      · exact h.slots j j' b hj hj'
  · rw [hmem] at hb
    rcases hold j b hj with ⟨rfl, rfl⟩ | ⟨hjk, hj⟩
    · rcases hb with hb | hb
      · exact hnot hb
      · exact hlive j hb
    · rcases hb with hb | hb
      · exact h.apart j b hj hb
      · exact hjk (h.slots j k b hj hb)
  · show (replaced.map Line.address).Nodup
    rw [hrep]
    cases hak : (c.directory k).address with
    | none => simpa using h.nodup
    | some v =>
      simp only [reduceCtorEq, if_false, List.map_append, List.map_cons, List.map_nil, hak]
      refine List.Nodup.append h.nodup (List.nodup_singleton _) ?_
      rw [List.disjoint_singleton]
      exact h.apart k v hak
  · intro l hl
    have hne : ∀ j, (c.directory j).address ≠ none →
        (Function.update c.directory k ⟨some a, e⟩ j).address ≠ none := by
      intro j hj
      by_cases hjk : j = k
      · subst hjk
        simp
      · rwa [Function.update_of_ne hjk]
    have hl : l ∈ c.replaced ∨ ((c.directory k).address ≠ none ∧ l = c.directory k) := by
      have hl : l ∈ replaced := hl
      rw [hrep] at hl
      rcases List.mem_append.mp hl with hl | hl
      · exact .inl hl
      · by_cases hak : (c.directory k).address = none
        · simp [hak] at hl
        · simp only [hak, if_false, List.mem_singleton] at hl
          exact .inr ⟨hak, hl⟩
    rcases hl with hl | ⟨hak, rfl⟩
    · obtain ⟨b, hb, hways⟩ := h.full l hl
      exact ⟨b, hb, fun j hj => hne j (hways j hj)⟩
    · obtain ⟨b, hb⟩ := Option.ne_none_iff_exists'.mp hak
      exact ⟨b, hb, fun j hj => hne j (hfull hak b hb j hj)⟩
  · by_cases hjk : j = k
    · subst hjk
      simp at hj
    · dsimp only at hj ⊢
      rw [Function.update_of_ne hjk] at hj ⊢
      exact h.fresh j hj
  · have hsplit : ⟨some b, e'⟩ ∈ replaced ↔ ⟨some b, e'⟩ ∈ c.replaced ∨ c.directory k = ⟨some b, e'⟩ := by
      rw [hrep, List.mem_append]
      by_cases hak : (c.directory k).address = none
      · have hne : c.directory k ≠ ⟨some b, e'⟩ := fun heq => by simp [heq] at hak
        simp [hak, hne]
      · simp [hak, eq_comm]
    dsimp only
    rw [hsplit]
    by_cases hba : b = a
    · subst hba
      rw [Function.update_self, Option.some.injEq]
      refine ⟨fun he => .inl ⟨k, by rw [Function.update_self, he]⟩, fun hr => ?_⟩
      rcases hr with ⟨j, hj⟩ | hr | hr
      · rcases hold j b (by rw [hj]) with ⟨rfl, -⟩ | ⟨-, hj'⟩
        · rw [Function.update_self] at hj
          exact congrArg Line.entry hj
        · exact absurd hj' (hlive j)
      · exact absurd (List.mem_map_of_mem hr) hnot
      · exact absurd (by rw [hr]) (hlive k)
    · rw [Function.update_of_ne hba, h.known b e']
      refine ⟨fun hr => ?_, fun hr => ?_⟩
      · rcases hr with ⟨j, hj⟩ | hr
        · by_cases hjk : j = k
          · exact .inr (.inr (hjk ▸ hj))
          · exact .inl ⟨j, by rw [Function.update_of_ne hjk, hj]⟩
        · exact .inr (.inl hr)
      · rcases hr with ⟨j, hj⟩ | hr | hr
        · rcases hold j b (by rw [hj]) with ⟨-, hba'⟩ | ⟨hjk, -⟩
          · exact absurd hba' hba
          · exact .inl ⟨j, by rwa [Function.update_of_ne hjk] at hj⟩
        · exact .inr hr
        · exact .inl ⟨k, hr⟩

/-- Nothing but the entries has changed. -/
theorem of_addresses (h : Represents cfg cc c known) {c' : DramDirectoryCache n}
    {known' : ℕ → Option (DirectoryEntry n)}
    (hd : ∀ k, (c'.directory k).address = (c.directory k).address)
    (hrep : c'.replaced.map Line.address = c.replaced.map Line.address)
    (hfresh : ∀ k, (c'.directory k).address = none → (c'.directory k).entry = cfg.createDirectoryEntry)
    (hknown : ∀ a e, known' a = some e ↔ (∃ k, c'.directory k = ⟨some a, e⟩) ∨ ⟨some a, e⟩ ∈ c'.replaced) :
    Represents cfg cc c' known' where
  inSet := fun k a hk => h.inSet k a (hd k ▸ hk)
  slots := fun k k' a hk hk' => h.slots k k' a (hd k ▸ hk) (hd k' ▸ hk')
  apart := fun k a hk => by
    rw [hrep]
    exact h.apart k a (hd k ▸ hk)
  nodup := by
    rw [hrep]
    exact h.nodup
  full := fun l hl => by
    have hmem : l.address ∈ c.replaced.map Line.address := hrep ▸ List.mem_map_of_mem hl
    obtain ⟨l', hl', heq⟩ := List.mem_map.mp hmem
    obtain ⟨a, ha, hways⟩ := h.full l' hl'
    exact ⟨a, by rw [← heq, ha], fun k hk => by rw [hd k]; exact hways k hk⟩
  fresh := hfresh
  known := hknown

/-- Two replaced entries of one line are the same. -/
theorem replaced_unique (h : Represents cfg cc c known) {i j : ℕ} {l l' : Line n}
    (hi : c.replaced[i]? = some l) (hj : c.replaced[j]? = some l') (heq : l.address = l'.address) : i = j := by
  have hlt : i < (c.replaced.map Line.address).length := by
    rw [List.length_map]
    exact (List.getElem?_eq_some_iff.mp hi).1
  refine (List.getElem?_inj hlt h.nodup).mp ?_
  rw [List.getElem?_map, List.getElem?_map, hi, hj, Option.map_some, Option.map_some, heq]

/-- The entry behind a pointer is changed. -/
theorem modify (h : Represents cfg cc c known) {r : EntryRef} {e : DirectoryEntry n}
    (hr : c.deref r = some ⟨some a, e⟩) (f : DirectoryEntry n → DirectoryEntry n) :
    Represents cfg cc (c.modify r f) (Function.update known a (some (f e))) := by
  cases r with
  | live k =>
    have hk : c.directory k = ⟨some a, e⟩ := Option.some.inj hr
    have hdir : ∀ j, (c.modify (.live k) f).directory j =
        if j = k then ⟨some a, f e⟩ else c.directory j := by
      intro j
      by_cases hj : j = k
      · simp [DramDirectoryCache.modify, hj, hk]
      · simp [DramDirectoryCache.modify, hj]
    have haddr : ∀ j, ((c.modify (.live k) f).directory j).address = (c.directory j).address := by
      intro j
      rw [hdir]
      split
      · rename_i hj
        rw [hj, hk]
      · rfl
    refine h.of_addresses haddr rfl (fun j hj => ?_) fun b e' => ?_
    · have hjk : j ≠ k := by
        intro hjk
        rw [haddr, hjk, hk] at hj
        cases hj
      rw [hdir, if_neg hjk]
      exact h.fresh j (haddr j ▸ hj)
    · show _ ↔ _ ∨ _ ∈ c.replaced
      by_cases hba : b = a
      · subst hba
        rw [Function.update_self, Option.some.injEq]
        refine ⟨fun he => .inl ⟨k, by rw [hdir, if_pos rfl, he]⟩, fun hor => ?_⟩
        rcases hor with ⟨j, hj⟩ | hmem
        · have hjk : j = k := h.slots j k b (by rw [← haddr j, hj]) (by rw [hk])
          rw [hdir, if_pos hjk] at hj
          exact congrArg Line.entry hj
        · exact absurd (List.mem_map_of_mem hmem) (h.apart k b (by rw [hk]))
      · rw [Function.update_of_ne hba, h.known b e']
        refine or_congr (exists_congr fun j => ?_) Iff.rfl
        rw [hdir]
        split
        · rename_i hj
          rw [hj, hk]
          simp [Ne.symm hba]
        · rfl
  | replaced j =>
    have hj : c.replaced[j]? = some ⟨some a, e⟩ := hr
    have hget : ∀ i, (c.modify (.replaced j) f).replaced[i]? =
        if i = j then some ⟨some a, f e⟩ else c.replaced[i]? := by
      intro i
      by_cases hi : i = j
      · simp [DramDirectoryCache.modify, hi, hj]
      · simp [DramDirectoryCache.modify, List.getElem?_modify_ne _ _ (Ne.symm hi), hi]
    refine h.of_addresses (fun _ => rfl) ?_ h.fresh fun b e' => ?_
    · refine List.ext_getElem? fun i => ?_
      rw [List.getElem?_map, List.getElem?_map, hget]
      split
      · rename_i hi
        rw [hi, hj]
        rfl
      · rfl
    · show _ ↔ (∃ k, c.directory k = _) ∨ _
      rw [List.mem_iff_getElem?]
      by_cases hba : b = a
      · subst hba
        rw [Function.update_self, Option.some.injEq]
        refine ⟨fun he => .inr ⟨j, by rw [hget, if_pos rfl, he]⟩, fun hor => ?_⟩
        rcases hor with ⟨k, hk⟩ | ⟨i, hi⟩
        · exact absurd (List.mem_map_of_mem (List.mem_of_getElem? hj)) (h.apart k b (by rw [hk]))
        · rw [hget] at hi
          split at hi
          · exact congrArg Line.entry (Option.some.inj hi)
          · rename_i hij
            exact absurd (h.replaced_unique hi hj rfl) hij
      · rw [Function.update_of_ne hba, h.known b e', List.mem_iff_getElem?]
        refine or_congr Iff.rfl (exists_congr fun i => ?_)
        rw [hget]
        split
        · rename_i hi
          rw [hi, hj]
          simp [Ne.symm hba]
        · rfl

/-- An entry is dropped from the list of the replaced ones. -/
theorem erase (h : Represents cfg cc c known) {j : ℕ} {e : DirectoryEntry n}
    (hj : c.replaced[j]? = some ⟨some a, e⟩) :
    Represents cfg cc { c with replaced := c.replaced.eraseIdx j } (Function.update known a none) := by
  have hsub : (c.replaced.eraseIdx j).map Line.address |>.Sublist (c.replaced.map Line.address) :=
    (List.eraseIdx_sublist c.replaced j).map _
  refine ⟨h.inSet, h.slots, fun k b hk hb => h.apart k b hk (hsub.subset hb), h.nodup.sublist hsub,
    fun l hl => h.full l ((List.eraseIdx_sublist c.replaced j).subset hl), h.fresh, fun b e' => ?_⟩
  dsimp only
  rw [List.mem_eraseIdx_iff_getElem?]
  by_cases hba : b = a
  · subst hba
    rw [Function.update_self]
    refine ⟨fun hn => (by cases hn), fun hor => ?_⟩
    rcases hor with ⟨k, hk⟩ | ⟨i, hij, hi⟩
    · exact absurd (List.mem_map_of_mem (List.mem_of_getElem? hj)) (h.apart k b (by rw [hk]))
    · exact absurd (h.replaced_unique hi hj rfl) hij
  · rw [Function.update_of_ne hba, h.known b e', List.mem_iff_getElem?]
    refine or_congr Iff.rfl (exists_congr fun i => ⟨fun hi => ⟨?_, hi⟩, fun hi => hi.2⟩)
    intro hij
    rw [hij, hj] at hi
    simp [Ne.symm hba] at hi

/-- The lines that are still replaced when one of them is not any more. -/
theorem mem_erase (h : Represents cfg cc c known) {j : ℕ} {e : DirectoryEntry n}
    (hj : c.replaced[j]? = some ⟨some a, e⟩) (b : ℕ) :
    some b ∈ (c.replaced.eraseIdx j).map Line.address ↔ b ≠ a ∧ some b ∈ c.replaced.map Line.address := by
  have hgone := ((h.erase hj).of_unknown (Function.update_self a none known)).2
  refine ⟨fun hmem => ⟨fun hba => hgone (hba ▸ hmem), ?_⟩, fun ⟨hba, hmem⟩ => ?_⟩
  · exact ((List.eraseIdx_sublist c.replaced j).map _).subset hmem
  · obtain ⟨l, hl, hlb⟩ := List.mem_map.mp hmem
    obtain ⟨i, hi⟩ := List.mem_iff_getElem?.mp hl
    refine List.mem_map.mpr ⟨l, List.mem_eraseIdx_iff_getElem?.mpr ⟨i, fun hij => ?_, hi⟩, hlb⟩
    rw [hij, hj] at hi
    rw [← Option.some.inj hi] at hlb
    exact hba (Option.some.inj hlb).symm

end Represents

/-- The cache represents the map, and a line is being nullified exactly while its entry is replaced. -/
structure CacheInv (cfg : Config n) (cc : CacheConfig) (s : DramDirectoryCntlr n) : Prop where
  represents : Represents cfg cc s.cache s.known
  nullify : ∀ a, some a ∈ s.cache.replaced.map Line.address ↔ (s.queue a).head? = some .nullifyReq
  behind : ∀ a, .nullifyReq ∉ (s.queue a).tail

/-- The faults that are not about the cache: the set has no entry without requests, a message for a line
without an entry, and a reply of DRAM that no request waits for. -/
def CacheFault.Possible (f : CacheFault) : Prop :=
  f = .noCandidate ∨ f = .noEntry ∨ f = .emptyQueue ∨ f = .dramReplyRequest

namespace CacheInv

variable {cfg : Config n} {cc : CacheConfig} {s s' : DramDirectoryCntlr n} {a : ℕ} {r : EntryRef}

/-- The three outcomes of a look-up. -/
theorem lookup_cases (h : CacheInv cfg cc s) (a : ℕ) : ∃ s', CacheInv cfg cc s' ∧ s'.queue = s.queue ∧
    ((∃ r e, s.lookup cfg cc a = (s', some r) ∧ s'.known a = some e ∧
        s'.cache.deref r = some ⟨some a, e⟩ ∧ (s.known a = some e ∧ s' = s ∨
          s.known a = none ∧ e = cfg.createDirectoryEntry)) ∨
      (s.lookup cfg cc a = (s', none) ∧ s' = s ∧ s.known a = none ∧
        ∀ k ∈ cc.ways a, (s.cache.directory k).address ≠ none)) := by
  unfold DramDirectoryCntlr.lookup
  rcases h.represents.getDirectoryEntry_cases a with
    ⟨r, e, hget, hknown, hderef⟩ | ⟨k, hk, hknown, hfree, hget⟩ | ⟨hknown, hget, hfull⟩
  · have hsame : Function.update s.known a (some ((s.known a).getD cfg.createDirectoryEntry)) = s.known := by
      rw [hknown, Option.getD_some, ← hknown, Function.update_eq_self]
    refine ⟨s, h, rfl, .inl ⟨r, e, ?_, hknown, hderef, .inl ⟨hknown, rfl⟩⟩⟩
    rw [hget]
    dsimp only
    rw [hsame]
  · have hput := h.represents.put hk hknown cfg.createDirectoryEntry s.cache.replaced (by simp [hfree])
      (by simp [hfree])
    refine ⟨⟨_, s.queue, Function.update s.known a (some cfg.createDirectoryEntry)⟩,
      ⟨hput, h.nullify, h.behind⟩, rfl, .inl ⟨.live k, cfg.createDirectoryEntry, ?_, ?_, ?_, .inr ⟨hknown, rfl⟩⟩⟩
    · rw [hget]
      dsimp only
      rw [hknown, Option.getD_none]
    · exact Function.update_self ..
    · simp [DramDirectoryCache.deref]
  · refine ⟨s, h, rfl, .inr ⟨?_, rfl, hknown, hfull⟩⟩
    rw [hget]

/-- A handler changes the entry of its line. -/
theorem changeEntry (h : CacheInv cfg cc s) {e : DirectoryEntry n} (hk : s.known a = some e)
    (hr : s.cache.deref r = some ⟨some a, e⟩) (f : DirectoryEntry n → DirectoryEntry n) :
    CacheInv cfg cc (s.changeEntry a r f) where
  represents := by
    have := h.represents.modify hr f
    unfold DramDirectoryCntlr.changeEntry
    rwa [hk, Option.map_some]
  nullify := fun b => by
    have haddr : (s.cache.modify r f).replaced.map Line.address = s.cache.replaced.map Line.address := by
      cases r with
      | live k => rfl
      | replaced j =>
        refine List.ext_getElem? fun i => ?_
        simp only [DramDirectoryCache.modify, List.getElem?_map, List.getElem?_modify]
        cases s.cache.replaced[i]? with
        | none => rfl
        | some l => by_cases hi : j = i <;> simp [hi]
    show _ ∈ (s.cache.modify r f).replaced.map Line.address ↔ _
    rw [haddr]
    exact h.nullify b
  behind := h.behind

/-- The entry of a line is asserted to be there. -/
theorem entryOf (h : CacheInv cfg cc s) (a : ℕ) : Ensures (s.entryOf cfg cc a)
    (fun p => CacheInv cfg cc p.1 ∧ p.1.queue = s.queue ∧
      (∃ e, p.1.known a = some e ∧ p.1.cache.deref p.2 = some ⟨some a, e⟩) ∧
      (s.known a ≠ none → p.1 = s)) fun f => f = .noEntry ∧ s.known a = none := by
  unfold DramDirectoryCntlr.entryOf
  obtain ⟨s', hs', hq, ⟨r, e, hl, hk, hr, hor⟩ | ⟨hl, -, hn, -⟩⟩ := h.lookup_cases a
  · rw [hl]
    refine Ensures.ok ⟨hs', hq, ⟨e, hk, hr⟩, fun hne => ?_⟩
    rcases hor with ⟨-, rfl⟩ | ⟨hn, -⟩
    · rfl
    · exact absurd hn hne
  · rw [hl]
    exact Ensures.error ⟨rfl, hn⟩

/-- Other than at the front of its queue, nothing changes for a line. -/
theorem setQueue (h : CacheInv cfg cc s) {q : List QueuedReq}
    (hhead : q.head? = some .nullifyReq ↔ (s.queue a).head? = some .nullifyReq) (htail : .nullifyReq ∉ q.tail) :
    CacheInv cfg cc (s.setQueue a q) where
  represents := h.represents
  nullify := fun b => by
    show _ ↔ (Function.update s.queue a q b).head? = _
    by_cases hb : b = a
    · subst hb
      rw [Function.update_self, hhead]
      exact h.nullify b
    · rw [Function.update_of_ne hb]
      exact h.nullify b
  behind := fun b => by
    show _ ∉ (Function.update s.queue a q b).tail
    by_cases hb : b = a
    · subst hb
      rwa [Function.update_self]
    · rw [Function.update_of_ne hb]
      exact h.behind b

/-- `processNullifyReq` of a line that is being nullified. When it is done, the request is not one any more. -/
theorem processNullifyReq (h : CacheInv cfg cc s) {rest : List QueuedReq}
    (hq : s.queue a = .nullifyReq :: rest) : Ensures (s.processNullifyReq cfg cc a)
      (fun p => p.1.queue = s.queue ∧
        if p.2 then CacheInv cfg cc (p.1.setQueue a rest) ∧ (∀ b ≠ a, p.1.known b = s.known b) ∧
          p.1.cache.directory = s.cache.directory else p.1 = s)
      fun _ => False := by
  have hrep : some a ∈ s.cache.replaced.map Line.address := (h.nullify a).mpr (by rw [hq]; rfl)
  obtain ⟨l, hl, hla⟩ := List.mem_map.mp hrep
  have hkn : s.known a = some l.entry := (h.represents.known a l.entry).mpr (.inr (by rw [← hla]; exact hl))
  unfold DramDirectoryCntlr.processNullifyReq
  refine ((h.entryOf a).mono (fun p hp => hp) fun f hf => ?_).bind fun p hp => ?_
  · exact absurd hf.2 (by rw [hkn]; simp)
  · obtain ⟨t, r⟩ := p
    obtain ⟨-, -, ⟨e, hke, hre⟩, hsame⟩ := hp
    obtain rfl : t = s := hsame (by rw [hkn]; simp)
    dsimp only
    split
    · obtain ⟨j, e', hget, hinvd⟩ := DramDirectoryCache.invalidateDirectoryEntry_ok hrep
      rw [hinvd]
      refine Ensures.ok ⟨rfl, ?_⟩
      dsimp only
      rw [if_pos rfl]
      have herase := h.represents.erase hget
      refine ⟨⟨herase, fun b => ?_, fun b => ?_⟩, fun b hb => Function.update_of_ne hb .., rfl⟩
      · show _ ∈ (t.cache.replaced.eraseIdx j).map Line.address ↔ (Function.update t.queue a rest b).head? = _
        rw [h.represents.mem_erase hget]
        by_cases hb : b = a
        · subst hb
          rw [Function.update_self]
          refine ⟨fun hne => absurd rfl hne.1, fun hhead => absurd (List.mem_of_mem_head? hhead) ?_⟩
          have := h.behind b
          rwa [hq] at this
        · rw [Function.update_of_ne hb, ← h.nullify b]
          exact ⟨fun hand => hand.2, fun hmem => ⟨hb, hmem⟩⟩
      · show _ ∉ (Function.update t.queue a rest b).tail
        by_cases hb : b = a
        · subst hb
          rw [Function.update_self]
          have := h.behind b
          rw [hq] at this
          exact fun hmem => this (List.mem_of_mem_tail hmem)
        · rw [Function.update_of_ne hb]
          exact h.behind b
    · exact Ensures.ok ⟨rfl, by simp⟩

end CacheInv

/-- The set of an entry is the one of every address it can have. -/
theorem CacheConfig.ways_eq (cc : CacheConfig) {k a b : ℕ} (ha : k ∈ cc.ways a) (hb : k ∈ cc.ways b) :
    cc.ways a = cc.ways b := by
  unfold CacheConfig.ways at ha hb ⊢
  obtain ⟨i, hi, rfl⟩ := List.mem_map.mp ha
  obtain ⟨j, hj, hij⟩ := List.mem_map.mp hb
  rw [List.mem_range] at hi hj
  have hset : cc.setIndex b = cc.setIndex a := by
    have hdiv : ∀ s t : ℕ, t < cc.associativity → (s * cc.associativity + t) / cc.associativity = s := by
      intro s t ht
      rw [Nat.mul_comm, Nat.mul_add_div (by omega), Nat.div_eq_of_lt ht, Nat.add_zero]
    rw [← hdiv (cc.setIndex b) j hj, hij, hdiv _ i hi]
  rw [hset]

/-- `replaceDirectoryEntry`: an entry of a full set is given to another line and kept as replaced. -/
theorem Represents.replaceDirectoryEntry {cfg : Config n} {cc : CacheConfig} {c : DramDirectoryCache n}
    {known : ℕ → Option (DirectoryEntry n)} {a k v : ℕ} (h : Represents cfg cc c known) (hk : k ∈ cc.ways a)
    (hkv : (c.directory k).address = some v) (hn : known a = none)
    (hfull : ∀ j ∈ cc.ways a, (c.directory j).address ≠ none) :
    c.replaceDirectoryEntry cfg cc v a = .ok
      ({ c with replaced := c.replaced ++ [c.directory k]
                directory := Function.update c.directory k ⟨some a, cfg.createDirectoryEntry⟩ }, .live k) ∧
    Represents cfg cc
      { c with replaced := c.replaced ++ [c.directory k]
               directory := Function.update c.directory k ⟨some a, cfg.createDirectoryEntry⟩ }
      (Function.update known a (some cfg.createDirectoryEntry)) := by
  have hfind : ((cc.ways v).find? fun k => (c.directory k).address = some v) = some k := by
    cases hf : (cc.ways v).find? fun k => (c.directory k).address = some v with
    | none =>
      have := List.find?_eq_none.mp hf k (h.inSet k v hkv)
      simp [hkv] at this
    | some j =>
      have hj : (c.directory j).address = some v := by simpa using List.find?_some hf
      rw [h.slots j k v hj hkv]
  refine ⟨?_, h.put hk hn cfg.createDirectoryEntry _ (by simp [hkv]) fun _ b hb j hj => ?_⟩
  · unfold DramDirectoryCache.replaceDirectoryEntry
    rw [hfind]
  · exact hfull j (cc.ways_eq hk (h.inSet k b hb) ▸ hj)

/-- The candidates are entries of the set. -/
theorem DramDirectoryCache.candidates_mem {cc : CacheConfig} {c : DramDirectoryCache n} {a k : ℕ}
    (hk : k ∈ c.candidates cc a) : k ∈ cc.ways a := by
  unfold DramDirectoryCache.candidates at hk
  obtain ⟨i, hi, rfl⟩ := List.mem_map.mp hk
  rw [List.mem_range] at hi
  exact List.mem_map.mpr ⟨_, List.mem_range.mpr (Nat.mod_lt _ (by omega)), rfl⟩

/-- The replaced entry is a candidate without requests. -/
theorem DramDirectoryCntlr.replacementCandidate_some {s : DramDirectoryCntlr n} {l : List ℕ} {k : ℕ}
    (h : s.replacementCandidate l = some k) :
    k ∈ l ∧ (s.cache.directory k).address.elim [] s.queue = [] := by
  unfold DramDirectoryCntlr.replacementCandidate at h
  have hinv : ∀ (l' : List ℕ) (best : Option ℕ), (∀ b, best = some b → b ∈ l ∧
      (s.cache.directory b).address.elim [] s.queue = []) → l' ⊆ l → ∀ b, l'.foldl (fun best k =>
        if (best.all fun b => (s.cache.directory b).entry.getNumSharers >
            (s.cache.directory k).entry.getNumSharers) ∧
          (s.cache.directory k).address.elim [] s.queue = [] then some k else best) best = some b →
      b ∈ l ∧ (s.cache.directory b).address.elim [] s.queue = [] := by
    intro l'
    induction l' with
    | nil => exact fun best hbest _ b hb => hbest b hb
    | cons j l' ih =>
      intro best hbest hsub b hb
      rw [List.foldl_cons] at hb
      refine ih _ (fun b' hb' => ?_) (fun _ hm => hsub (List.mem_cons_of_mem _ hm)) b hb
      split at hb'
      · rename_i hc
        cases hb'
        exact ⟨hsub (List.mem_cons_self ..), hc.2⟩
      · exact hbest b' hb'
  exact hinv l none (fun b hb => by cases hb) (fun _ => id) k h

namespace CacheInv

variable {cfg : Config n} {cc : CacheConfig} {s s' : DramDirectoryCntlr n} {a : ℕ}

/-- A line without requests gives its entry to another one of the set. -/
theorem replace (h : CacheInv cfg cc s) {k v : ℕ} (hk : k ∈ cc.ways a)
    (hkv : (s.cache.directory k).address = some v) (hn : s.known a = none)
    (hfull : ∀ j ∈ cc.ways a, (s.cache.directory j).address ≠ none) (hv : s.queue v = []) :
    Ensures (s.replace cfg cc v a) (fun p => CacheInv cfg cc p.1 ∧ p.1.queue a = s.queue a ∧
      ∃ e, p.1.known a = some e ∧ p.1.cache.deref p.2 = some ⟨some a, e⟩) fun _ => False := by
  have hav : a ≠ v := fun hav => (h.represents.of_unknown hn).1 k (hav ▸ hkv)
  obtain ⟨hrepl, hput⟩ := h.represents.replaceDirectoryEntry hk hkv hn hfull
  unfold DramDirectoryCntlr.replace
  rw [hrepl]
  simp only [ok_bind]
  generalize ht : DramDirectoryCntlr.setQueue v _ (_ : DramDirectoryCntlr n) = t
  have htq : t.queue = Function.update s.queue v [.nullifyReq] := by
    rw [← ht, hv]
    rfl
  have htv : t.queue v = [.nullifyReq] := by rw [htq, Function.update_self]
  have hta : t.queue a = s.queue a := by rw [htq, Function.update_of_ne hav]
  have htk : t.known a = some cfg.createDirectoryEntry := by
    rw [← ht]
    exact Function.update_self ..
  have htd : t.cache.directory k = ⟨some a, cfg.createDirectoryEntry⟩ := by
    rw [← ht]
    exact Function.update_self ..
  have htrep : t.cache.replaced = s.cache.replaced ++ [s.cache.directory k] := by
    rw [← ht]
    rfl
  have hinv : CacheInv cfg cc t := by
    refine ⟨?_, fun b => ?_, fun b => ?_⟩
    · rw [← ht]
      exact hput
    · rw [htrep, List.map_append, List.mem_append, List.map_singleton, List.mem_singleton, hkv, htq]
      by_cases hb : b = v
      · simp [hb]
      · rw [Function.update_of_ne hb, ← h.nullify b]
        simp [hb]
    · rw [htq]
      by_cases hb : b = v
      · simp [hb]
      · rw [Function.update_of_ne hb]
        exact h.behind b
  rw [if_pos (by rw [htv]; rfl)]
  refine (hinv.processNullifyReq htv).bind fun p hp => Ensures.ok ?_
  obtain ⟨u, completed⟩ := p
  obtain ⟨huq, hu⟩ := hp
  cases completed with
  | true =>
    simp only [if_true] at hu ⊢
    obtain ⟨hu, hknown, hdir⟩ := hu
    refine ⟨hu, ?_, cfg.createDirectoryEntry, (hknown a hav).trans htk, ?_⟩
    · show Function.update u.queue v [] a = _
      rw [Function.update_of_ne hav, huq, hta]
    · show some (u.cache.directory k) = _
      rw [hdir, htd]
  | false =>
    simp only [Bool.false_eq_true, if_false] at hu ⊢
    subst hu
    refine ⟨hinv, hta, cfg.createDirectoryEntry, htk, ?_⟩
    show some (u.cache.directory k) = _
    rw [htd]

/-- A line without an entry in a full set gets one. -/
theorem allocate (h : CacheInv cfg cc s) (hn : s.known a = none) (hl : s.lookup cfg cc a = (s, none))
    (hfull : ∀ j ∈ cc.ways a, (s.cache.directory j).address ≠ none) :
    Ensures (s.allocate cfg cc a) (fun p => CacheInv cfg cc p.1 ∧ p.1.queue a = s.queue a ∧
      ∃ e, p.1.known a = some e ∧ p.1.cache.deref p.2 = some ⟨some a, e⟩) CacheFault.Possible := by
  unfold DramDirectoryCntlr.allocate
  rw [hl]
  dsimp only
  generalize hadv : ({ s with cache := s.cache.advance cc a } : DramDirectoryCntlr n) = t
  have hdir : t.cache.directory = s.cache.directory := by rw [← hadv]; rfl
  have hqueue : t.queue = s.queue := by rw [← hadv]
  have hinv : CacheInv cfg cc t := by
    rw [← hadv]
    have hr := h.represents
    exact ⟨⟨hr.inSet, hr.slots, hr.apart, hr.nodup, hr.full, hr.fresh, hr.known⟩, h.nullify, h.behind⟩
  cases hc : t.replacementCandidate (s.cache.candidates cc a) with
  | none => exact Ensures.error (.inl rfl)
  | some k =>
    obtain ⟨hk, hempty⟩ := DramDirectoryCntlr.replacementCandidate_some hc
    have hk := DramDirectoryCache.candidates_mem hk
    have hdir' : (s.cache.advance cc a).directory = t.cache.directory := by rw [← hadv]
    dsimp only
    rw [hdir']
    cases hv : (t.cache.directory k).address with
    | none =>
      rw [hdir] at hv
      exact absurd hv (hfull k hk)
    | some v =>
      rw [hv] at hempty
      have hknown : t.known a = none := by rw [← hadv]; exact hn
      refine (hinv.replace hk hv hknown (by rw [hdir]; exact hfull) hempty).mono (fun p hp => ?_) fun f hf => hf.elim
      rw [hqueue] at hp
      exact hp

/-- A handler that works on a request. -/
theorem processReq (h : CacheInv cfg cc s) (f : DirectoryEntry n → DirectoryEntry n) :
    Ensures (s.processReq cfg cc a f) (fun t => CacheInv cfg cc t ∧ t.queue a = s.queue a)
      CacheFault.Possible := by
  unfold DramDirectoryCntlr.processReq
  obtain ⟨s', hs', hq, ⟨r, e, hl, hk, hr, -⟩ | ⟨hl, rfl, hn, hfull⟩⟩ := h.lookup_cases a
  · rw [hl]
    exact Ensures.ok ⟨hs'.changeEntry hk hr f, congrFun hq a⟩
  · rw [hl]
    refine (h.allocate hn hl hfull).bind fun p hp => ?_
    obtain ⟨t, r⟩ := p
    obtain ⟨ht, htq, e, hke, hre⟩ := hp
    exact Ensures.ok ⟨ht.changeEntry hke hre f, htq⟩

/-- The requests behind one that is done are worked on. -/
theorem processNextReq {work : ℕ → Work n} (k : ℕ) (hs : ∃ q rest, s.queue a = q :: rest ∧
      .nullifyReq ∉ rest ∧ CacheInv cfg cc (s.setQueue a rest)) :
    Ensures (s.processNextReq cfg cc a work k) (CacheInv cfg cc) CacheFault.Possible := by
  induction k generalizing s with
  | zero => exact Ensures.error (.inr (.inr (.inl rfl)))
  | succ k ih =>
    obtain ⟨q, rest, hq, hnot, hinv⟩ := hs
    unfold DramDirectoryCntlr.processNextReq
    rw [hq]
    cases rest with
    | nil => exact Ensures.ok hinv
    | cons g rest =>
      cases g with
      | nullifyReq => exact absurd (List.mem_cons_self ..) hnot
      | request =>
        refine (hinv.processReq (work k).change).bind fun t ht => ?_
        obtain ⟨ht, htq⟩ := ht
        have htq : t.queue a = .request :: rest := htq.trans (Function.update_self ..)
        have hrest : .nullifyReq ∉ rest := fun hm => hnot (List.mem_cons_of_mem _ hm)
        split
        · refine ih ⟨.request, rest, htq, hrest, ht.setQueue ?_ fun hm => hrest (List.mem_of_mem_tail hm)⟩
          rw [htq]
          refine ⟨fun hm => absurd (List.mem_of_mem_head? hm) hrest, fun hm => ?_⟩
          cases hm
        · exact Ensures.ok ht

/-- The request at the front is worked on. -/
theorem processFront {work : ℕ → Work n} (h : CacheInv cfg cc s) {rest : List QueuedReq}
    (hq : s.queue a = .request :: rest) :
    Ensures (s.processFront cfg cc a work) (CacheInv cfg cc) CacheFault.Possible := by
  have hrest : .nullifyReq ∉ rest := by
    have := h.behind a
    rwa [hq] at this
  unfold DramDirectoryCntlr.processFront
  refine (h.processReq _).bind fun t ht => ?_
  obtain ⟨ht, htq⟩ := ht
  split
  · refine processNextReq _ ⟨.request, rest, htq.trans hq, hrest, ht.setQueue ?_ fun hm =>
      hrest (List.mem_of_mem_tail hm)⟩
    rw [htq, hq]
    refine ⟨fun hm => absurd (List.mem_of_mem_head? hm) hrest, fun hm => ?_⟩
    cases hm
  · exact Ensures.ok ht

/-- Every message keeps the cache a map. -/
theorem step (h : CacheInv cfg cc s) (ev : CacheEvent n) :
    Ensures (cacheStep cfg cc s ev) (CacheInv cfg cc) CacheFault.Possible := by
  cases ev with
  | request a work =>
    dsimp only [cacheStep]
    obtain ⟨t, ht, hq, hor⟩ := h.lookup_cases a
    have hfst : (s.lookup cfg cc a).1 = t := by
      rcases hor with ⟨r, e, hl, -⟩ | ⟨hl, -⟩ <;> rw [hl]
    rw [hfst]
    have hset : CacheInv cfg cc (t.setQueue a (t.queue a ++ [.request])) := by
      refine ht.setQueue ?_ fun hm => ?_
      · cases t.queue a <;> simp
      · have hb := ht.behind a
        cases hqa : t.queue a with
        | nil => simp [hqa] at hm
        | cons q rest =>
          rw [hqa] at hb hm
          simp only [List.cons_append, List.tail_cons, List.mem_append, List.mem_singleton] at hm hb
          rcases hm with hm | hm
          · exact hb hm
          · cases hm
    split
    · rename_i hlen
      have hqa : (t.setQueue a (t.queue a ++ [.request])).queue a = t.queue a ++ [.request] :=
        Function.update_self ..
      have hnil : t.queue a = [] := by
        rw [hqa] at hlen
        simpa using hlen
      exact hset.processFront (hqa.trans (by rw [hnil]; rfl))
    · exact Ensures.ok hset
  | reply a change work =>
    dsimp only [cacheStep]
    obtain ⟨t, ht, hq, hor⟩ := h.lookup_cases a
    have hfst : (s.lookup cfg cc a).1 = t := by
      rcases hor with ⟨r, e, hl, -⟩ | ⟨hl, -⟩ <;> rw [hl]
    rw [hfst]
    refine ((ht.entryOf a).mono (fun p hp => hp) fun f hf => .inr (.inl hf.1)).bind fun p hp => ?_
    obtain ⟨u, r⟩ := p
    obtain ⟨hu, -, ⟨e, hk, hr⟩, -⟩ := hp
    have hch := hu.changeEntry hk hr change
    dsimp only
    split
    · exact Ensures.ok hch
    · rename_i rest hqu
      exact hch.processFront hqu
    · rename_i rest hqu
      refine ((hch.processNullifyReq hqu).mono (fun p hp => hp) fun f hf => hf.elim).bind fun p hp => ?_
      obtain ⟨w, completed⟩ := p
      obtain ⟨hwq, hw⟩ := hp
      cases completed with
      | true =>
        simp only [if_true] at hw ⊢
        have hrest : .nullifyReq ∉ rest := by
          have := hch.behind a
          rwa [hqu] at this
        exact processNextReq _ ⟨_, rest, (congrFun hwq a).trans hqu, hrest, hw.1⟩
      | false =>
        simp only [Bool.false_eq_true, if_false] at hw ⊢
        exact Ensures.ok (hw ▸ hch)
  | dramReply a work =>
    dsimp only [cacheStep]
    split
    · exact Ensures.error (.inr (.inr (.inl rfl)))
    · rename_i q rest hqa
      refine ((h.entryOf a).mono (fun p hp => hp) fun f hf => .inr (.inl hf.1)).bind fun p hp => ?_
      obtain ⟨u, r⟩ := p
      obtain ⟨hu, huq, -⟩ := hp
      dsimp only
      split
      · rename_i hreq
        subst hreq
        have hqu : u.queue a = .request :: rest := (congrFun huq a).trans hqa
        have hrest : .nullifyReq ∉ rest := by
          have := hu.behind a
          rwa [hqu] at this
        refine processNextReq _ ⟨_, rest, hqu, hrest, hu.setQueue ?_ fun hm => hrest (List.mem_of_mem_tail hm)⟩
        rw [hqu]
        refine ⟨fun hm => absurd (List.mem_of_mem_head? hm) hrest, fun hm => ?_⟩
        cases hm
      · exact Ensures.error (.inr (.inr (.inr rfl)))

/-- The cache is a map in every state that the controller can reach. -/
theorem of_reachable {ptrs : ℕ → ℕ}
    (h : (cacheMachine cfg cc).Reachable (DramDirectoryCntlr.initial cfg ptrs) s) : CacheInv cfg cc s := by
  refine h.invariant ⟨⟨?_, ?_, ?_, ?_, ?_, ?_, ?_⟩, ?_, ?_⟩ fun t ev t' ht hstep => (ht.step ev).of_ok hstep <;>
    simp [DramDirectoryCntlr.initial]

end CacheInv

/-- The cache holds an entry of the line. -/
def DramDirectoryCache.Holds (c : DramDirectoryCache n) (a : ℕ) (e : DirectoryEntry n) : Prop :=
  ∃ r, c.deref r = some ⟨some a, e⟩

namespace Represents

variable {cfg : Config n} {cc : CacheConfig} {c : DramDirectoryCache n}
  {known : ℕ → Option (DirectoryEntry n)} {a : ℕ}

/-- The entries that the cache holds are those of the map. -/
theorem holds_iff (h : Represents cfg cc c known) (a : ℕ) (e : DirectoryEntry n) :
    c.Holds a e ↔ known a = some e := by
  rw [h.known a e]
  refine ⟨fun ⟨r, hr⟩ => ?_, fun hor => ?_⟩
  · cases r with
    | live k => exact .inl ⟨k, Option.some.inj hr⟩
    | replaced j => exact .inr (List.mem_of_getElem? hr)
  · rcases hor with ⟨k, hk⟩ | hmem
    · exact ⟨.live k, congrArg some hk⟩
    · obtain ⟨j, hj⟩ := List.mem_iff_getElem?.mp hmem
      exact ⟨.replaced j, hj⟩

/-- A line has one entry. -/
theorem deref_unique (h : Represents cfg cc c known) {r r' : EntryRef} {l l' : Line n}
    (hr : c.deref r = some l) (hr' : c.deref r' = some l') (hl : l.address = some a)
    (hl' : l'.address = some a) : r = r' := by
  cases r with
  | live k =>
    have hk : (c.directory k).address = some a := by rw [← hl, Option.some.inj hr]
    cases r' with
    | live k' =>
      have hk' : (c.directory k').address = some a := by rw [← hl', Option.some.inj hr']
      rw [h.slots k k' a hk hk']
    | replaced j =>
      exact absurd (List.mem_map.mpr ⟨l', List.mem_of_getElem? hr', hl'⟩) (h.apart k a hk)
  | replaced j =>
    cases r' with
    | live k' =>
      have hk' : (c.directory k').address = some a := by rw [← hl', Option.some.inj hr']
      exact absurd (List.mem_map.mpr ⟨l, List.mem_of_getElem? hr, hl⟩) (h.apart k' a hk')
    | replaced j' => rw [h.replaced_unique hr hr' (hl.trans hl'.symm)]

end Represents

/-- The map after an entry has been added. -/
theorem update_eq_some_iff (known : ℕ → Option (DirectoryEntry n)) (a b : ℕ) (e e' : DirectoryEntry n) :
    Function.update known a (some e) b = some e' ↔ if b = a then e' = e else known b = some e' := by
  by_cases hb : b = a
  · simp [hb, eq_comm]
  · simp [hb]

/-- **The directory cache is a map.** In every state that the controller can reach, each line has at most
one entry, and the cache holds exactly the entries that the handlers of the lines have left. A look-up returns
that entry or a new one in a free place. A line is replaced exactly while it is being nullified.
Replacing adds a new entry and keeps the old one, invalidating a line that is being nullified drops its
entry and no other, and none of the assertions about the cache or the requests of a replaced line fails. -/
theorem directoryCache_isMap (cfg : Config n) (cc : CacheConfig) (ptrs : ℕ → ℕ) (s : DramDirectoryCntlr n)
    (h : (cacheMachine cfg cc).Reachable (DramDirectoryCntlr.initial cfg ptrs) s) :
    (∀ a r r' l l', s.cache.deref r = some l → s.cache.deref r' = some l' →
      l.address = some a → l'.address = some a → r = r') ∧
    (∀ a e, s.cache.Holds a e ↔ s.known a = some e) ∧
    (∀ a c r, s.cache.getDirectoryEntry cc a = (c, some r) → ∃ e, c.deref r = some ⟨some a, e⟩ ∧
      (s.known a = some e ∧ c = s.cache ∨ s.known a = none ∧ e = cfg.createDirectoryEntry ∧
        ∀ b e', c.Holds b e' ↔ if b = a then e' = e else s.known b = some e')) ∧
    (∀ a c, s.cache.getDirectoryEntry cc a = (c, none) → s.known a = none ∧ c = s.cache) ∧
    (∀ a, (∃ l ∈ s.cache.replaced, l.address = some a) ↔ (s.queue a).head? = some .nullifyReq) ∧
    (∀ a v k, k ∈ cc.ways a → (s.cache.directory k).address = some v →
      s.cache.getDirectoryEntry cc a = (s.cache, none) →
      ∃ c r, s.cache.replaceDirectoryEntry cfg cc v a = .ok (c, r) ∧
        c.deref r = some ⟨some a, cfg.createDirectoryEntry⟩ ∧ (∃ l ∈ c.replaced, l.address = some v) ∧
        ∀ b e', c.Holds b e' ↔ if b = a then e' = cfg.createDirectoryEntry else s.known b = some e') ∧
    (∀ a, (s.queue a).head? = some .nullifyReq → ∃ c, s.cache.invalidateDirectoryEntry a = .ok c ∧
      ∀ b e', c.Holds b e' ↔ b ≠ a ∧ s.known b = some e') ∧
    ∀ ev f, (cacheMachine cfg cc).step s ev = .error f → f ≠ .entryPresent ∧ f ≠ .invalidAddress ∧
      f ≠ .notInSet ∧ f ≠ .victimQueued ∧ f ≠ .notReplaced ∧ f ≠ .unrecognizedRequest := by
  have hinv := CacheInv.of_reachable h
  have hr := hinv.represents
  refine ⟨fun a r r' l l' hl hl' ha ha' => hr.deref_unique hl hl' ha ha', fun a e => hr.holds_iff a e,
    fun a c r hget => ?_, fun a c hget => ?_, fun a => ?_, fun a v k hk hkv hget => ?_, fun a hq => ?_,
    fun ev f hf => ?_⟩
  · rcases hr.getDirectoryEntry_cases a with
      ⟨r', e, hget', hknown, hderef⟩ | ⟨k, hk, hknown, hfree, hget'⟩ | ⟨-, hget', -⟩
    · obtain ⟨rfl, rfl⟩ : s.cache = c ∧ r' = r := by simpa [hget] using hget'.symm
      exact ⟨e, hderef, .inl ⟨hknown, rfl⟩⟩
    · obtain ⟨rfl, hrk⟩ := Prod.mk.inj (hget.symm.trans hget')
      obtain rfl := Option.some.inj hrk
      refine ⟨cfg.createDirectoryEntry, by simp [DramDirectoryCache.deref], .inr ⟨hknown, rfl, fun b e' => ?_⟩⟩
      have hput := hr.put hk hknown cfg.createDirectoryEntry s.cache.replaced (by simp [hfree]) (by simp [hfree])
      exact (hput.holds_iff b e').trans (update_eq_some_iff ..)
    · rw [hget'] at hget
      simp at hget
  · rcases hr.getDirectoryEntry_cases a with
      ⟨r', e, hget', -⟩ | ⟨k, -, -, -, hget'⟩ | ⟨hknown, hget', -⟩
    · rw [hget'] at hget
      simp at hget
    · rw [hget'] at hget
      simp at hget
    · rw [hget'] at hget
      exact ⟨hknown, (Prod.mk.inj hget).1.symm⟩
  · rw [← hinv.nullify a, List.mem_map]
  · rcases hr.getDirectoryEntry_cases a with
      ⟨r', e, hget', -⟩ | ⟨k, -, -, -, hget'⟩ | ⟨hknown, -, hfull⟩
    · rw [hget'] at hget
      simp at hget
    · rw [hget'] at hget
      simp at hget
    · obtain ⟨hrepl, hput⟩ := hr.replaceDirectoryEntry hk hkv hknown hfull
      refine ⟨_, _, hrepl, by simp [DramDirectoryCache.deref], ⟨s.cache.directory k, by simp, hkv⟩, fun b e' => ?_⟩
      exact (hput.holds_iff b e').trans (update_eq_some_iff ..)
  · obtain ⟨j, e, hj, hok⟩ := DramDirectoryCache.invalidateDirectoryEntry_ok ((hinv.nullify a).mpr hq)
    refine ⟨_, hok, fun b e' => ((hr.erase hj).holds_iff b e').trans ?_⟩
    by_cases hb : b = a
    · simp [hb]
    · simp [hb]
  · have hp := (hinv.step ev).of_error hf
    rcases hp with rfl | rfl | rfl | rfl <;> simp

/-- Two lines share the only entry of a directory. The second one replaces the first one while that is cached. -/
def replaceRun : List (CacheEvent 2) :=
  let cached : DirectoryEntry 2 → DirectoryEntry 2 := fun e => { e with dstate := .shared, sharers := fun _ => true }
  [.request 0 fun _ => ⟨cached, true⟩, .request 64 fun _ => ⟨cached, true⟩]

theorem directoryCache_isMap_replaceRun :
    ∃ l ∈ ((cacheMachine ⟨.msi, .fullMap, 2, false, none⟩ ⟨1, 1, 6, Nat.one_pos⟩).final
      (DramDirectoryCntlr.initial ⟨.msi, .fullMap, 2, false, none⟩ fun _ => 0) replaceRun).cache.replaced,
      l.address = some 0 := by
  have hrun : (cacheMachine ⟨.msi, .fullMap, 2, false, none⟩ ⟨1, 1, 6, Nat.one_pos⟩).Reachable
      (DramDirectoryCntlr.initial ⟨.msi, .fullMap, 2, false, none⟩ fun _ => 0)
      ((cacheMachine ⟨.msi, .fullMap, 2, false, none⟩ ⟨1, 1, 6, Nat.one_pos⟩).final
        (DramDirectoryCntlr.initial ⟨.msi, .fullMap, 2, false, none⟩ fun _ => 0) replaceRun) :=
    ⟨replaceRun, Machine.run_final _ (by decide +kernel)⟩
  exact ((directoryCache_isMap _ _ _ _ hrun).2.2.2.2.1 0).mpr (by decide +kernel)

end LifeSim.Directory
