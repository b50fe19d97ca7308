import LifeSim.Config.Sections

/-!
# The tree is built again from its sections

The sections are saved in the order of the maps, each before those in it. So each of them is put at the end of its map
when it is loaded, and its keys are put at the end of theirs. The entries of an array all get the name of the first one.
-/

namespace LifeSim.Config

open LifeSim.Lib

variable {cs : Bool} {s t : Section} {f g : Section → Section} {p q : List Text} {num : NumberFormat}

/-! ### Paths -/

theorem splitPath_fullPath (hne : p ≠ []) (hslash : ∀ name ∈ p, '/' ∉ name) : splitPath (fullPath p) = p :=
  List.splitOn_intercalate '/' hslash hne

theorem modify_append (cs : Bool) (f : Section → Section) (p q : List Text) (s : Section) :
    Section.modify cs f (p ++ q) s = Section.modify cs (Section.modify cs f q) p s := by
  induction p generalizing s with
  | nil => rfl
  | cons element p ih =>
    cases s with
    | mk name keys arrays subSections =>
      rw [List.cons_append, Section.modify, Section.modify]
      congr 1
      refine congrArg (fun h => alter _ _ h subSections) ?_
      funext found
      exact ih _

/-- The function does not rename the section. -/
def KeepsName (f : Section → Section) : Prop := ∀ s, (f s).name = s.name

theorem KeepsName.modify (hf : KeepsName f) (p : List Text) : KeepsName (Section.modify cs f p) := by
  intro s
  cases p with
  | nil => exact hf s
  | cons element p =>
    cases s
    rfl

theorem KeepsName.keepsKey (hf : KeepsName f) (element : Text) (p : List Text) :
    KeepsKey (fun s => inameOf cs s.name) (inameOf cs element)
      (fun found => Section.modify cs f p (found.getD (.new element))) := by
  refine ⟨?_, fun s hs => ?_⟩
  · exact congrArg (inameOf cs) (hf.modify p (.new element))
  · exact (congrArg (inameOf cs) (hf.modify p s)).trans hs

/-- To modify a section twice. -/
theorem modify_modify (hg : KeepsName g) (f : Section → Section) (p : List Text) (s : Section) :
    Section.modify cs f p (Section.modify cs g p s) = Section.modify cs (fun t => f (g t)) p s := by
  induction p generalizing s with
  | nil => rfl
  | cons element p ih =>
    cases s with
    | mk name keys arrays subSections =>
      rw [Section.modify, Section.modify, Section.modify, alter_alter (hg.keepsKey element p)]
      congr 1
      refine congrArg (fun h => alter _ _ h subSections) ?_
      funext found
      exact ih _

/-! ### The keys of a section -/

/-- What the keys and the arrays of a section add to another one. -/
def addAll (cs : Bool) (e : Entry) : Section → Section :=
  Section.addKeys cs (keyAdditions e.keys ++ arrayListAdditions e.arrays).flatten

theorem addKey_name (a : Addition) : KeepsName (Section.addKey cs a) := by
  intro s
  cases s
  rw [Section.addKey]
  split <;> rfl

theorem addKeys_name (additions : List Addition) : KeepsName (Section.addKeys cs additions) := by
  intro s
  induction additions generalizing s with
  | nil => rfl
  | cons a additions ih => exact (ih _).trans (addKey_name a s)

/-- Keys in the order of their names are put at the end, one after the other. -/
theorem addKeys_keys (cs : Bool) (name : Text) (before keys : List Key)
    (hsorted : KeySorted (fun k => inameOf cs k.name) (before ++ keys)) :
    Section.addKeys cs (keyAdditions keys).flatten (.mk name before [] []) = .mk name (before ++ keys) [] [] := by
  induction keys generalizing before with
  | nil => rw [List.append_nil]; rfl
  | cons k keys ih =>
    have hlast : ∀ b ∈ before, inameOf cs b.name < inameOf cs k.name := fun b hb =>
      (List.pairwise_append.1 hsorted).2.2 b hb k (List.mem_cons_self ..)
    have hstep : Section.addKey cs ⟨k.name, k.value, none⟩ (.mk name before [] []) = .mk name (before ++ [k]) [] [] := by
      rw [Section.addKey]
      dsimp only
      rw [alter_of_forall_lt hlast]
      rfl
    have ih' := ih (before ++ [k]) (by rw [List.append_assoc]; exact hsorted)
    rw [List.append_assoc] at ih'
    rw [← hstep] at ih'
    exact ih'

/-- The map of arrays with the entries of one, if there are any. -/
def slot (iname : Text) (entries : List (Option Key)) : List KeyArray :=
  if entries = [] then [] else [⟨iname, entries⟩]

/-- The entries up to an index, with defaults at the end. -/
def pad (entries : List (Option Key)) (n : ℕ) : List (Option Key) :=
  entries ++ List.replicate (n - entries.length) none

theorem pad_succ {entries : List (Option Key)} {n : ℕ} (h : entries.length ≤ n) :
    pad entries (n + 1) = pad entries n ++ [none] := by
  rw [pad, pad, List.append_assoc, show n + 1 - entries.length = n - entries.length + 1 by omega, List.replicate_succ']

theorem pad_self {entries : List (Option Key)} {n : ℕ} (h : entries.length = n) : pad entries n = entries := by
  rw [pad, h, Nat.sub_self]
  exact List.append_nil _

theorem length_pad {entries : List (Option Key)} {n : ℕ} (h : entries.length ≤ n) : (pad entries n).length = n := by
  rw [pad, List.length_append, List.length_replicate]
  omega

/-- An entry after all others. -/
theorem setEntry_of_length_le {entries : List (Option Key)} {n : ℕ} (h : entries.length ≤ n) (k : Key) :
    setEntry entries n k = pad entries n ++ [some k] := by
  rw [setEntry, if_pos (by omega)]
  have hpad := pad_succ h
  rw [pad] at hpad
  rw [hpad, List.set_append_right _ _ (by rw [length_pad h]), length_pad h, Nat.sub_self]
  rfl

theorem addKey_slot (a : Text) (v : Text) (n : ℕ) (name : Text) (keys : List Key) (entries : List (Option Key)) :
    Section.addKey cs ⟨a, v, some n⟩ (.mk name keys (slot (inameOf cs a) entries) []) =
      .mk name keys (slot (inameOf cs a) (setEntry entries n ⟨a, v⟩)) [] := by
  have hne : setEntry entries n ⟨a, v⟩ ≠ [] := by
    rw [setEntry]
    intro h
    have hlength := congrArg List.length h
    rw [List.length_set] at hlength
    split_ifs at hlength with hlt
    · rw [List.length_append, List.length_replicate] at hlength
      simp at hlength
      omega
    · simp at hlength
      simp [hlength] at hlt
  rw [Section.addKey]
  dsimp only
  congr 1
  rw [slot, slot, if_neg hne]
  split_ifs with hempty
  · rw [hempty]
    rfl
  · rw [alter, if_neg (lt_irrefl _), if_neg (lt_irrefl _)]
    rfl

/-- The entries with the name under which they are saved. -/
def renamed (name : Text) (entries : List (Option Key)) : List (Option Key) :=
  entries.map (Option.map fun k => ⟨name, k.value⟩)

/-- The entries of an array are put at their indices. -/
theorem addKeys_entries (cs : Bool) (a name : Text) (keys : List Key) (before entries : List (Option Key)) (n : ℕ)
    (hn : before.length ≤ n) :
    ∃ after, Section.addKeys cs (entryAdditions a n entries) (.mk name keys (slot (inameOf cs a) before) []) =
        .mk name keys (slot (inameOf cs a) after) [] ∧
      after.length ≤ n + entries.length ∧ pad after (n + entries.length) = pad before n ++ renamed a entries ∧
      (entries = [] ∧ before.length = n ∨ (∃ k, entries.getLast? = some (some k)) →
        after.length = n + entries.length) := by
  induction entries generalizing before n with
  | nil =>
    refine ⟨before, rfl, hn, (List.append_nil _).symm, fun h => ?_⟩
    rcases h with ⟨-, h⟩ | ⟨k, hk⟩
    · exact h
    · cases hk
  | cons entry entries ih =>
    -- the entries so far, with the one at this index
    have hnext : ∃ next, next.length ≤ n + 1 ∧ pad next (n + 1) = pad before n ++ renamed a [entry] ∧
        ((∃ k, entry = some k) → next.length = n + 1) ∧
        Section.addKeys cs (entryAdditions a n (entry :: entries)) (.mk name keys (slot (inameOf cs a) before) []) =
          Section.addKeys cs (entryAdditions a (n + 1) entries) (.mk name keys (slot (inameOf cs a) next) []) := by
      cases entry with
      | none =>
        refine ⟨before, by omega, pad_succ hn, fun h => ?_, rfl⟩
        obtain ⟨k, hk⟩ := h
        cases hk
      | some k =>
        have hset := setEntry_of_length_le hn ⟨a, k.value⟩
        have hlength : (setEntry before n ⟨a, k.value⟩).length = n + 1 := by
          rw [hset, List.length_append, length_pad hn, List.length_singleton]
        refine ⟨setEntry before n ⟨a, k.value⟩, hlength.le, ?_, fun _ => hlength, ?_⟩
        · rw [pad_self hlength, hset]
          rfl
        · rw [entryAdditions, Section.addKeys, List.foldl_cons, addKey_slot]
          rfl
    obtain ⟨next, hlength, hpad, hsome, heq⟩ := hnext
    obtain ⟨after, hafter, hle, hpad', hlast⟩ := ih next (n + 1) hlength
    have hadd : n + 1 + entries.length = n + (entry :: entries).length := by
      rw [List.length_cons]
      omega
    rw [hadd] at hle hpad' hlast
    refine ⟨after, heq.trans hafter, hle, ?_, fun h => ?_⟩
    · rw [hpad', hpad, List.append_assoc]
      rfl
    · obtain ⟨hnil, -⟩ | hk := h
      · cases hnil
      · refine hlast ?_
        cases entries with
        | nil =>
          obtain ⟨k, hk⟩ := hk
          exact .inl ⟨rfl, hsome ⟨k, Option.some.inj hk⟩⟩
        | cons entry' entries => exact .inr hk

/-- What the loader guarantees of an array: its last entry is there, no entry is empty, and all have its name. -/
structure LoadedArray (cs : Bool) (array : KeyArray) : Prop where
  last : ∃ k, array.entries.getLast? = some (some k)
  value : ∀ k, some k ∈ array.entries → k.value ≠ []
  names : ∀ k, some k ∈ array.entries → inameOf cs k.name = array.iname

/-- The first entry has the name of the array. -/
theorem LoadedArray.first {array : KeyArray} (h : LoadedArray cs array) :
    (array.entries.findSome? id).isSome = true ∧ inameOf cs (arrayName array.entries) = array.iname := by
  obtain ⟨k, hk⟩ := h.last
  have hmem := List.mem_of_getLast? hk
  have hsome : (array.entries.findSome? id).isSome = true := List.findSome?_isSome_iff.2 ⟨some k, hmem, rfl⟩
  refine ⟨hsome, ?_⟩
  obtain ⟨k', hk'⟩ := Option.isSome_iff_exists.1 hsome
  obtain ⟨entry, hentry, hid⟩ := List.exists_of_findSome?_eq_some hk'
  rw [arrayName, hk']
  exact h.names k' (hid ▸ hentry)

theorem LoadedArray.ok {array : KeyArray} (h : LoadedArray cs array) : ArrayOk array := ⟨h.first.1, h.value⟩

/-- The array with the name of its first entry for all entries. -/
def KeyArray.renamed (array : KeyArray) : KeyArray := ⟨array.iname, Config.renamed
    (arrayName array.entries) array.entries⟩

/-- A section is filled with its keys, and with its array. -/
theorem addAll_new {e : Entry} (name : Text) (hkeys : KeySorted (fun k => inameOf cs k.name) e.keys)
    (hlength : e.arrays.length ≤ 1) (harrays : ∀ array ∈ e.arrays, LoadedArray cs array) :
    addAll cs e (.new name) = .mk name e.keys (e.arrays.map KeyArray.renamed) [] := by
  have hadd : addAll cs e (.new name) = Section.addKeys cs (arrayListAdditions e.arrays).flatten
    (.mk name e.keys [] []) := by
    have hkeys' := addKeys_keys cs name [] e.keys hkeys
    rw [List.nil_append] at hkeys'
    rw [addAll, List.flatten_append, Section.addKeys, List.foldl_append, ← hkeys']
    rfl
  rw [hadd]
  cases hentries : e.arrays with
  | nil => rfl
  | cons array arrays =>
    rw [hentries] at hlength harrays
    obtain rfl : arrays = [] := List.eq_nil_of_length_eq_zero (by rw [List.length_cons] at hlength; omega)
    have harray := harrays array (List.mem_cons_self ..)
    obtain ⟨after, hafter, -, hpad, hlast⟩ :=
      addKeys_entries cs (arrayName array.entries) name e.keys [] array.entries 0 le_rfl
    have hfull := hlast (.inr harray.last)
    rw [pad_self hfull] at hpad
    replace hpad : after = renamed (arrayName array.entries) array.entries := hpad
    have hne : after ≠ [] := by
      obtain ⟨k, hk⟩ := harray.last
      have hpos := List.length_pos_iff.2 (List.ne_nil_of_mem (List.mem_of_getLast? hk))
      rw [← List.length_pos_iff]
      omega
    rw [arrayListAdditions, List.map_singleton, List.flatten_singleton, List.map_singleton, KeyArray.renamed, ← hpad,
      ← harray.first.2]
    rw [slot, slot, if_pos rfl, if_neg hne] at hafter
    exact hafter

/-! ### The sections of a section -/

mutual

/-- The section with the arrays as they are read back. -/
def Section.renamed : Section → Section
  | .mk name keys arrays subSections => .mk name keys (arrays.map KeyArray.renamed) (renamedAll subSections)

def renamedAll : List Section → List Section
  | [] => []
  | s :: rest => s.renamed :: renamedAll rest

end

/-- What is loaded: sorted maps, names without slashes, and arrays in order. -/
inductive Loaded (cs : Bool) : Section → Prop
  | mk {name : Text} {keys : List Key} {arrays : List KeyArray} {subSections : List Section} (hname : '/' ∉ name)
    (hkeys : KeySorted (fun k => inameOf cs k.name) keys) (harrays : ∀ array ∈ arrays, LoadedArray cs array)
    (hsorted : KeySorted (fun s => inameOf cs s.name) subSections) (hall : ∀ s ∈ subSections, Loaded cs s) :
    Loaded cs (.mk name keys arrays subSections)

/-- The section is put into the one that its path leads to. -/
def applyEntry (cs : Bool) (root : Section) (e : Entry) : Section := root.modify cs (addAll cs e) e.names

/-- The same section, seen from further up. -/
def Entry.below (p : List Text) (e : Entry) : Entry := { e with names := p ++ e.names }

theorem entriesOf_below (s : Section) (p q : List Text) : entriesOf (p ++ q) s = (entriesOf q s).map (Entry.below p) := by
  induction s using Section.induction generalizing q with
  | h name keys arrays subSections ih =>
    have hall : ∀ l : List Section, (∀ s ∈ l, s ∈ subSections) →
        entriesOfAll (p ++ q) l = (entriesOfAll q l).map (Entry.below p) := by
      intro l hl
      induction l with
      | nil => rfl
      | cons s l ihl =>
        rw [entriesOfAll, entriesOfAll, List.map_append, List.append_assoc, ih s (hl s (List.mem_cons_self ..)),
          ihl fun t ht => hl t (List.mem_cons_of_mem s ht)]
    rw [entriesOf, entriesOf, List.map_cons, hall _ fun _ hs => hs]
    rfl

theorem applyEntry_below (root : Section) (p : List Text) (e : Entry) :
    applyEntry cs root (e.below p) = root.modify cs (fun s => applyEntry cs s e) p :=
  modify_append cs (addAll cs e) p e.names root

theorem applyEntry_name (e : Entry) : KeepsName fun s => applyEntry cs s e := (addKeys_name _).modify e.names

/-- Sections below a path are put into the section of the path. -/
theorem foldl_applyEntry_below (root : Section) (p : List Text) (e : Entry) (entries : List Entry) :
    ((e :: entries).map (Entry.below p)).foldl (applyEntry cs) root =
      root.modify cs (fun s => (e :: entries).foldl (applyEntry cs) s) p := by
  induction entries generalizing e root with
  | nil => exact applyEntry_below root p e
  | cons e' entries ih =>
    rw [List.map_cons, List.foldl_cons, ih, applyEntry_below, modify_modify (applyEntry_name e)]
    rfl

theorem renamed_name (s : Section) : s.renamed.name = s.name := by
  cases s
  rw [Section.renamed]
  rfl

theorem exists_entriesOf (names : List Text) (s : Section) : ∃ e entries, entriesOf names s = e :: entries := by
  cases s
  exact ⟨_, _, rfl⟩

/-- The first section that is not there yet is put at the end. -/
theorem foldl_entriesOf_child {name : Text} {keys : List Key} {arrays : List KeyArray} {before : List Section}
    (hlast : ∀ t ∈ before, inameOf cs t.name < inameOf cs s.name)
    (hs : (entriesOf [] s).foldl (applyEntry cs) (.new s.name) = s.renamed) :
    (entriesOf [s.name] s).foldl (applyEntry cs) (.mk name keys arrays before) =
      .mk name keys arrays (before ++ [s.renamed]) := by
  obtain ⟨e, entries, he⟩ := exists_entriesOf [] s
  have hbelow : entriesOf [s.name] s = (e :: entries).map (Entry.below [s.name]) := by
    rw [← he, ← entriesOf_below, List.append_nil]
  rw [hbelow, foldl_applyEntry_below, ← he, Section.modify, alter_of_forall_lt hlast, ← hs]
  rfl

/-- A saved section is built again, in the place of a new one. -/
theorem foldl_entriesOf (h : Loaded cs s) (hlength : ∀ e ∈ entriesOf [] s, e.arrays.length ≤ 1) :
    (entriesOf [] s).foldl (applyEntry cs) (.new s.name) = s.renamed := by
  induction h with
  | mk hname hkeys harrays hsorted hall ih =>
    rename_i name keys arrays subSections
    have hrest : ∀ (after before : List Section), (∀ s ∈ after, s ∈ subSections) →
        KeySorted (fun s => inameOf cs s.name) (before ++ after) →
        (∀ e ∈ entriesOfAll [] after, e.arrays.length ≤ 1) →
        (entriesOfAll [] after).foldl (applyEntry cs) (.mk name keys (arrays.map KeyArray.renamed) before) =
          .mk name keys (arrays.map KeyArray.renamed) (before ++ renamedAll after) := by
      intro after
      induction after with
      | nil =>
        intro before _ _ _
        rw [renamedAll, List.append_nil]
        rfl
      | cons s after iha =>
        intro before hmem hsorted' hlength'
        rw [entriesOfAll] at hlength' ⊢
        have hs : (entriesOf [] s).foldl (applyEntry cs) (.new s.name) = s.renamed := by
          refine ih s (hmem s (List.mem_cons_self ..)) fun e he => ?_
          have hbelow := entriesOf_below s [s.name] []
          rw [List.append_nil] at hbelow
          refine hlength' (e.below [s.name]) (List.mem_append_left _ ?_)
          rw [List.nil_append, hbelow]
          exact List.mem_map_of_mem he
        have hlast : ∀ t ∈ before, inameOf cs t.name < inameOf cs s.name := fun t ht =>
          (List.pairwise_append.1 hsorted').2.2 t ht s (List.mem_cons_self ..)
        have hsorted'' : KeySorted (fun s => inameOf cs s.name) (before ++ [s.renamed] ++ after) := by
          refine hsorted'.of_map_eq ?_
          rw [List.append_assoc, List.singleton_append, List.map_append, List.map_append, List.map_cons, List.map_cons,
            renamed_name]
        rw [List.nil_append, List.foldl_append, foldl_entriesOf_child hlast hs,
          iha _ (fun t ht => hmem t (List.mem_cons_of_mem s ht)) hsorted''
            (fun e he => hlength' e (List.mem_append_right _ he)), renamedAll, List.append_assoc]
        rfl
    have hfirst : applyEntry cs (.new name) ⟨[], keys, arrays⟩ = .mk name keys (arrays.map KeyArray.renamed) [] :=
      addAll_new (e := ⟨[], keys, arrays⟩) name hkeys (hlength _ (List.mem_cons_self ..)) harrays
    rw [entriesOf] at hlength ⊢
    rw [List.foldl_cons, Section.name, hfirst,
      hrest subSections [] (fun _ hs => hs) hsorted fun e he => hlength e (List.mem_cons_of_mem _ he), Section.renamed]
    rfl

end LifeSim.Config
