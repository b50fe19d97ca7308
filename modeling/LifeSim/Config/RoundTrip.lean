import LifeSim.Config.Rebuild

/-!
# Saving and loading a configuration

What is loaded has sorted maps, and what is saved of it is loaded again if all of its lines are read back. The values
and the places of all keys and entries are the same then. In general they are not: a name without a space and without a
quote is not escaped, and the comma after an array makes the name of the next array an item of the first one.
-/

namespace LifeSim.Config

open LifeSim.Lib

variable {cs : Bool} {s root root' : Section} {num : NumberFormat} {source : Text}

/-! ### What is loaded -/

theorem not_mem_of_mem_splitPath {element path : Text} (h : element ∈ splitPath path) : '/' ∉ element := by
  rw [splitPath] at h
  induction path generalizing element with
  | nil =>
    rw [List.splitOn_nil, List.mem_singleton] at h
    rw [h]
    exact List.not_mem_nil
  | cons c path ih =>
    rw [List.splitOn_cons_eq_if_modifyHead] at h
    split_ifs at h with hslash
    · rcases List.mem_cons.1 h with rfl | h
      · exact List.not_mem_nil
      · exact ih h
    · cases hsplit : path.splitOn '/' with
      | nil => exact absurd hsplit (List.splitOn_ne_nil _ _)
      | cons first rest =>
        rw [hsplit] at h ih
        rw [List.modifyHead_cons] at h
        rcases List.mem_cons.1 h with rfl | h
        · intro hmem
          rcases List.mem_cons.1 hmem with rfl | hmem
          · exact hslash (beq_self_eq_true _)
          · exact ih (List.mem_cons_self ..) hmem
        · exact ih (List.mem_cons_of_mem _ h)

/-- Entries of arrays that are added are not empty. -/
def AdditionOk (a : Addition) : Prop := a.index ≠ none → a.value ≠ []

theorem arrayAdditions_ok (name : Text) (index : ℕ) (items : List (Option Text)) :
    ∀ a ∈ arrayAdditions name index items, AdditionOk a := by
  induction items generalizing index with
  | nil =>
    intro a ha
    cases ha
  | cons item items ih =>
    cases item with
    | none => exact ih (index + 1)
    | some text =>
      rw [arrayAdditions]
      split_ifs with hempty
      · exact ih (index + 1)
      · intro a ha
        rcases List.mem_cons.1 ha with rfl | ha
        · exact fun _ => hempty
        · exact ih (index + 1) a ha

theorem evalKey_ok {node : KeyNode} {additions : List Addition} (h : evalKey node = .ok additions) :
    ∀ a ∈ additions, AdditionOk a := by
  obtain ⟨name, value⟩ := node
  cases name with
  | none => cases h
  | some name =>
    rcases value with _ | text | items | _
    · cases h
      exact List.forall_mem_singleton.2 fun h => absurd rfl h
    · cases h
      exact List.forall_mem_singleton.2 fun h => absurd rfl h
    · cases h
      exact arrayAdditions_ok _ 0 items
    · cases h

theorem mapM_evalKey_ok {nodes : List KeyNode} {additions : List (List Addition)}
    (h : nodes.mapM evalKey = .ok additions) : ∀ a ∈ additions.flatten, AdditionOk a := by
  induction nodes generalizing additions with
  | nil =>
    cases h
    intro a ha
    cases ha
  | cons node nodes ih =>
    rw [List.mapM_cons] at h
    obtain ⟨first, hfirst, h⟩ := exists_of_bind_ok h
    obtain ⟨rest, hrest, h⟩ := exists_of_bind_ok h
    cases h
    intro a ha
    rw [List.flatten_cons] at ha
    rcases List.mem_append.1 ha with ha | ha
    · exact evalKey_ok hfirst a ha
    · exact ih hrest a ha

/-- An entry of a vector after an assignment. -/
theorem mem_setEntry {entries : List (Option Key)} {index : ℕ} {key k : Key} (h : some k ∈ setEntry entries index key) :
    some k ∈ entries ∨ k = key := by
  rw [setEntry] at h
  rcases List.mem_or_eq_of_mem_set h with h | h
  · split_ifs at h
    · rcases List.mem_append.1 h with h | h
      · exact .inl h
      · cases List.eq_of_mem_replicate h
    · exact .inl h
  · exact .inr (Option.some.inj h)

theorem getLast?_setEntry {entries : List (Option Key)} {index : ℕ} {key : Key}
    (h : entries = [] ∨ ∃ k, entries.getLast? = some (some k)) : ∃ k, (setEntry entries index key).getLast? = some
      (some k) := by
  by_cases hlt : entries.length < index + 1
  · have hset := setEntry_of_length_le (Nat.lt_succ_iff.1 hlt) key
    refine ⟨key, ?_⟩
    rw [hset, List.getLast?_append, List.getLast?_singleton]
    rfl
  · obtain ⟨k, hk⟩ := h.resolve_left fun hnil => hlt (by rw [hnil]; exact Nat.succ_pos _)
    rw [setEntry, if_neg hlt, List.getLast?_eq_getElem?, List.getElem?_set, List.length_set]
    rw [List.getLast?_eq_getElem?] at hk
    split_ifs
    · exact ⟨key, rfl⟩
    · omega
    · exact ⟨k, hk⟩

theorem Loaded.addKey (h : Loaded cs s) {a : Addition} (ha : AdditionOk a) : Loaded cs (s.addKey cs a) := by
  cases h with
  | mk hname hkeys harrays hsorted hall =>
    rename_i name keys arrays subSections
    obtain ⟨aname, value, index⟩ := a
    cases index with
    | none =>
      refine .mk hname (hkeys.alter ⟨rfl, fun _ _ => rfl⟩) (fun array harray => ?_) hsorted hall
      exact harrays array (List.mem_filter.1 harray).1
    | some index =>
      have hvalue : value ≠ [] := ha (Option.some_ne_none index)
      refine .mk hname hkeys (fun array harray => ?_) hsorted hall
      rcases mem_alter harray with hold | rfl | ⟨old, hold, hsame, rfl⟩
      · exact harrays array hold
      · refine ⟨getLast?_setEntry (.inl rfl), fun k hk => ?_, fun k hk => ?_⟩
        · rcases mem_setEntry hk with hk | rfl
          · cases hk
          · exact hvalue
        · rcases mem_setEntry hk with hk | rfl
          · cases hk
          · rfl
      · have hok := harrays old hold
        refine ⟨getLast?_setEntry (.inr hok.last), fun k hk => ?_, fun k hk => ?_⟩
        · rcases mem_setEntry hk with hk | rfl
          · exact hok.value k hk
          · exact hvalue
        · rcases mem_setEntry hk with hk | rfl
          · exact (hok.names k hk).trans hsame
          · rfl

theorem Loaded.addKeys (h : Loaded cs s) {additions : List Addition} (ha : ∀ a ∈ additions, AdditionOk a) :
    Loaded cs (s.addKeys cs additions) := by
  induction additions generalizing s with
  | nil => exact h
  | cons a additions ih =>
    exact ih (h.addKey (ha a (List.mem_cons_self ..))) fun b hb => ha b (List.mem_cons_of_mem a hb)

theorem loaded_new {name : Text} (hname : '/' ∉ name) : Loaded cs (.new name) :=
  .mk hname .nil (fun _ h => by cases h) .nil fun _ h => by cases h

theorem Loaded.modify {f : Section → Section} (hf : ∀ s, Loaded cs s → Loaded cs (f s)) (hkeeps : KeepsName f)
    (h : Loaded cs s) {path : List Text} (hpath : ∀ element ∈ path, '/' ∉ element) : Loaded cs (s.modify cs f path) := by
  induction path generalizing s with
  | nil => exact hf s h
  | cons element path ih =>
    cases h with
    | mk hname hkeys harrays hsorted hall =>
      have hpath' : ∀ element ∈ path, '/' ∉ element := fun e he => hpath e (List.mem_cons_of_mem element he)
      refine .mk hname hkeys harrays (hsorted.alter (hkeeps.keepsKey element path)) fun t ht => ?_
      rcases mem_alter ht with ht | rfl | ⟨old, hold, -, rfl⟩
      · exact hall t ht
      · exact ih (loaded_new (hpath element (List.mem_cons_self ..))) hpath'
      · exact ih (hall old hold) hpath'

/-- The root has only sections. -/
def IsRoot (s : Section) : Prop := ∃ subSections, s = .mk [] [] [] subSections

theorem evalSection_loaded {node : SectionNode} (hroot : IsRoot root) (h : Loaded cs root)
    (heval : evalSection cs root node = .ok root') : IsRoot root' ∧ Loaded cs root' := by
  obtain ⟨additions, hadditions, hresult⟩ := exists_of_bind_ok heval
  cases hresult
  refine ⟨?_, h.modify (fun s hs => hs.addKeys (mapM_evalKey_ok hadditions)) (addKeys_name _) fun element he =>
    not_mem_of_mem_splitPath he⟩
  obtain ⟨subSections, rfl⟩ := hroot
  cases hpath : splitPath node.name with
  | nil => exact absurd hpath (List.splitOn_ne_nil _ _)
  | cons element path => exact ⟨_, rfl⟩

/-- Every configuration that is loaded. -/
theorem load_loaded (h : load cs source = .ok root) : IsRoot root ∧ Loaded cs root := by
  rw [load] at h
  split at h
  · cases h
  · rename_i nodes hfile
    have hstart : IsRoot (.new []) ∧ Loaded cs (.new []) := ⟨⟨[], rfl⟩, loaded_new List.not_mem_nil⟩
    clear hfile
    generalize Section.new [] = start at h hstart
    induction nodes generalizing start with
    | nil =>
      cases h
      exact hstart
    | cons node nodes ih =>
      rw [List.foldlM_cons] at h
      obtain ⟨next, hnext, h⟩ := exists_of_bind_ok h
      exact ih next h (evalSection_loaded hstart.1 hstart.2 hnext)

/-! ### What is loaded again -/

/-- The entries of an array without the names. -/
def KeyArray.view (array : KeyArray) : KeyArray := ⟨array.iname, Config.renamed [] array.entries⟩

mutual

/-- The names of the sections, the keys with their values, and the values of the entries at their indices. -/
def Section.view : Section → Section
  | .mk name keys arrays subSections => .mk name keys (arrays.map KeyArray.view) (viewAll subSections)

def viewAll : List Section → List Section
  | [] => []
  | s :: rest => s.view :: viewAll rest

end

theorem renamed_renamed (name name' : Text) (entries : List (Option Key)) :
    renamed name (renamed name' entries) = renamed name entries := by
  rw [renamed, renamed, renamed, List.map_map]
  refine List.map_congr_left fun entry _ => ?_
  cases entry <;> rfl

theorem view_renamed (s : Section) : s.renamed.view = s.view := by
  induction s using Section.induction with
  | h name keys arrays subSections ih =>
    have hall : ∀ l : List Section, (∀ s ∈ l, s ∈ subSections) → viewAll (renamedAll l) = viewAll l := by
      intro l hl
      induction l with
      | nil => rfl
      | cons s l ihl =>
        rw [renamedAll, viewAll, viewAll, ih s (hl s (List.mem_cons_self ..)),
          ihl fun t ht => hl t (List.mem_cons_of_mem s ht)]
    rw [Section.renamed, Section.view, Section.view, hall _ fun _ hs => hs, List.map_map]
    congr 1
    refine List.map_congr_left fun array _ => ?_
    exact congrArg (KeyArray.mk array.iname) (renamed_renamed ..)

theorem forall_entriesOfAll {l : List Section} {names : List Text} {P : Entry → Prop}
    (h : ∀ s ∈ l, ∀ e ∈ entriesOf (names ++ [s.name]) s, P e) : ∀ e ∈ entriesOfAll names l, P e := by
  induction l with
  | nil =>
    intro e he
    cases he
  | cons s l ih =>
    intro e he
    rcases List.mem_append.1 he with he | he
    · exact h s (List.mem_cons_self ..) e he
    · exact ih (fun t ht => h t (List.mem_cons_of_mem s ht)) e he

/-- What is known of a saved section. -/
structure LoadedEntry (cs : Bool) (names : List Text) (e : Entry) : Prop where
  length : names.length ≤ e.names.length
  slash : ∀ name ∈ e.names, '/' ∉ name
  arrays : ∀ array ∈ e.arrays, LoadedArray cs array

theorem slash_append (names : List Text) (hnames : ∀ name ∈ names, '/' ∉ name) (h : Loaded cs s) :
    ∀ name ∈ names ++ [s.name], '/' ∉ name := by
  intro name hmem
  rcases List.mem_append.1 hmem with hmem | hmem
  · exact hnames name hmem
  · rw [List.mem_singleton.1 hmem]
    cases h with
    | mk hname => exact hname

theorem Loaded.entries (h : Loaded cs s) {names : List Text} (hnames : ∀ name ∈ names, '/' ∉ name) :
    ∀ e ∈ entriesOf names s, LoadedEntry cs names e := by
  induction h generalizing names with
  | mk hname hkeys harrays hsorted hall ih =>
    intro e he
    rw [entriesOf] at he
    rcases List.mem_cons.1 he with rfl | he
    · exact ⟨le_rfl, hnames, harrays⟩
    · refine forall_entriesOfAll (P := LoadedEntry cs names) (fun s hs e he => ?_) e he
      obtain ⟨hlength, hslash, harrays'⟩ := ih s hs (slash_append names hnames (hall s hs)) e he
      rw [List.length_append] at hlength
      exact ⟨(Nat.le_add_right _ _).trans hlength, hslash, harrays'⟩

/-- The sections of the root. -/
theorem loaded_entriesOfAll {l : List Section} (hall : ∀ s ∈ l, Loaded cs s) :
    ∀ e ∈ entriesOfAll [] l, e.names ≠ [] ∧ LoadedEntry cs [] e := by
  refine forall_entriesOfAll fun s hs e he => ?_
  have hslash := slash_append [] (fun name hname => absurd hname List.not_mem_nil) (hall s hs)
  obtain ⟨hlength, hslash', harrays⟩ := (hall s hs).entries hslash e he
  exact ⟨List.length_pos_iff.1 hlength, Nat.zero_le _, hslash', harrays⟩

theorem EntriesOk.arrays {entries : List Entry} (h : EntriesOk num entries) : ∀ e ∈ entries, e.arrays.length ≤ 1 := by
  induction entries with
  | nil =>
    intro e he
    cases he
  | cons e entries ih =>
    intro f hf
    rcases List.mem_cons.1 hf with rfl | hf
    · exact h.1.arrays
    · exact ih h.2 f hf

/-- The nodes of the sections are evaluated to what was saved. -/
theorem foldlM_evalSection {entries : List Entry} {nodes : List SectionNode} (h : List.Forall₂ NodeOf entries nodes)
    (hnames : ∀ e ∈ entries, e.names ≠ [] ∧ ∀ name ∈ e.names, '/' ∉ name) (root : Section) :
    nodes.foldlM (evalSection cs) root = .ok (entries.foldl (applyEntry cs) root) := by
  induction h generalizing root with
  | nil => rfl
  | cons hnode _ ih =>
    rename_i e node entries nodes _
    obtain ⟨hne, hslash⟩ := hnames e (List.mem_cons_self ..)
    have heval : evalSection cs root node = .ok (applyEntry cs root e) := by
      rw [evalSection, hnode.2, ok_bind, hnode.1, splitPath_fullPath hne hslash]
      rfl
    rw [List.foldlM_cons, heval, ok_bind, ih fun f hf => hnames f (List.mem_cons_of_mem e hf)]
    rfl

/-- If all lines of what is saved are read back, the same configuration is loaded. -/
theorem load_save (num : NumberFormat) (cs : Bool) (source : Text) (root : Section) (hload : load cs source = .ok root)
    (hok : EntriesOk num (entriesOfAll [] root.subSections)) :
    ∃ root', load cs (save num root) = .ok root' ∧ root'.view = root.view := by
  obtain ⟨⟨subSections, rfl⟩, hloaded⟩ := load_loaded hload
  replace hok : EntriesOk num (entriesOfAll [] subSections) := hok
  have hentries : ∀ e ∈ entriesOfAll [] subSections, e.names ≠ [] ∧ LoadedEntry cs [] e := by
    cases hloaded with
    | mk _ _ _ _ hall => exact loaded_entriesOfAll hall
  have hready : Ready num (entriesOfAll [] subSections) :=
    ⟨hok, fun e he => ⟨(hentries e he).1, fun array harray => ((hentries e he).2.arrays array harray).ok⟩⟩
  obtain ⟨nodes, hfile, hnodes⟩ := hready.file
  have hsave : save num (.mk [] [] [] subSections) = '\n' :: (entriesOfAll [] subSections).flatMap (Entry.text num) := by
    rw [save, saveTree_eq, entriesOf, List.flatMap_cons]
    rfl
  have hbuild := foldl_entriesOf hloaded (by
    intro e he
    rw [entriesOf] at he
    rcases List.mem_cons.1 he with rfl | he
    · exact Nat.zero_le 1
    · exact hok.arrays e he)
  refine ⟨(Section.mk [] [] [] subSections).renamed, ?_, view_renamed _⟩
  rw [load, hsave, hfile]
  dsimp only
  rw [foldlM_evalSection hnodes fun e he => ⟨(hentries e he).1, (hentries e he).2.slash⟩, ← hbuild, entriesOf]
  rfl

/-! ### Two files -/

instance (n : Text) : Decidable (Plain n) :=
  decidable_of_iff (n ≠ [] ∧ n.all isUnquoted = true ∧ '\\' ∉ n ∧ n.head? ≠ some '#')
    ⟨fun h => ⟨h.1, List.all_eq_true.1 h.2.1, h.2.2.1, h.2.2.2⟩,
      fun h => ⟨h.nonempty, List.all_eq_true.2 h.unquoted, h.backslash, h.comment⟩⟩

instance (n : Text) : Decidable (NameOk n) := inferInstanceAs (Decidable (_ ∨ _ ∨ _))

instance decidableKeysOk (num : NumberFormat) (rest : Text) : ∀ keys, Decidable (KeysOk num rest keys)
  | [] => .isTrue trivial
  | _ :: keys =>
    have := decidableKeysOk num rest keys
    inferInstanceAs (Decidable (_ ∧ (_ → _) ∧ _))

instance (num : NumberFormat) (rest : Text) (e : Entry) : Decidable (EntryOk num rest e) :=
  decidable_of_iff (Closed (fullPath e.names) ∧ KeysOk num (e.arrays.flatMap (arrayText num) ++ '\n' :: rest) e.keys ∧
    e.arrays.length ≤ 1 ∧ ∀ array ∈ e.arrays, NameOk (arrayName array.entries))
    ⟨fun h => ⟨h.1, h.2.1, h.2.2.1, h.2.2.2⟩, fun h => ⟨h.path, h.keys, h.arrays, h.arrayNames⟩⟩

instance decidableEntriesOk (num : NumberFormat) : ∀ entries, Decidable (EntriesOk num entries)
  | [] => .isTrue trivial
  | _ :: entries =>
    have := decidableEntriesOk num entries
    inferInstanceAs (Decidable (_ ∧ _))

/-- The configuration that is loaded, or an empty one. -/
def loaded (cs : Bool) (source : Text) : Section :=
  match load cs source with
  | .ok root => root
  | .error _ => .new []

theorem load_eq_loaded (h : (load cs source).isOk = true) : load cs source = .ok (loaded cs source) := by
  obtain ⟨root, hroot⟩ := exists_of_isOk h
  rw [loaded, hroot]

theorem isDigit_isNumeric {v : Text} (h : v.all Char.isDigit = true) : ∀ c ∈ v, isNumeric c = true := by
  intro c hc
  rw [isNumeric, List.all_eq_true.1 h c hc]
  rfl

/-- Numbers without a sign, a point and an exponent. -/
def digitsOnly : NumberFormat where
  valid v := !v.isEmpty && v.all Char.isDigit
  nonempty v h hv := by
    rw [hv] at h
    cases h
  chars _ h := isDigit_isNumeric (Bool.and_eq_true_iff.1 h).2

/-- Two sections with quoted texts, a number and an array with a gap. -/
def nestedFile : Text := "[s]\na = 5\n\"b c\" = \"x\\\"y\"\nd[] = 1,,2\n[s/t]\nz = hello\n".toList

theorem load_save_nestedFile : ∃ root', load false (save digitsOnly (loaded false nestedFile)) = .ok root' ∧
    root'.view = (loaded false nestedFile).view :=
  load_save digitsOnly false nestedFile _ (load_eq_loaded (by decide +kernel)) (by decide +kernel)

/-- Two arrays in one section. -/
def twoArrays : Text := "[s]\na[] = 1,2\nb[] = 3,4\n".toList

/-- The name of the second array becomes an item of the first one, and what is left of its line has no name. -/
theorem load_save_twoArrays : ¬ ∀ (num : NumberFormat) (cs : Bool) (source : Text) (root : Section),
    load cs source = .ok root → ∃ root', load cs (save num root) = .ok root' ∧ root'.view = root.view := by
  intro h
  obtain ⟨root', hload, -⟩ := h digitsOnly false twoArrays _ (load_eq_loaded (by decide +kernel))
  have hfault : faultOf (load false (save digitsOnly (loaded false twoArrays))) = some .parserError := by decide +kernel
  rw [hload] at hfault
  cases hfault

end LifeSim.Config
