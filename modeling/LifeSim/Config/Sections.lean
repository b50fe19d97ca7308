import LifeSim.Config.Lines
import LifeSim.Lib.Checked

/-!
# The sections are read as they were written

A saved configuration is a list of sections, each with its path, its keys and its arrays. They are read back if the
lines of each section are, and a section has at most one array: the item after the last comma of an array would be the
name of the next one.
-/

namespace LifeSim.Config

open LifeSim.Lib

variable {s t r rest : Text} {c : Char} {num : NumberFormat}

/-! ### What is saved -/

/-- A section that is saved, with the names from the root to it. -/
structure Entry where
  names : List Text
  keys : List Key
  arrays : List KeyArray

/-- The text of a section without those in it. -/
def Entry.text (num : NumberFormat) (e : Entry) : Text := headerText e.names ++ bodyText num e.keys e.arrays

mutual

/-- The sections in the order in which they are saved. -/
def entriesOf (names : List Text) : Section → List Entry
  | .mk _ keys arrays subSections => ⟨names, keys, arrays⟩ :: entriesOfAll names subSections

def entriesOfAll (names : List Text) : List Section → List Entry
  | [] => []
  | s :: rest => entriesOf (names ++ [s.name]) s ++ entriesOfAll names rest

end

/-- A property of a section that follows from those in it. -/
theorem Section.induction {motive : Section → Prop} (h : ∀ name keys arrays subSections,
    (∀ s ∈ subSections, motive s) → motive (.mk name keys arrays subSections)) (s : Section) : motive s := by
  refine @Section.rec motive (fun l => ∀ s ∈ l, motive s) h ?_ ?_ s
  · intro s hs
    cases hs
  · intro s l hs hl t ht
    rcases List.mem_cons.1 ht with rfl | ht
    · exact hs
    · exact hl t ht

theorem saveTree_eq (num : NumberFormat) (s : Section) (names : List Text) :
    saveTree num names s = (entriesOf names s).flatMap (Entry.text num) := by
  induction s using Section.induction generalizing names with
  | h name keys arrays subSections ih =>
    have hall : ∀ l : List Section, (∀ s ∈ l, s ∈ subSections) →
        saveSections num names l = (entriesOfAll names l).flatMap (Entry.text num) := by
      intro l hl
      induction l with
      | nil => rw [saveSections, entriesOfAll, List.flatMap_nil]
      | cons s l ihl =>
        rw [saveSections, entriesOfAll, List.flatMap_append, ih s (hl s (List.mem_cons_self ..)),
          ihl fun t ht => hl t (List.mem_cons_of_mem s ht)]
    rw [saveTree, entriesOf, List.flatMap_cons, hall _ fun _ hs => hs, Entry.text, List.append_assoc]

/-! ### The condition -/

/-- The names of the keys are read back, and no number is followed by a line that makes it a span. -/
def KeysOk (num : NumberFormat) (rest : Text) : List Key → Prop
  | [] => True
  | k :: keys => NameOk k.name ∧
    (num.valid k.value = true → valueSpan (k.value ++ '\n' :: (keys.flatMap (keyText num) ++ rest)) = none) ∧
    KeysOk num rest keys

/-- The path of the section does not end in an escape, its keys are read back, and it has at most one array. -/
structure EntryOk (num : NumberFormat) (rest : Text) (e : Entry) : Prop where
  path : Closed (fullPath e.names)
  keys : KeysOk num (e.arrays.flatMap (arrayText num) ++ '\n' :: rest) e.keys
  arrays : e.arrays.length ≤ 1
  arrayNames : ∀ array ∈ e.arrays, NameOk (arrayName array.entries)

/-- The condition on all sections. -/
def EntriesOk (num : NumberFormat) : List Entry → Prop
  | [] => True
  | e :: entries => EntryOk num (entries.flatMap (Entry.text num)) e ∧ EntriesOk num entries

/-- What the loader guarantees of an array: it has an entry, and no entry is empty. -/
structure ArrayOk (array : KeyArray) : Prop where
  entries : (array.entries.findSome? id).isSome = true
  value : ∀ k, some k ∈ array.entries → k.value ≠ []

/-! ### The beginning of a line -/

/-- The text begins, after empty lines, with what can begin a line of a section. -/
inductive Begins : Text → Prop
  | nil : Begins []
  | newline {s : Text} (h : Begins s) : Begins ('\n' :: s)
  | char {c : Char} (s : Text) (hspace : isSpace c = false) (hcomment : c ≠ '#') (hcomma : c ≠ ',') (hequals : c ≠ '=') :
    Begins (c :: s)

theorem Begins.noComma (h : Begins s) : NoComma s := by
  induction h with
  | nil => exact fun h => by cases h
  | newline _ ih => exact ih.newline
  | char s hspace hcomment hcomma _ =>
    rw [NoComma, skip_cons hspace hcomment]
    exact fun h => hcomma (Option.some.inj h)

theorem Begins.dropWhile (h : Begins s) : (s.dropWhile isSpace).head? ≠ some '=' := by
  induction h with
  | nil => exact fun h => by cases h
  | newline _ ih => exact ih
  | char s hspace _ _ hequals =>
    rw [List.dropWhile_cons_of_neg (by rw [hspace]; exact Bool.false_ne_true)]
    exact fun h => hequals (Option.some.inj h)

theorem Writes.begins {n : Text} (h : Writes n t) (r : Text) : Begins (t ++ r) := by
  obtain ⟨c, t', rfl, hc, hcomment⟩ := h.head
  have hne : ∀ d, isUnquoted d = false → c ≠ d := by
    rintro d hd rfl
    rw [hc] at hd
    cases hd
  exact .char _ (isSpace_of_isUnquoted hc) hcomment (hne ',' rfl) (hne '=' rfl)

/-- The sections that follow. -/
theorem begins_entries {entries : List Entry} (hnames : ∀ e ∈ entries, e.names ≠ []) :
    Begins (entries.flatMap (Entry.text num)) := by
  cases entries with
  | nil => exact .nil
  | cons e entries =>
    rw [List.flatMap_cons, Entry.text, headerText,
      if_neg (by simpa using hnames e (List.mem_cons_self ..))]
    exact .char _ rfl (by decide) (by decide) (by decide)

theorem begins_arrays {arrays : List KeyArray} (harrays : ∀ array ∈ arrays, ArrayOk array)
    (hnames : ∀ array ∈ arrays, NameOk (arrayName array.entries)) (h : Begins rest) :
    Begins (arrays.flatMap (arrayText num) ++ '\n' :: rest) := by
  cases arrays with
  | nil => exact h.newline
  | cons array arrays =>
    rw [List.flatMap_cons, arrayText, if_pos (harrays array (List.mem_cons_self ..)).entries]
    simp only [List.append_assoc]
    exact (hnames array (List.mem_cons_self ..)).writes.begins _

theorem begins_keys {keys : List Key} (hkeys : KeysOk num rest keys) (h : Begins rest) :
    Begins (keys.flatMap (keyText num) ++ rest) := by
  cases keys with
  | nil => exact h
  | cons k keys =>
    rw [List.flatMap_cons, keyText]
    simp only [List.append_assoc]
    exact hkeys.1.writes.begins _

/-! ### The lines of a section -/

/-- The keys that are read up to `rest`, with what they add. -/
def ReadsKeys (s rest : Text) (additions : List (List Addition)) : Prop :=
  ∃ nodes s', Matcher.many key s = (nodes, s') ∧ skip s' = skip rest ∧ nodes.mapM evalKey = .ok additions

theorem ReadsKeys.nil (h : key s = none) : ReadsKeys s s [] := ⟨[], s, Matcher.many_of_none h, rfl, rfl⟩

theorem ReadsKeys.congr {additions : List (List Addition)} (h : ReadsKeys s rest additions) (hskip : skip t = skip s) :
    ReadsKeys t rest additions := by
  obtain ⟨nodes, s', hmany, hrest, hnodes⟩ := h
  have hkey := key_congr hskip
  cases hs : key s with
  | none =>
    rw [hs] at hkey
    rw [Matcher.many_of_none hs] at hmany
    cases hmany
    exact ⟨[], t, Matcher.many_of_none hkey, hskip.trans hrest, hnodes⟩
  | some x =>
    rw [hs] at hkey
    rw [key_consumes.many_of_some hs] at hmany
    exact ⟨nodes, s', (key_consumes.many_of_some hkey).trans hmany, hrest, hnodes⟩

/-- One more line. -/
theorem ReadsKeys.line {additions : List (List Addition)} {a : List Addition} {node : KeyNode}
    (hkey : key s = some (node, '\n' :: t)) (hnode : evalKey node = .ok a) (h : ReadsKeys t rest additions) :
    ReadsKeys s rest (a :: additions) := by
  obtain ⟨nodes, s', hmany, hrest, hnodes⟩ := h.congr (skip_newline t)
  refine ⟨node :: nodes, s', ?_, hrest, ?_⟩
  · rw [key_consumes.many_of_some hkey, hmany]
  · rw [List.mapM_cons, hnode, ok_bind, hnodes]
    rfl

/-- What the keys of a section add. -/
def keyAdditions (keys : List Key) : List (List Addition) := keys.map fun k => [⟨k.name, k.value, none⟩]

/-- What its arrays add. -/
def arrayListAdditions (arrays : List KeyArray) : List (List Addition) :=
  arrays.map fun array => entryAdditions (arrayName array.entries) 0 array.entries

theorem readsKeys_keys {additions : List (List Addition)} {keys : List Key} (hkeys : KeysOk num t keys)
    (hbegins : Begins t)
    (h : ReadsKeys t rest additions) :
    ReadsKeys (keys.flatMap (keyText num) ++ t) rest (keyAdditions keys ++ additions) := by
  induction keys with
  | nil => exact h
  | cons k keys ih =>
    obtain ⟨hname, hspan, hkeys⟩ := hkeys
    obtain ⟨node, hkey, hnode⟩ := key_keyText hname (begins_keys hkeys hbegins).noComma hspan
    rw [List.flatMap_cons, List.append_assoc]
    exact (ih hkeys).line hkey hnode

/-- A section has at most one array. -/
theorem readsKeys_arrays {arrays : List KeyArray} (hlength : arrays.length ≤ 1)
    (harrays : ∀ array ∈ arrays, ArrayOk array)
    (hnames : ∀ array ∈ arrays, NameOk (arrayName array.entries)) (hkey : key t = none) (hstring : string t = none)
    (hbegins : Begins t) :
    ReadsKeys (arrays.flatMap (arrayText num) ++ '\n' :: t) t (arrayListAdditions arrays) := by
  have hnil : ReadsKeys ('\n' :: t) t [] := (ReadsKeys.nil hkey).congr (skip_newline t)
  cases arrays with
  | nil => exact hnil
  | cons array arrays =>
    obtain rfl : arrays = [] := List.eq_nil_of_length_eq_zero (by rw [List.length_cons] at hlength; omega)
    have harray := harrays array (List.mem_cons_self ..)
    have hnone : string ('\n' :: '\n' :: t) = none := by
      rw [string_congr (t := t) (by rw [skip_newline, skip_newline]), hstring]
    obtain ⟨node, hkey', hnode⟩ := key_arrayText num harray.entries harray.value
      (hnames array (List.mem_cons_self ..)) hnone hbegins.newline.noComma
    rw [List.flatMap_cons, List.append_assoc]
    exact hnil.line hkey' hnode

/-! ### The sections -/

theorem Closed.head_ne (h : Closed (c :: t)) : c ≠ ']' := by
  rintro rfl
  refine not_closed_of_none ?_ h
  rw [List.cons_append, escapeCh, if_pos rfl]

theorem brackets_of_ne (h : c ≠ ']') (s : Text) : brackets ('[' :: c :: s) = '[' :: c :: s := by
  rw [brackets]
  intro s' heq
  cases heq
  exact h rfl

/-- The text of a section. -/
theorem Entry.text_append (e : Entry) (hnames : e.names ≠ []) (rest : Text) :
    e.text num ++ rest = '[' :: (fullPath e.names ++ ']' :: '\n' :: (bodyText num e.keys e.arrays ++ rest)) := by
  rw [Entry.text, headerText, if_neg (by simpa using hnames)]
  simp only [List.append_assoc, List.cons_append]
  rfl

theorem bodyText_append (keys : List Key) (arrays : List KeyArray) (rest : Text) :
    bodyText num keys arrays ++ rest =
      keys.flatMap (keyText num) ++ (arrays.flatMap (arrayText num) ++ '\n' :: rest) := by
  simp only [bodyText, List.append_assoc]
  rfl

theorem string_bracket (s : Text) : string ('[' :: s) = none := rfl

/-- No key begins with the first line of a section. -/
theorem key_entry {e : Entry} (hnames : e.names ≠ []) (hclosed : Closed (fullPath e.names))
    (hbegins : Begins (bodyText num e.keys e.arrays ++ rest)) : key (e.text num ++ rest) = none := by
  have hequals : ((brackets ('[' :: (fullPath e.names ++ ']' :: '\n' ::
      (bodyText num e.keys e.arrays ++ rest)))).dropWhile isSpace).head? ≠ some '=' := by
    cases hpath : fullPath e.names with
    | nil => exact hbegins.newline.dropWhile
    | cons c path =>
      rw [hpath] at hclosed
      rw [List.cons_append, brackets_of_ne hclosed.head_ne, List.dropWhile_cons_of_neg (by decide)]
      exact fun h => absurd (Option.some.inj h) (by decide)
  rw [e.text_append hnames, key, optionalString_of_none (string_bracket _)]
  dsimp only
  rw [skip_cons rfl (by decide)]
  generalize (brackets ('[' :: (fullPath e.names ++ ']' :: '\n' ::
    (bodyText num e.keys e.arrays ++ rest)))).dropWhile isSpace = u at hequals
  cases u with
  | nil => rfl
  | cons c u => exact if_neg fun hc => hequals (by rw [hc]; rfl)

/-- What is known of a section of a loaded configuration that meets the condition. -/
structure EntryReady (num : NumberFormat) (rest : Text) (e : Entry) : Prop where
  names : e.names ≠ []
  ok : EntryOk num rest e
  arrays : ∀ array ∈ e.arrays, ArrayOk array

theorem EntryReady.begins {e : Entry} (h : EntryReady num rest e) (hrest : Begins rest) :
    Begins (bodyText num e.keys e.arrays ++ rest) := by
  rw [bodyText_append]
  exact begins_keys h.ok.keys (begins_arrays h.arrays h.ok.arrayNames hrest)

/-- The node of a section. -/
def NodeOf (e : Entry) (node : SectionNode) : Prop :=
  node.name = fullPath e.names ∧ node.keys.mapM evalKey = .ok (keyAdditions e.keys ++ arrayListAdditions e.arrays)

/-- A section is read up to the next one. -/
theorem sectionNode_entry {e : Entry} (h : EntryReady num rest e) (hrest : Begins rest) (hkey : key rest = none)
    (hstring : string rest = none) :
    ∃ node s', sectionNode (e.text num ++ rest) = some (node, s') ∧ skip s' = skip rest ∧ NodeOf e node := by
  have hconfix := confix_of_escapes (h.ok.path.escapes_eq ('\n' :: (bodyText num e.keys e.arrays ++ rest)))
  have hbody : ReadsKeys (bodyText num e.keys e.arrays ++ rest) rest (keyAdditions e.keys ++ arrayListAdditions e.arrays) := by
    rw [bodyText_append]
    exact readsKeys_keys h.ok.keys (begins_arrays h.arrays h.ok.arrayNames hrest)
      (readsKeys_arrays h.ok.arrays h.arrays h.ok.arrayNames hkey hstring hrest)
  obtain ⟨nodes, s', hmany, hskip, hnodes⟩ := hbody.congr (skip_newline _)
  refine ⟨⟨fullPath e.names, nodes⟩, s', ?_, hskip, rfl, hnodes⟩
  rw [e.text_append h.names, sectionNode, skip_cons rfl (by decide)]
  dsimp only
  rw [if_pos rfl, hconfix, Option.map_some, hmany]

/-- All sections are in order. -/
def Ready (num : NumberFormat) (entries : List Entry) : Prop :=
  EntriesOk num entries ∧ ∀ e ∈ entries, e.names ≠ [] ∧ ∀ array ∈ e.arrays, ArrayOk array

theorem Ready.tail {e : Entry} {entries : List Entry} (h : Ready num (e :: entries)) : Ready num entries :=
  ⟨h.1.2, fun f hf => h.2 f (List.mem_cons_of_mem e hf)⟩

theorem Ready.head {e : Entry} {entries : List Entry} (h : Ready num (e :: entries)) :
    EntryReady num (entries.flatMap (Entry.text num)) e :=
  ⟨(h.2 e (List.mem_cons_self ..)).1, h.1.1, (h.2 e (List.mem_cons_self ..)).2⟩

theorem Ready.begins {entries : List Entry} (h : Ready num entries) : Begins (entries.flatMap (Entry.text num)) :=
  begins_entries fun e he => (h.2 e he).1

theorem Ready.string {entries : List Entry} (h : Ready num entries) :
    string (entries.flatMap (Entry.text num)) = none := by
  cases entries with
  | nil => rfl
  | cons e entries =>
    rw [List.flatMap_cons, e.text_append h.head.names]
    exact string_bracket _

theorem Ready.key {entries : List Entry} (h : Ready num entries) : key (entries.flatMap (Entry.text num)) = none := by
  cases entries with
  | nil => rfl
  | cons e entries =>
    rw [List.flatMap_cons]
    exact key_entry h.head.names h.head.ok.path (h.head.begins h.tail.begins)

/-- The sections are read to the end of the text. -/
theorem Ready.many {entries : List Entry} (h : Ready num entries) (s : Text)
    (hs : skip s = skip (entries.flatMap (Entry.text num))) :
    ∃ nodes s', Matcher.many sectionNode s = (nodes, s') ∧ skip s' = [] ∧ List.Forall₂ NodeOf entries nodes := by
  induction entries generalizing s with
  | nil =>
    have hnone : sectionNode s = none := sectionNode_congr hs
    exact ⟨[], s, Matcher.many_of_none hnone, hs, .nil⟩
  | cons e entries ih =>
    obtain ⟨node, s₁, hnode, hskip, hof⟩ := sectionNode_entry h.head h.tail.begins h.tail.key h.tail.string
    obtain ⟨nodes, s', hmany, hend, hall⟩ := ih h.tail s₁ hskip
    rw [← List.flatMap_cons, ← sectionNode_congr hs] at hnode
    refine ⟨node :: nodes, s', ?_, hend, .cons hof hall⟩
    rw [sectionNode_consumes.many_of_some hnode, hmany]

/-- What is saved is read back, section by section. -/
theorem Ready.file {entries : List Entry} (h : Ready num entries) :
    ∃ nodes, file ('\n' :: entries.flatMap (Entry.text num)) = some nodes ∧ List.Forall₂ NodeOf entries nodes := by
  obtain ⟨nodes, s', hmany, hend, hall⟩ := h.many _ (skip_newline _)
  refine ⟨nodes, ?_, hall⟩
  rw [Config.file, hmany]
  dsimp only
  rw [hend]
  rfl

end LifeSim.Config
