import LifeSim.Config.Written

/-!
# The lines of a section are read as they were written

A line ends where the text of its value ends, but a value does not: what follows it can make it an array or a span, and
the last comma of an array is followed by one more item, if there is one.
-/

namespace LifeSim.Config

open LifeSim.Lib

variable {s t r rest raw n v : Text} {c : Char} {k : Key} {num : NumberFormat}

/-! ### Values -/

/-- No separator follows. -/
def NoComma (s : Text) : Prop := (skip s).head? ≠ some ','

theorem NoComma.newline (h : NoComma s) : NoComma ('\n' :: s) := by
  rw [NoComma, skip_newline]
  exact h

theorem NoComma.separated (h : NoComma s) : separated s = none := by
  rw [Config.separated]
  split
  · rfl
  · rename_i c rest hskip
    rw [NoComma, hskip] at h
    exact if_neg fun hc => h (by rw [hc]; rfl)

theorem optionalString_of_some (h : string s = some (t, rest)) : optionalString s = (some t, rest) := by
  rw [optionalString, h]

theorem optionalString_of_none (h : string s = none) : optionalString s = (none, s) := by
  rw [optionalString, h]

theorem long_inQuotes (v r : Text) : long (inQuotes v ++ r) = none := by
  have hdigit : ('"').isDigit = false := rfl
  rw [inQuotes, List.cons_append, List.cons_append, long, if_neg (by decide), if_neg (by decide), longDigits,
    List.takeWhile_cons_of_neg (by rw [hdigit]; exact Bool.false_ne_true)]
  rfl

/-- A value is read as it was written, if it is not taken for the first number of a span, and no comma follows. -/
theorem value_valueText (hcomma : NoComma rest)
    (hspan : num.valid v = true → valueSpan (v ++ '\n' :: rest) = none) :
    ∃ raw, value (valueText num v ++ '\n' :: rest) = (some (.single raw), '\n' :: rest) ∧ unEscapeText raw = v := by
  obtain ⟨raw, hstring, hraw⟩ := (writes_valueText num v).string (Ends.cons (c := '\n') rfl rest)
  refine ⟨raw, ?_, hraw⟩
  have harray : valueArray (valueText num v ++ '\n' :: rest) = none := by
    rw [valueArray, optionalString_of_some hstring]
    dsimp only
    rw [Matcher.many_of_none hcomma.newline.separated]
    rfl
  have hspan' : valueSpan (valueText num v ++ '\n' :: rest) = none := by
    rw [valueText]
    split_ifs with hvalid
    · exact hspan hvalid
    · rw [valueSpan, (Writes.inQuotes v).skip, long_inQuotes]
      rfl
  rw [value, harray, hspan', valueSingle, hstring]
  rfl

/-! ### Keys -/

theorem brackets_equals (s : Text) : brackets ('=' :: s) = '=' :: s := rfl

theorem brackets_blank (s : Text) : brackets (' ' :: s) = ' ' :: s := rfl

theorem dropWhile_isSpace_blank (s : Text) : (' ' :: s).dropWhile isSpace = s.dropWhile isSpace := rfl

theorem Writes.dropWhile (h : Writes n t) (r : Text) : (t ++ r).dropWhile isSpace = t ++ r := by
  obtain ⟨c, t', rfl, hc, -⟩ := h.head
  rw [List.cons_append, List.dropWhile_cons_of_neg (by rw [isSpace_of_isUnquoted hc]; exact Bool.false_ne_true)]

/-- The line of a key. -/
theorem key_keyText (hname : NameOk k.name) (hcomma : NoComma rest)
    (hspan : num.valid k.value = true → valueSpan (k.value ++ '\n' :: rest) = none) :
    ∃ node, key (keyText num k ++ rest) = some (node, '\n' :: rest) ∧ evalKey node = .ok [⟨k.name, k.value, none⟩] := by
  obtain ⟨rawValue, hvalue, hrawValue⟩ := value_valueText hcomma hspan
  have htext : keyText num k ++ rest = nameText k.name ++ ' ' :: '=' :: ' ' ::
    (valueText num k.value ++ '\n' :: rest) := by
    simp only [keyText, List.append_assoc]
    rfl
  obtain ⟨rawName, hstring, hrawName⟩ :=
    hname.writes.string (Ends.cons (c := ' ') rfl ('=' :: ' ' :: (valueText num k.value ++ '\n' :: rest)))
  refine ⟨⟨some rawName, some (.single rawValue)⟩, ?_, ?_⟩
  · rw [htext, key, optionalString_of_some hstring]
    dsimp only
    rw [skip_blank, skip_cons rfl (by decide), brackets_equals, List.dropWhile_cons_of_neg (by decide)]
    dsimp only
    rw [if_pos rfl, dropWhile_isSpace_blank, (writes_valueText num k.value).dropWhile, hvalue]
  · rw [evalKey]
    dsimp only
    rw [hrawName, hrawValue]

/-! ### Arrays -/

/-- The item that is read for an entry. -/
inductive ItemOf : Option Key → Option Text → Prop
  | none : ItemOf none none
  | some {k : Key} {raw : Text} (h : unEscapeText raw = k.value) : ItemOf (some k) (some raw)

/-- The text of an entry up to its comma. -/
theorem optionalString_entry (num : NumberFormat) (entry : Option Key) (r : Text) :
    ∃ item, optionalString ((entry.map fun k => valueText num k.value).getD [] ++ ',' :: r) = (item, ',' :: r) ∧
      ItemOf entry item := by
  cases entry with
  | none => exact ⟨none, optionalString_of_none rfl, .none⟩
  | some k =>
    obtain ⟨raw, hstring, hraw⟩ := (writes_valueText num k.value).string (Ends.cons (c := ',') rfl r)
    exact ⟨some raw, optionalString_of_some hstring, .some hraw⟩

/-- The entries after a comma, and the empty item after the last one. -/
theorem many_separated_entries (num : NumberFormat) (hrest : string ('\n' :: rest) = none) (hcomma : NoComma rest)
    (entries : List (Option Key)) :
    ∃ items, Matcher.many separated (',' :: (entries.flatMap (entryText num) ++ '\n' :: rest)) =
      (items ++ [none], '\n' :: rest) ∧ List.Forall₂ ItemOf entries items := by
  have hcons (s : Text) : separated (',' :: s) = some (optionalString s) := rfl
  induction entries with
  | nil =>
    refine ⟨[], ?_, .nil⟩
    have hfirst := hcons ('\n' :: rest)
    rw [optionalString_of_none hrest] at hfirst
    rw [List.flatMap_nil, List.nil_append, separated_consumes.many_of_some hfirst,
      Matcher.many_of_none hcomma.newline.separated]
    rfl
  | cons entry entries ih =>
    obtain ⟨items, hitems, hall⟩ := ih
    obtain ⟨item, hitem, hof⟩ := optionalString_entry num entry (entries.flatMap (entryText num) ++ '\n' :: rest)
    have hfirst := hcons ((entry.map fun k => valueText num k.value).getD [] ++
      ',' :: (entries.flatMap (entryText num) ++ '\n' :: rest))
    rw [hitem] at hfirst
    refine ⟨item :: items, ?_, .cons hof hall⟩
    have htext : (entry :: entries).flatMap (entryText num) ++ '\n' :: rest =
        (entry.map fun k => valueText num k.value).getD [] ++ ',' :: (entries.flatMap
          (entryText num) ++ '\n' :: rest) := by
      simp only [List.flatMap_cons, entryText, List.append_assoc, List.cons_append, List.nil_append]
    rw [htext, separated_consumes.many_of_some hfirst, hitems]
    rfl

/-- The keys of an array that are added, from `index` on. -/
def entryAdditions (name : Text) : ℕ → List (Option Key) → List Addition
  | _, [] => []
  | index, none :: entries => entryAdditions name (index + 1) entries
  | index, some k :: entries => ⟨name, k.value, some index⟩ :: entryAdditions name (index + 1) entries

theorem arrayAdditions_items {entries : List (Option Key)} {items : List (Option Text)}
    (h : List.Forall₂ ItemOf entries items) (hvalue : ∀ k, some k ∈ entries → k.value ≠ []) (name : Text) (index : ℕ) :
    arrayAdditions name index (items ++ [none]) = entryAdditions name index entries := by
  induction h generalizing index with
  | nil => rfl
  | cons hitem _ ih =>
    have ih' := ih (fun k hk => hvalue k (List.mem_cons_of_mem _ hk)) (index + 1)
    cases hitem with
    | none =>
      rw [List.cons_append, arrayAdditions, entryAdditions]
      exact ih'
    | some hraw =>
      rw [List.cons_append, arrayAdditions, entryAdditions, hraw, if_neg (hvalue _ (List.mem_cons_self ..)), ih']

/-- The value of an array. -/
theorem value_entries (num : NumberFormat) (hrest : string ('\n' :: rest) = none) (hcomma : NoComma rest)
    (entry : Option Key)
    (entries : List (Option Key)) :
    ∃ items, value ((entry :: entries).flatMap (entryText num) ++ '\n' :: rest) =
      (some (.array (items ++ [none])), '\n' :: rest) ∧ List.Forall₂ ItemOf (entry :: entries) items := by
  obtain ⟨items, hitems, hall⟩ := many_separated_entries num hrest hcomma entries
  obtain ⟨item, hitem, hof⟩ := optionalString_entry num entry (entries.flatMap (entryText num) ++ '\n' :: rest)
  have htext : (entry :: entries).flatMap (entryText num) ++ '\n' :: rest =
      (entry.map fun k => valueText num k.value).getD [] ++ ',' :: (entries.flatMap (entryText num) ++ '\n' :: rest) := by
    simp only [List.flatMap_cons, entryText, List.append_assoc, List.cons_append, List.nil_append]
  have harray : valueArray ((entry :: entries).flatMap (entryText num) ++ '\n' :: rest) =
      some (.array (item :: (items ++ [none])), '\n' :: rest) := by
    rw [htext, valueArray, hitem]
    dsimp only
    rw [hitems]
    dsimp only
    rw [if_neg (by simp)]
  refine ⟨item :: items, ?_, .cons hof hall⟩
  rw [value, harray]
  rfl

/-- The text of an entry does not begin with a space. -/
theorem dropWhile_entry (entry : Option Key) (entries : List (Option Key)) (r : Text) :
    ((entry :: entries).flatMap (entryText num) ++ r).dropWhile isSpace = (entry :: entries).flatMap
      (entryText num) ++ r := by
  rw [List.flatMap_cons, entryText, List.append_assoc, List.append_assoc]
  cases entry with
  | none => exact List.dropWhile_cons_of_neg (by decide)
  | some k => exact (writes_valueText num k.value).dropWhile _

/-- The line of an array. -/
theorem key_arrayText (num : NumberFormat) {array : KeyArray} (hentries : (array.entries.findSome? id).isSome = true)
    (hvalue : ∀ k, some k ∈ array.entries → k.value ≠ []) (hname : NameOk (arrayName array.entries))
    (hrest : string ('\n' :: rest) = none) (hcomma : NoComma rest) :
    ∃ node, key (arrayText num array ++ rest) = some (node, '\n' :: rest) ∧
      evalKey node = .ok (entryAdditions (arrayName array.entries) 0 array.entries) := by
  obtain ⟨iname, entries⟩ := array
  dsimp only at hentries hvalue hname ⊢
  cases entries with
  | nil => cases hentries
  | cons entry entries =>
    obtain ⟨items, hitems, hall⟩ := value_entries num hrest hcomma entry entries
    have htext : arrayText num ⟨iname, entry :: entries⟩ ++ rest = nameText (arrayName (entry :: entries)) ++
        '[' :: ']' :: ' ' :: '=' :: ' ' :: ((entry :: entries).flatMap (entryText num) ++ '\n' :: rest) := by
      rw [arrayText, if_pos hentries]
      simp only [List.append_assoc]
      rfl
    obtain ⟨rawName, hstring, hrawName⟩ := hname.writes.string (Ends.cons (c := '[') rfl
      (']' :: ' ' :: '=' :: ' ' :: ((entry :: entries).flatMap (entryText num) ++ '\n' :: rest)))
    refine ⟨⟨some rawName, some (.array (items ++ [none]))⟩, ?_, ?_⟩
    · rw [htext, key, optionalString_of_some hstring]
      dsimp only
      rw [skip_cons rfl (by decide), brackets, brackets_blank, dropWhile_isSpace_blank,
        List.dropWhile_cons_of_neg (by decide)]
      dsimp only
      rw [if_pos rfl, dropWhile_isSpace_blank, dropWhile_entry, hitems]
    · rw [evalKey]
      dsimp only
      rw [hrawName, arrayAdditions_items hall hvalue]

end LifeSim.Config
