import LifeSim.Config.Grammar

/-!
# What the rules consume

No rule of the grammar that is repeated succeeds without reading something, and what the rules read does not depend on the
spaces and comments before it.
-/

namespace LifeSim.Config

open LifeSim.Lib

variable {s t rest : Text} {c close : Char}

/-! ### The skipper -/

theorem skipFrom_length (comment : Bool) (s : Text) : (skipFrom comment s).length ≤ s.length := by
  induction s generalizing comment with
  | nil => cases comment <;> exact le_rfl
  | cons c s ih =>
    cases comment with
    | false =>
      rw [skipFrom]
      split_ifs
      · exact (ih false).trans (Nat.le_succ _)
      · exact (ih true).trans (Nat.le_succ _)
      · exact le_rfl
    | true =>
      rw [skipFrom]
      split_ifs
      · exact (ih false).trans (Nat.le_succ _)
      · exact (ih true).trans (Nat.le_succ _)

theorem skip_length (s : Text) : (skip s).length ≤ s.length := skipFrom_length false s

theorem skip_of_isSpace (h : isSpace c = true) (s : Text) : skip (c :: s) = skip s := by
  rw [skip, skipFrom, if_pos h]
  rfl

@[simp] theorem skip_newline (s : Text) : skip ('\n' :: s) = skip s := skip_of_isSpace rfl s

@[simp] theorem skip_blank (s : Text) : skip (' ' :: s) = skip s := skip_of_isSpace rfl s

@[simp] theorem skip_nil : skip [] = [] := rfl

/-- A character that is not skipped. -/
theorem skip_cons (h : isSpace c = false) (hc : c ≠ '#') (s : Text) : skip (c :: s) = c :: s := by
  rw [skip, skipFrom, if_neg (by rw [h]; exact Bool.false_ne_true), if_neg hc]

/-! ### Lengths -/

theorem escapeCh_consumes (close : Char) : (escapeCh close).Consumes := by
  intro s piece rest h
  cases s with
  | nil => cases h
  | cons c s =>
    rw [escapeCh] at h
    split_ifs at h
    · cases s with
      | nil => cases h
      | cons d s =>
        rw [escaped] at h
        split_ifs at h
        · cases h
          rw [List.length_drop, List.length_cons, List.length_cons]
          omega
        · cases h
          rw [List.length_cons, List.length_cons]
          omega
    · cases h
      exact Nat.lt_succ_self _

theorem confix_length (h : confix close s = some (t, rest)) : rest.length < s.length := by
  have hmany := (escapeCh_consumes close).many_length s
  rw [confix] at h
  split at h
  · cases h
  · rename_i c tail htail
    split_ifs at h
    cases h
    rw [htail, List.length_cons] at hmany
    omega

theorem string_length (h : string s = some (t, rest)) : rest.length < s.length := by
  have hskip := skip_length s
  rw [string] at h
  rcases Option.or_eq_some_iff.1 h with h | ⟨-, h⟩
  · cases hs : skip s with
    | nil =>
      rw [hs] at h
      cases h
    | cons c tail =>
      rw [hs, quoted] at h
      rw [hs, List.length_cons] at hskip
      split_ifs at h
      have := confix_length h
      omega
  · rw [word] at h
    split_ifs at h with hempty
    cases h
    have hlength := congrArg List.length (List.takeWhile_append_dropWhile (p := isUnquoted) (l := skip s))
    rw [List.length_append] at hlength
    have hpos : 0 < ((skip s).takeWhile isUnquoted).length :=
      List.length_pos_iff.2 fun hnil => hempty (by rw [hnil]; rfl)
    omega

theorem optionalString_length (s : Text) : (optionalString s).2.length ≤ s.length := by
  rw [optionalString]
  split
  · rename_i h
    exact (string_length h).le
  · exact le_rfl

theorem separated_consumes : Matcher.Consumes separated := by
  intro s item rest h
  have hskip := skip_length s
  rw [separated] at h
  split at h
  · cases h
  · rename_i c tail htail
    split_ifs at h
    have hlength := optionalString_length tail
    rw [Option.some.inj h] at hlength
    rw [htail, List.length_cons] at hskip
    dsimp only at hlength
    omega

theorem longDigits_length {bound : ℕ} (h : longDigits bound s = some rest) : rest.length ≤ s.length := by
  rw [longDigits] at h
  split_ifs at h
  cases h
  exact (List.dropWhile_sublist _).length_le

theorem long_length (h : long s = some rest) : rest.length ≤ s.length := by
  cases s with
  | nil => cases h
  | cons c s =>
    rw [long] at h
    split_ifs at h
    · exact (longDigits_length h).trans (Nat.le_succ _)
    · exact (longDigits_length h).trans (Nat.le_succ _)
    · exact longDigits_length h

theorem value_length (s : Text) : (value s).2.length ≤ s.length := by
  rw [value]
  split
  · rename_i node rest h
    rcases Option.or_eq_some_iff.1 h with h | ⟨-, h⟩
    · rcases Option.or_eq_some_iff.1 h with h | ⟨-, h⟩
      · rw [valueArray] at h
        split_ifs at h
        cases h
        exact (separated_consumes.many_length _).trans (optionalString_length s)
      · obtain ⟨tail, hlong, h⟩ := Option.bind_eq_some_iff.1 h
        have hskip := skip_length s
        have htail := long_length hlong
        have hskip' := skip_length tail
        split at h
        · cases h
        · rename_i c tail' hs
          split_ifs at h
          obtain ⟨tail'', hlong', h⟩ := Option.map_eq_some_iff.1 h
          cases h
          have := long_length hlong'
          have := skip_length tail'
          rw [hs, List.length_cons] at hskip'
          dsimp only
          omega
    · obtain ⟨x, hx, h⟩ := Option.map_eq_some_iff.1 h
      cases h
      exact (string_length hx).le
  · exact le_rfl

theorem brackets_length (s : Text) : (brackets s).length ≤ s.length := by
  fun_induction brackets s with
  | case1 s ih => exact ih.trans (by rw [List.length_cons, List.length_cons]; omega)
  | case2 s => exact le_rfl

theorem key_consumes : Matcher.Consumes key := by
  intro s node rest h
  rw [key] at h
  split at h
  · cases h
  · rename_i c tail htail
    split_ifs at h
    cases h
    have hname := optionalString_length s
    have hskip := skip_length (optionalString s).2
    have hbrackets := brackets_length (skip (optionalString s).2)
    have hspaces := (List.dropWhile_sublist isSpace (l := brackets (skip (optionalString s).2))).length_le
    have hvalue := value_length (tail.dropWhile isSpace)
    have hspaces' := (List.dropWhile_sublist isSpace (l := tail)).length_le
    rw [htail, List.length_cons] at hspaces
    omega

theorem sectionNode_consumes : Matcher.Consumes sectionNode := by
  intro s node rest h
  have hskip := skip_length s
  rw [sectionNode] at h
  split at h
  · cases h
  · rename_i c tail htail
    split_ifs at h
    obtain ⟨x, hx, h⟩ := Option.map_eq_some_iff.1 h
    cases h
    have := confix_length hx
    have := key_consumes.many_length x.2
    rw [htail, List.length_cons] at hskip
    omega

/-! ### The beginning of a rule -/

theorem string_congr (h : skip s = skip t) : string s = string t := by rw [string, string, h]

theorem key_congr (h : skip s = skip t) : key s = key t := by
  rw [key, key, optionalString, optionalString, string_congr h]
  cases string t with
  | none =>
    dsimp only
    rw [h]
  | some x => rfl

theorem sectionNode_congr (h : skip s = skip t) : sectionNode s = sectionNode t := by rw [sectionNode, sectionNode, h]

end LifeSim.Config
