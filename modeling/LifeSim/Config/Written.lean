import LifeSim.Config.Reading
import LifeSim.Config.Save

/-!
# Names and values are read as they were written

Text in quotes is read back whatever is in it. A name that is not written in quotes is read back if it is a word that does
not begin a comment and has no backslash, and a number always is.
-/

namespace LifeSim.Config

open LifeSim.Lib

variable {s t r rest piece raw n v : Text} {c close : Char}

/-! ### Escapes -/

/-- The text that is read as characters and escapes, and the rest. -/
def escapes (close : Char) (s : Text) : Text × Text := (((escapeCh close).many s).1.flatten, ((escapeCh close).many s).2)

theorem escapes_of_none (h : escapeCh close s = none) : escapes close s = ([], s) := by
  rw [escapes, Matcher.many_of_none h]
  rfl

theorem escapes_of_some (h : escapeCh close s = some (piece, rest)) :
    escapes close s = (piece ++ (escapes close rest).1, (escapes close rest).2) := by
  rw [escapes, (escapeCh_consumes close).many_of_some h]
  rfl

theorem escapes_close (r : Text) : escapes close (close :: r) = ([], close :: r) := by
  apply escapes_of_none
  rw [escapeCh, if_pos rfl]

theorem confix_of_escapes (h : escapes close s = (t, close :: rest)) : confix close s = some (t, rest) := by
  obtain ⟨h₁, h₂⟩ := Prod.mk.inj h
  rw [confix, h₂]
  dsimp only
  rw [if_pos rfl, h₁]

/-- Escaped text ends at the quote. -/
theorem escapes_escapeText (v r : Text) : escapes '"' (escapeText v ++ '"' :: r) = (escapeText v, '"' :: r) := by
  induction v with
  | nil => exact escapes_close r
  | cons c v ih =>
    rw [escapeText]
    split_ifs with hspecial
    · have hx : (c = 'x' || c = 'X') = false := by
        rcases Bool.or_eq_true_iff.1 hspecial with h | h <;> rw [of_decide_eq_true h] <;> rfl
      have hpiece : escapeCh '"' ('\\' :: c :: escapeText v ++ '"' :: r) = some
        (['\\', c], escapeText v ++ '"' :: r) := by
        rw [List.cons_append, escapeCh, if_neg (by decide), if_pos rfl, List.cons_append, escaped, hx]
        rfl
      rw [escapes_of_some hpiece, ih]
      rfl
    · obtain ⟨hback, hquote⟩ : c ≠ '\\' ∧ c ≠ '"' := by simpa using hspecial
      have hpiece : escapeCh '"' (c :: escapeText v ++ '"' :: r) = some ([c], escapeText v ++ '"' :: r) := by
        rw [List.cons_append, escapeCh, if_neg hquote, if_neg hback]
      rw [escapes_of_some hpiece, ih]
      rfl

/-- What is between brackets is read as it is. -/
def Closed (t : Text) : Prop := escapes ']' (t ++ [']']) = (t, [']'])

instance (t : Text) : Decidable (Closed t) := inferInstanceAs (Decidable (_ = _))

theorem hexFollows_append (c d : Char) (t r : Text) : hexFollows (c :: (t ++ d :: r)) = hexFollows (c :: (t ++ [d])) := by
  cases t <;> rfl

/-- A piece that is read of closed text leaves closed text. -/
theorem Closed.of_piece (h : Closed (piece ++ t))
    (hpiece : escapeCh ']' (piece ++ t ++ [']']) = some (piece, t ++ [']'])) : Closed t := by
  rw [Closed, escapes_of_some hpiece] at h
  obtain ⟨h₁, h₂⟩ := Prod.mk.inj h
  exact Prod.ext (List.append_cancel_left h₁) h₂

theorem not_closed_of_none (hpiece : escapeCh ']' (c :: t ++ [']']) = none) : ¬ Closed (c :: t) := by
  intro h
  rw [Closed, escapes_of_none hpiece] at h
  cases (Prod.mk.inj h).1

/-- A backslash at the end escapes the bracket. -/
theorem not_closed_backslash : ¬ Closed ['\\'] := by decide

/-- The first piece of closed text does not depend on what follows. -/
theorem Closed.exists_piece (h : Closed (c :: t)) : ∃ piece t', c :: t = piece ++ t' ∧ piece ≠ [] ∧
    ∀ r, escapeCh ']' (piece ++ t' ++ ']' :: r) = some (piece, t' ++ ']' :: r) := by
  by_cases hclose : c = ']'
  · refine absurd h (not_closed_of_none ?_)
    rw [List.cons_append, escapeCh, if_pos hclose]
  · by_cases hback : c = '\\'
    · subst hback
      have hescaped (s : Text) : escapeCh ']' ('\\' :: s) = escaped s := by rw [escapeCh, if_neg hclose, if_pos rfl]
      cases t with
      | nil => exact absurd h not_closed_backslash
      | cons d t =>
        by_cases hx : (d = 'x' || d = 'X') = true
        · have hnone : hexFollows (t ++ [']']) = true := by
            by_contra hfalse
            refine not_closed_of_none ?_ h
            change escapeCh ']' ('\\' :: d :: (t ++ [']'])) = none
            rw [hescaped, escaped, if_pos hx, if_neg hfalse]
          cases t with
          | nil => cases hnone
          | cons e t =>
            refine ⟨['\\', d, e], t, rfl, List.cons_ne_nil _ _, fun r => ?_⟩
            change escapeCh ']' ('\\' :: d :: e :: (t ++ ']' :: r)) = _
            rw [List.cons_append] at hnone
            rw [hescaped, escaped, if_pos hx, hexFollows_append, if_pos hnone]
            rfl
        · refine ⟨['\\', d], t, rfl, List.cons_ne_nil _ _, fun r => ?_⟩
          change escapeCh ']' ('\\' :: d :: (t ++ ']' :: r)) = _
          rw [hescaped, escaped, if_neg hx]
    · refine ⟨[c], t, rfl, List.cons_ne_nil _ _, fun r => ?_⟩
      change escapeCh ']' (c :: (t ++ ']' :: r)) = _
      rw [escapeCh, if_neg hclose, if_neg hback]

/-- Closed text is read whatever follows. -/
theorem Closed.escapes_eq (h : Closed t) (r : Text) : escapes ']' (t ++ ']' :: r) = (t, ']' :: r) := by
  induction hn : t.length using Nat.strong_induction_on generalizing t with
  | _ n ih =>
  cases t with
  | nil => exact escapes_close r
  | cons c t =>
    obtain ⟨piece, t', heq, hne, hpiece⟩ := h.exists_piece
    rw [heq] at h hn ⊢
    have hlength : t'.length < n := by
      rw [← hn, List.length_append]
      have := List.length_pos_iff.2 hne
      omega
    rw [escapes_of_some (hpiece r), ih _ hlength (h.of_piece (hpiece [])) rfl]

/-! ### Unescaping -/

theorem unEscapeFrom_escapeText (v : Text) : unEscapeFrom false (escapeText v) = v := by
  induction v with
  | nil => rfl
  | cons c v ih =>
    rw [escapeText]
    split_ifs with hspecial
    · rw [unEscapeFrom, if_pos rfl, unEscapeFrom, ih]
      rcases Bool.or_eq_true_iff.1 hspecial with h | h <;> rw [of_decide_eq_true h] <;> rfl
    · have hback : c ≠ '\\' := fun h => hspecial (by rw [h]; rfl)
      rw [unEscapeFrom, if_neg hback, ih]

theorem unEscapeText_of_head (h : s.head? ≠ some '"') : unEscapeText s = unEscapeFrom false s := by
  rw [unEscapeText, if_neg fun hall => h hall.2.1]

theorem unEscapeText_escapeText (v : Text) : unEscapeText (escapeText v) = v := by
  rw [unEscapeText_of_head, unEscapeFrom_escapeText]
  cases v with
  | nil =>
    intro h
    cases h
  | cons c v =>
    rw [escapeText]
    split_ifs with hspecial
    · intro h
      exact absurd (Option.some.inj h) (by decide)
    · intro h
      refine hspecial ?_
      rw [Option.some.inj h]
      rfl

theorem unEscapeFrom_of_not_mem (h : '\\' ∉ s) : unEscapeFrom false s = s := by
  induction s with
  | nil => rfl
  | cons c s ih =>
    rw [unEscapeFrom, if_neg (List.ne_of_not_mem_cons h).symm, ih (List.not_mem_of_not_mem_cons h)]

/-! ### Names and values -/

/-- A word that is read as it is. -/
structure Plain (n : Text) : Prop where
  nonempty : n ≠ []
  unquoted : ∀ c ∈ n, isUnquoted c = true
  backslash : '\\' ∉ n
  comment : n.head? ≠ some '#'

/-- A name that is read back: it is written in quotes, or it is a word without a backslash that does not begin a
comment. -/
def NameOk (n : Text) : Prop := ' ' ∈ n ∨ '"' ∈ n ∨ Plain n

/-- The text that is written for `n`. -/
inductive Writes : Text → Text → Prop
  | inQuotes (n : Text) : Writes n (inQuotes n)
  | plain {n : Text} (h : Plain n) (hquote : '"' ∉ n) : Writes n n

theorem NameOk.writes (h : NameOk n) : Writes n (nameText n) := by
  rw [nameText]
  split_ifs with hspecial
  · exact .inQuotes n
  · have hquote : '"' ∉ n := fun hmem => hspecial (.inr hmem)
    exact .plain ((h.resolve_left fun hmem => hspecial (.inl hmem)).resolve_left hquote) hquote

theorem isDigit_isUnquoted (h : c.isDigit = true) : isUnquoted c = true ∧ c ≠ '\\' ∧ c ≠ '#' ∧ c ≠ '"' := by
  obtain ⟨hlow, hhigh⟩ := Bool.and_eq_true_iff.1 h
  replace hlow : 48 ≤ c.toNat := of_decide_eq_true hlow
  replace hhigh : c.toNat ≤ 57 := of_decide_eq_true hhigh
  have hne : ∀ d : Char, d.toNat < 48 ∨ 57 < d.toNat → c ≠ d := by
    rintro d hd rfl
    omega
  refine ⟨?_, hne _ (by decide), hne _ (by decide), hne _ (by decide)⟩
  rw [isUnquoted, decide_eq_true (show 33 ≤ c.toNat by omega), decide_eq_true (show c.toNat ≤ 126 by omega),
    decide_eq_false (hne '=' (by decide)), decide_eq_false (hne ',' (by decide)), decide_eq_false (hne '[' (by decide)),
    decide_eq_false (hne ']' (by decide))]
  rfl

theorem isNumeric_isUnquoted (h : isNumeric c = true) : isUnquoted c = true ∧ c ≠ '\\' ∧ c ≠ '#' ∧ c ≠ '"' := by
  rw [isNumeric] at h
  simp only [Bool.or_eq_true, decide_eq_true_eq] at h
  rcases h with ((((h | rfl) | rfl) | rfl) | rfl) | rfl
  · exact isDigit_isUnquoted h
  all_goals decide

theorem writes_valueText (num : NumberFormat) (v : Text) : Writes v (valueText num v) := by
  rw [valueText]
  split_ifs with hvalid
  · have hchars c hc := isNumeric_isUnquoted (num.chars v hvalid c hc)
    refine .plain ⟨num.nonempty v hvalid, fun c hc => (hchars c hc).1, fun hc => (hchars _ hc).2.1 rfl, fun hc => ?_⟩
      fun hc => (hchars _ hc).2.2.2 rfl
    exact (hchars _ (List.mem_of_head? hc)).2.2.1 rfl
  · exact .inQuotes v

/-- What follows a word ends it. -/
def Ends (r : Text) : Prop := ∀ c, r.head? = some c → isUnquoted c = false

theorem Ends.takeWhile (h : Ends r) : r.takeWhile isUnquoted = [] := by
  cases r with
  | nil => rfl
  | cons c r => rw [List.takeWhile_cons_of_neg (by rw [h c rfl]; exact Bool.false_ne_true)]

theorem Ends.dropWhile (h : Ends r) : r.dropWhile isUnquoted = r := by
  cases r with
  | nil => rfl
  | cons c r => rw [List.dropWhile_cons_of_neg (by rw [h c rfl]; exact Bool.false_ne_true)]

theorem Ends.cons (h : isUnquoted c = false) (r : Text) : Ends (c :: r) := by
  intro d hd
  cases hd
  exact h

theorem isSpace_of_isUnquoted (h : isUnquoted c = true) : isSpace c = false := by
  have hlow : 33 ≤ c.toNat := of_decide_eq_true (Bool.and_eq_true_iff.1 (Bool.and_eq_true_iff.1 h).1).1
  have hne : ∀ d : Char, d.toNat < 33 → c ≠ d := by
    rintro d hd rfl
    omega
  rw [isSpace, decide_eq_false (hne ' ' (by decide)), decide_eq_false (hne '\t' (by decide)),
    decide_eq_false (hne '\n' (by decide)), decide_eq_false (hne '\x0b' (by decide)),
    decide_eq_false (hne '\x0c' (by decide)), decide_eq_false (hne '\r' (by decide))]
  rfl

/-- The first character of a name or of a value. -/
theorem Writes.head (h : Writes n t) : ∃ c t', t = c :: t' ∧ isUnquoted c = true ∧ c ≠ '#' := by
  cases h with
  | inQuotes => exact ⟨'"', _, rfl, by decide, by decide⟩
  | plain hplain hquote =>
    cases t with
    | nil => exact absurd rfl hplain.nonempty
    | cons c t =>
      refine ⟨c, t, rfl, hplain.unquoted c (List.mem_cons_self ..), fun hc => hplain.comment ?_⟩
      rw [hc]
      rfl

theorem Writes.skip (h : Writes n t) (r : Text) : skip (t ++ r) = t ++ r := by
  obtain ⟨c, t', rfl, hc, hcomment⟩ := h.head
  exact skip_cons (isSpace_of_isUnquoted hc) hcomment (t' ++ r)

theorem quoted_inQuotes (n r : Text) : quoted (inQuotes n ++ r) = some (escapeText n, r) := by
  have htext : inQuotes n ++ r = '"' :: (escapeText n ++ '"' :: r) := by
    rw [inQuotes, List.append_assoc, List.cons_append]
    rfl
  rw [htext, quoted, if_pos rfl]
  exact confix_of_escapes (escapes_escapeText n r)

/-- What is written is read as a string, and unescaped to what it was. -/
theorem Writes.string (h : Writes n t) (hr : Ends r) : ∃ raw, string (t ++ r) = some (raw, r) ∧ unEscapeText raw = n := by
  have hskip := h.skip r
  rw [Config.string, hskip]
  cases h with
  | inQuotes =>
    rw [quoted_inQuotes]
    exact ⟨_, rfl, unEscapeText_escapeText n⟩
  | plain hplain hquote =>
    cases t with
    | nil => exact absurd rfl hplain.nonempty
    | cons c t =>
      have hc : c ≠ '"' := (List.ne_of_not_mem_cons hquote).symm
      have hnone : quoted (c :: t ++ r) = none := by
        rw [List.cons_append, quoted, if_neg hc]
      refine ⟨c :: t, ?_, ?_⟩
      · rw [hnone, word, List.takeWhile_append_of_pos hplain.unquoted, List.dropWhile_append_of_pos hplain.unquoted,
          hr.takeWhile, hr.dropWhile, List.append_nil]
        rfl
      · rw [unEscapeText_of_head, unEscapeFrom_of_not_mem hplain.backslash]
        intro h
        exact hc (Option.some.inj h)

end LifeSim.Config
