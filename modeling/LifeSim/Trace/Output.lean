import Mathlib
import LifeSim.Lib.Lines

/-!
# The mirrored output of a trace

`TraceThread::handleOutputFunc`: what the traced program writes comes in records, which may end in the middle of a line.
The last piece of a line is kept in `m_output_leftover` and printed in front of the next line. A record that neither
ends the line nor is empty takes the place of what is kept instead of being added to it.

Every line is printed behind the number of the thread, which is left out here.
-/

namespace LifeSim.Trace

open LifeSim.Lib

/-- A carriage return or a line feed. -/
def isLineBreak (b : BitVec 8) : Bool := b == 13#8 || b == 10#8

/-- What follows the breaks at the end of a line is shorter. -/
theorem length_dropWhile_lt {data : List (BitVec 8)} (h : (data.dropWhile fun b => !isLineBreak b) ≠ []) :
    ((data.dropWhile fun b => !isLineBreak b).dropWhile isLineBreak).length < data.length := by
  have hle := (List.dropWhile_suffix (l := data) fun b => !isLineBreak b).length_le
  obtain ⟨b, rest, hrest⟩ := List.exists_cons_of_ne_nil h
  have hb : isLineBreak b = true := by
    have hhead := List.head_dropWhile_not (fun b => !isLineBreak b) h
    simpa [hrest] using hhead
  rw [hrest, List.length_cons] at hle
  rw [hrest, List.dropWhile_cons_of_pos hb]
  have := (List.dropWhile_suffix (l := rest) isLineBreak).length_le
  omega

/-- The loop of `handleOutputFunc`: the lines that are printed, and `m_output_leftover` with its size. -/
def outputLoop (leftover data : List (BitVec 8)) : List (List (BitVec 8)) × List (BitVec 8) :=
  if data = [] then ([], leftover)
  else if _h : (data.dropWhile fun b => !isLineBreak b) = [] then ([], data.take 160)
  else
    let r := outputLoop [] ((data.dropWhile fun b => !isLineBreak b).dropWhile isLineBreak)
    ((leftover ++ data.takeWhile fun b => !isLineBreak b) :: r.1, r.2)
termination_by data.length
decreasing_by exact length_dropWhile_lt _h

/-- `handleOutputFunc`. -/
def handleOutputFunc (fd : ℕ) (leftover data : List (BitVec 8)) : List (List (BitVec 8)) × List (BitVec 8) :=
  if fd = 1 ∨ fd = 2 then outputLoop leftover data else ([], leftover)

/-- The lines that are printed for the records of one file descriptor. -/
def mirror (fd : ℕ) : List (BitVec 8) → List (List (BitVec 8)) → List (List (BitVec 8))
  | _, [] => []
  | leftover, data :: records =>
    (handleOutputFunc fd leftover data).1 ++ mirror fd (handleOutputFunc fd leftover data).2 records

/-! ### What the program wrote -/

/-- The non-empty lines of a stream up to its last line break. -/
def streamLines (stream : List (BitVec 8)) : List (List (BitVec 8)) := (splitLines isLineBreak [] stream).1

/-- The piece of a line at the end of a record, after another piece. -/
def partialLine (piece data : List (BitVec 8)) : List (BitVec 8) := (splitLines isLineBreak piece data).2

/-- The pieces of lines at the ends of the records fit in `m_output_leftover`. -/
def PartialLinesFit : List (BitVec 8) → List (List (BitVec 8)) → Prop
  | _, [] => True
  | piece, data :: records => (partialLine piece data).length ≤ 160 ∧ PartialLinesFit (partialLine piece data) records

/-- A record that comes in the middle of a line is empty or ends the line, unless the line never ends. -/
def LinesInTwo : List (BitVec 8) → List (List (BitVec 8)) → Prop
  | _, [] => True
  | piece, data :: records =>
    (piece = [] ∨ data = [] ∨ data.any isLineBreak = true ∨ records.flatten.any isLineBreak = false) ∧
      LinesInTwo (partialLine piece data) records

/-! ### One record -/

variable {leftover piece data : List (BitVec 8)}

/-- A line of the record in front, its end, and the rest. -/
theorem exists_line (h : (data.dropWhile fun b => !isLineBreak b) ≠ []) : ∃ b rest,
    isLineBreak b = true ∧ data = (data.takeWhile fun b => !isLineBreak b) ++ b :: rest ∧
      (data.dropWhile fun b => !isLineBreak b) = b :: rest ∧
      ∀ x ∈ data.takeWhile (fun b => !isLineBreak b), isLineBreak x = false := by
  obtain ⟨b, rest, hrest⟩ := List.exists_cons_of_ne_nil h
  refine ⟨b, rest, ?_, ?_, hrest, fun x hx => ?_⟩
  · have hhead := List.head_dropWhile_not (fun b => !isLineBreak b) h
    simpa [hrest] using hhead
  · conv_lhs => rw [← List.takeWhile_append_dropWhile (p := fun b => !isLineBreak b) (l := data), hrest]
  · simpa using List.mem_takeWhile_imp hx

/-- What a line and its end add to the lines of the stream. -/
theorem splitLines_line (h : (data.dropWhile fun b => !isLineBreak b) ≠ []) :
    splitLines isLineBreak piece data =
      ((if piece ++ (data.takeWhile fun b => !isLineBreak b) = [] then []
          else [piece ++ data.takeWhile fun b => !isLineBreak b]) ++
        (splitLines isLineBreak [] ((data.dropWhile fun b => !isLineBreak b).dropWhile isLineBreak)).1,
        (splitLines isLineBreak [] ((data.dropWhile fun b => !isLineBreak b).dropWhile isLineBreak)).2) := by
  obtain ⟨b, rest, hb, hdata, hdrop, hpiece⟩ := exists_line h
  conv_lhs => rw [hdata, splitLines_append_piece hpiece, splitLines_cons_break hb]
  rw [hdrop, List.dropWhile_cons_of_pos hb, splitLines_dropWhile]

/-- A record without a break. -/
theorem eq_piece (h : (data.dropWhile fun b => !isLineBreak b) = []) : ∀ x ∈ data, isLineBreak x = false := by
  intro x hx
  simpa using List.dropWhile_eq_nil_iff.1 h x hx

/-- A record that is not kept in the middle of a line is printed and kept as it should be. -/
theorem outputLoop_eq (hfit : (partialLine leftover data).length ≤ 160)
    (hline : leftover = [] ∨ data = [] ∨ data.any isLineBreak = true) :
    (outputLoop leftover data).1.filter (fun l => l ≠ []) = (splitLines isLineBreak leftover data).1 ∧
      (outputLoop leftover data).2 = partialLine leftover data := by
  fun_induction outputLoop leftover data with
  | case1 leftover => exact ⟨rfl, rfl⟩
  | case2 leftover data hne hdrop =>
    have hall := eq_piece hdrop
    have hnil : leftover = [] := by
      rcases hline with h | h | h
      · exact h
      · exact absurd h hne
      · obtain ⟨x, hx, hbreak⟩ := List.any_eq_true.1 h
        rw [hall x hx] at hbreak
        cases hbreak
    subst hnil
    rw [partialLine, splitLines_piece hall, List.nil_append] at hfit ⊢
    exact ⟨rfl, List.take_of_length_le hfit⟩
  | case3 leftover data hne hdrop r ih =>
    rw [partialLine, splitLines_line hdrop] at hfit
    obtain ⟨hprinted, hkept⟩ := ih hfit (.inl rfl)
    rw [partialLine, splitLines_line hdrop]
    refine ⟨?_, hkept⟩
    rw [List.filter_cons, hprinted]
    by_cases hempty : leftover ++ (data.takeWhile fun b => !isLineBreak b) = []
    · simp [hempty]
    · simp [hempty]

/-! ### All records -/

variable {records : List (List (BitVec 8))} {fd : ℕ}

/-- On the standard output and the standard error every record goes through the loop. -/
theorem mirror_cons (hfd : fd = 1 ∨ fd = 2) : mirror fd leftover (data :: records) =
    (outputLoop leftover data).1 ++ mirror fd (outputLoop leftover data).2 records := by
  rw [mirror, handleOutputFunc, if_pos hfd]

/-- Without a line break nothing is printed. -/
theorem mirror_eq_nil (hfd : fd = 1 ∨ fd = 2) (h : records.flatten.any isLineBreak = false) :
    mirror fd leftover records = [] := by
  induction records generalizing leftover with
  | nil => rfl
  | cons data records ih =>
    rw [List.flatten_cons, List.any_append, Bool.or_eq_false_iff] at h
    have hdrop : (data.dropWhile fun b => !isLineBreak b) = [] := by
      rw [List.dropWhile_eq_nil_iff]
      intro x hx
      simpa using List.any_eq_false.1 h.1 x hx
    rw [mirror_cons hfd, ih h.2, List.append_nil, outputLoop, dif_pos hdrop]
    split
    · rfl
    · rfl

/-- Without a line break the stream has no line. -/
theorem splitLines_of_no_break (h : data.any isLineBreak = false) :
    splitLines isLineBreak piece data = ([], piece ++ data) := by
  apply splitLines_piece
  intro x hx
  simpa using List.any_eq_false.1 h x hx

/-- Where no record of a line is kept over another one, the lines of the stream are printed. -/
theorem mirror_eq (hfd : fd = 1 ∨ fd = 2) (hfit : PartialLinesFit leftover records)
    (hlines : LinesInTwo leftover records) :
    (mirror fd leftover records).filter (fun l => l ≠ []) = (splitLines isLineBreak leftover records.flatten).1 := by
  induction records generalizing leftover with
  | nil => rfl
  | cons data records ih =>
    obtain ⟨hline, hlines⟩ := hlines
    obtain ⟨hlen, hfit⟩ := hfit
    rw [mirror_cons hfd, List.filter_append, List.flatten_cons, splitLines_append]
    have hcases : (leftover = [] ∨ data = [] ∨ data.any isLineBreak = true) ∨
        data.any isLineBreak = false ∧ records.flatten.any isLineBreak = false := by
      cases hbreak : data.any isLineBreak with
      | true => exact .inl (.inr (.inr rfl))
      | false =>
        rw [hbreak] at hline
        rcases hline with h | h | h | h
        · exact .inl (.inl h)
        · exact .inl (.inr (.inl h))
        · cases h
        · exact .inr ⟨rfl, h⟩
    rcases hcases with hkept | ⟨hdata, hrest⟩
    · obtain ⟨hprinted, hleft⟩ := outputLoop_eq hlen hkept
      rw [hprinted, hleft, ih hfit hlines]
      rfl
    · have hnone : outputLoop leftover data = ((mirror fd leftover [data]), (outputLoop leftover data).2) := by
        rw [mirror_cons hfd, mirror, List.append_nil]
      rw [hnone, mirror_eq_nil hfd (by simpa using hdata), mirror_eq_nil hfd hrest, splitLines_of_no_break hdata,
        splitLines_of_no_break hrest]
      rfl

/-! ### What is lost -/

/-- The number of bytes in the lines. -/
def lineBytes (lines : List (List (BitVec 8))) : ℕ := (lines.map List.length).sum

@[simp] theorem lineBytes_nil : lineBytes [] = 0 := rfl

@[simp] theorem lineBytes_cons (line : List (BitVec 8)) (lines : List (List (BitVec 8))) :
    lineBytes (line :: lines) = line.length + lineBytes lines := by simp [lineBytes]

@[simp] theorem lineBytes_append (lines lines' : List (List (BitVec 8))) :
    lineBytes (lines ++ lines') = lineBytes lines + lineBytes lines' := by simp [lineBytes]

/-- An empty line has no bytes. -/
theorem lineBytes_filter (lines : List (List (BitVec 8))) :
    lineBytes (lines.filter fun l => l ≠ []) = lineBytes lines := by
  induction lines with
  | nil => rfl
  | cons line lines ih =>
    rw [List.filter_cons]
    split
    · rw [lineBytes_cons, ih, lineBytes_cons]
    · rename_i h
      have hempty : line = [] := by simpa using h
      rw [ih, hempty, lineBytes_cons, List.length_nil, Nat.zero_add]

/-- A record never prints or keeps more than the stream has. -/
theorem outputLoop_le (data : List (BitVec 8)) (hle : leftover.length ≤ piece.length) :
    lineBytes (outputLoop leftover data).1 ≤ lineBytes (splitLines isLineBreak piece data).1 ∧
      (outputLoop leftover data).2.length ≤ (partialLine piece data).length := by
  fun_induction outputLoop leftover data generalizing piece with
  | case1 leftover => exact ⟨le_rfl, hle⟩
  | case2 leftover data hne hdrop =>
    rw [partialLine, splitLines_piece (eq_piece hdrop), List.length_append, List.length_take]
    exact ⟨Nat.zero_le _, by omega⟩
  | case3 leftover data hne hdrop r =>
    rename_i ih
    obtain ⟨hprinted, hkept⟩ := @ih [] le_rfl
    rw [partialLine, splitLines_line hdrop]
    refine ⟨?_, hkept⟩
    have hline : lineBytes (if piece ++ (data.takeWhile fun b => !isLineBreak b) = [] then []
        else [piece ++ data.takeWhile fun b => !isLineBreak b]) =
        piece.length + (data.takeWhile fun b => !isLineBreak b).length := by
      split
      · rename_i hempty
        rw [← List.length_append, hempty]
        rfl
      · simp
    rw [lineBytes_append, hline, lineBytes_cons, List.length_append]
    exact Nat.add_le_add (Nat.add_le_add_right hle _) hprinted

/-- What is missing of the line is missing when it is printed, and until then it is not there. -/
theorem outputLoop_lt (data : List (BitVec 8)) (hlt : leftover.length < piece.length) :
    (data.any isLineBreak = true ∧
        lineBytes (outputLoop leftover data).1 < lineBytes (splitLines isLineBreak piece data).1) ∨
      (data.any isLineBreak = false ∧ (outputLoop leftover data).2.length < (partialLine piece data).length) := by
  fun_cases outputLoop leftover data with
  | case1 hnil => exact .inr (hnil ▸ ⟨rfl, hlt⟩)
  | case2 hne hdrop =>
    refine .inr ⟨?_, ?_⟩
    · rw [List.any_eq_false]
      intro x hx
      simp [eq_piece hdrop x hx]
    · rw [partialLine, splitLines_piece (eq_piece hdrop), List.length_append, List.length_take]
      omega
  | case3 hne hdrop r =>
    obtain ⟨b, rest, hb, hdata, -, -⟩ := exists_line hdrop
    refine .inl ⟨?_, ?_⟩
    · rw [List.any_eq_true]
      refine ⟨b, ?_, hb⟩
      rw [hdata]
      exact List.mem_append_right _ List.mem_cons_self
    · have hempty : ([] : List (BitVec 8)).length ≤ ([] : List (BitVec 8)).length := le_rfl
      obtain ⟨hprinted, -⟩ := outputLoop_le ((data.dropWhile fun b => !isLineBreak b).dropWhile isLineBreak) hempty
      have hne' : piece ++ (data.takeWhile fun b => !isLineBreak b) ≠ [] := by
        intro h
        rw [List.append_eq_nil_iff.1 h |>.1] at hlt
        cases hlt
      rw [splitLines_line hdrop, if_neg hne', List.singleton_append, lineBytes_cons, lineBytes_cons,
        List.length_append, List.length_append]
      exact Nat.add_lt_add_of_lt_of_le (Nat.add_lt_add_right hlt _) hprinted

/-- The records together print no more than the stream has, -/
theorem mirror_le (hfd : fd = 1 ∨ fd = 2) (hle : leftover.length ≤ piece.length) :
    lineBytes (mirror fd leftover records) ≤ lineBytes (splitLines isLineBreak piece records.flatten).1 := by
  induction records generalizing leftover piece with
  | nil => exact le_rfl
  | cons data records ih =>
    obtain ⟨hprinted, hkept⟩ := outputLoop_le data hle
    rw [mirror_cons hfd, lineBytes_append, List.flatten_cons, splitLines_append, lineBytes_append]
    exact Nat.add_le_add hprinted (ih hkept)

/-- and less, if a part of a line that ends later is missing. -/
theorem mirror_lt (hfd : fd = 1 ∨ fd = 2) (hlt : leftover.length < piece.length)
    (hbreak : records.flatten.any isLineBreak = true) :
    lineBytes (mirror fd leftover records) < lineBytes (splitLines isLineBreak piece records.flatten).1 := by
  induction records generalizing leftover piece with
  | nil => cases hbreak
  | cons data records ih =>
    rw [mirror_cons hfd, lineBytes_append, List.flatten_cons, splitLines_append, lineBytes_append]
    obtain ⟨hprinted, hkept⟩ := outputLoop_le data hlt.le
    rcases outputLoop_lt data hlt with ⟨-, hless⟩ | ⟨hnone, hless⟩
    · exact Nat.add_lt_add_of_lt_of_le hless (mirror_le hfd hkept)
    · rw [List.flatten_cons, List.any_append, hnone, Bool.false_or] at hbreak
      exact Nat.add_lt_add_of_le_of_lt hprinted (ih hless hbreak)

/-- A third piece of a line that ends later is lost. -/
theorem mirror_lt_of_not (hfd : fd = 1 ∨ fd = 2) (hle : leftover.length ≤ piece.length)
    (hnot : ¬ LinesInTwo piece records) :
    lineBytes (mirror fd leftover records) < lineBytes (splitLines isLineBreak piece records.flatten).1 := by
  induction records generalizing leftover piece with
  | nil => exact absurd trivial hnot
  | cons data records ih =>
    rw [mirror_cons hfd, lineBytes_append, List.flatten_cons, splitLines_append, lineBytes_append]
    obtain ⟨hprinted, hkept⟩ := outputLoop_le data hle
    apply Nat.add_lt_add_of_le_of_lt hprinted
    by_cases hrest : LinesInTwo (partialLine piece data) records
    · -- the record is the one that takes the place of another piece
      have hfirst : ¬ (piece = [] ∨ data = [] ∨ data.any isLineBreak = true ∨
          records.flatten.any isLineBreak = false) := fun h => hnot ⟨h, hrest⟩
      simp only [not_or, Bool.not_eq_true, Bool.not_eq_false] at hfirst
      obtain ⟨hpiece, hdata, hnone, hlater⟩ := hfirst
      refine mirror_lt hfd ?_ hlater
      have hdrop : (data.dropWhile fun b => !isLineBreak b) = [] := by
        rw [List.dropWhile_eq_nil_iff]
        intro x hx
        simpa using List.any_eq_false.1 hnone x hx
      have hpos := List.length_pos_iff.2 hpiece
      rw [splitLines_of_no_break hnone, outputLoop, if_neg hdata, dif_pos hdrop, List.length_append, List.length_take]
      omega
    · exact ih hkept hrest

/-- Two ways to cut a stream both print its lines if and only if neither cuts a line that ends into more than two
pieces. -/
theorem handleOutputFunc_lines_iff (stream : List (BitVec 8)) (cut cut' : List (List (BitVec 8)))
    (hfd : fd = 1 ∨ fd = 2) (hcut : cut.flatten = stream) (hcut' : cut'.flatten = stream)
    (hfit : PartialLinesFit [] cut) (hfit' : PartialLinesFit [] cut') :
    ((mirror fd [] cut).filter (fun l => l ≠ []) = (mirror fd [] cut').filter (fun l => l ≠ []) ∧
        (mirror fd [] cut).filter (fun l => l ≠ []) = streamLines stream) ↔
      LinesInTwo [] cut ∧ LinesInTwo [] cut' := by
  have hone : ∀ cut, cut.flatten = stream → PartialLinesFit [] cut →
      ((mirror fd [] cut).filter (fun l => l ≠ []) = streamLines stream ↔ LinesInTwo [] cut) := by
    intro cut hcut hfit
    subst hcut
    constructor
    · intro hprinted
      by_contra hnot
      have hless := mirror_lt_of_not hfd (Nat.le_refl ([] : List (BitVec 8)).length) hnot
      rw [← lineBytes_filter, hprinted] at hless
      exact lt_irrefl _ hless
    · exact mirror_eq hfd hfit
  rw [← hone cut hcut hfit, ← hone cut' hcut' hfit']
  constructor
  · rintro ⟨hsame, hprinted⟩
    exact ⟨hprinted, hsame ▸ hprinted⟩
  · rintro ⟨hprinted, hprinted'⟩
    exact ⟨hprinted.trans hprinted'.symm, hprinted⟩

/-- `ab` and a line feed, cut between the two letters. -/
theorem handleOutputFunc_lines_two :
    (mirror 1 [] [[97#8], [98#8, 10#8]]).filter (fun l => l ≠ []) = (mirror 1 [] [[97#8, 98#8, 10#8]]).filter
      (fun l => l ≠ []) ∧
      (mirror 1 [] [[97#8], [98#8, 10#8]]).filter (fun l => l ≠ []) = streamLines [97#8, 98#8, 10#8] :=
  (@handleOutputFunc_lines_iff 1 [97#8, 98#8, 10#8] [[97#8], [98#8, 10#8]] [[97#8, 98#8, 10#8]] (.inl rfl) rfl rfl
    ⟨by decide, by decide, trivial⟩ ⟨by decide, trivial⟩).2
    ⟨⟨.inl rfl, .inr (.inr (.inl rfl)), trivial⟩, ⟨.inl rfl, trivial⟩⟩

/-- Cut again in front of the line feed the line loses its first letter. -/
theorem handleOutputFunc_loses_piece :
    ¬ ((mirror 1 [] [[97#8], [98#8], [10#8]]).filter (fun l => l ≠ []) =
          (mirror 1 [] [[97#8, 98#8, 10#8]]).filter (fun l => l ≠ []) ∧
        (mirror 1 [] [[97#8], [98#8], [10#8]]).filter (fun l => l ≠ []) = streamLines [97#8, 98#8, 10#8]) := by
  rintro ⟨-, h⟩
  have hprinted : mirror 1 [] [[97#8], [98#8], [10#8]] = [[98#8]] := by
    simp [mirror, handleOutputFunc, outputLoop, isLineBreak]
  rw [hprinted] at h
  revert h
  decide

end LifeSim.Trace
