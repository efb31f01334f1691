import Mathlib
import Parlance.Diagnostic
import Parlance.Proofs.Numbers.Display
import Parlance.Proofs.Reports.Positions
/-!
# Lines around a fault

A context shows the lines around a position, each behind its number, and a line with a caret behind
the line of the position. The numbers are padded to four columns and the caret line is indented by as
much, so the caret stands under the position as long as the number has no more than four digits, and
no longer (`Diagnostic.contextText_caret`).
-/
namespace Parlance
open Text

namespace Diagnostic

variable {place : Position} {first n o : Nat} {source l : List Char} {ls rest : List (List Char)}

/-! ### Numbers of lines -/

/-- A line as it is shown, behind its number. -/
def numbered (k : List Char × Nat) : List Char := lineLabel k.2 ++ k.1

theorem length_decimalDigits_le (n k : Nat) :
    (decimalDigits n).length ≤ k + 1 ↔ n < 10 ^ (k + 1) := by
  induction k generalizing n with
  | zero =>
    rw [decimalDigits]
    split
    · simpa using ‹n < 10›
    · have hpos := List.length_pos_iff.mpr (decimalDigits_ne_nil (n / 10))
      simp only [List.length_append, List.length_singleton]
      omega
  | succ k ih =>
    rw [decimalDigits]
    split
    · have hpow : 10 ^ 1 ≤ 10 ^ (k + 1 + 1) := Nat.pow_le_pow_right (by norm_num) (by omega)
      simp only [List.length_singleton]
      omega
    · rw [List.length_append, List.length_singleton, Nat.add_le_add_iff_right, ih,
        Nat.div_lt_iff_lt_mul (by norm_num), ← pow_succ]

theorem length_lineLabel (n : Nat) :
    (lineLabel n).length = max 4 (decimalDigits n).length + 2 := by
  simp only [lineLabel, List.length_append, List.length_replicate, List.length_cons,
    List.length_nil]
  omega

/-- The label of a line is as wide as the indent of the caret line up to four digits. -/
theorem length_lineLabel_eq_iff : (lineLabel n).length = 6 ↔ n < 10000 := by
  have hdigits := length_decimalDigits_le n 3
  rw [length_lineLabel]
  omega

/-! ### Marked lines -/

theorem markedLines_append (place : Position) (first : Nat) (ls rest : List (List Char)) :
    markedLines place first (ls ++ rest)
      = markedLines place first ls ++ markedLines place (first + ls.length) rest := by
  induction ls generalizing first with
  | nil => rfl
  | cons l ls ih =>
    simp only [List.cons_append, markedLines, ih, List.length_cons, Nat.add_right_comm first,
      Nat.add_assoc first]
    split
    · rfl
    · rfl

/-- Lines all above or all below the position have no caret line. -/
theorem markedLines_eq_map (h : first + ls.length ≤ place.line ∨ place.line < first) :
    markedLines place first ls = (ls.zipIdx first).map numbered := by
  induction ls generalizing first with
  | nil => rfl
  | cons l ls ih =>
    rw [List.length_cons] at h
    have hne : first ≠ place.line := by omega
    rw [markedLines, if_neg hne, ih (by omega), List.zipIdx_cons, List.map_cons, numbered]

theorem markedLines_self (l : List Char) (rest : List (List Char)) :
    markedLines place place.line (l :: rest)
      = numbered (l, place.line) :: caretLine place.column ::
          (rest.zipIdx (place.line + 1)).map numbered := by
  rw [markedLines, if_pos rfl, markedLines_eq_map (.inr (Nat.lt_succ_self _)), numbered]

/-! ### The window -/

/-- A line is at most `n` lines away from another one. -/
def Near (n line : Nat) (k : List Char × Nat) : Prop := line ≤ k.2 + n ∧ k.2 ≤ line + n

instance (n line : Nat) (k : List Char × Nat) : Decidable (Near n line k) :=
  inferInstanceAs (Decidable (_ ∧ _))

/-- The lines near a line are those from the first near one on, up to the last. -/
theorem filter_near (ls : List (List Char)) (n line : Nat) :
    (ls.zipIdx 1).filter (Near n line)
      = ((ls.take (line + n)).drop (line - n - 1)).zipIdx (line - n - 1 + 1) := by
  obtain ⟨start, hstart⟩ : ∃ start, start = line - n - 1 := ⟨_, rfl⟩
  obtain ⟨stop, hstop⟩ : ∃ stop, stop = line + n := ⟨_, rfl⟩
  have hsplit : ls = (ls.take stop).take start ++ (ls.take stop).drop start ++ ls.drop stop := by
    rw [List.take_append_drop, List.take_append_drop]
  rw [← hstart, ← hstop]
  conv_lhs => rw [hsplit]
  rw [List.zipIdx_append, List.zipIdx_append, List.filter_append, List.filter_append,
    List.filter_eq_nil_iff.mpr, List.filter_eq_self.mpr, List.filter_eq_nil_iff.mpr,
    List.nil_append, List.append_nil]
  · rcases Nat.le_total start (ls.take stop).length with hle | hle
    · rw [List.length_take, Nat.min_eq_left hle, Nat.add_comm]
    · rw [List.drop_eq_nil_of_le hle]
      rfl
  all_goals
    intro k hk
    have hrange := List.mem_zipIdx hk
    simp only [List.length_append, List.length_take, List.length_drop] at hrange
    rw [decide_eq_true_iff, Near]
    omega

/-- A context is its window with the caret line behind the line of the position. -/
theorem contextLines_of_cut {above below : List (List Char)}
    (h : LineCut source (locate source o) above l below) (n : Nat) :
    ∃ before after,
      ((lines source).zipIdx 1).filter (Near n (locate source o).line)
        = before ++ (l, (locate source o).line) :: after ∧
      contextLines source o n
        = before.map numbered ++ numbered (l, (locate source o).line) ::
          caretLine (locate source o).column :: after.map numbered := by
  have hline := h.line
  have hshown : ((lines source).take ((locate source o).line + n)).drop
      ((locate source o).line - n - 1) = above.drop (above.length - n) ++ l :: below.take n := by
    have hstart : above.length + 1 - n - 1 = above.length - n := by omega
    have hend : above.length + 1 + n = above.length + (n + 1) := by omega
    rw [h.lines, hline, hstart, hend, List.take_length_add_append, List.take_succ_cons,
      List.drop_append_of_le_length (Nat.sub_le _ _)]
  have hnext : (locate source o).line - n - 1 + 1 + (above.drop (above.length - n)).length
      = (locate source o).line := by
    rw [List.length_drop]
    omega
  refine ⟨(above.drop (above.length - n)).zipIdx ((locate source o).line - n - 1 + 1),
    (below.take n).zipIdx ((locate source o).line + 1), ?_, ?_⟩
  · rw [filter_near, hshown, List.zipIdx_append, List.zipIdx_cons, hnext]
  · unfold contextLines
    simp only
    rw [hshown, markedLines_append, hnext, markedLines_self, markedLines_eq_map (.inl hnext.le)]

/-! ### The shown text -/

theorem not_mem_lineLabel (n : Nat) : '\n' ∉ lineLabel n := by
  have hdigits : '\n' ∉ decimalDigits n := fun h =>
    absurd (digits_decimalDigits n _ h) (by decide)
  simp [lineLabel, hdigits]

theorem not_mem_caretLine (column : Nat) : '\n' ∉ caretLine column := by
  simp [caretLine]

/-- The lines of the text are the lines of the context. -/
theorem lines_contextText (h : ∀ line ∈ contextLines source o n, '\n' ∉ line)
    (hne : contextLines source o n ≠ []) :
    lines (contextText source o n).toList = contextLines source o n := by
  rw [contextText, String.toList_ofList, lines_eq_splitOn, List.splitOn_intercalate _ h hne]

theorem count_caretLine (column : Nat) : (caretLine column).count '^' = 1 := by
  rw [caretLine, List.count_append, List.count_replicate]
  rfl

theorem idxOf_caretLine (column : Nat) : (caretLine column).idxOf '^' = 6 + (column - 1) := by
  have hblank : '^' ∉ List.replicate (6 + (column - 1)) ' ' := by simp
  rw [caretLine, List.idxOf_append_of_notMem hblank, List.length_replicate]
  rfl

/-- Where a position is in its line as it is shown. -/
def shownIndex (p : Position) : Nat := (lineLabel p.line).length + (p.column - 1)

theorem getElem?_numbered (l : List Char) (p : Position) :
    (numbered (l, p.line))[shownIndex p]? = l[p.column - 1]? := by
  rw [numbered, shownIndex, List.getElem?_append_right (Nat.le_add_right _ _),
    Nat.add_sub_cancel_left]

/-- A context shows the lines that are at most `n` lines away from that of the offset, each behind
its number, and right behind that line a line with one caret. The offset is at the character at
`shownIndex`, or right behind the last one if it is at the end of its line. The caret stands under it
if the line is one of the first 9999, and only then. -/
theorem contextText_caret (h : o ≤ source.length) (n : Nat) :
    ∃ l before after,
      ((lines source).zipIdx 1).filter (Near n (locate source o).line)
        = before ++ (l, (locate source o).line) :: after ∧
      lines (contextText source o n).toList
        = before.map numbered ++ numbered (l, (locate source o).line) ::
          caretLine (locate source o).column :: after.map numbered ∧
      (∀ c, source[o]? = some c → c ≠ '\n' →
        (numbered (l, (locate source o).line))[shownIndex (locate source o)]? = some c) ∧
      (source[o]? = none ∨ source[o]? = some '\n' →
        shownIndex (locate source o) = (numbered (l, (locate source o).line)).length) ∧
      (caretLine (locate source o).column).count '^' = 1 ∧
      ((caretLine (locate source o).column).idxOf '^' = shownIndex (locate source o) ↔
        (locate source o).line < 10000) := by
  obtain ⟨above, l, below, hcut⟩ := isPlace_iff.mp (isPlace_locate h)
  obtain ⟨before, after, hwindow, hlines⟩ := contextLines_of_cut hcut n
  have hchar := hcut.at_offset
  rw [offsetAt_locate h] at hchar
  have hl : '\n' ∉ l :=
    not_mem_of_mem_lines (hcut.lines ▸ List.mem_append_right _ List.mem_cons_self)
  refine ⟨l, before, after, hwindow, ?_, ?_, ?_, count_caretLine _, ?_⟩
  · rw [← hlines]
    refine lines_contextText ?_ (by simp [hlines])
    have hmem : ∀ k ∈ before ++ (l, (locate source o).line) :: after, '\n' ∉ numbered k := by
      intro k hk
      rw [← hwindow] at hk
      have hk := (List.mem_zipIdx (List.mem_filter.mp hk).1).2.2
      rw [numbered, List.mem_append, not_or]
      exact ⟨not_mem_lineLabel _, not_mem_of_mem_lines (hk ▸ List.getElem_mem _)⟩
    rw [List.forall_mem_append, List.forall_mem_cons] at hmem
    rw [hlines, List.forall_mem_append, List.forall_mem_cons, List.forall_mem_cons,
      List.forall_mem_map, List.forall_mem_map]
    exact ⟨hmem.1, hmem.2.1, not_mem_caretLine _, hmem.2.2⟩
  · intro c hc hbreak
    rcases hchar with ⟨-, hchar⟩ | ⟨-, hnone | hfeed⟩
    · rw [getElem?_numbered, ← hchar, hc]
    · rw [hc] at hnone
      cases hnone
    · rw [hc] at hfeed
      exact absurd (Option.some.inj hfeed) hbreak
  · intro hend
    rcases hchar with ⟨hinside, hchar⟩ | ⟨hcolumn, -⟩
    · have hpos := hcut.column_pos
      rw [hchar, List.getElem?_eq_getElem (by omega)] at hend
      rcases hend with hnone | hfeed
      · cases hnone
      · exact absurd (Option.some.inj hfeed ▸ List.getElem_mem _) hl
    · rw [shownIndex, numbered, List.length_append, hcolumn, Nat.add_sub_cancel]
  · rw [idxOf_caretLine, shownIndex, ← length_lineLabel_eq_iff]
    omega

theorem letter_marked :
    let source := "a\nbcd\n".toList
    3 ≤ source.length ∧ source[3]? = some 'c' ∧
      lines (contextText source 3 1).toList
        = ["   1: a", "   2: bcd", "       ^ Error here", "   3: "].map String.toList ∧
      (caretLine 2).idxOf '^' = shownIndex ⟨2, 2⟩ ∧
      ∃ l, (numbered (l, 2))[shownIndex ⟨2, 2⟩]? = some 'c' := by
  intro source
  have hlength : 3 ≤ source.length := by decide
  have hplace : locate source (3 : Nat) = ⟨2, 2⟩ := by decide
  have hchar : source[3]? = some 'c' := by decide
  obtain ⟨l, before, after, -, -, hletter, -, -, hcaret⟩ := contextText_caret hlength 1
  rw [hplace] at hletter hcaret
  refine ⟨hlength, hchar, ?_, hcaret.mpr (by decide), l, hletter 'c' hchar (by decide)⟩
  decide +kernel

/-! ### A line with a long number -/

theorem lines_feeds (k : Nat) (cs : List Char) :
    lines (List.replicate k '\n' ++ cs) = List.replicate k [] ++ lines cs := by
  induction k with
  | zero => rfl
  | succ k ih => rw [List.replicate_succ, List.cons_append, lines, if_pos rfl, ih]; rfl

theorem cut_feeds (k : Nat) :
    LineCut (List.replicate k '\n' ++ ['x']) ⟨k + 1, 1⟩ (List.replicate k []) ['x'] [] :=
  ⟨lines_feeds k ['x'], by rw [List.length_replicate], Nat.one_pos, Nat.le_add_left 1 _⟩

theorem locate_feeds (k : Nat) : locate (List.replicate k '\n' ++ ['x']) k = ⟨k + 1, 1⟩ := by
  have hoffset := (cut_feeds k).offsetAt
  have hlocate := (cut_feeds k).locate_offsetAt
  have hlength : (ended (List.replicate k [])).length = k := by simp [length_ended]
  rwa [hoffset, hlength] at hlocate

theorem contextLines_feeds (k : Nat) :
    contextLines (List.replicate k '\n' ++ ['x']) k 0
      = [numbered (['x'], k + 1), caretLine 1] := by
  unfold contextLines
  simp only [locate_feeds, lines_feeds, Nat.add_zero, Nat.sub_zero, Nat.add_sub_cancel]
  have hshown : ((List.replicate k [] ++ lines ['x']).take (k + 1)).drop k = [['x']] := by
    have htake : (List.replicate k ([] : List Char) ++ lines ['x']).length ≤ k + 1 := by
      simp [lines]
    rw [List.take_of_length_le htake, List.drop_left' (List.length_replicate ..)]
    rfl
  rw [hshown]
  exact @markedLines_self ⟨k + 1, 1⟩ ['x'] []

/-- In line 10000 the number takes five columns. The letter at fault stands at index 7 of its line,
and the caret below it at index 6. -/
theorem caret_too_far_left :
    let source := List.replicate 9999 '\n' ++ ['x']
    locate source 9999 = ⟨10000, 1⟩ ∧
      lines (contextText source 9999 0).toList
        = ["10000: x".toList, "      ^ Error here".toList] ∧
      "10000: x".toList.idxOf 'x' = 7 ∧ "      ^ Error here".toList.idxOf '^' = 6 := by
  intro source
  have hlines : contextLines source 9999 0 = ["10000: x".toList, "      ^ Error here".toList] := by
    rw [show contextLines source 9999 0 = _ from contextLines_feeds 9999]
    decide +kernel
  refine ⟨locate_feeds 9999, ?_, by decide, by decide⟩
  rw [← hlines]
  refine lines_contextText (o := 9999) ?_ ?_
  · rw [show contextLines source (9999 : Nat) 0 = _ from hlines]
    decide
  · rw [show contextLines source (9999 : Nat) 0 = _ from hlines]
    decide

end Diagnostic
end Parlance
