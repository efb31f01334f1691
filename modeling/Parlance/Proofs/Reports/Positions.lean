import Mathlib
import Parlance.Text.Lines
/-!
# Positions in a text

The lines before a position, each with its end, and the columns before it add up to the offset of
the position (`Text.offsetAt`). Every offset of a text is that of exactly one place on its lines, and
it is the place at which the offset is located (`Text.locate_places`).
-/
namespace Parlance.Text

variable {source cs : List Char} {ls above below : List (List Char)} {l : List Char}
  {p q : Position} {o : Nat}

/-! ### Lines and their ends -/

theorem lines_eq_splitOn (source : List Char) : lines source = source.splitOn '\n' := by
  induction source with
  | nil => rfl
  | cons c cs ih =>
    rw [lines, List.splitOn_cons_eq_if_modifyHead, ← ih]
    by_cases h : c = '\n'
    · simp [h]
    · cases hlines : lines cs with
      | nil => simp [ih, List.splitOn_ne_nil] at hlines
      | cons => simp [h]

theorem lines_ne_nil (source : List Char) : lines source ≠ [] :=
  lines_eq_splitOn source ▸ List.splitOn_ne_nil _ _

theorem lines_cons_of_ne {c : Char} (h : c ≠ '\n') (cs : List Char) :
    ∃ l ls, lines cs = l :: ls ∧ lines (c :: cs) = (c :: l) :: ls := by
  obtain ⟨l, ls, hlines⟩ := List.exists_cons_of_ne_nil (lines_ne_nil cs)
  exact ⟨l, ls, hlines, by rw [lines, if_neg h, hlines]⟩

theorem not_mem_of_mem_lines (h : l ∈ lines source) : '\n' ∉ l := by
  induction source generalizing l with
  | nil =>
    rw [List.mem_singleton.mp h]
    exact List.not_mem_nil
  | cons c cs ih =>
    by_cases hc : c = '\n'
    · rw [lines, if_pos hc] at h
      rcases List.mem_cons.mp h with rfl | h
      · exact List.not_mem_nil
      · exact ih h
    · obtain ⟨first, rest, hcs, hlines⟩ := lines_cons_of_ne hc cs
      rw [hlines] at h
      rw [hcs] at ih
      rcases List.mem_cons.mp h with rfl | h
      · rw [List.mem_cons, not_or]
        exact ⟨Ne.symm hc, ih List.mem_cons_self⟩
      · exact ih (List.mem_cons_of_mem _ h)

/-- Lines with their ends. -/
def ended (ls : List (List Char)) : List Char := ls.flatMap (· ++ ['\n'])

theorem ended_cons (l : List Char) (ls : List (List Char)) :
    ended (l :: ls) = l ++ '\n' :: ended ls := by
  simp [ended]

theorem ended_append (ls above : List (List Char)) : ended (ls ++ above) = ended ls ++ ended above :=
  List.flatMap_append

theorem length_ended (ls : List (List Char)) : (ended ls).length = (ls.map (·.length + 1)).sum := by
  simp [ended, List.length_flatMap]

/-- The lines of a text with their ends are the text with an end behind it. -/
theorem ended_lines (source : List Char) : ended (lines source) = source ++ ['\n'] := by
  induction source with
  | nil => rfl
  | cons c cs ih =>
    by_cases hc : c = '\n'
    · rw [lines, if_pos hc, ended_cons, ih, hc]
      rfl
    · obtain ⟨l, ls, hcs, hlines⟩ := lines_cons_of_ne hc cs
      rw [hcs, ended_cons] at ih
      rw [hlines, ended_cons, List.cons_append, ih]
      rfl

/-! ### Where a text leads -/

theorem foldl_step (h : '\n' ∉ cs) (line column : Nat) :
    cs.foldl Position.step ⟨line, column⟩ = ⟨line, column + cs.length⟩ := by
  induction cs generalizing column with
  | nil => rfl
  | cons c cs ih =>
    rw [List.mem_cons, not_or] at h
    rw [List.foldl_cons, Position.step, if_neg (Ne.symm h.1), ih h.2, List.length_cons,
      Nat.add_right_comm, Nat.add_assoc]

theorem foldl_step_ended (h : ∀ l ∈ ls, '\n' ∉ l) (line : Nat) :
    (ended ls).foldl Position.step ⟨line, 1⟩ = ⟨line + ls.length, 1⟩ := by
  induction ls generalizing line with
  | nil => rfl
  | cons l ls ih =>
    rw [List.forall_mem_cons] at h
    rw [ended_cons, List.foldl_append, foldl_step h.1, List.foldl_cons, Position.step, if_pos rfl,
      ih h.2, List.length_cons, Nat.add_right_comm, Nat.add_assoc]

theorem after_ended (hls : ∀ l ∈ ls, '\n' ∉ l) (hcs : '\n' ∉ cs) :
    Position.after (ended ls ++ cs) = ⟨ls.length + 1, cs.length + 1⟩ := by
  rw [Position.after, List.foldl_append, foldl_step_ended hls, foldl_step hcs, Nat.add_comm 1,
    Nat.add_comm 1]

/-! ### Places and their offsets -/

/-- A position is in a text: on one of its lines, at a character of it or behind the last one. -/
structure IsPlace (source : List Char) (p : Position) : Prop where
  line_pos : 0 < p.line
  column_pos : 0 < p.column
  column_le : ∃ l, (lines source)[p.line - 1]? = some l ∧ p.column ≤ l.length + 1

/-- The lengths of the lines before a position, with their ends, and the columns before it. -/
def offsetAt (source : List Char) (p : Position) : Nat :=
  (((lines source).take (p.line - 1)).map (·.length + 1)).sum + (p.column - 1)

/-- In the order of reading. -/
def Position.Precedes (p q : Position) : Prop :=
  p.line < q.line ∨ p.line = q.line ∧ p.column < q.column

theorem Position.Precedes.or (h : p ≠ q) : p.Precedes q ∨ q.Precedes p := by
  obtain ⟨line, column⟩ := p
  obtain ⟨line', column'⟩ := q
  rw [ne_eq, Position.mk.injEq] at h
  simp only [Precedes]
  omega

/-- A place cuts the lines of its text in those above, its own and those below. -/
structure LineCut (source : List Char) (p : Position) (above : List (List Char)) (l : List Char)
    (below : List (List Char)) : Prop where
  lines : lines source = above ++ l :: below
  line : p.line = above.length + 1
  column_pos : 0 < p.column
  column_le : p.column ≤ l.length + 1

theorem isPlace_iff : IsPlace source p ↔ ∃ above l below, LineCut source p above l below := by
  constructor
  · rintro ⟨hline, hcolumn, l, hl, hle⟩
    obtain ⟨hlt, rfl⟩ := List.getElem?_eq_some_iff.mp hl
    refine ⟨(lines source).take (p.line - 1), _, (lines source).drop (p.line - 1 + 1), ?_, ?_,
      hcolumn, hle⟩
    · rw [List.getElem_cons_drop, List.take_append_drop]
    · rw [List.length_take]
      omega
  · rintro ⟨above, l, below, hlines, hline, hcolumn, hle⟩
    refine ⟨by omega, hcolumn, l, ?_, hle⟩
    rw [hlines, hline]
    simp

namespace LineCut

theorem offsetAt (h : LineCut source p above l below) :
    offsetAt source p = (ended above).length + (p.column - 1) := by
  rw [Text.offsetAt, h.lines, h.line, length_ended, Nat.add_sub_cancel, List.take_left]

/-- The text with an end behind it, cut at the beginning of the line of the place. -/
theorem text (h : LineCut source p above l below) :
    source ++ ['\n'] = ended above ++ (l ++ '\n' :: ended below) := by
  rw [← ended_lines, h.lines, ended_append, ended_cons]

theorem offsetAt_le (h : LineCut source p above l below) : Text.offsetAt source p ≤ source.length := by
  have hlength := congrArg List.length h.text
  simp only [List.length_append, List.length_cons, List.length_nil] at hlength
  have hle := h.column_le
  rw [h.offsetAt]
  omega

theorem take_offsetAt (h : LineCut source p above l below) :
    source.take (Text.offsetAt source p) = ended above ++ l.take (p.column - 1) := by
  have hle := h.column_le
  rw [← List.take_append_of_le_length h.offsetAt_le, h.text, h.offsetAt, List.take_length_add_append,
    List.take_append_of_le_length (by omega)]

/-- At the offset of a place is a character of its line, or the end of the line. -/
theorem at_offset (h : LineCut source p above l below) :
    (p.column ≤ l.length ∧ source[Text.offsetAt source p]? = l[p.column - 1]?) ∨
      (p.column = l.length + 1 ∧ (source[Text.offsetAt source p]? = none ∨
        source[Text.offsetAt source p]? = some '\n')) := by
  have hpos := h.column_pos
  have hle := h.column_le
  have hchar : (source ++ ['\n'])[Text.offsetAt source p]?
      = (l ++ '\n' :: ended below)[p.column - 1]? := by
    rw [h.text, h.offsetAt, List.getElem?_append_right (Nat.le_add_right _ _),
      Nat.add_sub_cancel_left]
  rcases Nat.lt_or_ge l.length p.column with hend | hinside
  · right
    have hcolumn : p.column = l.length + 1 := by omega
    rw [hcolumn, Nat.add_sub_cancel, List.getElem?_append_right le_rfl, Nat.sub_self,
      List.getElem?_cons_zero, List.getElem?_append] at hchar
    refine ⟨hcolumn, ?_⟩
    split at hchar
    · exact .inr hchar
    · next hout => exact .inl (List.getElem?_eq_none (Nat.le_of_not_lt hout))
  · left
    have hlength := congrArg List.length h.text
    simp only [List.length_append, List.length_cons, List.length_nil] at hlength
    have hoffset := h.offsetAt
    rw [List.getElem?_append_left (by omega), List.getElem?_append_left (by omega)] at hchar
    exact ⟨hinside, hchar⟩

/-- The offset of a place is located there. -/
theorem locate_offsetAt (h : LineCut source p above l below) :
    locate source (Text.offsetAt source p) = p := by
  have habove : ∀ line ∈ above, '\n' ∉ line := fun line hline =>
    not_mem_of_mem_lines (h.lines ▸ List.mem_append_left _ hline)
  have hl : '\n' ∉ l :=
    not_mem_of_mem_lines (h.lines ▸ List.mem_append_right _ List.mem_cons_self)
  have hpos := h.column_pos
  have hle := h.column_le
  rw [locate, clamp, Int.toNat_natCast, Nat.min_eq_left h.offsetAt_le, h.take_offsetAt,
    after_ended habove fun hmem => hl (List.mem_of_mem_take hmem), ← h.line, List.length_take,
    Nat.min_eq_left (by omega), Nat.sub_add_cancel hpos]

end LineCut

/-- Lines with their ends have a place for each offset below their length. -/
theorem exists_cut {ls : List (List Char)} {n : Nat} (h : n < (ended ls).length) :
    ∃ above l below j, ls = above ++ l :: below ∧ j ≤ l.length ∧ (ended above).length + j = n := by
  induction ls generalizing n with
  | nil => cases h
  | cons l ls ih =>
    rw [ended_cons, List.length_append, List.length_cons] at h
    by_cases hfirst : n ≤ l.length
    · exact ⟨[], l, ls, n, rfl, hfirst, Nat.zero_add n⟩
    · obtain ⟨above, line, below, j, rfl, hj, hsum⟩ := ih (n := n - (l.length + 1)) (by omega)
      refine ⟨l :: above, line, below, j, rfl, hj, ?_⟩
      rw [ended_cons, List.length_append, List.length_cons]
      omega

theorem exists_place (h : o ≤ source.length) : ∃ p, IsPlace source p ∧ offsetAt source p = o := by
  have hlength : o < (ended (lines source)).length := by
    rw [ended_lines, List.length_append]
    exact Nat.lt_succ_of_le h
  obtain ⟨above, l, below, j, hlines, hj, hsum⟩ := exists_cut hlength
  have hcut : LineCut source ⟨above.length + 1, j + 1⟩ above l below :=
    ⟨hlines, rfl, Nat.succ_pos j, Nat.succ_le_succ hj⟩
  exact ⟨_, isPlace_iff.mpr ⟨_, _, _, hcut⟩, hcut.offsetAt.trans hsum⟩

theorem IsPlace.locate_offsetAt (h : IsPlace source p) : locate source (offsetAt source p) = p := by
  obtain ⟨above, l, below, hcut⟩ := isPlace_iff.mp h
  exact hcut.locate_offsetAt

theorem IsPlace.offsetAt_le (h : IsPlace source p) : offsetAt source p ≤ source.length := by
  obtain ⟨above, l, below, hcut⟩ := isPlace_iff.mp h
  exact hcut.offsetAt_le

theorem isPlace_locate (h : o ≤ source.length) : IsPlace source (locate source o) := by
  obtain ⟨p, hp, rfl⟩ := exists_place h
  rwa [hp.locate_offsetAt]

theorem offsetAt_locate (h : o ≤ source.length) : offsetAt source (locate source o) = o := by
  obtain ⟨p, hp, rfl⟩ := exists_place h
  rw [hp.locate_offsetAt]

/-- What is later in the order of reading has the larger offset. -/
theorem offsetAt_lt (hp : IsPlace source p) (hq : IsPlace source q) (h : p.Precedes q) :
    offsetAt source p < offsetAt source q := by
  obtain ⟨above, l, below, hcut⟩ := isPlace_iff.mp hp
  obtain ⟨above', l', below', hcut'⟩ := isPlace_iff.mp hq
  have hle : above.length ≤ above'.length := by
    have hline := hcut.line
    have hline' := hcut'.line
    rcases h with h | ⟨h, -⟩
    · omega
    · omega
  obtain ⟨middle, rfl⟩ : ∃ middle, above' = above ++ middle :=
    (List.prefix_of_prefix_length_le ⟨_, hcut.lines.symm⟩ ⟨_, hcut'.lines.symm⟩ hle).imp
      fun _ => Eq.symm
  have hpos := hcut.column_pos
  rw [hcut.offsetAt, hcut'.offsetAt, ended_append, List.length_append]
  cases middle with
  | nil =>
    -- both are on one line
    rcases h with h | ⟨-, h⟩
    · rw [hcut.line, hcut'.line, List.append_nil] at h
      exact absurd h (lt_irrefl _)
    · omega
  | cons first middle =>
    -- the line of the former is wholly before the latter
    have hlines := hcut.lines.symm.trans hcut'.lines
    rw [List.append_assoc, List.append_cancel_left_eq, List.cons_append, List.cons.injEq] at hlines
    have hle := hcut.column_le
    rw [← hlines.1, ended_cons, List.length_append, List.length_cons]
    omega

theorem locate_precedes {o o' : Nat} (h : o < o') (hle : o' ≤ source.length) :
    (locate source o).Precedes (locate source o') := by
  have hp := isPlace_locate (h.le.trans hle)
  have hq := isPlace_locate hle
  have hne : locate source o ≠ locate source o' := by
    intro heq
    have hoffset := offsetAt_locate (h.le.trans hle)
    rw [heq, offsetAt_locate hle] at hoffset
    exact h.ne' hoffset
  refine (Position.Precedes.or hne).resolve_right fun hback => ?_
  have hlt := offsetAt_lt hq hp hback
  rw [offsetAt_locate hle, offsetAt_locate (h.le.trans hle)] at hlt
  exact lt_asymm h hlt

/-- Lines are what is between the line feeds of a text. The offsets of a text, its end included, and
the places on its lines are the same in number and order: each offset is located at a place that has
this offset, each place is the one at which its offset is located, and a later offset is located at a
later place. An offset outside the text is located at the nearer end. -/
theorem locate_places (source : List Char) :
    lines source = source.splitOn '\n' ∧
    (∀ o : Nat, o ≤ source.length →
      IsPlace source (locate source o) ∧ offsetAt source (locate source o) = o) ∧
    (∀ p, IsPlace source p →
      offsetAt source p ≤ source.length ∧ locate source (offsetAt source p) = p) ∧
    Set.BijOn (fun o : Nat => locate source o) (Set.Iic source.length) {p | IsPlace source p} ∧
    (∀ o o' : Nat, o < o' → o' ≤ source.length →
      (locate source o).Precedes (locate source o')) ∧
    (∀ o : Int, o < 0 → locate source o = locate source 0) ∧
    ∀ o : Int, source.length < o → locate source o = locate source source.length := by
  refine ⟨lines_eq_splitOn source, fun o h => ⟨isPlace_locate h, offsetAt_locate h⟩,
    fun p h => ⟨h.offsetAt_le, h.locate_offsetAt⟩, ?_, fun o o' => locate_precedes, ?_, ?_⟩
  · refine ⟨fun o h => isPlace_locate h, fun o h o' h' heq => ?_, fun p h => ?_⟩
    · rw [← offsetAt_locate h, ← offsetAt_locate h']
      exact congrArg (offsetAt source) heq
    · exact ⟨offsetAt source p, h.offsetAt_le, h.locate_offsetAt⟩
  · intro o h
    have hclamp : clamp source.length o = clamp source.length 0 := by
      unfold clamp
      omega
    rw [locate, locate, hclamp]
  · intro o h
    have hclamp : clamp source.length o = clamp source.length source.length := by
      unfold clamp
      omega
    rw [locate, locate, hclamp]

/-- Offsets at, between and behind line feeds. -/
example : (List.range 5).map (fun o => locate "\n\na".toList o)
    = [⟨1, 1⟩, ⟨2, 1⟩, ⟨3, 1⟩, ⟨3, 2⟩, ⟨3, 2⟩] := by decide

end Parlance.Text
