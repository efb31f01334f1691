import Mathlib
/-!
# Outlines and their indentation

A tree of lines, written out with each line before the parts under it and with every part one level
further in, can be told from its lines and their levels (`Outline.lines_cancel`): the lines under
one are those that follow it as long as they stand further in.
-/
namespace Parlance

/-- A line and the parts under it. -/
inductive Outline (α : Type)
  | node (line : α) (parts : List (Outline α))

namespace Outline

variable {α : Type} {depth : Nat} {rest : List (Nat × α)}

mutual

/-- The lines of an outline with their levels. -/
def lines (depth : Nat) : Outline α → List (Nat × α)
  | node line parts => (depth, line) :: allLines (depth + 1) parts

def allLines (depth : Nat) : List (Outline α) → List (Nat × α)
  | [] => []
  | t :: ts => t.lines depth ++ allLines depth ts

end

theorem lines_ne_nil (depth : Nat) (t : Outline α) : t.lines depth ≠ [] := by
  cases t
  rw [lines]
  exact List.cons_ne_nil _ _

/-- Lines that start above a level. -/
def StartsAbove (depth : Nat) (rest : List (Nat × α)) : Prop := ∀ line ∈ rest.head?, line.1 < depth

theorem StartsAbove.succ (h : StartsAbove depth rest) : StartsAbove (depth + 1) rest :=
  fun line hline => Nat.lt_succ_of_lt (h line hline)

theorem not_startsAbove_lines (t : Outline α) (rest : List (Nat × α)) :
    ¬ StartsAbove depth (t.lines depth ++ rest) := by
  cases t with
  | node line parts =>
    intro h
    rw [lines] at h
    exact absurd (h (depth, line) rfl) (lt_irrefl depth)

/-- What follows the first of some parts starts at their level or above it. -/
theorem startsAbove_allLines (ts : List (Outline α)) (h : StartsAbove depth rest) :
    StartsAbove (depth + 1) (allLines depth ts ++ rest) := by
  cases ts with
  | nil => exact h.succ
  | cons t ts =>
    cases t with
    | node line parts =>
      rw [allLines, lines]
      rintro _ ⟨⟩
      exact Nat.lt_succ_self depth

mutual

/-- An outline ends where a line is no further in than its own. -/
theorem lines_cancel (t u : Outline α) {depth : Nat} {rest rest' : List (Nat × α)}
    (hrest : StartsAbove (depth + 1) rest) (hrest' : StartsAbove (depth + 1) rest')
    (h : t.lines depth ++ rest = u.lines depth ++ rest') : t = u ∧ rest = rest' := by
  match t, u with
  | node line parts, node line' parts' =>
    rw [lines, lines] at h
    obtain ⟨hline, hparts⟩ := List.cons.inj h
    obtain ⟨rfl, htail⟩ := allLines_cancel parts parts' hrest hrest' hparts
    exact ⟨congrArg (node · parts) (Prod.mk.inj hline).2, htail⟩

theorem allLines_cancel (ts us : List (Outline α)) {depth : Nat} {rest rest' : List (Nat × α)}
    (hrest : StartsAbove depth rest) (hrest' : StartsAbove depth rest')
    (h : allLines depth ts ++ rest = allLines depth us ++ rest') : ts = us ∧ rest = rest' := by
  match ts, us with
  | [], [] => exact ⟨rfl, h⟩
  | [], u :: us =>
    rw [allLines, allLines, List.nil_append, List.append_assoc] at h
    exact absurd (h ▸ hrest) (not_startsAbove_lines u _)
  | t :: ts, [] =>
    rw [allLines, allLines, List.nil_append, List.append_assoc] at h
    exact absurd (h.symm ▸ hrest') (not_startsAbove_lines t _)
  | t :: ts, u :: us =>
    rw [allLines, allLines, List.append_assoc, List.append_assoc] at h
    obtain ⟨rfl, htail⟩ := lines_cancel t u (startsAbove_allLines ts hrest)
      (startsAbove_allLines us hrest') h
    obtain ⟨rfl, hrests⟩ := allLines_cancel ts us hrest hrest' htail
    exact ⟨rfl, hrests⟩

end

theorem lines_injective (depth : Nat) : Function.Injective (@lines α depth) := by
  intro t u h
  have hnone : StartsAbove (depth + 1) ([] : List (Nat × α)) := nofun
  exact (lines_cancel t u hnone hnone (by rw [h])).1

end Outline
end Parlance
