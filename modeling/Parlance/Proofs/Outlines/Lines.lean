import Mathlib
import Parlance.Proofs.Outlines.Fields
import Parlance.Proofs.Outlines.Indentation
/-!
# Lines of outlines

A line of an outline is the head of a node or the label of a field that holds nodes. The text of a
line tells which (`Line.chars_injective`); it neither starts with a blank nor has a line break, so
the text of an outline tells its lines and the level of each (`joined_injective`).
-/
namespace Parlance

inductive Line
  | head (kind : NodeKind) (fields : List (FieldName × Shown)) (offset : Option Nat)
  | label (field : FieldName)

/-- The place of a node on its line. -/
def placeChars : Option Nat → List Char
  | some o => ' ' :: '@' :: (toString o).toList
  | none => []

theorem placeChars_injective : Function.Injective placeChars := by
  rintro (_ | o) (_ | p) h
  · rfl
  · cases h
  · cases h
  · have hdigits := String.toList_injective (List.cons.inj (List.cons.inj h).2).2
    rw [Nat.repr_injective hdigits]

theorem newline_not_mem_placeChars (offset : Option Nat) : '\n' ∉ placeChars offset := by
  cases offset with
  | none => exact List.not_mem_nil
  | some o =>
    have hdigits : '\n' ∉ Nat.toDigits 10 o := fun h =>
      absurd (Nat.isDigit_of_mem_toDigits (by decide) (by decide) h) (by decide)
    simp [placeChars, hdigits]

namespace Line

/-- The label with which a line starts. -/
def lead : Line → List Char
  | head kind .. => kind.label.toList
  | label field => field.label.toList

/-- What follows the label. -/
def trail : Line → List Char
  | head _ fields offset => '(' :: (listedFields fields ++ ')' :: placeChars offset)
  | label _ => [':']

def chars (line : Line) : List Char := line.lead ++ line.trail

theorem isLabelChar_lead (line : Line) : ∀ c ∈ line.lead, isLabelChar c = true := by
  cases line with
  | head kind => exact kind.isLabelChar_label
  | label field => exact field.isLabelChar_label

theorem head_trail (line : Line) : ∀ c ∈ line.trail.head?, c = '(' ∨ c = ':' := by
  cases line with
  | head => rintro _ ⟨⟩; exact .inl rfl
  | label => rintro _ ⟨⟩; exact .inr rfl

theorem isLabelChar_trail (line : Line) : ∀ c ∈ line.trail.head?, isLabelChar c = false := by
  intro c hc
  rcases line.head_trail c hc with rfl | rfl <;> rfl

theorem chars_injective : Function.Injective chars := by
  intro a b h
  obtain ⟨hlead, htrail⟩ := append_cancel_of_head a.isLabelChar_lead b.isLabelChar_lead
    a.isLabelChar_trail b.isLabelChar_trail h
  cases a with
  | head kind fields offset =>
    cases b with
    | label => cases htrail
    | head kind' fields' offset' =>
      obtain ⟨rfl, hplace⟩ := listedFields_cancel (List.cons.inj htrail).2
      rw [NodeKind.label_injective (String.toList_injective hlead), placeChars_injective hplace]
  | label field =>
    cases b with
    | head => cases htrail
    | label => rw [FieldName.label_injective (String.toList_injective hlead)]

/-- No blank starts a line. -/
theorem head_chars (line : Line) : ∀ c ∈ line.chars.head?, (c == ' ') = false := by
  intro c hc
  rw [chars, List.head?_append] at hc
  cases hlead : line.lead with
  | nil =>
    rw [hlead] at hc
    rcases line.head_trail c hc with rfl | rfl <;> rfl
  | cons d ds =>
    rw [hlead] at hc
    obtain rfl : d = c := Option.some.inj hc
    have hlabel := line.isLabelChar_lead d (hlead ▸ List.mem_cons_self)
    rw [beq_eq_false_iff_ne]
    rintro rfl
    exact absurd hlabel (by decide)

theorem newline_not_mem_chars (line : Line) : '\n' ∉ line.chars := by
  have hlead : '\n' ∉ line.lead := fun h => absurd (line.isLabelChar_lead _ h) (by decide)
  have htrail : '\n' ∉ line.trail := by
    cases line with
    | head => simp [trail, newline_not_mem_listedFields, newline_not_mem_placeChars]
    | label => simp [trail]
  simp [chars, hlead, htrail]

end Line

/-- The text of a line at its level. -/
def indented (line : Nat × Line) : List Char :=
  List.replicate (2 * line.1) ' ' ++ line.2.chars

theorem indented_injective : Function.Injective indented := by
  rintro ⟨depth, line⟩ ⟨depth', line'⟩ h
  obtain ⟨hblanks, hchars⟩ := append_cancel_of_head (by simp) (by simp) line.head_chars
    line'.head_chars h
  have hlength : 2 * depth = 2 * depth' := by simpa using congrArg List.length hblanks
  rw [Line.chars_injective hchars, Nat.eq_of_mul_eq_mul_left Nat.two_pos hlength]

theorem newline_not_mem_indented (line : Nat × Line) : '\n' ∉ indented line := by
  simp [indented, line.2.newline_not_mem_chars]

/-- Lines joined with line breaks tell each line. -/
theorem joined_injective {lines others : List (Nat × Line)} (hne : lines ≠ [])
    (hother : others ≠ [])
    (h : ['\n'].intercalate (lines.map indented) = ['\n'].intercalate (others.map indented)) :
    lines = others := by
  have hplain : ∀ {lines : List (Nat × Line)}, ∀ l ∈ lines.map indented, '\n' ∉ l := by
    intro lines l hl
    obtain ⟨line, -, rfl⟩ := List.mem_map.mp hl
    exact newline_not_mem_indented line
  have hsplit := congrArg (List.splitOn '\n') h
  rw [List.splitOn_intercalate _ hplain (by simpa using hne),
    List.splitOn_intercalate _ hplain (by simpa using hother)] at hsplit
  exact List.map_injective_iff.mpr indented_injective hsplit

end Parlance
