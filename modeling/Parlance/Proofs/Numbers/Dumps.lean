import Mathlib
import Parlance.Proofs.Numbers.Display
/-!
# Dumps of numbers

The form of a number in tree dumps reads back as that number, and as the zero of the same sign: the
dump of a finite number is a numeral that is rounded to it, and the three values that are not finite
have words of their own, which are no numerals (`Number.ofDump_dump`). So two numbers with one dump
are equal.
-/
namespace Parlance.Number
open Text

theorem Style.numeric_dump : Style.dump.Numeric := ⟨.inl rfl, .inr rfl⟩

/-- The dump of a finite number is a numeral that is rounded to it. -/
theorem numeral_dump {x : Number} (hx : x.isFinite = true) :
    ∃ negative d, Numeral x.dump.toList negative d ∧ Nearest negative (d.value * unit) x := by
  cases x with
  | nan | infinite => cases hx
  | finite negative u h =>
    have hsign : negative = (negative && (u != 0 || Style.dump.zeroSign)) := by
      rw [Style.dump, Bool.or_true, Bool.and_true]
    obtain ⟨d, hnumeral, hnearest⟩ := numeral_textChars Style.numeric_dump h hsign
    rw [dump, String.toList_ofList]
    exact ⟨negative, d, hnumeral, hnearest⟩

/-- The number with a given dump. -/
def ofDump (s : String) : Number :=
  match readNumeral? s.toList with
  | some (negative, d) => d.toNumber negative
  | none => if s = "nan" then .nan else .infinite (s = "-inf")

theorem ofDump_dump : Function.LeftInverse ofDump dump := by
  intro x
  cases hx : x.isFinite with
  | true =>
    obtain ⟨negative, d, hnumeral, hnearest⟩ := numeral_dump hx
    rw [ofDump, readNumeral?_eq_some.mpr hnumeral]
    exact (d.nearest_toNumber negative).unique hnearest
  | false =>
    cases x with
    | finite => cases hx
    | nan => decide
    | infinite negative => cases negative <;> decide

theorem dump_injective : Function.Injective dump := ofDump_dump.injective

/-- What stands in a dump. -/
theorem forall_mem_dump (x : Number) :
    ∀ c ∈ x.dump.toList,
      isDigit c = true ∨ c ∈ ['+', '-', '.', 'e', 'E', 'i', 'n', 'f', 'a'] := by
  cases hx : x.isFinite with
  | true =>
    obtain ⟨negative, d, hnumeral, -⟩ := numeral_dump hx
    exact fun c hc => (hnumeral.forall_mem c hc).imp_right (List.mem_append_left _)
  | false =>
    have hword : x.dump.toList ⊆ ['+', '-', '.', 'e', 'E', 'i', 'n', 'f', 'a'] := by
      cases x with
      | finite => cases hx
      | nan => simp [dump, textChars, Style.dump]
      | infinite negative => cases negative <;> simp [dump, textChars, Style.dump]
    exact fun c hc => .inr (hword hc)

end Parlance.Number
