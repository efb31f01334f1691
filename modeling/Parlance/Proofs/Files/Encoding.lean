import Parlance.Text.Utf8
import Parlance.Text.Lines
/-!
# Texts come back from their bytes

`Text.encode` writes every character as one of four forms, by the size of its code point, and in each
form `Text.decode` finds the code point again. The bounds on the second byte, which keep overlong
forms and surrogates out, let through what a character can be. Reading a file also unifies line
breaks: a text comes through that unchanged exactly if no carriage return is in it.
-/
namespace Parlance.Text

/-! ### One character -/

section Forms

variable {n : Nat}

theorem toNat_byte (h : n < 256) : (UInt8.ofNat n).toNat = n := UInt8.toNat_ofNat_of_lt' h

theorem leading_one (h : n < 0x80) : leading n = some (0, n, 0x80, 0xBF) := by
  simp only [leading, if_pos h]

theorem leading_two (hlow : 2 ≤ n) (h : n < 0x20) :
    leading (0xC0 + n) = some (1, n, 0x80, 0xBF) := by
  unfold leading
  rw [if_neg (by omega), if_neg (by omega), if_pos (by omega), Nat.add_sub_cancel_left]

theorem leading_three (h : n < 0x10) :
    leading (0xE0 + n) =
      some (2, n, if n = 0 then 0xA0 else 0x80, if n = 0xD then 0x9F else 0xBF) := by
  have hlow : 0xE0 + n = 0xE0 ↔ n = 0 := by omega
  have hhigh : 0xE0 + n = 0xED ↔ n = 0xD := by omega
  unfold leading
  rw [if_neg (by omega), if_neg (by omega), if_neg (by omega), if_pos (by omega),
    Nat.add_sub_cancel_left]
  simp only [hlow, hhigh]

theorem leading_four (h : n < 5) :
    leading (0xF0 + n) =
      some (3, n, if n = 0 then 0x90 else 0x80, if n = 4 then 0x8F else 0xBF) := by
  have hlow : 0xF0 + n = 0xF0 ↔ n = 0 := by omega
  have hhigh : 0xF0 + n = 0xF4 ↔ n = 4 := by omega
  unfold leading
  rw [if_neg (by omega), if_neg (by omega), if_neg (by omega), if_neg (by omega),
    if_pos (by omega), Nat.add_sub_cancel_left]
  simp only [hlow, hhigh]

/-- A continuation byte within its bounds adds six bits to what is read. -/
theorem continuation_cons {count value low high : Nat} {bytes : List UInt8} {r : Nat × List UInt8}
    (hn : n < 0x40) (hlow : low ≤ 0x80 + n) (hhigh : 0x80 + n ≤ high)
    (h : continuation count (value * 0x40 + n) 0x80 0xBF bytes = .ok r) :
    continuation (count + 1) value low high (.ofNat (0x80 + n) :: bytes) = .ok r := by
  have hbyte : (UInt8.ofNat (0x80 + n)).toNat = 0x80 + n := toNat_byte (by omega)
  rw [continuation, hbyte, if_pos ⟨hlow, hhigh⟩, Nat.add_sub_cancel_left, h]

/-- A continuation byte that need only be one. -/
theorem continuation_cons_tail {count value : Nat} {bytes : List UInt8} {r : Nat × List UInt8}
    (hn : n < 0x40) (h : continuation count (value * 0x40 + n) 0x80 0xBF bytes = .ok r) :
    continuation (count + 1) value 0x80 0xBF (.ofNat (0x80 + n) :: bytes) = .ok r :=
  continuation_cons hn (by omega) (by omega) h

theorem continuation_zero (value low high : Nat) (bytes : List UInt8) :
    continuation 0 value low high bytes = .ok (value, bytes) := rfl

end Forms

/-- The bytes of a character start with a byte that announces the others, and they give its code
point. -/
theorem exists_leading_encodeChar (c : Char) :
    ∃ (b : UInt8) (rest : List UInt8) (count value low high : Nat),
      encodeChar c = b :: rest ∧ leading b.toNat = some (count, value, low, high) ∧
        ∀ tail, continuation count value low high (rest ++ tail) = .ok (c.toNat, tail) := by
  have hvalid : c.toNat < 0xD800 ∨ 0xDFFF < c.toNat ∧ c.toNat < 0x110000 := c.valid
  unfold encodeChar
  generalize c.toNat = n at hvalid
  by_cases h1 : n < 0x80
  · refine ⟨.ofNat n, [], 0, n, 0x80, 0xBF, ?_, ?_, fun tail => rfl⟩
    · simp only [if_pos h1]
    · rw [toNat_byte (by omega), leading_one h1]
  by_cases h2 : n < 0x800
  · refine ⟨.ofNat (0xC0 + n / 0x40), [.ofNat (0x80 + n % 0x40)], 1, n / 0x40, 0x80, 0xBF,
      ?_, ?_, fun tail => ?_⟩
    · simp only [if_neg h1, if_pos h2]
    · rw [toNat_byte (by omega), leading_two (by omega) (by omega)]
    · apply continuation_cons_tail (by omega)
      rw [continuation_zero, show n / 0x40 * 0x40 + n % 0x40 = n by omega]
      rfl
  by_cases h3 : n < 0x10000
  · refine ⟨.ofNat (0xE0 + n / 0x1000), [.ofNat (0x80 + n / 0x40 % 0x40), .ofNat (0x80 + n % 0x40)],
      2, n / 0x1000, if n / 0x1000 = 0 then 0xA0 else 0x80, if n / 0x1000 = 0xD then 0x9F else 0xBF,
      ?_, ?_, fun tail => ?_⟩
    · simp only [if_neg h1, if_neg h2, if_pos h3]
    · rw [toNat_byte (by omega), leading_three (by omega)]
    · apply continuation_cons (by omega) (by split <;> omega) (by split <;> omega)
      apply continuation_cons_tail (by omega)
      rw [continuation_zero,
        show (n / 0x1000 * 0x40 + n / 0x40 % 0x40) * 0x40 + n % 0x40 = n by omega]
      rfl
  · refine ⟨.ofNat (0xF0 + n / 0x40000),
      [.ofNat (0x80 + n / 0x1000 % 0x40), .ofNat (0x80 + n / 0x40 % 0x40), .ofNat (0x80 + n % 0x40)],
      3, n / 0x40000, if n / 0x40000 = 0 then 0x90 else 0x80,
      if n / 0x40000 = 4 then 0x8F else 0xBF, ?_, ?_, fun tail => ?_⟩
    · simp only [if_neg h1, if_neg h2, if_neg h3]
    · rw [toNat_byte (by omega), leading_four (by omega)]
    · apply continuation_cons (by omega) (by split <;> omega) (by split <;> omega)
      apply continuation_cons_tail (by omega)
      apply continuation_cons_tail (by omega)
      rw [continuation_zero,
        show ((n / 0x40000 * 0x40 + n / 0x1000 % 0x40) * 0x40 + n / 0x40 % 0x40) * 0x40 + n % 0x40
          = n by omega]
      rfl

/-! ### A whole text -/

theorem decodeFrom_cons {b : UInt8} {rest after : List UInt8} {count value low high n : Nat}
    (start : Nat) (hlead : leading b.toNat = some (count, value, low, high))
    (hcont : continuation count value low high rest = .ok (n, after)) :
    decodeFrom start (b :: rest) = (do
      let cs ← decodeFrom (start + count + 1) after
      return Char.ofNat n :: cs) := by
  rw [decodeFrom]
  split
  · next hnone =>
    rw [hlead] at hnone
    cases hnone
  · next hsome =>
    rw [hlead] at hsome
    cases hsome
    split
    · next herr =>
      rw [hcont] at herr
      cases herr
    · next hok =>
      rw [hcont] at hok
      cases hok
      rfl

theorem decodeFrom_encode (cs : List Char) (start : Nat) :
    decodeFrom start (encode cs) = .ok cs := by
  induction cs generalizing start with
  | nil =>
    rw [encode, List.flatMap_nil, decodeFrom]
  | cons c cs ih =>
    obtain ⟨b, rest, count, value, low, high, hbytes, hlead, hcont⟩ := exists_leading_encodeChar c
    have hencode : encode (c :: cs) = b :: (rest ++ encode cs) := by
      rw [encode, List.flatMap_cons, hbytes, List.cons_append]
      rfl
    rw [hencode, decodeFrom_cons start hlead (hcont _), ih, Char.ofNat_toNat]
    rfl

/-- Every text is read back from its bytes. -/
theorem decode_encode (cs : List Char) : decode (encode cs) = .ok cs :=
  decodeFrom_encode cs 0

/-! ### Line breaks -/

theorem not_mem_unifyBreaks (cs : List Char) : '\r' ∉ unifyBreaks cs := by
  fun_induction unifyBreaks cs with
  | case1 => simp
  | case2 cs ih => simp [ih]
  | case3 c cs h ih =>
    split
    · simp [ih]
    · next hc => simp [ih, Ne.symm hc]

/-- Only carriage returns are lost when line breaks are unified. -/
theorem unifyBreaks_eq_self_iff (cs : List Char) : unifyBreaks cs = cs ↔ '\r' ∉ cs := by
  constructor
  · intro h
    rw [← h]
    exact not_mem_unifyBreaks cs
  · intro h
    fun_induction unifyBreaks cs with
    | case1 => rfl
    | case2 cs ih => simp at h
    | case3 c cs hc ih =>
      simp only [List.mem_cons, not_or] at h
      rw [if_neg (Ne.symm h.1), ih h.2]

end Parlance.Text
