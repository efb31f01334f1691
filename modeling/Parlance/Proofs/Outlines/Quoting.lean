import Mathlib
import Parlance.Text.Quoted
/-!
# Where a quoted text ends

A reader of one character between quotes takes back what `escaped` wrote and leaves what follows it
(`Text.readEscaped_escaped`). So a quoted text tells the text and where it ends, whatever follows it
(`Text.quotedChars_cancel`), and it stands on one line.
-/
namespace Parlance.Text

variable {quote c : Char} {cs ds rest rest' : List Char} {width : Nat}

/-! ### Numbers in base sixteen -/

/-- What a digit in base sixteen stands for. -/
def hexDigitValue (c : Char) : Nat := if c.toNat < 58 then c.toNat - 48 else c.toNat - 87

/-- What digits in base sixteen stand for. -/
def hexValue (cs : List Char) : Nat := cs.foldl (fun n c => n * 16 + hexDigitValue c) 0

theorem hexDigitValue_hexDigit : ∀ n < 16, hexDigitValue (hexDigit n) = n := by decide

theorem length_hex (width n : Nat) : (hex width n).length = width := by
  induction width generalizing n with
  | zero => rfl
  | succ width ih => simp [hex, ih]

theorem hexValue_hex (width n : Nat) : hexValue (hex width n) = n % 16 ^ width := by
  induction width generalizing n with
  | zero => simp [hex, hexValue, Nat.mod_one]
  | succ width ih =>
    have hlast : hexValue (hex (width + 1) n)
        = hexValue (hex width (n / 16)) * 16 + hexDigitValue (hexDigit (n % 16)) := by
      rw [hex, hexValue, List.foldl_append]
      rfl
    rw [hlast, ih, hexDigitValue_hexDigit _ (Nat.mod_lt n (by decide)), pow_succ', Nat.mod_mul]
    omega

theorem newline_not_mem_hex (width n : Nat) : '\n' ∉ hex width n := by
  have hdigit : ∀ n < 16, '\n' ≠ hexDigit n := by decide
  induction width generalizing n with
  | zero => simp [hex]
  | succ width ih => simp [hex, ih, hdigit _ (Nat.mod_lt n (by decide))]

/-! ### Characters between quotes -/

/-- The character that is written by code point with a number of digits, and what follows it. -/
def readCodePoint (width : Nat) (cs : List Char) : Option (Char × List Char) :=
  some (Char.ofNat (hexValue (cs.take width)), cs.drop width)

/-- The first character of an escaped text, and what follows it. -/
def readEscaped : List Char → Option (Char × List Char)
  | [] => none
  | '\\' :: 'n' :: cs => some ('\n', cs)
  | '\\' :: 'r' :: cs => some ('\r', cs)
  | '\\' :: 't' :: cs => some ('\t', cs)
  | '\\' :: 'x' :: cs => readCodePoint 2 cs
  | '\\' :: 'u' :: cs => readCodePoint 4 cs
  | '\\' :: 'U' :: cs => readCodePoint 8 cs
  | '\\' :: c :: cs => some (c, cs)
  | c :: cs => some (c, cs)

theorem readCodePoint_hex (h : c.toNat < 16 ^ width) (rest : List Char) :
    readCodePoint width (hex width c.toNat ++ rest) = some (c, rest) := by
  rw [readCodePoint, List.take_left' (length_hex ..), List.drop_left' (length_hex ..), hexValue_hex,
    Nat.mod_eq_of_lt h, Char.ofNat_toNat]

theorem toNat_lt (c : Char) : c.toNat < 16 ^ 8 := by
  have hvalid := c.valid
  simp only [UInt32.isValidChar, Nat.isValidChar] at hvalid
  simp only [Char.toNat]
  omega

/-- A character that stands between quotes as it is. -/
theorem readEscaped_cons (h : c ≠ '\\') (rest : List Char) :
    readEscaped (c :: rest) = some (c, rest) := by
  unfold readEscaped
  split <;> simp_all

/-- An escaped character is read back. -/
theorem readEscaped_escaped (hquote : quote = '\'' ∨ quote = '"') (c : Char) (rest : List Char) :
    readEscaped (escaped quote c ++ rest) = some (c, rest) := by
  unfold escaped
  split_ifs with hself hfeed hreturn htab hprintable hbyte hplane
  · simp only [Bool.or_eq_true, decide_eq_true_eq] at hself
    rcases hself with rfl | rfl
    · rcases hquote with rfl | rfl <;> rfl
    · rfl
  · exact hfeed ▸ rfl
  · exact hreturn ▸ rfl
  · exact htab ▸ rfl
  · simp only [Bool.or_eq_true, decide_eq_true_eq, not_or] at hself
    exact readEscaped_cons hself.2 rest
  · exact readCodePoint_hex hbyte rest
  · exact readCodePoint_hex hplane rest
  · exact readCodePoint_hex (toNat_lt c) rest

/-- An escaped character starts with a backslash or with itself, and not with a quote. -/
theorem head_escaped (hquote : quote = '\'' ∨ quote = '"') (c : Char) :
    ∃ first tail, escaped quote c = first :: tail ∧ first ≠ quote := by
  have hslash : '\\' ≠ quote := by rcases hquote with rfl | rfl <;> decide
  unfold escaped
  split_ifs with hself hfeed hreturn htab hprintable
  on_goal 5 =>
    simp only [Bool.or_eq_true, decide_eq_true_eq, not_or] at hself
    exact ⟨c, [], rfl, hself.1⟩
  all_goals exact ⟨_, _, rfl, hslash⟩

theorem newline_not_mem_escaped (hquote : quote = '\'' ∨ quote = '"') (c : Char) :
    '\n' ∉ escaped quote c := by
  unfold escaped
  split_ifs with hself hfeed
  · simp only [Bool.or_eq_true, decide_eq_true_eq] at hself
    rcases hself with rfl | rfl
    · rcases hquote with rfl | rfl <;> decide
    · decide
  all_goals simp [newline_not_mem_hex]
  exact Ne.symm hfeed

/-! ### Texts between quotes -/

theorem quoteFor_eq (cs : List Char) : quoteFor cs = '\'' ∨ quoteFor cs = '"' := by
  unfold quoteFor
  split
  · exact .inr rfl
  · exact .inl rfl

theorem head_quotedChars (cs : List Char) :
    ∃ quote tail, quotedChars cs = quote :: tail ∧ (quote = '\'' ∨ quote = '"') :=
  ⟨_, _, rfl, quoteFor_eq cs⟩

theorem escaped_cancel (hquote : quote = '\'' ∨ quote = '"')
    (h : cs.flatMap (escaped quote) ++ quote :: rest = ds.flatMap (escaped quote) ++ quote :: rest') :
    cs = ds ∧ rest = rest' := by
  induction cs generalizing ds with
  | nil =>
    cases ds with
    | nil => exact ⟨rfl, (List.cons.inj h).2⟩
    | cons d ds =>
      rw [List.flatMap_cons, List.append_assoc] at h
      obtain ⟨first, tail, hd, hne⟩ := head_escaped hquote d
      rw [hd] at h
      exact absurd (List.cons.inj h).1.symm hne
  | cons c cs ih =>
    rw [List.flatMap_cons, List.append_assoc] at h
    cases ds with
    | nil =>
      obtain ⟨first, tail, hc, hne⟩ := head_escaped hquote c
      rw [hc] at h
      exact absurd (List.cons.inj h).1 hne
    | cons d ds =>
      rw [List.flatMap_cons, List.append_assoc] at h
      have hread := congrArg readEscaped h
      rw [readEscaped_escaped hquote, readEscaped_escaped hquote, Option.some.injEq,
        Prod.mk.injEq] at hread
      obtain ⟨rfl, htail⟩ := hread
      obtain ⟨rfl, hrest⟩ := ih htail
      exact ⟨rfl, hrest⟩

/-- A quoted text tells the text and what follows it. -/
theorem quotedChars_cancel (h : quotedChars cs ++ rest = quotedChars ds ++ rest') :
    cs = ds ∧ rest = rest' := by
  simp only [quotedChars, List.cons_append, List.append_assoc, List.nil_append] at h
  obtain ⟨hquote, htail⟩ := List.cons.inj h
  rw [hquote] at htail
  exact escaped_cancel (quoteFor_eq ds) htail

theorem newline_not_mem_quotedChars (cs : List Char) : '\n' ∉ quotedChars cs := by
  have hquote := quoteFor_eq cs
  have hne : '\n' ≠ quoteFor cs := by rcases hquote with h | h <;> rw [h] <;> decide
  simp [quotedChars, hne, newline_not_mem_escaped hquote]

end Parlance.Text
