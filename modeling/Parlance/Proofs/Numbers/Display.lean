import Mathlib
import Parlance.Number.Display
import Parlance.Proofs.Numbers.Coercions
/-!
# Displays of numbers

The display of a finite number is a numeral whose value is rounded to that number, whether it is
written out in full, with a point or with a power of ten (`Decimal.unsigned_layout`). So it reads
back as the number that was shown, and two numbers with one display are equal
(`Number.text_reads_back`).
-/
namespace Parlance
open Text

-- arithmetic is not to compute the powers of two
attribute [local irreducible] unit overflow

/-! ### Digits -/

namespace Text

theorem digit?_ofNat : ∀ n < 10, digit? (Char.ofNat (48 + n)) = some n := by decide

theorem digitsFrom_append (before : Nat) (cs ds : List Char) :
    digitsFrom before (cs ++ ds) = digitsFrom (digitsFrom before cs) ds := by
  induction cs generalizing before with
  | nil => rfl
  | cons c cs ih => exact ih _

theorem digitsFrom_zeros (before k : Nat) :
    digitsFrom before (List.replicate k '0') = before * 10 ^ k := by
  induction k generalizing before with
  | zero => simp [digitsFrom]
  | succ k ih =>
    have hzero : digit? '0' = some 0 := by decide
    rw [List.replicate_succ, digitsFrom, hzero, ih, pow_succ]
    simp only [Option.getD_some]
    ring

theorem ofDigits_append_zeros (ds : List Char) (k : Nat) :
    ofDigits (ds ++ List.replicate k '0') = ofDigits ds * 10 ^ k := by
  rw [ofDigits, digitsFrom_append, digitsFrom_zeros, ofDigits]

theorem ofDigits_zeros_append (k : Nat) (ds : List Char) :
    ofDigits (List.replicate k '0' ++ ds) = ofDigits ds := by
  rw [ofDigits, digitsFrom_append, digitsFrom_zeros, Nat.zero_mul, ofDigits]

theorem digits_zeros (k : Nat) : Digits (List.replicate k '0') := by
  intro c hc
  rw [List.eq_of_mem_replicate hc]
  decide

end Text

variable {cs ds fs : List Char} {n : Nat}

theorem isDigit_ofNat (h : n < 10) : isDigit (Char.ofNat (48 + n)) = true := by
  rw [isDigit, digit?_ofNat n h]
  rfl

theorem ofDigits_decimalDigits (n : Nat) : ofDigits (decimalDigits n) = n := by
  induction n using decimalDigits.induct with
  | case1 n h => 
    rw [decimalDigits, if_pos h, ofDigits, digitsFrom, digit?_ofNat n h]
    simp [digitsFrom]
  | case2 n h ih =>
    rw [decimalDigits, if_neg h, ofDigits, digitsFrom_append, ← ofDigits, ih, digitsFrom,
      digit?_ofNat _ (Nat.mod_lt n (by decide))]
    exact Nat.div_add_mod' n 10

theorem digits_decimalDigits (n : Nat) : Digits (decimalDigits n) := by
  induction n using decimalDigits.induct with
  | case1 n h =>
    rw [decimalDigits, if_pos h]
    exact List.forall_mem_singleton.mpr (isDigit_ofNat h)
  | case2 n h ih =>
    rw [decimalDigits, if_neg h, digits_append]
    exact ⟨ih, List.forall_mem_singleton.mpr (isDigit_ofNat (Nat.mod_lt n (by decide)))⟩

theorem decimalDigits_ne_nil (n : Nat) : decimalDigits n ≠ [] := by
  unfold decimalDigits
  split
  · exact List.cons_ne_nil _ _
  · exact List.append_ne_nil_of_right_ne_nil _ (List.cons_ne_nil _ _)

/-- A numeral is read as it stands. -/
theorem readNumber_of_numeral {negative : Bool} {d : Decimal} (h : Numeral cs negative d) :
    readNumber cs = .number (d.toNumber negative) := by
  have hpadded : Padded isPadding cs negative d := by
    have hbare : Padded isPadding ([] ++ cs ++ []) negative d := .mk nofun h nofun
    rwa [List.nil_append, List.append_nil] at hbare
  obtain ⟨hblank, hseparator⟩ := padded_isPadding_iff.mp hpadded
  rw [readNumber_of_padded hblank, hseparator]
  rfl

/-! ### Layouts -/

/-- The spellings of a style are those of numerals. -/
structure Number.Style.Numeric (style : Number.Style) : Prop where
  mark : style.mark = 'e' ∨ style.mark = 'E'
  whole : style.whole = "" ∨ style.whole = ".0"

theorem Number.Style.numeric_display : Number.Style.display.Numeric := ⟨.inr rfl, .inl rfl⟩

/-- A numeral without a sign and with a given value. -/
def Unsigned (cs : List Char) (x : ℚ) : Prop :=
  ∃ m p ds fs k, cs = m ++ p ∧ Numeral.Mantissa m ds fs ∧ Numeral.Power p k ∧
    (⟨ofDigits (ds ++ fs), k - fs.length⟩ : Decimal).value = x

theorem Unsigned.numeral {x : ℚ} {s : List Char} {negative : Bool} (h : Unsigned cs x)
    (hs : Numeral.Sign s negative) : ∃ d, Numeral (s ++ cs) negative d ∧ d.value = x := by
  obtain ⟨m, p, ds, fs, k, rfl, hm, hp, hvalue⟩ := h
  refine ⟨_, ?_, hvalue⟩
  rw [← List.append_assoc]
  exact .mk hs hm hp

namespace Decimal

variable {exponent power : Int} {whole : String} {mark : Char}

/-- A whole number is written with zeros in the places that it does not fill, and may have one more
zero behind a point. -/
theorem unsigned_whole (hwhole : whole = "" ∨ whole = ".0") (hne : ds ≠ []) (hds : Digits ds)
    (k : Nat) :
    Unsigned (ds ++ List.replicate k '0' ++ whole.toList) (value ⟨ofDigits ds, k⟩) := by
  have hfilled : ds ++ List.replicate k '0' ≠ [] := List.append_ne_nil_of_left_ne_nil hne _
  have hdigits : Digits (ds ++ List.replicate k '0') := digits_append.mpr ⟨hds, digits_zeros k⟩
  rcases hwhole with rfl | rfl
  · refine ⟨_, [], _, [], 0, rfl, .whole hfilled hdigits, .none, ?_⟩
    rw [List.append_nil, ofDigits_append_zeros]
    simp [value]
  · refine ⟨_, [], _, ['0'], 0, (List.append_nil _).symm, .point hfilled hdigits (digits_zeros 1),
      .none, ?_⟩
    have hzeros : List.replicate k '0' ++ ['0'] = List.replicate (k + 1) '0' :=
      (List.replicate_succ' ..).symm
    rw [List.append_assoc, hzeros, ofDigits_append_zeros, pow_succ]
    simp [value, ← mul_assoc]

/-- The digits behind a point say where it stands. -/
theorem unsigned_point (hne : ds ≠ []) (hds : Digits ds) (hfs : Digits fs)
    (hexponent : exponent = -fs.length) :
    Unsigned (ds ++ '.' :: fs) (value ⟨ofDigits (ds ++ fs), exponent⟩) := by
  refine ⟨_, [], ds, fs, 0, (List.append_nil _).symm, .point hne hds hfs, .none, ?_⟩
  rw [zero_sub, hexponent]

theorem unsigned_positional (hwhole : whole = "" ∨ whole = ".0") (hne : ds ≠ []) (hds : Digits ds)
    (hpower : power = exponent + ds.length - 1) :
    Unsigned (positional whole ds exponent power) (value ⟨ofDigits ds, exponent⟩) := by
  have hlength := List.length_pos_iff.mpr hne
  unfold positional
  split
  · next hnonneg =>
    obtain ⟨k, rfl⟩ := Int.eq_ofNat_of_zero_le hnonneg
    exact unsigned_whole hwhole hne hds k
  · next hfraction =>
    split
    · next hpoint =>
      have hwhole : ds.take (power.toNat + 1) ≠ [] := by simpa using hne
      have hbehind : exponent = -(ds.drop (power.toNat + 1)).length := by
        rw [List.length_drop]
        omega
      have hunsigned := unsigned_point hwhole (fun c hc => hds c (List.mem_of_mem_take hc))
        (fun c hc => hds c (List.mem_of_mem_drop hc)) hbehind
      rwa [List.take_append_drop] at hunsigned
    · next hpoint =>
      -- the zero before the point is one of the zeros before the digits
      have hbehind : exponent = -(List.replicate (-power - 1).toNat '0' ++ ds).length := by
        rw [List.length_append, List.length_replicate]
        omega
      have hunsigned := unsigned_point (List.cons_ne_nil '0' []) (digits_zeros 1)
        (digits_append.mpr ⟨digits_zeros _, hds⟩) hbehind
      have hvalue : ofDigits (['0'] ++ (List.replicate (-power - 1).toNat '0' ++ ds))
          = ofDigits ds := ofDigits_zeros_append ((-power - 1).toNat + 1) ds
      rwa [hvalue] at hunsigned

/-- A power of ten is written with its sign and may start with zeros. -/
theorem power_marked (hmark : mark = 'e' ∨ mark = 'E') (power : Int) (k : Nat) :
    Numeral.Power (mark :: (if power < 0 then '-' else '+') ::
      (List.replicate k '0' ++ decimalDigits power.natAbs)) power := by
  have hne : List.replicate k '0' ++ decimalDigits power.natAbs ≠ [] :=
    List.append_ne_nil_of_right_ne_nil _ (decimalDigits_ne_nil _)
  have hdigits : Digits (List.replicate k '0' ++ decimalDigits power.natAbs) :=
    digits_append.mpr ⟨digits_zeros k, digits_decimalDigits _⟩
  have hsize : ofDigits (List.replicate k '0' ++ decimalDigits power.natAbs) = power.natAbs := by
    rw [ofDigits_zeros_append, ofDigits_decimalDigits]
  split
  · next hneg =>
    have hminus := Numeral.Power.mark hmark .minus hne hdigits
    rw [hsize, if_pos rfl, ← Int.eq_neg_natAbs_of_nonpos hneg.le] at hminus
    exact hminus
  · next hnonneg =>
    have hplus := Numeral.Power.mark hmark .plus hne hdigits
    rw [hsize, if_neg (by decide), Int.natAbs_of_nonneg (by omega)] at hplus
    exact hplus

theorem unsigned_scientific (hmark : mark = 'e' ∨ mark = 'E') (hne : ds ≠ []) (hds : Digits ds)
    (hpower : power = exponent + ds.length - 1) :
    Unsigned (scientific mark ds power) (value ⟨ofDigits ds, exponent⟩) := by
  obtain ⟨c, rest, rfl⟩ := List.exists_cons_of_ne_nil hne
  obtain ⟨hc, hrest⟩ := List.forall_mem_cons.mp hds
  have hmantissa : Numeral.Mantissa ([c] ++ if rest.isEmpty then [] else '.' :: rest) [c] rest := by
    have hlead : Digits [c] := List.forall_mem_singleton.mpr hc
    cases rest with
    | nil => exact .whole (List.cons_ne_nil c []) hlead
    | cons => exact .point (List.cons_ne_nil c []) hlead hrest
  obtain ⟨k, hk⟩ : ∃ k, (if (decimalDigits power.natAbs).length < 2 then
      '0' :: decimalDigits power.natAbs else decimalDigits power.natAbs)
        = List.replicate k '0' ++ decimalDigits power.natAbs := by
    split
    · exact ⟨1, rfl⟩
    · exact ⟨0, rfl⟩
  refine ⟨_, _, [c], rest, power, ?_, hmantissa, power_marked hmark power k, ?_⟩
  · rw [← hk]
    rfl
  · rw [hpower, List.length_cons]
    congr 2
    push_cast
    ring

/-- The text of a decimal is a numeral of its value. -/
theorem unsigned_layout {style : Number.Style} (hstyle : style.Numeric) (d : Decimal) :
    Unsigned (d.layout style) d.value := by
  have hdigits : d = ⟨ofDigits (decimalDigits d.digits), d.exponent⟩ := by
    rw [ofDigits_decimalDigits]
  unfold layout
  simp only
  split
  · next hzero =>
    have hvalue : d.value = value ⟨ofDigits ['0'], (0 : Nat)⟩ := by
      simp [value, hzero, show ofDigits ['0'] = 0 from by decide]
    rw [hvalue]
    exact unsigned_whole hstyle.whole (List.cons_ne_nil '0' []) (digits_zeros 1) 0
  · split
    · conv_rhs => rw [hdigits]
      exact unsigned_positional hstyle.whole (decimalDigits_ne_nil _) (digits_decimalDigits _) rfl
    · conv_rhs => rw [hdigits]
      exact unsigned_scientific hstyle.mark (decimalDigits_ne_nil _) (digits_decimalDigits _) rfl

end Decimal

namespace Number

variable {x y : Number}

/-- The number itself, or zero without a sign. -/
def dropZeroSign : Number → Number
  | finite negative u h => finite (negative && u != 0) u h
  | x => x

theorem text_dropZeroSign (x : Number) : x.dropZeroSign.text = x.text := by
  cases x with
  | nan | infinite => rfl
  | finite negative u h =>
    simp only [dropZeroSign, text, textChars, Style.display, Bool.or_false, Bool.and_assoc,
      Bool.and_self]

/-- A zero with a sign is not below zero. -/
theorem sign_eq (negative : Bool) (u : Nat) :
    (negative && u != 0) = decide (signed negative u < 0) := by
  cases negative with
  | false => simp [signed]
  | true =>
    rw [Bool.true_and, Bool.eq_iff_iff, bne_iff_ne, decide_eq_true_eq]
    change u ≠ 0 ↔ -(u : Int) < 0
    omega

theorem place_dropZeroSign (x : Number) : x.dropZeroSign.place? = x.place? := by
  cases x with
  | nan | infinite => rfl
  | finite negative u h =>
    have hsigned : signed (negative && u != 0) u = signed negative u := by
      rcases Nat.eq_zero_or_pos u with rfl | hu
      · cases negative <;> rfl
      · rw [bne_iff_ne.mpr hu.ne', Bool.and_true]
    simp only [dropZeroSign, place?, hsigned]

/-- Finite numbers that are equal differ in the sign of zero only. -/
theorem dropZeroSign_eq_of_place (hx : x.isFinite = true) (hy : y.isFinite = true)
    (h : x.place? = y.place?) : x.dropZeroSign = y.dropZeroSign := by
  cases x with
  | nan | infinite => cases hx
  | finite negative u fits =>
    cases y with
    | nan | infinite => cases hy
    | finite negative' v fits' =>
      have hsigned : signed negative u = signed negative' v := Option.some.inj h
      obtain rfl : u = v := by rw [← natAbs_signed negative u, hsigned, natAbs_signed]
      simp only [dropZeroSign, sign_eq, hsigned]

/-- The text of a finite number is a numeral that is rounded to it, with the sign that is shown. -/
theorem numeral_textChars {style : Style} (hstyle : style.Numeric) {negative : Bool} {u : Nat}
    (h : Fits u) {sign : Bool} (hsign : sign = (negative && (u != 0 || style.zeroSign))) :
    ∃ d, Numeral ((finite negative u h).textChars style) sign d ∧
      Nearest sign (d.value * unit) (finite sign u h) := by
  have hshown : Numeral.Sign (if sign then ['-'] else []) sign := by
    cases sign with
    | false => exact .none
    | true => exact .minus
  obtain ⟨d, hnumeral, hvalue⟩ :=
    (Decimal.unsigned_layout hstyle (Decimal.shown u)).numeral hshown
  subst hsign
  refine ⟨d, hnumeral, ?_⟩
  rw [hvalue]
  exact .finite h (Decimal.rounded_shown h.2)

/-- The display of a finite number is a numeral that is rounded to it. -/
theorem numeral_text (hx : x.isFinite = true) :
    ∃ negative d, Numeral x.text.toList negative d ∧
      Nearest negative (d.value * unit) x.dropZeroSign := by
  cases x with
  | nan | infinite => cases hx
  | finite negative u h =>
    have hsign : (negative && u != 0) = (negative && (u != 0 || Style.display.zeroSign)) := by
      rw [Style.display, Bool.or_false]
    obtain ⟨d, hnumeral, hnearest⟩ := numeral_textChars Style.numeric_display h hsign
    rw [text, String.toList_ofList]
    exact ⟨_, d, hnumeral, hnearest⟩

theorem readNumber_text (hx : x.isFinite = true) :
    readNumber x.text.toList = .number x.dropZeroSign := by
  obtain ⟨negative, d, hnumeral, hnearest⟩ := numeral_text hx
  rw [readNumber_of_numeral hnumeral, (d.nearest_toNumber negative).unique hnearest]

/-- A finite number is displayed as a numeral that is rounded to it, so the display read as a number
is the number again, and zero if it was the negative zero. Two finite numbers have the same display
if they are equal, and only then. -/
theorem text_reads_back (store : Store) (hx : x.isFinite = true) :
    store.toText (.number x) = .ok x.text ∧
      (∃ negative d, Numeral x.text.toList negative d ∧
        Nearest negative (d.value * unit) x.dropZeroSign) ∧
      readNumber x.text.toList = .number x.dropZeroSign ∧
      store.toNumber (.text x.text) = .ok x.dropZeroSign ∧
      ∀ y : Number, y.isFinite = true → (x.text = y.text ↔ x.place? = y.place?) := by
  have hread := readNumber_text hx
  refine ⟨rfl, numeral_text hx, hread, ?_, fun y hy => ⟨fun htext => ?_, fun hplace => ?_⟩⟩
  · rw [Store.toNumber, hread]
  · rw [htext, readNumber_text hy] at hread
    rw [← place_dropZeroSign x, ← Reading.number.inj hread, place_dropZeroSign]
  · rw [← text_dropZeroSign x, dropZeroSign_eq_of_place hx hy hplace, text_dropZeroSign]

/-- The finite number that is nearest to zero from below. -/
theorem least_reads_back :
    let x : Number := Decimal.toNumber true ⟨5, -324⟩
    let y : Number := tolerance
    x.isFinite = true ∧ y.isFinite = true ∧ Store.empty.toText (.number x) = .ok "-5E-324" ∧
      (∃ negative d, Numeral "-5E-324".toList negative d ∧
        Nearest negative (d.value * unit) x) ∧
      readNumber "-5E-324".toList = .number x ∧ Store.empty.toNumber (.text "-5E-324") = .ok x ∧
      (x.text = y.text ↔ x.place? = y.place?) := by
  have hx : (Decimal.toNumber true ⟨5, -324⟩).isFinite = true := by decide +kernel
  have hy : tolerance.isFinite = true := by decide +kernel
  have htext : (Decimal.toNumber true ⟨5, -324⟩).text = "-5E-324" := by decide +kernel
  have hsign : (Decimal.toNumber true ⟨5, -324⟩).dropZeroSign
      = Decimal.toNumber true ⟨5, -324⟩ := by decide +kernel
  obtain ⟨hshown, hnumeral, hread, hnumber, hequal⟩ := text_reads_back Store.empty hx
  rw [htext] at hshown hnumeral hread hnumber
  rw [hsign] at hnumeral hread hnumber
  exact ⟨hx, hy, hshown, hnumeral, hread, hnumber, hequal tolerance hy⟩

end Number
end Parlance
