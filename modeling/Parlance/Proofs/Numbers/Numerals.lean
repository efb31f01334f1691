import Mathlib
import Parlance.Number.Reading
import Parlance.Proofs.Reading.Phrases
/-!
# What a numeral is

The form of a numeral, and of a numeral between blanks, said without a reader; the reader finds a
numeral in exactly the texts that are one (`readNumeral?_eq_some`). A text that is a numeral between
blanks is one in one way only, and no blank of either kind stands inside it.
-/
namespace Parlance
open Text

variable {cs ds fs ws xs ys rest s m p front back body : List Char} {c : Char} {negative n : Bool}
  {k : Int} {d e : Decimal}

/-- Decimal digits of any script. -/
def Digits (cs : List Char) : Prop := ∀ c ∈ cs, isDigit c = true

namespace Numeral

/-- A sign, or none, which is a plus. -/
inductive Sign : List Char → Bool → Prop
  | none : Sign [] false
  | plus : Sign ['+'] false
  | minus : Sign ['-'] true

/-- Digits and a point, with the digits before and after the point: there are some on one side at
least, and those behind them may be missing with or without the point. -/
inductive Mantissa : List Char → (whole fraction : List Char) → Prop
  | whole {ds : List Char} : ds ≠ [] → Digits ds → Mantissa ds ds []
  | point {ds fs : List Char} : ds ≠ [] → Digits ds → Digits fs → Mantissa (ds ++ '.' :: fs) ds fs
  | fraction {fs : List Char} : fs ≠ [] → Digits fs → Mantissa ('.' :: fs) [] fs

/-- A power of ten, or none. -/
inductive Power : List Char → Int → Prop
  | none : Power [] 0
  | mark {c : Char} {s ds : List Char} {negative : Bool} :
      c = 'e' ∨ c = 'E' → Sign s negative → ds ≠ [] → Digits ds →
        Power (c :: s ++ ds) (if negative then -(ofDigits ds : Int) else ofDigits ds)

end Numeral

open Numeral

/-- A numeral with its sign and its decimal. -/
inductive Numeral : List Char → Bool → Decimal → Prop
  | mk {s m p ds fs : List Char} {negative : Bool} {k : Int} :
      Sign s negative → Mantissa m ds fs → Power p k →
        Numeral (s ++ m ++ p) negative ⟨ofDigits (ds ++ fs), k - fs.length⟩

/-- A numeral with characters of a kind around it. -/
inductive Padded (blank : Char → Bool) : List Char → Bool → Decimal → Prop
  | mk {front body back : List Char} {negative : Bool} {d : Decimal} :
      (∀ c ∈ front, blank c = true) → Numeral body negative d → (∀ c ∈ back, blank c = true) →
        Padded blank (front ++ body ++ back) negative d

/-! ### Signs and digits -/

theorem digits_append : Digits (xs ++ ys) ↔ Digits xs ∧ Digits ys := by
  simp [Digits, or_imp, forall_and]

theorem Digits.head (h : Digits ds) : ∀ c ∈ ds.head?, isDigit c = true :=
  fun c hc => h c (List.mem_of_mem_head? hc)

theorem readSign_sound (cs : List Char) :
    ∃ s, Sign s (readSign cs).1 ∧ cs = s ++ (readSign cs).2 := by
  unfold readSign
  split
  · exact ⟨['-'], .minus, rfl⟩
  · exact ⟨['+'], .plus, rfl⟩
  · exact ⟨[], .none, rfl⟩

theorem readSign_append (h : Sign s negative) (hrest : ∀ c ∈ rest.head?, c ≠ '+' ∧ c ≠ '-') :
    readSign (s ++ rest) = (negative, rest) := by
  cases h with
  | plus => rfl
  | minus => rfl
  | none =>
    rw [List.nil_append]
    unfold readSign
    split
    · exact absurd rfl (hrest _ rfl).2
    · exact absurd rfl (hrest _ rfl).1
    · rfl

theorem readDigits_sound (cs : List Char) :
    Digits (readDigits cs).1 ∧ cs = (readDigits cs).1 ++ (readDigits cs).2 :=
  ⟨fun _ hc => List.mem_takeWhile_imp hc, List.takeWhile_append_dropWhile.symm⟩

theorem readDigits_append (h : Digits ds) (hrest : ∀ c ∈ rest.head?, isDigit c = false) :
    readDigits (ds ++ rest) = (ds, rest) := by
  unfold readDigits
  rw [List.takeWhile_append_of_pos h, List.dropWhile_append_of_pos h]
  cases rest with
  | nil => simp
  | cons c rest => simp [hrest c rfl]

/-! ### Powers of ten -/

theorem readPower?_sound (h : readPower? cs = some k) : Power cs k := by
  cases cs with
  | nil =>
    cases h
    exact .none
  | cons c cs =>
    simp only [readPower?] at h
    split at h
    · next hmark =>
      obtain ⟨s, hs, hcs⟩ := readSign_sound cs
      obtain ⟨hds, hrest⟩ := readDigits_sound (readSign cs).2
      generalize readSign cs = sign at *
      generalize readDigits sign.2 = digits at *
      split at h
      · cases h
      · next hshape =>
        rw [not_or, List.isEmpty_iff, Bool.not_eq_true, Bool.not_eq_false', List.isEmpty_iff]
          at hshape
        cases h
        rw [hshape.2, List.append_nil] at hrest
        rw [hcs, hrest]
        exact .mark hmark hs hshape.1 hds
    · cases h

theorem readPower?_complete (h : Power p k) : readPower? p = some k := by
  cases h with
  | none => rfl
  | @mark c s ds negative hmark hs hne hds =>
    have hhead : ∀ d ∈ ds.head?, d ≠ '+' ∧ d ≠ '-' := by
      intro d hd
      have := hds.head d hd
      refine ⟨?_, ?_⟩ <;> rintro rfl <;> exact absurd this (by decide)
    have hread : readDigits ds = (ds, []) := by
      have hall : readDigits (ds ++ []) = (ds, []) := readDigits_append hds (by simp)
      rwa [List.append_nil] at hall
    simp [readPower?, hmark, readSign_append hs hhead, hread, hne]

/-- A power of ten starts with its mark. -/
theorem Numeral.Power.head (h : Power p k) : ∀ c ∈ p.head?, c = 'e' ∨ c = 'E' := by
  cases h with
  | none => simp
  | mark hmark => simpa using hmark

/-! ### Mantissas -/

theorem Numeral.Mantissa.nonempty (h : Mantissa m ds fs) :
    (ds.isEmpty && fs.isEmpty) = false := by
  cases h with
  | whole hne | point hne | fraction hne => simp [hne]

/-- A mantissa starts with a digit or the point. -/
theorem Numeral.Mantissa.head (h : Mantissa m ds fs) :
    ∃ c t, m = c :: t ∧ (isDigit c = true ∨ c = '.') := by
  cases h with
  | whole hne hds =>
    obtain ⟨c, t, rfl⟩ := List.exists_cons_of_ne_nil hne
    exact ⟨c, t, rfl, .inl (hds c (by simp))⟩
  | point hne hds =>
    obtain ⟨c, t, rfl⟩ := List.exists_cons_of_ne_nil hne
    exact ⟨c, _, rfl, .inl (hds c (by simp))⟩
  | fraction => exact ⟨_, _, rfl, .inr rfl⟩

theorem Numeral.Mantissa.not_sign (h : Mantissa m ds fs) (p : List Char) :
    ∀ c ∈ (m ++ p).head?, c ≠ '+' ∧ c ≠ '-' := by
  obtain ⟨d, t, rfl, hd⟩ := h.head
  rintro c ⟨⟩
  rcases hd with hd | rfl
  · refine ⟨?_, ?_⟩ <;> rintro rfl <;> exact absurd hd (by decide)
  · decide

theorem readFraction_of_ne (h : ∀ c ∈ cs.head?, c ≠ '.') : readFraction cs = ([], cs) := by
  unfold readFraction
  split
  · exact absurd rfl (h _ rfl)
  · rfl

theorem readMantissa_complete (h : Mantissa m ds fs) (hp : ∀ c ∈ p.head?, c = 'e' ∨ c = 'E') :
    (readDigits (m ++ p)).1 = ds ∧ readFraction (readDigits (m ++ p)).2 = (fs, p) := by
  have hdigit : ∀ c ∈ p.head?, isDigit c = false := by
    intro c hc
    rcases hp c hc with rfl | rfl <;> decide
  have hpoint : ∀ c ∈ p.head?, c ≠ '.' := by
    intro c hc
    rcases hp c hc with rfl | rfl <;> decide
  cases h with
  | whole _ hds =>
    rw [readDigits_append hds hdigit]
    exact ⟨rfl, readFraction_of_ne hpoint⟩
  | point _ hds hfs =>
    rw [List.append_assoc, readDigits_append hds (by simp; decide)]
    exact ⟨rfl, readDigits_append hfs hdigit⟩
  | fraction _ hfs =>
    have hnone : readDigits ([] ++ ('.' :: fs ++ p)) = ([], '.' :: fs ++ p) :=
      readDigits_append (by simp [Digits]) (by simp; decide)
    rw [← List.nil_append ('.' :: fs), List.append_assoc, hnone]
    exact ⟨rfl, readDigits_append hfs hdigit⟩

theorem readMantissa_sound (cs : List Char)
    (hne : ((readDigits cs).1.isEmpty && (readFraction (readDigits cs).2).1.isEmpty) = false) :
    ∃ m, Mantissa m (readDigits cs).1 (readFraction (readDigits cs).2).1 ∧
      cs = m ++ (readFraction (readDigits cs).2).2 := by
  obtain ⟨hds, hcs⟩ := readDigits_sound cs
  generalize readDigits cs = digits at *
  subst hcs
  obtain ⟨ds, rest⟩ := digits
  simp only at *
  unfold readFraction at *
  split at hne
  · next t =>
    obtain ⟨hfs, ht⟩ := readDigits_sound t
    refine ⟨ds ++ '.' :: (readDigits t).1, ?_, by simp [← ht]⟩
    cases ds with
    | nil => exact .fraction (by simpa using hne) hfs
    | cons d ds => exact .point (by simp) hds hfs
  · refine ⟨ds, .whole (by simpa using hne) hds, rfl⟩

/-! ### Numerals -/

/-- The reader finds a numeral in exactly the texts that are one. -/
theorem readNumeral?_eq_some : readNumeral? cs = some (negative, d) ↔ Numeral cs negative d := by
  constructor
  · intro h
    unfold readNumeral? at h
    simp only at h
    obtain ⟨s, hs, hcs⟩ := readSign_sound cs
    generalize readSign cs = sign at *
    split at h
    · cases h
    · next hne =>
      obtain ⟨m, hm, hrest⟩ := readMantissa_sound sign.2 (by simpa using hne)
      obtain ⟨k, hk, heq⟩ := Option.map_eq_some_iff.mp h
      cases heq
      have hsplit : cs = s ++ m ++ (readFraction (readDigits sign.2).2).2 := by
        rw [List.append_assoc, ← hrest, ← hcs]
      exact hsplit ▸ .mk hs hm (readPower?_sound hk)
  · rintro ⟨hs, hm, hp⟩
    obtain ⟨hwhole, hfraction⟩ := readMantissa_complete hm hp.head
    unfold readNumeral?
    rw [List.append_assoc, readSign_append hs (hm.not_sign _)]
    simp [hwhole, hfraction, hm.nonempty, readPower?_complete hp]

theorem Numeral.ne_nil (h : Numeral cs negative d) : cs ≠ [] := by
  obtain ⟨_, hm, _⟩ := h
  obtain ⟨c, t, rfl, -⟩ := hm.head
  simp

/-- What stands in a numeral. -/
theorem Numeral.forall_mem (h : Numeral cs negative d) :
    ∀ c ∈ cs, isDigit c = true ∨ c ∈ ['+', '-', '.', 'e', 'E'] := by
  obtain ⟨hs, hm, hp⟩ := h
  have hsign : ∀ {s n}, Sign s n → ∀ c ∈ s, c ∈ ['+', '-', '.', 'e', 'E'] := by
    rintro _ _ (_ | _ | _) <;> simp
  simp only [List.forall_mem_append]
  refine ⟨⟨fun c hc => .inr (hsign hs c hc), ?_⟩, ?_⟩
  · cases hm with
    | whole _ hds => exact fun c hc => .inl (hds c hc)
    | point _ hds hfs =>
      simp only [List.forall_mem_append, List.forall_mem_cons]
      exact ⟨fun c hc => .inl (hds c hc), .inr (by simp), fun c hc => .inl (hfs c hc)⟩
    | fraction _ hfs =>
      simp only [List.forall_mem_cons]
      exact ⟨.inr (by simp), fun c hc => .inl (hfs c hc)⟩
  · cases hp with
    | none => simp
    | mark hmark hs _ hds =>
      simp only [List.forall_mem_append, List.forall_mem_cons]
      refine ⟨⟨?_, fun c hc => .inr (hsign hs c hc)⟩, fun c hc => .inl (hds c hc)⟩
      rcases hmark with rfl | rfl <;> simp

theorem isDigit_eq_false_of_isBlank (h : isBlank c = true) : isDigit c = false :=
  forall_blank (P := fun c => isDigit c = false) (by decide) h

/-- No blank stands inside a numeral. -/
theorem Numeral.isBlank_eq_false (h : Numeral cs negative d) : ∀ c ∈ cs, isBlank c = false := by
  intro c hc
  rw [← Bool.not_eq_true]
  intro hblank
  rcases h.forall_mem c hc with hdigit | hmark
  · rw [isDigit_eq_false_of_isBlank hblank] at hdigit
    cases hdigit
  · exact forall_blank (P := fun c => c ∉ ['+', '-', '.', 'e', 'E']) (by decide) hblank hmark

/-! ### Blanks around a numeral -/

theorem dropWhile_of_head {p : Char → Bool} (h : ∀ c ∈ cs.head?, p c = false) :
    cs.dropWhile p = cs := by
  cases cs with
  | nil => rfl
  | cons c cs => simp [h c rfl]

theorem trim_padded (hfront : ∀ c ∈ front, isBlank c = true) (hbody : ∀ c ∈ body, isBlank c = false)
    (hne : body ≠ []) (hback : ∀ c ∈ back, isBlank c = true) :
    trim (front ++ body ++ back) = body := by
  have hstart : ∀ c ∈ (body ++ back).head?, isBlank c = false := by
    intro c hc
    rw [List.head?_append_of_ne_nil _ hne] at hc
    exact hbody c (List.mem_of_mem_head? hc)
  have hend : ∀ c ∈ body.reverse.head?, isBlank c = false := by
    intro c hc
    exact hbody c (List.mem_reverse.mp (List.mem_of_mem_head? hc))
  have hback' : ∀ c ∈ back.reverse, isBlank c = true := fun c hc =>
    hback c (List.mem_reverse.mp hc)
  unfold trim dropBlanks
  rw [List.append_assoc, List.dropWhile_append_of_pos hfront, dropWhile_of_head hstart,
    List.reverse_append, List.dropWhile_append_of_pos hback', dropWhile_of_head hend,
    List.reverse_reverse]

theorem exists_trim (cs : List Char) : ∃ front back, cs = front ++ trim cs ++ back ∧
    (∀ c ∈ front, isBlank c = true) ∧ ∀ c ∈ back, isBlank c = true := by
  refine ⟨cs.takeWhile isBlank, ((dropBlanks cs).reverse.takeWhile isBlank).reverse, ?_,
    fun _ hc => List.mem_takeWhile_imp hc, fun c hc => ?_⟩
  · rw [trim, List.append_assoc, ← List.reverse_append, List.takeWhile_append_dropWhile,
      List.reverse_reverse, dropBlanks, List.takeWhile_append_dropWhile]
  · exact List.mem_takeWhile_imp (List.mem_reverse.mp hc)

theorem padded_iff_trim : Padded isBlank cs negative d ↔ Numeral (trim cs) negative d := by
  constructor
  · rintro ⟨hfront, h, hback⟩
    rwa [trim_padded hfront h.isBlank_eq_false h.ne_nil hback]
  · intro h
    obtain ⟨front, back, hcs, hfront, hback⟩ := exists_trim cs
    rw [hcs]
    exact .mk hfront h hback

/-- A text is a numeral between blanks in one way only. -/
theorem Padded.unique (h : Padded isBlank cs negative d) (h' : Padded isBlank cs n e) :
    negative = n ∧ d = e := by
  rw [padded_iff_trim, ← readNumeral?_eq_some] at h h'
  rw [h] at h'
  cases h'
  exact ⟨rfl, rfl⟩

end Parlance
