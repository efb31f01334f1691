import Mathlib.Data.List.Forall2
import Parlance.Proofs.Lexing.Words
import Parlance.Proofs.Spelling.Trees
/-!
# Sources in other letters

Letters outside of literals may change their case: phrases are found in any case, blanks, digits,
signs and the ends of words do not depend on it, and a keyword is one in any case. So the tokens of
two such sources are the same but for the case of their words, or both sources are given up at the
same place (`tokens_recased`). Only the marks of literals must stay as they are.
-/
namespace Parlance
open Text

/-! ### Characters -/

theorem eq_or_isAlpha {a b : Char} (h : a.toLower = b.toLower) :
    a = b ∨ a.isAlpha = true ∧ b.isAlpha = true := by
  have halpha : a.isAlpha = b.isAlpha := apply_congr (by decide) h
  cases ha : a.isAlpha with
  | true => exact .inr ⟨rfl, halpha ▸ ha⟩
  | false =>
    have hb : b.isAlpha = false := halpha ▸ ha
    rw [Char.toLower_eq_of_not_isUpper (by simp_all [Char.isAlpha]),
      Char.toLower_eq_of_not_isUpper (by simp_all [Char.isAlpha])] at h
    exact .inl h

theorem eq_of_not_isAlpha {a b : Char} (h : a.toLower = b.toLower) (hb : b.isAlpha = false) :
    a = b := by
  rcases eq_or_isAlpha h with heq | ⟨-, halpha⟩
  · exact heq
  · rw [hb] at halpha
    cases halpha

/-! ### Canonical texts -/

namespace Phrase

theorem apart_toLower (c : Option Char) : apart (c.map Char.toLower) = apart c := by
  cases c with
  | none => rfl
  | some c => exact apply_toLower (f := fun c => apart (some c)) (by decide) c

theorem inCapitals_toLower (cs : List Char) : inCapitals (cs.map Char.toLower) = inCapitals cs := by
  simp only [inCapitals, List.flatMap_map, apply_toLower (f := capitals) (by decide)]

theorem colonNext_toLower (cs : List Char) : colonNext (cs.map Char.toLower) = colonNext cs := by
  have hgap : isGap ∘ Char.toLower = isGap := funext (apply_toLower (by decide))
  have hcolon := apply_toLower (f := fun c => some c == some ':') (by decide)
  simp only [colonNext, List.dropWhile_map, hgap, List.head?_map]
  cases (cs.dropWhile isGap).head? with
  | none => rfl
  | some c => exact hcolon c

theorem startsAt_toLower (p : Phrase) (before : Option Char) (cs : List Char) :
    p.startsAt (before.map Char.toLower) (cs.map Char.toLower) = p.startsAt before cs := by
  have hjoins : ∀ c : Option Char, (c.map Char.toLower).any joinsWord = c.any joinsWord := by
    intro c
    cases c with
    | none => rfl
    | some c => exact apply_toLower (f := joinsWord) (by decide) c
  simp only [startsAt, apart_toLower, List.head?_map, hjoins, ← List.map_take, ← List.map_drop,
    inCapitals_toLower, colonNext_toLower]

theorem at?_congr {before before' : Option Char} {cs ds : List Char}
    (hb : before'.map Char.toLower = before.map Char.toLower)
    (h : ds.map Char.toLower = cs.map Char.toLower) : at? before' ds = at? before cs := by
  unfold at?
  congr 1
  funext p
  rw [← startsAt_toLower, hb, h, startsAt_toLower]

end Phrase

/-- The marks are at the same place and the same but for the case of a letter; at a place that is
kept they are the same. -/
structure Mark.Alike (kept : Nat → Prop) (m n : Mark) : Prop where
  origin : n.origin = m.origin
  letter : n.char.toLower = m.char.toLower
  same : kept m.origin → n.char = m.char

section Alike

variable {kept : Nat → Prop}

theorem Mark.Alike.refl (m : Mark) : Mark.Alike kept m m := ⟨rfl, rfl, fun _ => rfl⟩

theorem Mark.Alike.eq_iff {m n : Mark} (h : Mark.Alike kept m n) {c : Char}
    (hc : c.isAlpha = false) : n.char = c ↔ m.char = c := by
  constructor
  · rintro rfl
    exact eq_of_not_isAlpha h.letter.symm hc
  · rintro rfl
    exact eq_of_not_isAlpha h.letter hc

/-- The canonical texts of two sources that differ in the case of letters. -/
theorem canonicalFrom_alike (zone : Zone) {before before' : Option Char} {pos : Nat}
    {cs ds : List Char} (hb : before'.map Char.toLower = before.map Char.toLower)
    (h : ds.map Char.toLower = cs.map Char.toLower) (hk : ∀ i, kept (pos + i) → ds[i]? = cs[i]?) :
    List.Forall₂ (Mark.Alike kept) (canonicalFrom zone before pos cs)
      (canonicalFrom zone before' pos ds) := by
  induction cs generalizing zone before before' pos ds with
  | nil =>
    obtain rfl := List.map_eq_nil_iff.mp h
    exact .nil
  | cons c cs ih =>
    obtain ⟨d, ds, rfl, hd, hds⟩ := List.map_eq_cons_iff.mp h
    have hmark : Mark.Alike kept ⟨c, pos⟩ ⟨d, pos⟩ := by
      refine ⟨rfl, hd, fun hkept => ?_⟩
      simpa using hk 0 hkept
    have hquote : d = '"' ↔ c = '"' := hmark.eq_iff rfl
    have hslash : d = '\\' ↔ c = '\\' := hmark.eq_iff rfl
    have hat := Phrase.at?_congr hb h
    have hnext : zone.next before' d ds = zone.next before c cs := by
      cases zone <;> simp only [Zone.next, Zone.fromCode, Zone.fromLiteral, hquote, hslash, hat]
    have hemit : List.Forall₂ (Mark.Alike kept) (zone.emit before pos c cs)
        (zone.emit before' pos d ds) := by
      have hfree : List.Forall₂ (Mark.Alike kept) (Zone.code.emit before pos c cs)
          (Zone.code.emit before' pos d ds) := by
        simp only [Zone.emit, hquote, hat]
        split
        · exact .cons hmark .nil
        · split
          · exact List.forall₂_same.mpr fun m _ => .refl m
          · exact .cons hmark .nil
      cases zone with
      | code => exact hfree
      | literal | escape => exact .cons hmark .nil
      | phrase left =>
        cases left with
        | zero => exact hfree
        | succ left => exact .nil
    rw [canonicalFrom_cons, canonicalFrom_cons, hnext]
    refine List.rel_append hemit (ih _ (by simpa using hd) hds fun i hi => ?_)
    simpa using hk (i + 1) (by rwa [← Nat.add_assoc, Nat.add_right_comm])

/-! ### Tokens -/

namespace Token

variable {m n : Mark} {ms ns : List Mark}

theorem forall₂_while {p : Char → Bool} (hp : ∀ c, p c.toLower = p c)
    (h : List.Forall₂ (Mark.Alike kept) ms ns) :
    List.Forall₂ (Mark.Alike kept) (ms.takeWhile (p ·.char)) (ns.takeWhile (p ·.char)) ∧
      List.Forall₂ (Mark.Alike kept) (ms.dropWhile (p ·.char)) (ns.dropWhile (p ·.char)) := by
  induction h with
  | nil => exact ⟨.nil, .nil⟩
  | @cons m n ms ns hm h ih =>
    have hsame : p n.char = p m.char := by rw [← hp, hm.letter, hp]
    simp only [List.takeWhile_cons, List.dropWhile_cons, hsame]
    split
    · exact ⟨.cons hm ih.1, ih.2⟩
    · exact ⟨.nil, .cons hm h⟩

theorem chars_eq (h : List.Forall₂ (Mark.Alike kept) ms ns)
    (hms : ∀ m ∈ ms, m.char.isAlpha = false) : ns.map Mark.char = ms.map Mark.char := by
  induction h with
  | nil => rfl
  | cons hm _ ih =>
    rw [List.forall_mem_cons] at hms
    rw [List.map_cons, List.map_cons, eq_of_not_isAlpha hm.letter hms.1, ih hms.2]

theorem isAlpha_of_isDigit {c : Char} (h : c.isDigit = true) : c.isAlpha = false :=
  forall_ascii (P := fun c => c.isDigit = true → c.isAlpha = false) (by decide)
    (lt_of_isAlphanum (by simp [Char.isAlphanum, h])) h

theorem isDigit_toLower (c : Char) : c.toLower.isDigit = c.isDigit :=
  apply_toLower (f := Char.isDigit) (by decide) c

theorem continuesName_toLower (c : Char) : continuesName c.toLower = continuesName c :=
  apply_toLower (f := continuesName) (by decide) c

theorem lower_textOf (h : List.Forall₂ (Mark.Alike kept) ms ns) :
    lower (textOf ns) = lower (textOf ms) := by
  have hchars : ns.map (lowerChar ·.char) = ms.map (lowerChar ·.char) := by
    induction h with
    | nil => rfl
    | cons hm _ ih =>
      have hchar := apply_congr (f := lowerChar) (by decide) hm.letter
      rw [List.map_cons, List.map_cons, hchar, ih]
  simp only [lower, textOf, String.toList_ofList, List.map_map]
  exact congrArg String.ofList hchars

theorem scanFraction_alike (h : List.Forall₂ (Mark.Alike kept) ms ns) :
    List.Forall₂ (Mark.Alike kept) (scanFraction ms).1 (scanFraction ns).1 ∧
      List.Forall₂ (Mark.Alike kept) (scanFraction ms).2 (scanFraction ns).2 := by
  rcases h with _ | ⟨hp, _ | ⟨hd, h⟩⟩
  · exact ⟨.nil, .nil⟩
  · exact ⟨.nil, .cons hp .nil⟩
  · have hdigit : ∀ {m n : Mark}, Mark.Alike kept m n → n.char.isDigit = m.char.isDigit := by
      intro m n hm
      rw [← isDigit_toLower, hm.letter, isDigit_toLower]
    obtain ⟨htake, hdrop⟩ := forall₂_while isDigit_toLower h
    simp only [scanFraction, hp.eq_iff (c := '.') rfl, hdigit hd]
    split
    · exact ⟨.cons hp (.cons hd htake), hdrop⟩
    · exact ⟨.nil, .cons hp (.cons hd h)⟩

/-- Where a literal ends does not depend on its letters; the text that it is for does. -/
theorem scanLiteral_alike (h : List.Forall₂ (Mark.Alike kept) ms ns) :
    List.Forall₂ (Mark.Alike kept) (scanLiteral ms).2 (scanLiteral ns).2 ∧
      ∃ word, ms = word ++ (scanLiteral ms).2 ∧
        ((∀ k ∈ word, kept k.origin) → (scanLiteral ns).1 = (scanLiteral ms).1) := by
  fun_induction scanLiteral ms generalizing ns with
  | case1 =>
    cases h
    exact ⟨.nil, [], rfl, fun _ => rfl⟩
  | case2 m rest hquote =>
    obtain _ | ⟨hm, h⟩ := h
    rw [scanLiteral.eq_def]
    simp only [if_pos ((hm.eq_iff rfl).mpr hquote)]
    exact ⟨h, [m], rfl, fun _ => trivial⟩
  | case3 m hquote hslash =>
    obtain _ | ⟨hm, _ | _⟩ := h
    rw [scanLiteral.eq_def]
    simp only [if_neg (mt (hm.eq_iff rfl).mp hquote), if_pos ((hm.eq_iff rfl).mpr hslash)]
    exact ⟨.nil, [m], rfl, fun _ => trivial⟩
  | case4 m hquote hslash e rest text after hrest ih =>
    obtain _ | ⟨hm, _ | ⟨he, h⟩⟩ := h
    rw [scanLiteral.eq_def]
    simp only [if_neg (mt (hm.eq_iff rfl).mp hquote), if_pos ((hm.eq_iff rfl).mpr hslash)]
    obtain ⟨hafter, word, hword, htext⟩ := ih h
    rw [hrest] at hafter hword htext
    refine ⟨hafter, m :: e :: word, by rw [hword]; rfl, fun hkept => ?_⟩
    simp only [List.forall_mem_cons] at hkept
    rw [he.same hkept.2.1, htext hkept.2.2]
  | case5 m rest hquote hslash text after hrest ih =>
    obtain _ | ⟨hm, h⟩ := h
    rw [scanLiteral.eq_def]
    simp only [if_neg (mt (hm.eq_iff rfl).mp hquote), if_neg (mt (hm.eq_iff rfl).mp hslash)]
    obtain ⟨hafter, word, hword, htext⟩ := ih h
    rw [hrest] at hafter hword htext
    refine ⟨hafter, m :: word, by rw [hword]; rfl, fun hkept => ?_⟩
    rw [List.forall_mem_cons] at hkept
    rw [hm.same hkept.1, htext hkept.2]

theorem double?_congr {a b a' b' : Char} (ha : a'.toLower = a.toLower)
    (hb : b'.toLower = b.toLower) : Symbol.double? a' b' = Symbol.double? a b := by
  have hnone : ∀ {a b : Char}, a.isAlpha = true ∨ b.isAlpha = true → Symbol.double? a b = none := by
    intro a b h
    unfold Symbol.double?
    split <;> first | rfl | (exfalso; revert h; decide)
  rcases eq_or_isAlpha ha with rfl | ⟨ha', ha⟩
  · rcases eq_or_isAlpha hb with rfl | ⟨hb', hb⟩
    · rfl
    · rw [hnone (.inr hb'), hnone (.inr hb)]
  · rw [hnone (.inl ha'), hnone (.inl ha)]

theorem scanSymbol?_alike (hm : Mark.Alike kept m n) (h : List.Forall₂ (Mark.Alike kept) ms ns) :
    (scanSymbol? m ms = none ∧ scanSymbol? n ns = none) ∨
      ∃ s after after', scanSymbol? m ms = some (s, after) ∧ scanSymbol? n ns = some (s, after') ∧
        List.Forall₂ (Mark.Alike kept) after after' := by
  have hsingle : Symbol.single? n.char = Symbol.single? m.char :=
    apply_congr (by decide) hm.letter
  have hdouble : (ns.head?.bind fun k => Symbol.double? n.char k.char)
      = ms.head?.bind fun k => Symbol.double? m.char k.char := by
    cases h with
    | nil => rfl
    | cons hk _ => exact double?_congr hm.letter hk.letter
  unfold scanSymbol?
  rw [hdouble, hsingle]
  cases ms.head?.bind fun k => Symbol.double? m.char k.char with
  | some s =>
    refine .inr ⟨s, _, _, rfl, rfl, ?_⟩
    cases h with
    | nil => exact .nil
    | cons _ h => exact h
  | none =>
    cases Symbol.single? m.char with
    | none => exact .inl ⟨rfl, rfl⟩
    | some s => exact .inr ⟨s, _, _, rfl, rfl, h⟩

theorem ofWord?_congr {a b : String} (h : lower a = lower b) :
    Keyword.ofWord? a = Keyword.ofWord? b := by
  simp only [Keyword.ofWord?, h]

theorem folded_wordKind (found : Option Keyword) (text : String) (offset : Nat) :
    Token.folded ⟨wordKind found, text, offset⟩ = ⟨wordKind found, lower text, offset⟩ := by
  cases found <;> rfl

/-- Where a token ends and of which kind it is does not depend on its letters. Nor does it matter in
which case they are, but in a literal. -/
theorem scan_alike (hm : Mark.Alike kept m n) (h : List.Forall₂ (Mark.Alike kept) ms ns)
    {t : Token} {after : List Mark} (hs : scan m ms = .ok (t, after)) :
    ∃ u after', scan n ns = .ok (u, after') ∧ List.Forall₂ (Mark.Alike kept) after after' ∧
      ∀ word, ms = word ++ after → (t.kind = .string → ∀ k ∈ word, kept k.origin) →
        u.folded = t.folded := by
  have hdigits : n.char.isDigit = m.char.isDigit := by
    rw [← isDigit_toLower, hm.letter, isDigit_toLower]
  have hstarts : startsName n.char = startsName m.char :=
    apply_congr (f := startsName) (by decide) hm.letter
  cases scan_eq_ok.mp hs with
  | number hdigit hafter =>
    obtain ⟨htake, hdrop⟩ := forall₂_while isDigit_toLower h
    obtain ⟨hfraction, hrest⟩ := scanFraction_alike hdrop
    rw [hafter] at hrest
    refine ⟨_, _, scan_eq_ok.mpr (.number (hdigits.trans hdigit) rfl), hrest, fun _ _ _ => ?_⟩
    have hchars := chars_eq (.cons hm (List.rel_append htake hfraction)) fun k hk => by
      rcases List.mem_cons.mp hk with rfl | hk
      · exact isAlpha_of_isDigit hdigit
      · rcases List.mem_append.mp hk with hk | hk
        · exact isAlpha_of_isDigit (List.mem_takeWhile_imp (p := fun x : Mark => x.char.isDigit) hk)
        · rcases scanFraction_chars hk with hpoint | hk
          · rw [hpoint]
            rfl
          · exact isAlpha_of_isDigit hk
    have htext := congrArg String.ofList hchars
    simp only [Token.folded, hm.origin]
    exact congrArg (Token.mk .number · m.origin) htext
  | word hdigit hstart hfound hafter =>
    obtain ⟨htake, hdrop⟩ := forall₂_while continuesName_toLower h
    rw [hafter] at hdrop
    refine ⟨_, _, scan_eq_ok.mpr (.word (by rwa [hdigits]) (hstarts.trans hstart) rfl rfl), hdrop,
      fun _ _ _ => ?_⟩
    have hlower := lower_textOf (.cons hm htake)
    rw [folded_wordKind, folded_wordKind, ofWord?_congr hlower, hfound, hlower, hm.origin]
  | literal hquote hafter =>
    obtain ⟨hrest, word, hword, htext⟩ := scanLiteral_alike h
    rw [hafter] at hrest hword
    refine ⟨_, _, scan_eq_ok.mpr (.literal ((hm.eq_iff rfl).mpr hquote) rfl), hrest,
      fun word' hword' hkept => ?_⟩
    obtain rfl := List.append_cancel_right (hword'.symm.trans hword)
    rw [htext (hkept rfl), hm.origin]
  | symbol hdigit hstart hquote hsymbol =>
    rcases scanSymbol?_alike hm h with ⟨hnone, -⟩ | ⟨s, after, after', hs, hs', hrest⟩
    · rw [hsymbol] at hnone
      cases hnone
    · rw [hsymbol] at hs
      cases hs
      refine ⟨_, _, scan_eq_ok.mpr (.symbol (by rwa [hdigits]) (by rwa [hstarts])
        (mt (hm.eq_iff rfl).mp hquote) hs'), hrest, fun _ _ _ => ?_⟩
      rw [hm.origin]

theorem scan_alike_error (hm : Mark.Alike kept m n) (h : List.Forall₂ (Mark.Alike kept) ms ns)
    {fault : LexFault × Nat} (hs : scan m ms = .error fault) : scan n ns = .error fault := by
  have hdigits : n.char.isDigit = m.char.isDigit := by
    rw [← isDigit_toLower, hm.letter, isDigit_toLower]
  have hstarts : startsName n.char = startsName m.char :=
    apply_congr (f := startsName) (by decide) hm.letter
  unfold scan at hs ⊢
  rw [hdigits, hstarts]
  split at hs
  · cases hs
  · next hdigit =>
    split at hs
    · cases hs
    · next hstart =>
      have hchar : n.char = m.char := eq_of_not_isAlpha hm.letter (by simp_all [startsName])
      split at hs
      · cases hs
      · next hquote =>
        rw [if_neg hdigit, if_neg hstart, hchar, if_neg hquote, hm.origin]
        rcases scanSymbol?_alike hm h with ⟨hnone, hnone'⟩ | ⟨s, after, after', hsome, -⟩
        · rw [hnone] at hs
          rw [hnone']
          exact hs
        · rw [hsome] at hs
          cases hs

/-! ### Whole texts -/

theorem isBlank_alike (hm : Mark.Alike kept m n) : isBlank n.char = isBlank m.char :=
  apply_congr (f := isBlank) (by decide) hm.letter

/-- What stands behind a comment. -/
theorem dropWhile_alike (h : List.Forall₂ (Mark.Alike kept) ms ns) :
    List.Forall₂ (Mark.Alike kept) (ms.dropWhile (!isLineBreak ·.char))
      (ns.dropWhile (!isLineBreak ·.char)) :=
  (forall₂_while (p := fun c => !isLineBreak c)
    (apply_toLower (f := fun c => !isLineBreak c) (by decide)) h).2

theorem scanAll_alike_error (h : List.Forall₂ (Mark.Alike kept) ms ns) {fault : LexFault × Nat}
    (hs : scanAll ms = .error fault) : scanAll ns = .error fault := by
  induction hn : ms.length using Nat.strong_induction_on generalizing ms ns with
  | _ k ih =>
    subst hn
    cases h with
    | nil => exact hs
    | @cons m n ms ns hm h =>
      cases hb : isBlank m.char with
      | true =>
        rw [scanAll_blank hb] at hs
        rw [scanAll_blank ((isBlank_alike hm).trans hb)]
        exact ih _ (Nat.lt_succ_self _) h hs rfl
      | false =>
        have hb' := (isBlank_alike hm).trans hb
        by_cases hc : m.char = '#'
        · rw [scanAll_comment hc] at hs
          rw [scanAll_comment ((hm.eq_iff rfl).mpr hc)]
          exact ih _ (Nat.lt_succ_of_le (length_dropWhile_le _ _)) (dropWhile_alike h) hs rfl
        · have hc' : n.char ≠ '#' := mt (hm.eq_iff rfl).mp hc
          cases hscan : scan m ms with
          | error refused =>
            rw [scanAll_fault hb hc hscan] at hs
            rw [scanAll_fault hb' hc' (scan_alike_error hm h hscan)]
            exact hs
          | ok found =>
            obtain ⟨t, after⟩ := found
            obtain ⟨u, after', hscan', hafter, -⟩ := scan_alike hm h hscan
            rw [scanAll_token hb hc hscan] at hs
            rw [scanAll_token hb' hc' hscan']
            cases hrest : scanAll after with
            | ok us =>
              rw [hrest] at hs
              cases hs
            | error later =>
              rw [hrest] at hs
              cases hs
              rw [ih _ (Nat.lt_succ_of_le (scan_length hscan)) hafter hrest rfl]
              rfl

/-- The tokens of a text whose letters may be in another case, but in literals. -/
theorem scanAll_alike {ts : List Token} (hs : scanAll ms = .ok ts) :
    ∃ xs, Divides [] xs ms ∧ ts = tokensOf xs ∧ ∀ {ns}, List.Forall₂ (Mark.Alike kept) ms ns →
      (∀ x ∈ xs, ∀ t ∈ x.token?, t.kind = .string → ∀ k ∈ x.marks, kept k.origin) →
        ∃ us, scanAll ns = .ok us ∧ us.map Token.folded = ts.map Token.folded := by
  induction hs using scanAll_induction with
  | done =>
    refine ⟨[], .done, rfl, fun h _ => ⟨[], ?_, rfl⟩⟩
    cases h
    rw [scanAll]
  | blank m ms ts _ _ hb ih =>
    obtain ⟨xs, hxs, rfl, hall⟩ := ih
    refine ⟨_, .next (stands_blank hb) hxs, rfl, fun h hkept => ?_⟩
    obtain _ | ⟨hm, h⟩ := h
    rw [scanAll_blank ((isBlank_alike hm).trans hb)]
    exact hall h fun x hx => hkept x (List.mem_cons_of_mem _ hx)
  | comment m ms ts _ _ hc ih =>
    obtain ⟨xs, hxs, rfl, hall⟩ := ih
    have hdivides := Divides.next (stands_comment hc) hxs
    rw [List.cons_append, List.takeWhile_append_dropWhile] at hdivides
    refine ⟨_, hdivides, rfl, fun h hkept => ?_⟩
    obtain _ | ⟨hm, h⟩ := h
    rw [scanAll_comment ((hm.eq_iff rfl).mpr hc)]
    exact hall (dropWhile_alike h) fun x hx => hkept x (List.mem_cons_of_mem _ hx)
  | token m ms t after us _ _ hb hc hscan ih =>
    obtain ⟨word, rfl, hstands⟩ := stands_token hb hc hscan
    obtain ⟨xs, hxs, rfl, hall⟩ := ih
    refine ⟨_, .next hstands hxs, rfl, fun h hkept => ?_⟩
    obtain _ | ⟨hm, h⟩ := h
    obtain ⟨u, after', hscan', hafter, hsame⟩ := scan_alike hm h hscan
    obtain ⟨vs, hvs, hfolded⟩ := hall hafter fun x hx => hkept x (List.mem_cons_of_mem _ hx)
    rw [scanAll_token ((isBlank_alike hm).trans hb) (mt (hm.eq_iff rfl).mp hc) hscan', hvs]
    refine ⟨_, rfl, ?_⟩
    have htoken : u.folded = t.folded := hsame word rfl fun hkind k hk =>
      hkept _ List.mem_cons_self t rfl hkind k (List.mem_cons_of_mem _ hk)
    rw [List.map_cons, htoken, hfolded]
    rfl

end Token

end Alike

/-! ### Sources -/

/-- The offset is one of a string token of the source, of its quotes and what stands between. -/
def InLiteral (source : List Char) (offset : Nat) : Prop :=
  ∃ xs, Divides [] xs (Canonical.ofSource source).marks ∧
    ∃ x ∈ xs, ∃ t ∈ x.token?, t.kind = .string ∧ ∃ m ∈ x.marks, m.origin = offset

/-- The other source is the source with the case of some letters of ASCII changed, outside of its
string tokens. -/
structure Recases (source other : List Char) : Prop where
  letters : other.map Char.toLower = source.map Char.toLower
  literals : ∀ offset, InLiteral source offset → other[offset]? = source[offset]?

theorem Recases.length_eq {source other : List Char} (h : Recases source other) :
    other.length = source.length := by
  have hlength := congrArg List.length h.letters
  rwa [List.length_map, List.length_map] at hlength

/-! ### Where literals are -/

/-- Where the marks of literals come from, told from left to right. -/
def literalOrigins (place : Place) : List Mark → List Nat
  | [] => []
  | m :: marks =>
    (if m.char = '"' ∨ place = .literal ∨ place = .escape then [m.origin] else [])
      ++ literalOrigins (place.next m.char) marks

theorem literalOrigins_append (place : Place) (xs ys : List Mark) :
    literalOrigins place (xs ++ ys) = literalOrigins place xs
      ++ literalOrigins (placeAfter place (xs.map Mark.char)) ys := by
  induction xs generalizing place with
  | nil => rfl
  | cons m xs ih =>
    rw [List.cons_append, literalOrigins, literalOrigins, ih, List.append_assoc]
    rfl

theorem LiteralBody.origins {cs text : List Char} (h : LiteralBody cs text) {word : List Mark}
    (hword : word.map Mark.char = cs) : ∀ k ∈ word, k.origin ∈ literalOrigins .literal word := by
  induction h generalizing word with
  | cutOff =>
    obtain rfl := List.map_eq_nil_iff.mp hword
    simp
  | closed | cutEscape =>
    obtain ⟨m, rest, rfl, -, hrest⟩ := List.map_eq_cons_iff.mp hword
    obtain rfl := List.map_eq_nil_iff.mp hrest
    simp [literalOrigins]
  | escape c _ ih =>
    obtain ⟨m, rest, rfl, hm, hrest⟩ := List.map_eq_cons_iff.mp hword
    obtain ⟨e, rest, rfl, -, hrest⟩ := List.map_eq_cons_iff.mp hrest
    have hplace : Place.next .escape e.char = .literal := rfl
    have hescape : Place.next .literal m.char = .escape := by
      rw [hm]
      rfl
    have hlater := ih hrest
    simp only [literalOrigins, hescape, hplace]
    intro k hk
    rcases List.mem_cons.mp hk with rfl | hk
    · simp
    · rcases List.mem_cons.mp hk with rfl | hk
      · simp
      · simp [hlater k hk]
  | plain hquote hslash _ ih =>
    obtain ⟨m, rest, rfl, rfl, hrest⟩ := List.map_eq_cons_iff.mp hword
    have hplace : Place.next .literal m.char = .literal := by
      simp only [Place.next, if_neg hquote, if_neg hslash]
    have hlater := ih hrest
    simp only [literalOrigins, hplace]
    intro k hk
    rcases List.mem_cons.mp hk with rfl | hk
    · simp
    · simp [hlater k hk]

/-- A string token is a quote and the body of a literal. -/
theorem Lexeme.Formed.quoted {x : Lexeme} (h : x.Formed) {t : Token} (ht : t ∈ x.token?)
    (hkind : t.kind = .string) : ∃ m word text, x.marks = m :: word ∧ m.char = '"' ∧
      LiteralBody (word.map Mark.char) text := by
  cases h with
  | blank | comment => cases ht
  | @token m word kind text hspells =>
    cases ht
    generalize hcs : (m :: word).map Mark.char = cs at hspells
    cases hspells with
    | number | symbol => cases hkind
    | word =>
      unfold Token.wordKind at hkind
      split at hkind <;> cases hkind
    | literal hbody =>
      obtain ⟨hquote, rfl⟩ := List.cons.inj hcs
      exact ⟨m, word, _, rfl, hquote, hbody⟩

theorem Divides.origins {xs : List Lexeme} {marks rest : List Mark} (h : Divides rest xs marks)
    {place : Place}
    (hready : place = .code ∨ place = .comment ∧ ∀ m ∈ marks.head?, isLineBreak m.char = true)
    {x : Lexeme} (hx : x ∈ xs) {t : Token} (ht : t ∈ x.token?) (hkind : t.kind = .string) :
    ∀ k ∈ x.marks, k.origin ∈ literalOrigins place marks := by
  induction h generalizing place with
  | done => cases hx
  | @next y ys marks hy hys ih =>
    intro k hk
    rw [literalOrigins_append, List.mem_append]
    rcases List.mem_cons.mp hx with rfl | hx
    · obtain ⟨m, word, text, hmarks, hquote, hbody⟩ := hy.formed.quoted ht hkind
      have hplace : place = .code := by
        refine hready.resolve_right fun ⟨_, hbreak⟩ => ?_
        have hm := hbreak m (by rw [hmarks]; rfl)
        rw [hquote] at hm
        cases hm
      rw [hmarks] at hk ⊢
      refine .inl ?_
      have hbehind : Place.next place m.char = .literal := by
        rw [hplace, hquote]
        rfl
      simp only [literalOrigins, hquote, true_or, if_true, List.singleton_append]
      rw [← hquote, hbehind]
      rcases List.mem_cons.mp hk with rfl | hk
      · exact List.mem_cons_self
      · exact List.mem_cons_of_mem _ (hbody.origins rfl k hk)
    · refine .inr (ih ?_ hx k hk)
      cases marks with
      | nil =>
        have hempty := hys.flatten
        rw [List.append_eq_nil_iff, List.flatMap_eq_nil_iff] at hempty
        exact absurd (hempty.1 x hx) (hys.formed x hx).ne_nil
      | cons n marks =>
        rcases hready with rfl | ⟨rfl, hbreak⟩
        · refine hy.place_end.imp_right fun hend => ⟨hend.1, ?_⟩
          rintro _ ⟨⟩
          exact hend.2
        · obtain ⟨m, hm, hline⟩ := hy.formed.line_break hbreak
          rw [hm]
          exact .inl (by simp [placeAfter, Place.next, hline])

theorem literal_origins {source : List Char} {offset : Nat} (h : InLiteral source offset) :
    offset ∈ literalOrigins .code (Canonical.ofSource source).marks := by
  obtain ⟨xs, hxs, x, hx, t, ht, hkind, k, hk, rfl⟩ := h
  exact hxs.origins (.inl rfl) hx ht hkind k hk

/-- The tokens of two sources that differ in the case of letters outside of literals. -/
theorem tokens_recased {source other : List Char} (h : Recases source other) :
    (∃ fault, Source.tokens source = .error (.lex fault) ∧
      Source.tokens other = .error (.lex fault)) ∨
    ∃ ts us, Source.tokens source = .ok ts ∧ Source.tokens other = .ok us ∧
      us.map Token.folded = ts.map Token.folded := by
  have hmarks : List.Forall₂ (Mark.Alike (InLiteral source)) (Canonical.ofSource source).marks
      (Canonical.ofSource other).marks := by
    refine canonicalFrom_alike .code rfl h.letters fun i hi => h.literals i ?_
    rwa [Nat.zero_add] at hi
  cases hscan : (Canonical.ofSource source).tokens with
  | error fault =>
    have hother : (Canonical.ofSource other).tokens = .error fault :=
      Token.scanAll_alike_error hmarks hscan
    refine .inl ⟨fault, ?_, ?_⟩
    · rw [Source.tokens, hscan]
    · rw [Source.tokens, hother]
  | ok ts =>
    obtain ⟨xs, hxs, rfl, hall⟩ := @Token.scanAll_alike (InLiteral source) _ _ hscan
    obtain ⟨us, hus, hfolded⟩ := hall hmarks fun x hx t ht hkind k hk =>
      ⟨xs, hxs, x, hx, t, ht, hkind, k, hk, rfl⟩
    exact .inr ⟨_, us, Source.tokens_eq_ok.mpr hscan, Source.tokens_eq_ok.mpr hus, hfolded⟩

end Parlance
