import Mathlib
import Parlance.Phrase
import Parlance.Text.Blank
/-!
# Where phrases are found

At a word that nothing continues, the normalizer finds a phrase only if the word is the first one of
that phrase (`at?_eq_none_of_word`). At a phrase of the table it finds this phrase, unless the text
goes on to a longer one (`at?_eq_some`).
-/
namespace Parlance

namespace Text

/-! ### Characters -/

theorem forall_ascii {P : Char → Prop} (h : ∀ n < 128, P (Char.ofNat n)) {c : Char}
    (hc : c.toNat < 128) : P c := by
  have hn := h c.toNat hc
  rwa [Char.ofNat_toNat] at hn

theorem lt_of_isAlphanum {c : Char} (h : c.isAlphanum = true) : c.toNat < 128 := by
  simp only [Char.isAlphanum, Char.isAlpha, Char.isUpper, Char.isLower, Char.isDigit,
    Bool.or_eq_true, Bool.and_eq_true, decide_eq_true_eq, ge_iff_le, UInt32.le_iff_toNat_le] at h
  have htoNat : c.toNat = c.val.toNat := rfl
  simp at h
  omega

theorem capitals_of_isAlphanum {c : Char} (h : c.isAlphanum = true) : capitals c = [c.toUpper] :=
  forall_ascii (P := fun c => c.isAlphanum = true → capitals c = [c.toUpper]) (by decide)
    (lt_of_isAlphanum h) h

theorem isWordChar_toUpper {c : Char} (h : c.isAlphanum = true) : isWordChar c.toUpper = true :=
  forall_ascii (P := fun c => c.isAlphanum = true → isWordChar c.toUpper = true) (by decide)
    (lt_of_isAlphanum h) h

theorem joinsWord_of_isAlphanum {c : Char} (h : c.isAlphanum = true) : joinsWord c = true := by
  simp only [joinsWord, capitals_of_isAlphanum h, isWordChar_toUpper h]

theorem map_toLower_toUpper {w : List Char} (hw : ∀ c ∈ w, c.isAlphanum = true) :
    (w.map Char.toUpper).map Char.toLower = w.map Char.toLower := by
  rw [List.map_map]
  refine List.map_congr_left fun c hc => ?_
  exact forall_ascii (P := fun c => c.isAlphanum = true → c.toUpper.toLower = c.toLower)
    (by decide) (lt_of_isAlphanum (hw c hc)) (hw c hc)

/-- What is a word of small letters in some letter case consists of letters. -/
theorem isAlpha_of_map_toLower {words : List Char} (hwords : words.all Char.isLower = true)
    {cs : List Char} (hcs : cs.map Char.toLower = words) : ∀ c ∈ cs, c.isAlpha = true := by
  intro c hc
  have hmem : c.toLower ∈ words := hcs ▸ List.mem_map_of_mem hc
  have hlower := List.all_eq_true.mp hwords _ hmem
  rwa [Char.isLower_toLower_eq_isAlpha] at hlower

theorem isAlphanum_of_map_toLower {words : List Char} (hwords : words.all Char.isLower = true)
    {cs : List Char} (hcs : cs.map Char.toLower = words) : ∀ c ∈ cs, c.isAlphanum = true := by
  intro c hc
  simp [Char.isAlphanum, isAlpha_of_map_toLower hwords hcs c hc]

/-- The code points of the blank characters. -/
def blankCodes : List Nat := blanks.flatMap fun r => List.range' r.1 (r.2 + 1 - r.1)

theorem forall_blank {P : Char → Prop} (h : ∀ n ∈ blankCodes, P (Char.ofNat n)) {c : Char}
    (hc : isBlank c = true) : P c := by
  obtain ⟨r, hr, hlow, hhigh⟩ := (Ranges.has_iff blanks c).mp hc
  have hmem : c.toNat ∈ blankCodes := by
    refine List.mem_flatMap.mpr ⟨r, hr, List.mem_range'_1.mpr ?_⟩
    omega
  have hn := h c.toNat hmem
  rwa [Char.ofNat_toNat] at hn

/-- The character stands for itself and is no capital letter: no phrase starts with it. -/
def isBland (c : Char) : Bool := capitals c == [c] && !c.isUpper

theorem isBland_iff {c : Char} : isBland c = true ↔ capitals c = [c] ∧ c.isUpper = false := by
  simp [isBland]

theorem isBland_of_isDigit {c : Char} (h : c.isDigit = true) : isBland c = true :=
  forall_ascii (P := fun c => c.isDigit = true → isBland c = true) (by decide)
    (lt_of_isAlphanum (by simp [Char.isAlphanum, h])) h

theorem isBland_of_isBlank {c : Char} (h : isBlank c = true) : isBland c = true :=
  forall_blank (P := fun c => isBland c = true) (by decide) h

theorem capitals_of_isBlank {c : Char} (h : isBlank c = true) : capitals c = [c] :=
  (isBland_iff.mp (isBland_of_isBlank h)).1

theorem isWordChar_of_isBlank {c : Char} (h : isBlank c = true) : isWordChar c = false :=
  forall_blank (P := fun c => isWordChar c = false) (by decide) h

theorem joinsWord_of_isBlank {c : Char} (h : isBlank c = true) : joinsWord c = false := by
  simp only [joinsWord, capitals_of_isBlank h, isWordChar_of_isBlank h]

theorem inCapitals_append (xs ys : List Char) :
    inCapitals (xs ++ ys) = inCapitals xs ++ inCapitals ys := by simp [inCapitals]

theorem inCapitals_word {w : List Char} (hw : ∀ c ∈ w, c.isAlphanum = true) :
    inCapitals w = w.map Char.toUpper := by
  induction w with
  | nil => rfl
  | cons c w ih =>
    rw [List.forall_mem_cons] at hw
    have hc := capitals_of_isAlphanum hw.1
    have hrest := ih hw.2
    unfold inCapitals at hrest ⊢
    rw [List.flatMap_cons, hc, hrest]
    rfl

/-- The word that a text starts with, in capitals. -/
def firstWord (cs : List Char) : List Char := (inCapitals cs).takeWhile isWordChar

/-- Nothing, or a blank, comes next. -/
def Closes (rest : List Char) : Prop := ∀ c ∈ rest.head?, isBlank c = true

theorem Closes.take {rest : List Char} (h : Closes rest) (n : Nat) : Closes (rest.take n) := by
  intro c hc
  cases n with
  | zero => simp at hc
  | succ n =>
    cases rest with
    | nil => simp at hc
    | cons d rest => exact h c (by simpa using hc)

theorem Closes.stops {rest : List Char} (h : Closes rest) {p : Char → Bool}
    (hp : ∀ c, isBlank c = true → p c = false) : ∀ c ∈ rest.head?, p c = false :=
  fun c hc => hp c (h c hc)

theorem firstWord_eq_nil {rest : List Char} (h : Closes rest) : firstWord rest = [] := by
  cases rest with
  | nil => rfl
  | cons b rest =>
    have hb : isBlank b = true := h b rfl
    have hcap := capitals_of_isBlank hb
    unfold firstWord inCapitals
    rw [List.flatMap_cons, hcap]
    simp [isWordChar_of_isBlank hb]

theorem firstWord_append {w rest : List Char} (hw : ∀ c ∈ w, c.isAlphanum = true)
    (h : Closes rest) : firstWord (w ++ rest) = w.map Char.toUpper := by
  have hall : ∀ c ∈ w.map Char.toUpper, isWordChar c = true := by
    simp only [List.mem_map, forall_exists_index, and_imp, forall_apply_eq_imp_iff₂]
    exact fun c hc => isWordChar_toUpper (hw c hc)
  have hrest := firstWord_eq_nil h
  unfold firstWord at hrest ⊢
  rw [inCapitals_append, inCapitals_word hw, List.takeWhile_append_of_pos hall, hrest,
    List.append_nil]

end Text

open Text

namespace Phrase

/-! ### The table -/

/-- The words of a phrase in capitals. -/
def capital (p : Phrase) : List Char := inCapitals p.words.toList

/-- The first word of a phrase in capitals. -/
def opening (p : Phrase) : List Char := firstWord p.words.toList

theorem capital_eq : ∀ p ∈ all, p.capital = p.words.toList.map Char.toUpper := by decide

theorem length_capital : ∀ p ∈ all, p.capital.length = p.length := by decide

/-- The phrases are in an order in which none is hidden by an earlier one. -/
theorem all_pairwise : all.Pairwise fun q p => ¬ q.capital <+: p.capital := by decide

/-- The second words of the phrases that continue other phrases. -/
def continuations : List (List Char) := ["OR".toList, "EQUAL".toList]

theorem firstWord_not_mem_of_isBland {c : Char} {cs : List Char} (h : isBland c = true) :
    firstWord (c :: cs) ∉ continuations := by
  obtain ⟨hc, hu⟩ := isBland_iff.mp h
  have hupper : ∀ w ∈ continuations, w.head?.any Char.isUpper = true := by decide
  intro hmem
  have hhead := hupper _ hmem
  unfold firstWord inCapitals at hhead
  rw [List.flatMap_cons, hc, List.singleton_append, List.takeWhile_cons] at hhead
  split at hhead
  · simp [hu] at hhead
  · cases hhead

/-- A phrase that starts with another one goes on with more of the last word, or with one of the
continuations and a character that is of no word. -/
theorem capital_prefix : ∀ p ∈ all, ∀ q ∈ all, p.capital <+: q.capital → q = p ∨
    (q.capital.drop p.capital.length).head?.any isWordChar = true ∨
      ((q.capital.drop (p.capital.length + 1)).takeWhile isWordChar ∈ continuations ∧
        (q.capital.drop (p.capital.length + 1)).all isWordChar = false) := by decide

variable {p : Phrase} {before : Option Char}

/-- The characters of a phrase are letters and spaces. -/
theorem words_isLower (hp : p ∈ all) {c : Char} (hc : c ∈ p.words.toList) :
    c = ' ' ∨ c.isLower = true := by
  have hall : ∀ p ∈ all, (p.words.toList.all fun c => c == ' ' || c.isLower) = true := by decide
  simpa using List.all_eq_true.mp (hall p hp) c hc

/-! ### Where a phrase stands -/

theorem startsAt_iff {rest : List Char} : p.startsAt before rest = true ↔
    apart before = true ∧ rest.head?.any joinsWord = true ∧
      inCapitals (rest.take p.length) = p.capital ∧ apart (rest.drop p.length).head? = true ∧
      ¬ (p.yieldsToColon = true ∧ colonNext (rest.drop p.length) = true) := by
  simp only [startsAt, capital, Bool.and_eq_true, beq_iff_eq, Bool.not_eq_true', and_assoc,
    Bool.and_eq_false_iff]
  grind

/-- At a word a phrase can only stand if it starts with that word. -/
theorem opening_of_startsAt {w rest : List Char} (hw : ∀ c ∈ w, c.isAlphanum = true)
    (hrest : Closes rest) (h : p.startsAt before (w ++ rest) = true) :
    p.opening = w.map Char.toUpper ∧ w.length ≤ p.length := by
  obtain ⟨_, _, hcap, hapart, _⟩ := startsAt_iff.mp h
  have hlen : w.length ≤ p.length := by
    by_contra hlt
    have hlt : p.length < w.length := by omega
    have hdrop : (w ++ rest).drop p.length = w[p.length] :: (w.drop (p.length + 1) ++ rest) := by
      rw [List.drop_append_of_le_length (by omega), List.drop_eq_getElem_cons hlt]
      rfl
    rw [hdrop] at hapart
    simp [apart, joinsWord_of_isAlphanum (hw _ (List.getElem_mem hlt))] at hapart
  refine ⟨?_, hlen⟩
  rw [List.take_append, List.take_of_length_le hlen] at hcap
  have hlead := firstWord_append hw (hrest.take (p.length - w.length))
  unfold firstWord at hlead
  rw [hcap] at hlead
  exact hlead

theorem at?_eq_none_of_word {w rest : List Char} (hw : ∀ c ∈ w, c.isAlphanum = true)
    (hrest : Closes rest) (h : ∀ p ∈ all, p.opening ≠ w.map Char.toUpper) :
    at? before (w ++ rest) = none := by
  refine List.find?_eq_none.mpr fun p hp hstarts => ?_
  exact h p hp (opening_of_startsAt hw hrest hstarts).1

theorem at?_eq_none_of_isBland {c : Char} {rest : List Char} (h : isBland c = true) :
    at? before (c :: rest) = none := by
  obtain ⟨hc, hu⟩ := isBland_iff.mp h
  refine List.find?_eq_none.mpr fun p hp hstarts => ?_
  obtain ⟨_, _, hcap, _, _⟩ := startsAt_iff.mp hstarts
  have hhead : ∀ p ∈ all, p.capital.head?.any Char.isUpper = true ∧ p.length ≠ 0 := by decide
  obtain ⟨hupper, hlen⟩ := hhead p hp
  obtain ⟨n, hn⟩ := Nat.exists_eq_succ_of_ne_zero hlen
  rw [hn, List.take_succ_cons] at hcap
  unfold inCapitals at hcap
  rw [List.flatMap_cons, hc] at hcap
  rw [← hcap] at hupper
  simp [hu] at hupper

/-- Inside a word there is no phrase. -/
theorem at?_eq_none_of_joinsWord {c : Char} {rest : List Char} (h : joinsWord c = true) :
    at? (some c) rest = none := by
  refine List.find?_eq_none.mpr fun p _ hstarts => ?_
  have hapart := (startsAt_iff.mp hstarts).1
  simp [apart, h] at hapart

/-- A phrase in any letter case. -/
theorem inCapitals_of_words (hp : p ∈ all) {cs : List Char}
    (hcs : cs.map Char.toLower = p.words.toList) : inCapitals cs = p.capital := by
  rw [capital_eq p hp, ← hcs, List.map_map]
  have hletters : ∀ c ∈ cs, capitals c = [c.toUpper] := by
    intro c hc
    have hmem : c.toLower ∈ p.words.toList := hcs ▸ List.mem_map_of_mem hc
    rcases words_isLower hp hmem with h | h
    · have hspace : c = ' ' := by
        by_cases hu : c.isUpper = true
        · have hl := Char.isLower_toLower_eq_isAlpha c
          rw [h] at hl
          simp [Char.isAlpha, hu] at hl
        · rwa [Char.toLower_eq_of_not_isUpper hu] at h
      subst hspace
      decide
    · rw [Char.isLower_toLower_eq_isAlpha] at h
      exact capitals_of_isAlphanum (by simp [Char.isAlphanum, h])
  clear hcs
  induction cs with
  | nil => rfl
  | cons c cs ih =>
    rw [List.forall_mem_cons] at hletters
    have hrest := ih hletters.2
    unfold inCapitals at hrest ⊢
    rw [List.flatMap_cons, hletters.1, hrest]
    simp

/-- The phrase that is also the keyword before a counted block. -/
def times : Phrase := ⟨"times", .star, true⟩

theorem times_mem : times ∈ all := by decide

/-- The word before a counted block is no phrase where a colon comes next. -/
theorem at?_eq_none_of_colonNext {w rest : List Char} (hw : w.map Char.toLower = times.words.toList)
    (hrest : Closes rest) (hcolon : colonNext rest = true) : at? before (w ++ rest) = none := by
  have halnum := isAlphanum_of_map_toLower (by decide) hw
  have hcap : w.map Char.toUpper = "TIMES".toList := by
    rw [← inCapitals_word halnum, inCapitals_of_words times_mem hw]
    rfl
  have hlen : w.length = 5 := by
    rw [← List.length_map (f := Char.toLower), hw]
    rfl
  refine List.find?_eq_none.mpr fun p hp hstarts => ?_
  have hopening := (opening_of_startsAt halnum hrest hstarts).1
  have hown : ∀ p ∈ all, p.opening = "TIMES".toList → p.yieldsToColon = true ∧ p.length = 5 := by
    decide
  obtain ⟨hyields, hfive⟩ := hown p hp (hopening.trans hcap)
  obtain ⟨_, _, _, _, hnot⟩ := startsAt_iff.mp hstarts
  rw [List.drop_left' (hlen.trans hfive.symm)] at hnot
  exact hnot ⟨hyields, hcolon⟩

/-- Behind blanks there is room for a phrase. -/
theorem apart_blanks {gap : List Char} (h : ∀ c ∈ gap, isBlank c = true)
    (hnil : gap = [] → apart before = true) : apart (gap.getLast?.or before) = true := by
  cases hlast : gap.getLast? with
  | none => exact hnil (List.getLast?_eq_none_iff.mp hlast)
  | some c =>
    have hc := h c (List.mem_of_getLast? hlast)
    simp [apart, joinsWord_of_isBlank hc]

theorem length_of_words {cs : List Char} (hcs : cs.map Char.toLower = p.words.toList) :
    cs.length = p.length := by
  rw [length, ← String.length_toList, ← hcs, List.length_map]

theorem startsAt_of_words (hp : p ∈ all) {cs rest : List Char}
    (hcs : cs.map Char.toLower = p.words.toList) (hbefore : apart before = true)
    (hrest : Closes rest) (hcolon : ¬ (p.yieldsToColon = true ∧ colonNext rest = true)) :
    p.startsAt before (cs ++ rest) = true := by
  have hlen := length_of_words hcs
  have hcap := inCapitals_of_words hp hcs
  refine startsAt_iff.mpr ⟨hbefore, ?_, ?_, ?_, ?_⟩
  · have hhead : ∀ p ∈ all, p.words.toList.head?.any Char.isLower = true := by decide
    have hhead := hhead p hp
    cases cs with
    | nil =>
      rw [← hcs] at hhead
      cases hhead
    | cons c cs =>
      rw [← hcs] at hhead
      have hc : c.isAlphanum = true := by
        simp [Char.isLower_toLower_eq_isAlpha] at hhead
        simp [Char.isAlphanum, hhead]
      simpa using joinsWord_of_isAlphanum hc
  · rw [List.take_left' hlen, hcap]
  · rw [List.drop_left' hlen]
    cases rest with
    | nil => rfl
    | cons b rest => simp [apart, joinsWord_of_isBlank (hrest b rfl)]
  · rwa [List.drop_left' hlen]

/-- What follows a phrase does not continue it to another one. -/
theorem not_startsAt_longer (hp : p ∈ all) {q : Phrase} (hq : q ∈ all) {cs rest : List Char}
    (hcs : cs.map Char.toLower = p.words.toList) (hrest : Closes rest)
    (hnext : firstWord rest.tail ∉ continuations) (hlt : p.length < q.length) :
    ¬ q.startsAt before (cs ++ rest) = true := by
  intro hstarts
  obtain ⟨_, _, hcap, _, _⟩ := startsAt_iff.mp hstarts
  have hlen := length_of_words hcs
  rw [List.take_append, List.take_of_length_le (by omega), inCapitals_append,
    inCapitals_of_words hp hcs] at hcap
  rcases rest with _ | ⟨b, rest⟩
  · have hsame := congrArg List.length hcap
    simp [inCapitals, length_capital p hp, length_capital q hq] at hsame
    omega
  · obtain ⟨k, hk⟩ : ∃ k, q.length - cs.length = k + 1 :=
      ⟨q.length - cs.length - 1, by omega⟩
    have hb : isBlank b = true := hrest b rfl
    have hsplit : q.capital = p.capital ++ b :: inCapitals (rest.take k) := by
      rw [← hcap, hk, List.take_succ_cons]
      simp [inCapitals, capitals_of_isBlank hb]
    -- the longer phrase goes on behind the blank, with a word that the text does not have there
    rcases capital_prefix p hp q hq ⟨_, hsplit.symm⟩ with rfl | hword | ⟨hmem, hall⟩
    · omega
    · rw [hsplit, List.drop_left] at hword
      simp [isWordChar_of_isBlank hb] at hword
    · have hdrop : q.capital.drop (p.capital.length + 1) = inCapitals (rest.take k) := by
        rw [hsplit, ← List.drop_drop, List.drop_left]
        rfl
      rw [hdrop] at hmem hall
      refine hnext ?_
      have hwhole : inCapitals rest = inCapitals (rest.take k) ++ inCapitals (rest.drop k) := by
        rw [← inCapitals_append, List.take_append_drop]
      unfold firstWord
      rw [List.tail_cons, hwhole, List.takeWhile_append, if_neg]
      · exact hmem
      · intro hsame
        have hfull := (List.takeWhile_prefix isWordChar).eq_of_length hsame
        rw [List.takeWhile_eq_self_iff] at hfull
        simp only [List.all_eq_false] at hall
        obtain ⟨c, hc, hnot⟩ := hall
        exact hnot (hfull c hc)

/-- A phrase of the table is found, unless the text goes on to a longer one or the phrase gives way
to a colon. -/
theorem at?_eq_some (hp : p ∈ all) {cs rest : List Char}
    (hcs : cs.map Char.toLower = p.words.toList) (hbefore : apart before = true)
    (hrest : Closes rest) (hcolon : ¬ (p.yieldsToColon = true ∧ colonNext rest = true))
    (hnext : firstWord rest.tail ∉ continuations) : at? before (cs ++ rest) = some p := by
  have hstarts := startsAt_of_words hp hcs hbefore hrest hcolon
  have hfound : (at? before (cs ++ rest)).isSome = true :=
    List.find?_isSome.mpr ⟨p, hp, hstarts⟩
  obtain ⟨q, hq⟩ := Option.isSome_iff_exists.mp hfound
  obtain ⟨hqstarts, earlier, later, hall, hearlier⟩ := List.find?_eq_some_iff_append.mp hq
  have hmem : p ∈ earlier ++ q :: later := hall ▸ hp
  have hqmem : q ∈ all := List.mem_of_find?_eq_some hq
  rcases List.mem_append.mp hmem with h | h
  · have hnot := hearlier p h
    rw [hstarts] at hnot
    cases hnot
  · rcases List.mem_cons.mp h with rfl | h
    · exact hq
    · -- an earlier phrase `q` is no prefix of `p`, and a longer one does not stand here
      exfalso
      have hpair := all_pairwise
      rw [hall, List.pairwise_append] at hpair
      have hhidden := (List.pairwise_cons.mp hpair.2.1).1 p h
      by_cases hlt : p.length < q.length
      · exact not_startsAt_longer hp hqmem hcs hrest hnext hlt hqstarts
      · obtain ⟨_, _, hcap, _, _⟩ := startsAt_iff.mp hqstarts
        have hlen := length_of_words hcs
        rw [List.take_append_of_le_length (by omega)] at hcap
        refine hhidden ⟨inCapitals (cs.drop q.length), ?_⟩
        rw [← hcap, ← inCapitals_append, List.take_append_drop, inCapitals_of_words hp hcs]

end Phrase
end Parlance
