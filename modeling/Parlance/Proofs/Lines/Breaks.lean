import Parlance.Proofs.Lines.Beginnings
import Parlance.Proofs.Lines.Tails
/-!
# Texts cut at a line break

The first lines of a text have the first tokens of the whole text, but perhaps for the last one
(`tokens_beginning`): a literal may be cut, and a word before a counted block is taken for an
operator as long as its colon has not come. What comes behind a program is read as it is alone
(`tokens_behind`).
-/
namespace Parlance
open Text Token Parse Grammar

variable {zone : Zone} {before : Option Char} {pos : Nat} {a b u w : List Char} {c : Char}

/-! ### Characters with two capitals -/

theorem stray_of_le {c : Char} (h : 128 ≤ c.toNat) (hblank : isBlank c = false) : Stray c where
  blank := hblank
  hash := by
    rintro rfl
    revert h
    decide
  quote := by
    rintro rfl
    revert h
    decide
  token := by
    rintro (rfl | hname | ⟨s, hs⟩)
    · revert h
      decide
    · simp only [continuesName, Bool.or_eq_true, beq_iff_eq] at hname
      rcases hname with rfl | hname
      · revert h
        decide
      · have hlt := lt_of_isAlphanum hname
        omega
    · have hall : (s.spelling.toList.all fun c => c.toNat < 128) = true := by
        cases s <;> decide
      have hlt := List.all_eq_true.mp hall c hs
      simp only [decide_eq_true_eq] at hlt
      omega

/-- A character that is not its own letter stands for one or two letters, and stands in no token. -/
theorem capitals_cases (c : Char) : (Stray c ∧ (capitals c = ['S'] ∨ capitals c = ['I'] ∨
      capitals c = ['S', 'S'] ∨ capitals c = ['S', 'T'])) ∨ capitals c = [c.toUpper] := by
  by_cases hc : c ∈ ['\u017F', '\u0131', '\u00DF', '\uFB05', '\uFB06']
  · simp only [List.mem_cons, List.not_mem_nil, or_false] at hc
    rcases hc with rfl | rfl | rfl | rfl | rfl
    · exact .inl ⟨stray_of_le (by decide) (by decide), .inl rfl⟩
    · exact .inl ⟨stray_of_le (by decide) (by decide), .inr (.inl rfl)⟩
    · exact .inl ⟨stray_of_le (by decide) (by decide), .inr (.inr (.inl rfl))⟩
    · exact .inl ⟨stray_of_le (by decide) (by decide), .inr (.inr (.inr rfl))⟩
    · exact .inl ⟨stray_of_le (by decide) (by decide), .inr (.inr (.inr rfl))⟩
  · simp only [List.mem_cons, List.not_mem_nil, or_false, not_or] at hc
    obtain ⟨h₁, h₂, h₃, h₄, h₅⟩ := hc
    exact .inr (by simp [capitals, h₁, h₂, h₃, h₄, h₅])

theorem one_le_capitals (c : Char) : 1 ≤ (capitals c).length := by
  rcases capitals_cases c with ⟨_, h | h | h | h⟩ | h <;> simp [h]

theorem length_le_inCapitals (u : List Char) : u.length ≤ (inCapitals u).length := by
  induction u with
  | nil => exact Nat.le_refl _
  | cons c u ih =>
    have hsplit : inCapitals (c :: u) = capitals c ++ inCapitals u := rfl
    have hc := one_le_capitals c
    rw [hsplit, List.length_append, List.length_cons]
    omega

/-- A text that is as long as its capitals has one for each character. -/
theorem length_capitals_eq_one (h : (inCapitals u).length ≤ u.length) :
    ∀ c ∈ u, (capitals c).length = 1 := by
  induction u with
  | nil => simp
  | cons c u ih =>
    have hsplit : inCapitals (c :: u) = capitals c ++ inCapitals u := rfl
    have hc := one_le_capitals c
    have hu := length_le_inCapitals u
    rw [hsplit, List.length_append, List.length_cons] at h
    rw [List.forall_mem_cons]
    exact ⟨by omega, ih (by omega)⟩

/-- A text that is shorter than its capitals has a character with two of them. -/
theorem exists_double (h : u.length < (inCapitals u).length) : ∃ c ∈ u, Stray c ∧
    (capitals c = ['S', 'S'] ∨ capitals c = ['S', 'T']) := by
  by_contra hnone
  have hone : ∀ c ∈ u, (capitals c).length = 1 := by
    intro c hc
    rcases capitals_cases c with ⟨hstray, hs | hi | hdouble⟩ | hupper
    · rw [hs]
      rfl
    · rw [hi]
      rfl
    · exact absurd ⟨c, hc, hstray, hdouble⟩ hnone
    · rw [hupper]
      rfl
  have hsame : (inCapitals u).length = u.length := by
    rw [inCapitals, List.length_flatMap, List.map_congr_left hone]
    simp
  omega

/-- A text in the place of the word before a counted block is that word, or has a stray character. -/
theorem word_of_times (h : inCapitals w = Phrase.times.capital) :
    (∃ c ∈ w, Stray c) ∨ w.map Char.toLower = Keyword.timesWord.spelling.toList := by
  by_cases hstray : ∃ c ∈ w, Stray c
  · exact .inl hstray
  · have hupper : ∀ c ∈ w, capitals c = [c.toUpper] := by
      intro c hc
      rcases capitals_cases c with ⟨hc', _⟩ | hupper
      · exact absurd ⟨c, hc, hc'⟩ hstray
      · exact hupper
    have hmap : w.map Char.toUpper = Phrase.times.capital := by
      rw [← h, inCapitals, List.flatMap_congr hupper, List.map_eq_flatMap]
    have halnum : ∀ c ∈ w, c.isAlphanum = true := by
      intro c hc
      have hmem : c.toUpper ∈ Phrase.times.capital := hmap ▸ List.mem_map_of_mem hc
      have hall : (Phrase.times.capital.all Char.isUpper) = true := by decide
      have hletter := List.all_eq_true.mp hall _ hmem
      by_cases hlower : c.isLower = true
      · simp [Char.isAlphanum, Char.isAlpha, hlower]
      · rw [Char.toUpper_eq_of_not_isLower hlower] at hletter
        simp [Char.isAlphanum, Char.isAlpha, hletter]
    refine .inr ?_
    rw [← map_toLower_toUpper halnum, hmap]
    decide

/-! ### What is kept of a text -/

/-- The marks of characters in a row. -/
def marksFrom (pos : Nat) : List Char → List Mark
  | [] => []
  | c :: cs => ⟨c, pos⟩ :: marksFrom (pos + 1) cs

theorem chars_marksFrom (pos : Nat) (cs : List Char) : (marksFrom pos cs).map Mark.char = cs := by
  induction cs generalizing pos with
  | nil => rfl
  | cons c cs ih => rw [marksFrom, List.map_cons, ih]

theorem mem_marksFrom {P : Char → Prop} (h : ∀ c ∈ u, P c) (pos : Nat) :
    ∀ x ∈ marksFrom pos u, P x.char := by
  intro x hx
  refine h x.char ?_
  rw [← chars_marksFrom pos u]
  exact List.mem_map_of_mem hx

/-- Blanks stay. -/
theorem passed_blanks (hz : ∀ n, zone ≠ .phrase (n + 1)) (hplain : zone.plain = .code)
    (hu : ∀ d ∈ u, isBlank d = true) : passed zone before pos u b = marksFrom pos u := by
  induction u generalizing zone before pos with
  | nil => rfl
  | cons d u ih =>
    rw [List.forall_mem_cons] at hu
    have hnext : zone.plain.quote d = .code := by
      rw [hplain]
      refine if_neg ?_
      rintro rfl
      cases hu.1
    have hcode : ∀ n, Zone.code ≠ .phrase (n + 1) := nofun
    rw [passed_of_isBland hz (isBland_of_isBlank hu.1), hnext, marksFrom, ih hcode rfl hu.2]

/-- Behind a character of a word no phrase starts. -/
theorem step_of_joinsWord {d : Char} (hd : joinsWord d = true) (hc : c ≠ '"') (pos : Nat)
    (rest : List Char) : Zone.code.emit (some d) pos c rest = [⟨c, pos⟩] ∧
      Zone.code.next (some d) c rest = .code := by
  have hnone : Phrase.at? (some d) (c :: rest) = none := Phrase.at?_eq_none_of_joinsWord hd
  simp only [Zone.emit, Zone.next, Zone.fromCode, if_neg hc, hnone, and_self]

/-- What goes on with a word stays. -/
theorem passed_word {d : Char} (hd : joinsWord d = true)
    (hw : ∀ c ∈ w, joinsWord c = true ∧ c ≠ '"') :
    passed .code (some d) pos w b = marksFrom pos w ∧ zoneAfter .code (some d) w b = .code := by
  induction w generalizing d pos with
  | nil => exact ⟨rfl, rfl⟩
  | cons c w ih =>
    rw [List.forall_mem_cons] at hw
    obtain ⟨hemit, hnext⟩ := step_of_joinsWord hd hw.1.2 pos (w ++ b)
    obtain ⟨hpassed, hzone⟩ := @ih (pos + 1) c hw.1.1 hw.2
    simp only [passed, zoneAfter, hemit, hnext, hpassed, hzone, marksFrom, List.singleton_append,
      and_self]

/-- Inside a phrase nothing is left of a text. -/
theorem passed_phrase {n : Nat} (h : u.length ≤ n) :
    passed (.phrase n) before pos u b = [] := by
  induction u generalizing before pos n with
  | nil => rfl
  | cons c u ih =>
    rw [List.length_cons] at h
    obtain ⟨m, rfl⟩ : ∃ m, n = m + 1 := ⟨n - 1, by omega⟩
    have hstep : passed (.phrase (m + 1)) before pos (c :: u) b
        = passed (.phrase m) (some c) (pos + 1) u b := rfl
    rw [hstep, ih (by omega)]

/-- What is still to come of a phrase has one capital for each character. -/
def Zone.Single (zone : Zone) (rest : List Char) : Prop :=
  ∀ n, zone = .phrase n → ∀ c ∈ rest.take n, (capitals c).length = 1

theorem Zone.Single.of_plain (h : zone.plain = zone) : zone.Single u := by
  rintro n rfl
  cases h

/-- A phrase that is over before the end takes up as many characters as it has capitals. -/
theorem single_of_at? (hb : Blocks b) {p : Phrase} (h : Phrase.at? before (c :: (u ++ b)) = some p) :
    0 < p.length ∧ ∀ d ∈ (c :: u).take p.length, (capitals d).length = 1 := by
  obtain ⟨hp, hstarts⟩ := at?_mem h
  have hcap := (Phrase.startsAt_iff.mp hstarts).2.2.1
  have hlen : p.length ≤ (c :: u).length := by
    by_contra hlt
    exact hb p hp (c :: u) (List.cons_ne_nil c u) (by omega) hcap
  refine ⟨length_pos hp, length_capitals_eq_one ?_⟩
  rw [← List.cons_append, List.take_append_of_le_length hlen] at hcap
  rw [hcap, Phrase.length_capital p hp, List.length_take, Nat.min_eq_left hlen]

theorem Zone.Single.fromCode (hb : Blocks b) (before : Option Char) (c : Char) (u : List Char) :
    (Zone.fromCode before c (u ++ b)).Single u := by
  unfold Zone.fromCode
  split
  · exact nofun
  · cases hat : Phrase.at? before (c :: (u ++ b)) with
    | none => exact nofun
    | some p =>
      obtain ⟨hpos, hsingle⟩ := single_of_at? hb hat
      obtain ⟨n, hn⟩ := Nat.exists_eq_add_of_lt hpos
      rintro _ ⟨⟩ d hd
      refine hsingle d ?_
      rw [hn] at hd ⊢
      rw [List.take_succ_cons]
      exact List.mem_cons_of_mem c hd

theorem Zone.Single.next (hb : Blocks b) (h : zone.Single (c :: u)) :
    (zone.next before c (u ++ b)).Single u := by
  cases zone with
  | literal => exact .of_plain (plain_fromLiteral c)
  | escape => exact nofun
  | code => exact .fromCode hb before c u
  | phrase left =>
    cases left with
    | zero => exact .fromCode hb before c u
    | succ left =>
      rintro _ ⟨⟩ d hd
      exact h _ rfl d (List.mem_cons_of_mem c hd)

/-- A character with two capitals belongs to no phrase that is over, and stays. -/
theorem mem_passed_of_double (hb : Blocks b) (hz : zone.Single u) (hc : c ∈ u)
    (hdouble : (capitals c).length = 2) : ∃ x ∈ passed zone before pos u b, x.char = c := by
  induction u generalizing zone before pos with
  | nil => cases hc
  | cons d u ih =>
    rw [passed]
    rcases List.mem_cons.mp hc with rfl | hc
    · have hcode : Zone.code.emit before pos c (u ++ b) = [⟨c, pos⟩] := by
        cases hat : Phrase.at? before (c :: (u ++ b)) with
        | none => simp only [Zone.emit, hat, ite_self]
        | some p =>
          obtain ⟨hpos, hsingle⟩ := single_of_at? hb hat
          obtain ⟨n, hn⟩ := Nat.exists_eq_add_of_lt hpos
          have hone := hsingle c (by simp [hn])
          omega
      have hemit : zone.emit before pos c (u ++ b) = [⟨c, pos⟩] := by
        cases zone with
        | literal => rfl
        | escape => rfl
        | code => exact hcode
        | phrase left =>
          cases left with
          | zero => exact hcode
          | succ left =>
            have hone := hz _ rfl c (by simp)
            omega
      rw [hemit]
      exact ⟨⟨c, pos⟩, List.mem_append_left _ List.mem_cons_self, rfl⟩
    · obtain ⟨x, hx, hchar⟩ : ∃ x ∈ passed (zone.next before d (u ++ b)) (some d) (pos + 1) u b,
          x.char = c := ih (hz.next hb) hc
      exact ⟨x, List.mem_append_right _ hx, hchar⟩

/-! ### The phrase at the end of a beginning -/

theorem blocks_break (b : List Char) : Blocks ('\n' :: b) := .of_not_isPhrasal (by decide) b

/-- Only one phrase starts with the letter of the word before a counted block. -/
theorem eq_times {p : Phrase} (hp : p ∈ Phrase.all) (h : p.startsAt before u = true)
    (htimes : (inCapitals u).head? = some 'T') : p = Phrase.times := by
  have hall : ∀ p ∈ Phrase.all, p.capital.head? = some 'T' → p = Phrase.times := by decide
  refine hall p hp ?_
  have hcap := (Phrase.startsAt_iff.mp h).2.2.1
  have hsplit : inCapitals u = p.capital ++ inCapitals (u.drop p.length) := by
    rw [← hcap, ← inCapitals_append, List.take_append_drop]
  have hne : p.capital ≠ [] := by
    have hall : ∀ p ∈ Phrase.all, p.capital ≠ [] := by decide
    exact hall p hp
  rw [hsplit, List.head?_append_of_ne_nil _ hne] at htimes
  exact htimes

theorem capitals_isInfix_of_mem (hc : c ∈ u) : capitals c <:+: inCapitals u := by
  obtain ⟨x, y, rfl⟩ := List.append_of_mem hc
  exact ⟨inCapitals x, inCapitals y, by simp [inCapitals]⟩

/-- The phrases that may take up fewer characters than they have stand for a comparison. -/
theorem symbol_of_double {p : Phrase} (hp : p ∈ Phrase.all) (hcap : inCapitals u = p.capital)
    (hlt : u.length < p.length) : p.symbol ∈ [Symbol.less, .lessEqual, .greaterEqual] ∧
      ∃ c ∈ u, Stray c ∧ (capitals c).length = 2 := by
  have hall : ∀ p ∈ Phrase.all, ['S', 'S'] <:+: p.capital ∨ ['S', 'T'] <:+: p.capital →
      p.symbol ∈ [Symbol.less, .lessEqual, .greaterEqual] := by decide
  rw [← Phrase.length_capital p hp, ← hcap] at hlt
  obtain ⟨c, hc, hstray, hdouble⟩ := exists_double hlt
  have hinfix := capitals_isInfix_of_mem hc
  rw [hcap] at hinfix
  rcases hdouble with hdouble | hdouble
  · rw [hdouble] at hinfix
    exact ⟨hall p hp (.inl hinfix), c, hc, hstray, by rw [hdouble]; rfl⟩
  · rw [hdouble] at hinfix
    exact ⟨hall p hp (.inr hinfix), c, hc, hstray, by rw [hdouble]; rfl⟩

theorem AwaitsColon.length_le (h : AwaitsColon before u) : Phrase.times.length ≤ u.length := by
  by_contra hlt
  have hcap := (Phrase.startsAt_iff.mp h.1).2.2.1
  rw [List.take_of_length_le (by omega)] at hcap
  have hsymbol := (symbol_of_double Phrase.times_mem hcap (by omega)).1
  revert hsymbol
  decide

theorem head_of_times (h : Phrase.times.startsAt before u = true) (b : List Char) :
    (inCapitals (u ++ b)).head? = some 'T' := by
  have hcap := (Phrase.startsAt_iff.mp h).2.2.1
  have hsplit : inCapitals (u ++ b)
      = Phrase.times.capital ++ (inCapitals (u.drop Phrase.times.length) ++ inCapitals b) := by
    rw [← hcap, ← List.append_assoc, ← inCapitals_append, ← inCapitals_append,
      List.take_append_drop]
  rw [hsplit]
  rfl

/-- At the end of a text the word is taken for an operator. -/
theorem AwaitsColon.at?_alone (h : AwaitsColon before u) :
    Phrase.at? before u = some Phrase.times := by
  have hfound : (Phrase.at? before u).isSome = true :=
    List.find?_isSome.mpr ⟨Phrase.times, Phrase.times_mem, h.1⟩
  obtain ⟨p, hp⟩ := Option.isSome_iff_exists.mp hfound
  obtain ⟨hmem, hstarts⟩ := at?_mem hp
  have hhead := head_of_times h.1 []
  rw [List.append_nil] at hhead
  rw [hp, eq_times hmem hstarts hhead]

/-- Where the colon comes next the word is no phrase. -/
theorem AwaitsColon.at?_eq_none (h : AwaitsColon before u) (hcolon : Phrase.colonNext b = true) :
    Phrase.at? before (u ++ b) = none := by
  cases hat : Phrase.at? before (u ++ b) with
  | none => rfl
  | some p =>
    exfalso
    obtain ⟨hmem, hstarts⟩ := at?_mem hat
    obtain rfl := eq_times hmem hstarts (head_of_times h.1 b)
    have hyields := (Phrase.startsAt_iff.mp hstarts).2.2.2.2
    rw [List.drop_append_of_le_length h.length_le, colonNext_append, if_pos h.2] at hyields
    exact hyields ⟨rfl, hcolon⟩

/-- Where a beginning and the whole go apart: a phrase is found at the end of the beginning that
takes up fewer characters than it has, or the word before a counted block. -/
theorem apart_at (hne : Phrase.at? before (u ++ '\n' :: b) ≠ Phrase.at? before u) (hu : u ≠ []) :
    (∃ p, Phrase.at? before u = some p ∧ u.length < p.length) ∨
      AwaitsColon before u ∧ Phrase.colonNext ('\n' :: b) = true := by
  by_contra hnone
  rw [not_or, not_exists, not_and, Bool.not_eq_true] at hnone
  refine hne ?_
  have hnil : Phrase.colonNext [] = false := rfl
  have hin : ∀ p, Phrase.at? before (u ++ []) = some p → p.length ≤ u.length := by
    intro p hp
    rw [List.append_nil] at hp
    exact Nat.le_of_not_lt fun hlt => hnone.1 p ⟨hp, hlt⟩
  have hsame := at?_congr hu (blocks_break b) rfl (fun _ _ _ _ => rfl)
    (fun hawaits => hnil.trans (hnone.2 hawaits).symm) hin
  rwa [List.append_nil] at hsame

/-- Where a phrase is found its symbol is written and its characters are passed over. -/
theorem step_of_at? (hzone : zone = .code ∨ zone = .phrase 0) (hc : c ≠ '"') {p : Phrase}
    (h : Phrase.at? before (c :: u) = some p) (pos : Nat) :
    zone.emit before pos c u = p.symbol.marks pos ∧
      zone.next before c u = .phrase (p.length - 1) := by
  rcases hzone with rfl | rfl
  · simp only [Zone.emit, Zone.next, Zone.fromCode, if_neg hc, h, and_self]
  · simp only [Zone.emit, Zone.next, Zone.fromCode, if_neg hc, h, and_self]

theorem step_of_none (hzone : zone = .code ∨ zone = .phrase 0) (hc : c ≠ '"')
    (h : Phrase.at? before (c :: u) = none) (pos : Nat) :
    zone.emit before pos c u = [⟨c, pos⟩] ∧ zone.next before c u = .code := by
  rcases hzone with rfl | rfl
  · simp only [Zone.emit, Zone.next, Zone.fromCode, if_neg hc, h, and_self]
  · simp only [Zone.emit, Zone.next, Zone.fromCode, if_neg hc, h, and_self]

theorem ne_of_isPhrasal (h : isPhrasal c = true) :
    c ≠ '"' ∧ c ≠ '#' ∧ isLineBreak c = false := by
  refine ⟨ne_quote_of_isPhrasal h, ?_, ?_⟩
  · rintro rfl
    revert h
    decide
  · by_contra hbreak
    have hc : c = '\r' ∨ c = '\n' := by
      rw [Bool.not_eq_false] at hbreak
      simpa [isLineBreak] using hbreak
    rcases hc with rfl | rfl
    · revert h
      decide
    · revert h
      decide

/-- A phrase at the end that takes up fewer characters than it has is none in the whole, where one of
its characters is stray. -/
theorem ends_of_short (hzone : zone = .code ∨ zone = .phrase 0) (hc : c ≠ '"') {p : Phrase}
    (h : Phrase.at? before (c :: u) = some p) (hlt : (c :: u).length < p.length) (pos : Nat)
    (b : List Char) (X N : List Mark) : Ends X N (canonicalFrom zone before pos (c :: u))
      (passed zone before pos (c :: u) ('\n' :: b) ++ N) := by
  obtain ⟨hp, hstarts⟩ := at?_mem h
  have hcap := (Phrase.startsAt_iff.mp hstarts).2.2.1
  rw [List.take_of_length_le (by omega)] at hcap
  obtain ⟨hsymbol, d, hd, hstray, hdouble⟩ := symbol_of_double hp hcap hlt
  have hmarks : canonicalFrom zone before pos (c :: u) = p.symbol.marks pos ++ [] := by
    obtain ⟨hemit, hnext⟩ := step_of_at? hzone hc h pos
    rw [List.length_cons] at hlt
    rw [canonicalFrom_cons, hemit, hnext, ← passed_nil, passed_phrase (by omega)]
  rw [hmarks]
  refine .operator ?_ ?_ (by simp) (.inl ?_)
  · simp only [List.mem_cons, List.not_mem_nil, or_false] at hsymbol ⊢
    tauto
  · intro x hx
    rcases mem_passed hx with hmem | ⟨q, hq, hmem⟩
    · exact ne_of_isPhrasal (isPhrasal_of_inCapitals hp hcap _ hmem)
    · obtain ⟨hquote, hhash, _, hblank⟩ := symbol_chars hq hmem
      refine ⟨hquote, hhash, ?_⟩
      by_contra hbreak
      rw [isBlank_of_isLineBreak (by simpa using hbreak)] at hblank
      cases hblank
  · have hsingle : zone.Single (c :: u) := by
      rcases hzone with rfl | rfl
      · exact nofun
      · rintro _ ⟨⟩ e he
        cases he
    obtain ⟨x, hx, hchar⟩ : ∃ x ∈ passed zone before pos (c :: u) ('\n' :: b), x.char = d :=
      mem_passed_of_double (blocks_break b) hsingle hd hdouble
    exact ⟨x, hx, hchar ▸ hstray⟩

/-- Where the colon of a counted block comes next, the first token is a colon. -/
theorem colon_of_colonNext (hz : ∀ n, zone ≠ .phrase (n + 1)) (hplain : zone.plain = .code)
    (h : Phrase.colonNext b = true) {vs : List Token}
    (hvs : scanAll (canonicalFrom zone before pos b) = .ok vs) :
    ∃ v us, vs = v :: us ∧ IsSign .colon v := by
  induction b generalizing zone before pos with
  | nil => cases h
  | cons d b ih =>
    have hcode : ∀ n, Zone.code ≠ .phrase (n + 1) := nofun
    rw [canonicalFrom_cons] at hvs
    cases hgap : Phrase.isGap d with
    | true =>
      have hblank : isBlank d = true := by
        simp only [Phrase.isGap, Bool.or_eq_true, beq_iff_eq] at hgap
        rcases hgap with ((rfl | rfl) | rfl) | rfl <;> rfl
      obtain ⟨hemit, hnext⟩ := step_of_isBland before pos b hz (isBland_of_isBlank hblank)
      have hquote : zone.plain.quote d = .code := by
        rw [hplain]
        refine if_neg ?_
        rintro rfl
        cases hblank
      rw [hemit, hnext, hquote, List.singleton_append, scanAll_blank hblank] at hvs
      refine ih hcode rfl ?_ hvs
      unfold Phrase.colonNext at h ⊢
      rwa [List.dropWhile_cons, hgap] at h
    | false =>
      obtain rfl : d = ':' := by
        unfold Phrase.colonNext at h
        rw [List.dropWhile_cons, hgap] at h
        simpa using h
      obtain ⟨hemit, _⟩ := step_of_isBland before pos b hz (d := ':') (by decide)
      rw [hemit, List.singleton_append] at hvs
      generalize canonicalFrom (zone.next before ':' b) (some ':') (pos + 1) b = rest at hvs
      rcases scanAll_cons_eq_ok.mp hvs with ⟨hb, _⟩ | ⟨hc, _⟩ | ⟨_, _, t, after, ts, hs, _, rfl⟩
      · cases hb
      · cases hc
      · refine ⟨t, ts, rfl, ?_⟩
        have hcolon :=
          scan_single (c := ':') rfl (fun d => by simp [Symbol.double?]) (by decide) pos rest
        rw [hcolon] at hs
        cases hs
        rfl

/-- The word before a counted block as it stands in a text, and the space behind it. -/
theorem AwaitsColon.split (h : AwaitsColon before (c :: u)) : ∃ w gap, u = w ++ gap ∧
    w.length = Phrase.times.length - 1 ∧ inCapitals (c :: w) = Phrase.times.capital ∧
      (∀ d ∈ c :: w, joinsWord d = true ∧ d ≠ '"' ∧ d ≠ '#' ∧ isLineBreak d = false) ∧
        ∀ d ∈ gap, isBlank d = true := by
  have hlen := h.length_le
  have hfive : Phrase.times.length = 4 + 1 := by decide
  have hcap := (Phrase.startsAt_iff.mp h.1).2.2.1
  have hgap := h.2
  rw [hfive, List.length_cons] at hlen
  rw [hfive, List.take_succ_cons] at hcap
  rw [hfive, List.drop_succ_cons] at hgap
  have htake : (u.take 4).length = 4 := by rw [List.length_take]; omega
  refine ⟨u.take 4, u.drop 4, (List.take_append_drop 4 u).symm, htake, hcap, fun d hd => ?_,
    fun d hd => ?_⟩
  · have hone := length_capitals_eq_one (u := c :: u.take 4) (by
      rw [hcap, List.length_cons, htake]
      decide) d hd
    refine ⟨?_, ne_of_isPhrasal (isPhrasal_of_inCapitals Phrase.times_mem hcap d hd)⟩
    have hinfix := (capitals_isInfix_of_mem hd).subset
    rw [hcap] at hinfix
    obtain ⟨x, hx⟩ := List.length_eq_one_iff.mp hone
    have hmem : x ∈ Phrase.times.capital := hinfix (by rw [hx]; exact List.mem_cons_self)
    have hall : (Phrase.times.capital.all isWordChar) = true := by decide
    simp only [joinsWord, hx]
    exact List.all_eq_true.mp hall x hmem
  · have hspace := List.all_eq_true.mp hgap d hd
    simp only [Phrase.isGap, Bool.or_eq_true, beq_iff_eq] at hspace
    rcases hspace with ((rfl | rfl) | rfl) | rfl <;> rfl

/-- The word before a counted block is taken for an operator if the colon has not come yet. -/
theorem ends_of_awaits (hzone : zone = .code ∨ zone = .phrase 0) (h : AwaitsColon before (c :: u))
    (hcolon : Phrase.colonNext ('\n' :: b) = true) (pos : Nat) {X N : List Mark}
    (hX : ∀ x ∈ X.getLast?, joinsWord x.char = false)
    (hN : ∀ vs, scanAll N = .ok vs → ∃ v us, vs = v :: us ∧ IsSign .colon v) :
    Ends X N (canonicalFrom zone before pos (c :: u))
      (passed zone before pos (c :: u) ('\n' :: b) ++ N) := by
  have hcode : ∀ n, Zone.code ≠ .phrase (n + 1) := nofun
  have hdone : ∀ n, Zone.phrase 0 ≠ .phrase (n + 1) := nofun
  have halone := h.at?_alone
  have hwhole := h.at?_eq_none hcolon
  obtain ⟨w, gap, rfl, hlen, hcap, hw, hgap⟩ := h.split
  have hwords : ∀ d ∈ w, joinsWord d = true ∧ d ≠ '"' :=
    fun d hd => ⟨(hw d (List.mem_cons_of_mem c hd)).1, (hw d (List.mem_cons_of_mem c hd)).2.1⟩
  rw [List.forall_mem_cons] at hw
  have hbeginning : canonicalFrom zone before pos (c :: (w ++ gap))
      = Symbol.star.marks pos ++ marksFrom (pos + 1 + w.length) gap := by
    obtain ⟨hemit, hnext⟩ := step_of_at? hzone hw.1.2.1 halone pos
    have hphrase : passed (.phrase w.length) (some c) (pos + 1) w gap = [] :=
      passed_phrase (Nat.le_refl _)
    have hzero : zoneAfter (.phrase w.length) (some c) w gap = .phrase 0 := by
      rw [zoneAfter_phrase (Nat.le_refl _), Nat.sub_self]
    rw [canonicalFrom_cons, hemit, hnext, ← hlen, canonicalFrom_append, hphrase, hzero,
      ← passed_nil (.phrase 0), passed_blanks hdone rfl hgap]
    rfl
  have hkept : passed zone before pos (c :: (w ++ gap)) ('\n' :: b)
      = marksFrom pos (c :: w) ++ marksFrom (pos + 1 + w.length) gap := by
    obtain ⟨hemit, hnext⟩ : zone.emit before pos c (w ++ gap ++ '\n' :: b) = [⟨c, pos⟩] ∧
        zone.next before c (w ++ gap ++ '\n' :: b) = .code :=
      step_of_none hzone hw.1.2.1 hwhole pos
    obtain ⟨hpassed, hzone'⟩ :
        passed .code (some c) (pos + 1) w (gap ++ '\n' :: b) = marksFrom (pos + 1) w ∧
          zoneAfter .code (some c) w (gap ++ '\n' :: b) = .code := passed_word hw.1.1 hwords
    rw [passed, hemit, hnext, passed_append, hpassed, hzone', passed_blanks hcode rfl hgap]
    rfl
  rw [hbeginning, hkept, List.append_assoc]
  refine .operator (by simp) ?_ (mem_marksFrom hgap _) ?_
  · exact mem_marksFrom (P := fun d => d ≠ '"' ∧ d ≠ '#' ∧ isLineBreak d = false)
      (List.forall_mem_cons.mpr ⟨hw.1.2, fun d hd => (hw.2 d hd).2⟩) pos
  · rcases word_of_times hcap with ⟨d, hd, hstray⟩ | hword
    · refine .inl ?_
      rw [← chars_marksFrom pos (c :: w)] at hd
      obtain ⟨x, hx, rfl⟩ := List.mem_map.mp hd
      exact ⟨x, hx, hstray⟩
    · exact .inr ⟨rfl, by rw [chars_marksFrom, hword], hX, hN⟩

/-! ### The canonical text of a beginning -/

/-- The marks before a place where a phrase may start do not end with a character of a word: inside a
phrase its symbol comes last. -/
def Linked (zone : Zone) (before : Option Char) (X : List Mark) : Prop :=
  ((∃ n, zone = .phrase n) ∨ Phrase.apart before = true) → ∀ x ∈ X.getLast?, joinsWord x.char = false

theorem Linked.next {X : List Mark} (h : Linked zone before X) (c : Char) (rest : List Char) :
    Linked (zone.next before c rest) (some c) (X ++ zone.emit before pos c rest) := by
  by_cases hphrase : ∃ n, zone.next before c rest = .phrase n
  · intro _ x hx
    have hcode : zone = .code ∨ zone = .phrase 0 → x ∈ (X ++ zone.emit before pos c rest).getLast? →
        (∃ n, Zone.fromCode before c rest = .phrase n) → joinsWord x.char = false := by
      intro hzone hx hfrom
      by_cases hc : c = '"'
      · simp only [Zone.fromCode, if_pos hc] at hfrom
        obtain ⟨_, hn⟩ := hfrom
        cases hn
      · cases hat : Phrase.at? before (c :: rest) with
        | none =>
          simp only [Zone.fromCode, if_neg hc, hat] at hfrom
          obtain ⟨_, hn⟩ := hfrom
          cases hn
        | some p =>
          rw [(step_of_at? hzone hc hat pos).1] at hx
          have hall : ∀ p ∈ Phrase.all, (p.symbol.spelling.toList.all fun d => !joinsWord d) = true ∧
              p.symbol.spelling.toList ≠ [] := by decide
          obtain ⟨hnone, hne⟩ := hall p (at?_mem hat).1
          have hmem : x ∈ p.symbol.marks pos := by
            have hmarks : p.symbol.marks pos ≠ [] := by simpa [Symbol.marks] using hne
            rw [List.getLast?_append_of_ne_nil _ hmarks] at hx
            exact List.mem_of_getLast? hx
          obtain ⟨d, hd, rfl⟩ := List.mem_map.mp hmem
          simpa using List.all_eq_true.mp hnone d hd
    cases zone with
    | literal =>
      obtain ⟨_, hn⟩ := hphrase
      exact absurd hn (ne_phrase_of_plain (plain_fromLiteral c) _)
    | escape =>
      obtain ⟨_, hn⟩ := hphrase
      cases hn
    | code => exact hcode (.inl rfl) hx hphrase
    | phrase left =>
      cases left with
      | zero => exact hcode (.inr rfl) hx hphrase
      | succ left =>
        have hsame : X ++ Zone.emit (.phrase (left + 1)) before pos c rest = X := List.append_nil X
        rw [hsame] at hx
        exact h (.inl ⟨_, rfl⟩) x hx
  · -- the character itself comes last
    have hnone : ∀ n, zone.next before c rest ≠ .phrase n := fun n hn => hphrase ⟨n, hn⟩
    rw [emit_of_next_ne hnone]
    intro hapart x hx
    rw [List.getLast?_concat] at hx
    cases hx
    rcases hapart with ⟨n, hn⟩ | hapart
    · exact absurd hn (hnone n)
    · simpa [Phrase.apart] using hapart

/-- No phrase goes on over a line break. -/
theorem Zone.Pending.ne_phrase (h : zone.Pending ('\n' :: b)) (n : Nat) : zone ≠ .phrase (n + 1) := by
  rintro rfl
  have hphrasal := h _ rfl '\n' (by simp)
  revert hphrasal
  decide

/-- What the normalizer makes of the rest of a text that starts with a line break. -/
theorem canonicalFrom_break (h : zone.Pending ('\n' :: b)) (before : Option Char) (pos : Nat) :
    canonicalFrom zone before pos ('\n' :: b)
      = ⟨'\n', pos⟩ :: canonicalFrom (zone.plain.quote '\n') (some '\n') (pos + 1) b := by
  obtain ⟨hemit, hnext⟩ := step_of_isBland before pos b h.ne_phrase (d := '\n') (by decide)
  rw [canonicalFrom_cons, hemit, hnext]
  rfl

/-- The canonical texts of the first lines and of the whole go apart at the end of the lines only. -/
theorem canonicalFrom_cut (b : List Char) : ∀ (a : List Char) (zone : Zone) (before : Option Char)
    (pos : Nat) (X₀ : List Mark), Linked zone before X₀ → zone.Pending (a ++ '\n' :: b) →
    ∃ X Y Y', canonicalFrom zone before pos a = X ++ Y ∧
      canonicalFrom zone before pos (a ++ '\n' :: b) = X ++ Y' ∧
      Ends (X₀ ++ X) (canonicalFrom (zoneAfter zone before a ('\n' :: b)) (a.getLast?.or before)
        (pos + a.length) ('\n' :: b)) Y Y' := by
  intro a
  induction a with
  | nil => exact fun zone before pos X₀ _ _ => ⟨[], [], _, rfl, rfl, .here⟩
  | cons c a ih =>
    intro zone before pos X₀ hlinked hpending
    by_cases hsame : zone = .code ∨ zone = .phrase 0 → c ≠ '"' →
        Phrase.at? before (c :: (a ++ '\n' :: b)) = Phrase.at? before (c :: a)
    · obtain ⟨hnext, hemit⟩ : zone.next before c (a ++ '\n' :: b) = zone.next before c a ∧
          zone.emit before pos c (a ++ '\n' :: b) = zone.emit before pos c a := step_congr hsame
      have hpending' : (zone.next before c (a ++ '\n' :: b)).Pending (a ++ '\n' :: b) := hpending.next
      rw [hnext] at hpending'
      obtain ⟨X, Y, Y', hbeginning, hwhole, hends⟩ := ih _ (some c) (pos + 1) _ (hlinked.next c a)
        hpending'
      refine ⟨zone.emit before pos c a ++ X, Y, Y', ?_, ?_, ?_⟩
      · rw [canonicalFrom_cons, hbeginning, List.append_assoc]
      · rw [List.cons_append, canonicalFrom_cons, hemit, hnext, hwhole, List.append_assoc]
      · have hpos : pos + (c :: a).length = pos + 1 + a.length := by
          rw [List.length_cons]
          omega
        rw [zoneAfter, hnext, getLast?_cons_or, hpos, ← List.append_assoc]
        exact hends
    · simp only [Classical.not_imp] at hsame
      obtain ⟨hzone, hc, hne⟩ := hsame
      refine ⟨[], _, _, rfl, canonicalFrom_append zone before pos (c :: a) ('\n' :: b), ?_⟩
      rw [List.append_nil]
      rcases apart_at (u := c :: a) hne (List.cons_ne_nil c a) with ⟨p, hp, hlt⟩ | ⟨hawaits, hcolon⟩
      · exact ends_of_short hzone hc hp hlt pos b _ _
      · refine ends_of_awaits hzone hawaits hcolon pos ?_ fun vs hvs => ?_
        · exact hlinked (.inr (Phrase.startsAt_iff.mp hawaits.1).1)
        · have hcode : zone.plain = .code := by
            rcases hzone with rfl | rfl
            · rfl
            · rfl
          have hafter : (zoneAfter zone before (c :: a) ('\n' :: b)).Pending ('\n' :: b) :=
            hpending.after
          refine colon_of_colonNext hafter.ne_phrase ?_ hcolon hvs
          rw [plain_zoneAfter before hpending, hcode, quoting_code hawaits.no_quote]

/-! ### The tokens of a beginning -/

/-- The canonical text of what follows the first lines of a text, with the line break before it. -/
def behind (a b : List Char) : List Mark :=
  canonicalFrom (zoneAfter .code none a ('\n' :: b)) (a.getLast?.or none) (0 + a.length) ('\n' :: b)

/-- The first lines of a text have the first tokens of the whole, but perhaps for the last one. -/
theorem tokens_beginning {vs : List Token} (h : Source.tokens (a ++ '\n' :: b) = .ok vs) :
    ∃ us, Source.tokens a = .ok us ∧ Cutoff (behind a b) us vs := by
  have hlinked : Linked .code none [] := by
    intro _ x hx
    cases hx
  rw [Source.tokens_eq_ok] at h
  obtain ⟨X, Y, Y', hbeginning, hwhole, hends⟩ :=
    canonicalFrom_cut b a .code none 0 [] hlinked Zone.Pending.code
  have hpending : (zoneAfter .code none a ('\n' :: b)).Pending ('\n' :: b) :=
    Zone.Pending.code.after
  have hbehind := canonicalFrom_break hpending (a.getLast?.or none) (0 + a.length)
  rw [hwhole] at h
  rw [List.nil_append, hbehind] at hends
  obtain ⟨us, hus, hcut⟩ := scanAll_tail (show isLineBreak '\n' = true by decide) hends h
  refine ⟨us, ?_, ?_⟩
  · rw [Source.tokens_eq_ok, hbeginning, hus]
  · rwa [behind, hbehind]

/-- What comes behind the last point of a text has the tokens that it has alone, if no literal is open
there for the normalizer. -/
theorem tokens_behind {ts vs : List Token} (h : Source.tokens (a ++ '\n' :: b) = .ok vs)
    (ha : Source.tokens a = .ok ts) (hts : ∀ d ∈ ts.getLast?, IsSign .dot d)
    (hclosed : quoting .code a = .code) : ∃ ws, Source.tokens b = .ok ws ∧
      vs = ts ++ ws.map (Token.moved (· + (a.length + 1))) := by
  obtain ⟨us, hus, hcut⟩ := tokens_beginning h
  obtain rfl : us = ts := Except.ok.inj (hus.symm.trans ha)
  rcases hcut.rest with ⟨ws, hws, rfl⟩ | ⟨d, hd, hkind⟩
  · have hpending : (zoneAfter .code none a ('\n' :: b)).Pending ('\n' :: b) :=
      Zone.Pending.code.after
    have hzone : (zoneAfter .code none a ('\n' :: b)).plain.quote '\n' = .code := by
      rw [plain_cut, hclosed]
      decide
    rw [behind, canonicalFrom_break hpending, hzone,
      scanAll_blank (show isBlank '\n' = true by decide), Nat.zero_add, canonicalFrom_line] at hws
    obtain ⟨ws', hws', rfl⟩ := scanAll_of_shift hws
    exact ⟨ws', Source.tokens_eq_ok.mpr hws', rfl⟩
  · have hdot : d.kind = .symbol .dot := hts d hd
    rcases hkind with hstring | hstar
    · cases hdot.symm.trans hstring
    · cases hdot.symm.trans hstar

end Parlance
