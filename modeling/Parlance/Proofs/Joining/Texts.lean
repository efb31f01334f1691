import Parlance.Proofs.Joining.Programs
import Parlance.Proofs.Reading.Comments
import Parlance.Proofs.Reading.Renderings
/-!
# Sources in front of sources

A source without comments that is a program, a line break and another source have the tokens of the
one followed by those of the other, further on (`tokens_joined`). The last token of a program is a
point, so that no literal is open behind it and no phrase looks beyond it. A comment in the first
source could leave a literal open for the normalizer, and is excluded.
-/
namespace Parlance
open Text Token

/-! ### Number signs in literals only -/

/-- Every number sign of a text stands in a literal, read from a zone of literals. -/
def Unremarked (zone : Zone) (cs : List Char) : Prop :=
  ∀ x y, cs = x ++ '#' :: y → quoting zone x ≠ .code

section Unremarked

variable {zone : Zone} {before : Option Char} {c : Char} {cs xs ys : List Char}

theorem unremarked_nil : Unremarked zone [] := by
  intro x y h
  cases x <;> cases h

theorem unremarked_cons :
    Unremarked zone (c :: cs) ↔ (c = '#' → zone ≠ .code) ∧ Unremarked (zone.quote c) cs := by
  constructor
  · intro h
    refine ⟨?_, fun x y hxy => ?_⟩
    · rintro rfl
      exact h [] cs rfl
    · exact h (c :: x) y (by rw [hxy]; rfl)
  · rintro ⟨hc, hcs⟩ x y hxy
    cases x with
    | nil =>
      cases hxy
      exact hc rfl
    | cons d x =>
      cases hxy
      exact hcs x y rfl

instance decidableUnremarked : (zone : Zone) → (cs : List Char) → Decidable (Unremarked zone cs)
  | _, [] => .isTrue unremarked_nil
  | zone, c :: cs =>
    have := decidableUnremarked (zone.quote c) cs
    decidable_of_iff _ unremarked_cons.symm

theorem unremarked_append :
    Unremarked zone (xs ++ ys) ↔ Unremarked zone xs ∧ Unremarked (quoting zone xs) ys := by
  induction xs generalizing zone with
  | nil => exact ⟨fun h => ⟨unremarked_nil, h⟩, fun h => h.2⟩
  | cons x xs ih =>
    have hquoting : quoting zone (x :: xs) = quoting (zone.quote x) xs := rfl
    rw [List.cons_append, unremarked_cons, unremarked_cons, ih, hquoting, and_assoc]

/-- The characters of the symbol of a phrase mean nothing else. -/
theorem symbol_chars {p : Phrase} (hp : p ∈ Phrase.all) {d : Char}
    (hd : d ∈ p.symbol.spelling.toList) : d ≠ '"' ∧ d ≠ '#' ∧ d ≠ '.' ∧ isBlank d = false := by
  have hall : ∀ p ∈ Phrase.all, (p.symbol.spelling.toList.all fun d =>
      d != '"' && d != '#' && d != '.' && !isBlank d) = true := by decide
  have h := List.all_eq_true.mp (hall p hp) d hd
  simp only [Bool.and_eq_true, bne_iff_ne, Bool.not_eq_true'] at h
  exact ⟨h.1.1.1, h.1.1.2, h.1.2, h.2⟩

/-- What a character becomes: it stays, or it belongs to a phrase, of which the symbol is written at
its start. -/
inductive Emits (zone : Zone) (c : Char) : List Char → Prop
  | stays : (∀ n, zone ≠ .phrase (n + 1)) → Emits zone c [c]
  | phrase {es : List Char} : zone.plain = .code → c ≠ '"' →
      (∀ d ∈ es, d ≠ '"' ∧ d ≠ '#' ∧ d ≠ '.' ∧ isBlank d = false) →
      (es = [] → ∃ n, zone = .phrase (n + 1)) → Emits zone c es

theorem emits (before : Option Char) (pos : Nat) (h : zone.Pending (c :: cs)) :
    Emits zone c ((zone.emit before pos c cs).map Mark.char) := by
  have hcode : zone.plain = .code → (∀ n, zone ≠ .phrase (n + 1)) →
      Emits zone c ((Zone.code.emit before pos c cs).map Mark.char) := by
    intro hplain hz
    by_cases hc : c = '"'
    · simp only [Zone.emit, if_pos hc]
      exact .stays hz
    · simp only [Zone.emit, if_neg hc]
      cases hat : Phrase.at? before (c :: cs) with
      | none => exact .stays hz
      | some p =>
        have hp := (at?_mem hat).1
        have hchars : (p.symbol.marks pos).map Mark.char = p.symbol.spelling.toList :=
          Symbol.chars_marks _ _
        simp only [hchars]
        refine .phrase hplain hc (fun d hd => symbol_chars hp hd) fun hnil => ?_
        have hall : ∀ p ∈ Phrase.all, p.symbol.spelling.toList ≠ [] := by decide
        exact absurd hnil (hall p hp)
  cases zone with
  | literal =>
    refine .stays ?_
    rintro n ⟨⟩
  | escape =>
    refine .stays ?_
    rintro n ⟨⟩
  | code =>
    refine hcode rfl ?_
    rintro n ⟨⟩
  | phrase left =>
    cases left with
    | zero =>
      refine hcode rfl ?_
      rintro n ⟨⟩
    | succ left =>
      refine .phrase rfl ?_ (fun d hd => ?_) fun _ => ⟨left, rfl⟩
      · exact ne_quote_of_isPhrasal (h _ rfl c List.mem_cons_self)
      · cases hd

/-- Literals are where they were in the canonical text, and number signs too. -/
theorem canonical_unremarked (before : Option Char) (pos : Nat) (h : zone.Pending cs)
    (hcs : Unremarked zone.plain cs) :
    Unremarked zone.plain ((canonicalFrom zone before pos cs).map Mark.char) ∧
      quoting zone.plain ((canonicalFrom zone before pos cs).map Mark.char)
        = quoting zone.plain cs := by
  induction cs generalizing zone before pos with
  | nil => exact ⟨unremarked_nil, rfl⟩
  | cons c cs ih =>
    obtain ⟨hc, hrest⟩ := unremarked_cons.mp hcs
    have hstep : quoting zone.plain (c :: cs) = quoting (zone.plain.quote c) cs := rfl
    rw [canonicalFrom_cons, List.map_append, unremarked_append, quoting_append, hstep]
    rw [← plain_next before h] at hrest ⊢
    have htail := ih (some c) (pos + 1) h.next hrest
    have hemit := emits before pos h
    generalize (zone.emit before pos c cs).map Mark.char = es at hemit ⊢
    have hes : Unremarked zone.plain es ∧
        quoting zone.plain es = (zone.next before c cs).plain := by
      rw [plain_next before h]
      cases hemit with
      | stays _ => exact ⟨unremarked_cons.mpr ⟨hc, unremarked_nil⟩, rfl⟩
      | phrase hcode hquote hall _ =>
        rw [hcode, quoting_code fun d hd => (hall d hd).1]
        refine ⟨fun x y hxy => ?_, (if_neg hquote).symm⟩
        have hmem : '#' ∈ es := by simp [hxy]
        exact absurd rfl (hall _ hmem).2.1
    rw [hes.2]
    exact ⟨⟨hes.1, htail.1⟩, htail.2⟩

end Unremarked

/-! ### The last point -/

/-- A text ends with a point, blanks aside. -/
def Pointed (cs : List Char) : Prop := ∃ x v, cs = x ++ '.' :: v ∧ ∀ d ∈ v, isBlank d = true

theorem Pointed.append {cs : List Char} (h : Pointed cs) (us : List Char) : Pointed (us ++ cs) := by
  obtain ⟨x, v, rfl, hv⟩ := h
  exact ⟨us ++ x, v, by simp, hv⟩

section Points

variable {zone : Zone} {before : Option Char} {cs : List Char}

theorem blank_of_canonical (before : Option Char) (pos : Nat) (hz : ∀ n, zone ≠ .phrase (n + 1))
    (h : ∀ d ∈ (canonicalFrom zone before pos cs).map Mark.char, isBlank d = true) :
    ∀ d ∈ cs, isBlank d = true := by
  induction cs generalizing zone before pos with
  | nil => simp
  | cons c cs ih =>
    rw [canonicalFrom_cons, List.map_append, List.forall_mem_append] at h
    have hpending : zone.Pending (c :: cs) := pending_of_ne hz _
    have hemit := emits before pos hpending
    generalize (zone.emit before pos c cs).map Mark.char = es at hemit h
    cases hemit with
    | stays _ =>
      have hc : isBlank c = true := h.1 c (List.mem_singleton_self c)
      have hnext := (step_of_isBland before pos cs hz (isBland_of_isBlank hc)).2
      have hplain := ne_phrase_of_plain (plain_quote zone.plain c)
      rw [List.forall_mem_cons]
      have hnext' : ∀ n, zone.next before c cs ≠ .phrase (n + 1) := by
        intro n
        rw [hnext]
        exact hplain (n + 1)
      exact ⟨hc, ih (some c) (pos + 1) hnext' h.2⟩
    | phrase _ _ hall hnil =>
      cases es with
      | nil =>
        obtain ⟨n, hn⟩ := hnil rfl
        exact absurd hn (hz n)
      | cons d es =>
        have hblank := h.1 d List.mem_cons_self
        rw [(hall d List.mem_cons_self).2.2.2] at hblank
        cases hblank

theorem pointed_of_canonical (before : Option Char) (pos : Nat) (hpending : zone.Pending cs)
    (h : Pointed ((canonicalFrom zone before pos cs).map Mark.char)) : Pointed cs := by
  induction cs generalizing zone before pos with
  | nil =>
    obtain ⟨x, v, hxv, _⟩ := h
    simp [canonicalFrom] at hxv
  | cons c cs ih =>
    obtain ⟨x, v, hxv, hv⟩ := h
    rw [canonicalFrom_cons, List.map_append] at hxv
    have hemit := emits before pos hpending
    rcases List.append_eq_append_iff.mp hxv with ⟨w, hx, htail⟩ | ⟨w, hes, htail⟩
    · exact (ih (some c) (pos + 1) hpending.next ⟨w, v, htail, hv⟩).append [c]
    · cases w with
      | nil =>
        have hpoint : Pointed ((canonicalFrom (zone.next before c cs) (some c) (pos + 1) cs).map
            Mark.char) := ⟨[], v, htail.symm, hv⟩
        exact (ih (some c) (pos + 1) hpending.next hpoint).append [c]
      | cons d w =>
        -- the point is the character itself, and only blanks follow it
        obtain ⟨rfl, rfl⟩ := List.cons.inj htail
        have hstays := emits before pos hpending
        rw [hes] at hstays
        generalize hes' : x ++ '.' :: w = es at hstays
        cases hstays with
        | phrase _ _ hall _ =>
          have hmem : '.' ∈ es := by simp [← hes']
          exact absurd rfl (hall _ hmem).2.2.1
        | stays hz =>
          obtain rfl : x = [] := by
            cases x with
            | nil => rfl
            | cons d x => simp at hes'
          obtain ⟨rfl, rfl⟩ := List.cons.inj hes'
          have hnext := (step_of_isBland before pos cs hz (d := '.') (by decide)).2
          have hplain := ne_phrase_of_plain (plain_quote zone.plain '.')
          refine ⟨[], cs, rfl, blank_of_canonical (some '.') (pos + 1) (fun n => ?_) hv⟩
          rw [hnext]
          exact hplain (n + 1)

end Points

/-! ### Scanning to the end -/

namespace Token

section Words

variable {m : Mark} {rest after word : List Mark} {t : Token}

theorem scanLiteral_split (marks : List Mark) :
    (∃ word, marks = word ++ (scanLiteral marks).2 ∧ closesLiteral word = true) ∨
      (scanLiteral marks).2 = [] := by
  fun_induction scanLiteral marks with
  | case1 => exact .inr rfl
  | case2 m rest hm => exact .inl ⟨[m], rfl, by simp [closesLiteral, hm]⟩
  | case3 => exact .inr rfl
  | case4 m hm hslash e rest text after h ih =>
    rw [h] at ih
    rcases ih with ⟨word, hword, hclosed⟩ | hnil
    · exact .inl ⟨m :: e :: word, by rw [hword]; rfl, by simp [closesLiteral, hslash, hclosed]⟩
    · exact .inr hnil
  | case5 m rest hm hslash text after h ih =>
    rw [h] at ih
    rcases ih with ⟨word, hword, hclosed⟩ | hnil
    · refine .inl ⟨m :: word, by rw [hword]; rfl, ?_⟩
      rw [closesLiteral.eq_def]
      simp only [if_neg hm, if_neg hslash, hclosed]
    · exact .inr hnil

theorem scanFraction_chars {marks : List Mark} {x : Mark} (h : x ∈ (scanFraction marks).1) :
    x.char = '.' ∨ x.char.isDigit = true := by
  unfold scanFraction at h
  split at h
  · split at h
    · next hpoint =>
      rcases List.mem_cons.mp h with rfl | h
      · exact .inl hpoint.1
      · rcases List.mem_cons.mp h with rfl | h
        · exact .inr hpoint.2
        · exact .inr (List.mem_takeWhile_imp (p := fun n : Mark => n.char.isDigit) h)
    · cases h
  · cases h

theorem scanSymbol?_part {s : Symbol} (h : scanSymbol? m rest = some (s, after)) :
    ∃ word, rest = word ++ after := by
  unfold scanSymbol? at h
  split at h
  · simp only [Option.some.injEq, Prod.mk.injEq] at h
    refine ⟨rest.take 1, ?_⟩
    rw [← h.2, ← List.drop_one, List.take_append_drop]
  · simp only [Option.map_eq_some_iff, Prod.mk.injEq] at h
    obtain ⟨_, _, _, rfl⟩ := h
    exact ⟨[], rfl⟩

/-- The character may stand in a token that is no literal. -/
def InToken (c : Char) : Prop :=
  c = '.' ∨ continuesName c = true ∨ ∃ s : Symbol, c ∈ s.spelling.toList

theorem continuesName_of_isDigit {c : Char} (h : c.isDigit = true) : continuesName c = true := by
  simp [continuesName, Char.isAlphanum, h]

theorem InToken.ne_quote {c : Char} (h : InToken c) : c ≠ '"' := by
  rintro rfl
  rcases h with h | h | ⟨s, hs⟩
  · cases h
  · cases h
  · exact (Symbol.isBland_spelling s _ hs).2 rfl

/-- A token that is no literal is a part of the text and consists of characters of tokens. -/
theorem scan_chars (h : scan m rest = .ok (t, after)) (hquote : m.char ≠ '"') :
    ∃ word, rest = word ++ after ∧ ∀ x ∈ m :: word, InToken x.char := by
  cases scan_eq_ok.mp h with
  | number hdigit hafter =>
    have hsplit := scanFraction_split (rest.dropWhile (·.char.isDigit))
    rw [hafter] at hsplit
    refine ⟨rest.takeWhile (·.char.isDigit) ++ (scanFraction (rest.dropWhile (·.char.isDigit))).1,
      ?_, List.forall_mem_cons.mpr ⟨?_, fun x hx => ?_⟩⟩
    · rw [List.append_assoc, hsplit, List.takeWhile_append_dropWhile]
    · exact .inr (.inl (continuesName_of_isDigit hdigit))
    · rcases List.mem_append.mp hx with hx | hx
      · have hdigit := List.mem_takeWhile_imp (p := fun n : Mark => n.char.isDigit) hx
        exact .inr (.inl (continuesName_of_isDigit hdigit))
      · exact (scanFraction_chars hx).imp id fun hdigit => .inl (continuesName_of_isDigit hdigit)
  | word _ hstart _ hafter =>
    refine ⟨rest.takeWhile (continuesName ·.char), ?_,
      List.forall_mem_cons.mpr ⟨?_, fun x hx => ?_⟩⟩
    · rw [← hafter, List.takeWhile_append_dropWhile]
    · exact .inr (.inl (continuesName_of_startsName hstart))
    · exact .inr (.inl (List.mem_takeWhile_imp (p := fun n : Mark => continuesName n.char) hx))
  | literal hquote' _ => exact absurd hquote' hquote
  | @symbol s _ _ _ hsymbol =>
    obtain ⟨word, rfl⟩ := scanSymbol?_part hsymbol
    have hspelled : ∀ x ∈ m :: word, x.char ∈ s.spelling.toList := by
      rcases scanSymbol?_split hsymbol with ⟨rfl, _, hsingle⟩ | ⟨n, rfl, hdouble⟩
      · simp [Symbol.spelling_of_single? hsingle]
      · simp [Symbol.spelling_of_double? hdouble]
    exact ⟨word, rfl, fun x hx => .inr (.inr ⟨s, hspelled x hx⟩)⟩

theorem scan_quote (hquote : m.char = '"') (rest : List Mark) : scan m rest
    = .ok (⟨.string, String.ofList (scanLiteral rest).1, m.origin⟩, (scanLiteral rest).2) :=
  scan_eq_ok.mpr (.literal hquote rfl)

/-- A token is a part of the text, closed if it is a literal that something follows; no other token
has a quote. -/
theorem scan_part (h : scan m rest = .ok (t, after)) (hopen : t.kind = .string → after ≠ []) :
    ∃ word, rest = word ++ after ∧
      ((m.char = '"' ∧ closesLiteral word = true) ∨ ∀ x ∈ m :: word, x.char ≠ '"') := by
  by_cases hquote : m.char = '"'
  · rw [scan_quote hquote] at h
    cases h
    rcases scanLiteral_split rest with ⟨word, hword, hclosed⟩ | hnil
    · exact ⟨word, hword, .inl ⟨hquote, hclosed⟩⟩
    · exact absurd hnil (hopen rfl)
  · obtain ⟨word, hword, hchars⟩ := scan_chars h hquote
    exact ⟨word, hword, .inr fun x hx => (hchars x hx).ne_quote⟩

theorem quoting_literal {word : List Mark} (h : closesLiteral word = true) :
    quoting .literal (word.map Mark.char) = .code := by
  fun_induction closesLiteral word with
  | case1 => cases h
  | case2 m word hm =>
    rw [List.isEmpty_iff] at h
    subst h
    simp [quoting, Zone.quote, Zone.fromLiteral, hm]
  | case3 m hm hslash => cases h
  | case4 m hm hslash e word ih =>
    have hstep : quoting .literal ((m :: e :: word).map Mark.char)
        = quoting ((Zone.fromLiteral m.char).quote e.char) (word.map Mark.char) := rfl
    have hescape : Zone.fromLiteral m.char = .escape := by
      simp only [Zone.fromLiteral, if_neg hm, if_pos hslash]
    rw [hstep, hescape]
    exact ih h
  | case5 m word hm hslash ih =>
    have hstep : quoting .literal ((m :: word).map Mark.char)
        = quoting (Zone.fromLiteral m.char) (word.map Mark.char) := rfl
    have hliteral : Zone.fromLiteral m.char = .literal := by
      simp only [Zone.fromLiteral, if_neg hm, if_neg hslash]
    rw [hstep, hliteral]
    exact ih h

/-- Behind a token no literal is open. -/
theorem quoting_part (h : (m.char = '"' ∧ closesLiteral word = true) ∨
    ∀ x ∈ m :: word, x.char ≠ '"') : quoting .code ((m :: word).map Mark.char) = .code := by
  rcases h with ⟨hquote, hclosed⟩ | hnone
  · have hstep : quoting .code ((m :: word).map Mark.char)
        = quoting (Zone.code.quote m.char) (word.map Mark.char) := rfl
    have hliteral : Zone.code.quote m.char = .literal := if_pos hquote
    rw [hstep, hliteral, quoting_literal hclosed]
  · refine quoting_code fun d hd => ?_
    obtain ⟨x, hx, rfl⟩ := List.mem_map.mp hd
    exact hnone x hx

/-- A point is a token of one mark. -/
theorem scan_dot (h : scan m rest = .ok (t, after)) (ht : Grammar.IsSign .dot t) :
    m.char = '.' ∧ rest = after := by
  have hkind : t.kind = .symbol .dot := ht
  cases scan_eq_ok.mp h with
  | number => cases hkind
  | @word found _ _ _ _ =>
    cases found with
    | none => cases hkind
    | some k => cases hkind
  | literal => cases hkind
  | symbol _ _ _ hsymbol =>
    cases hkind
    obtain ⟨word, rfl⟩ := scanSymbol?_part hsymbol
    rcases scanSymbol?_split hsymbol with ⟨rfl, _, hsingle⟩ | ⟨n, rfl, hdouble⟩
    · have hspelling := Symbol.spelling_of_single? hsingle
      exact ⟨(List.cons.inj hspelling).1.symm, rfl⟩
    · have hspelling := Symbol.spelling_of_double? hdouble
      cases (List.cons.inj hspelling).2

/-- What ends a text whose tokens are those of a program: nothing but blanks, or a point and blanks
behind it. -/
def Finished (ts : List Token) (cs : List Char) : Prop :=
  (ts = [] → ∀ d ∈ cs, isBlank d = true) ∧ (ts ≠ [] → Pointed cs)

theorem quoting_of_isBlank {c : Char} (h : isBlank c = true) : quoting .code [c] = .code := by
  refine quoting_code ?_
  rintro _ hd rfl
  rw [← List.mem_singleton.mp hd] at h
  cases h

/-- A canonical text that is scanned to its end, with no literal open there. -/
structure Ended (marks : List Mark) (ts : List Token) : Prop where
  scans : Scans marks [] ts
  closed : quoting .code (marks.map Mark.char) = .code
  finished : Finished ts (marks.map Mark.char)

theorem Ended.blank {marks : List Mark} {ts : List Token} (h : Ended marks ts)
    (hb : isBlank m.char = true) : Ended (m :: marks) ts := by
  have hmap : (m :: marks).map Mark.char = [m.char] ++ marks.map Mark.char := rfl
  refine ⟨.blank hb h.scans, ?_, fun hnil => ?_, fun hne => (h.finished.2 hne).append [m.char]⟩
  · rw [hmap, quoting_append, quoting_of_isBlank hb, h.closed]
  · rw [hmap]
    exact List.forall_mem_cons.mpr ⟨hb, h.finished.1 hnil⟩

/-- The last token has to be a point. -/
theorem Ended.token {us : List Token} (h : Ended after us) (hb : isBlank m.char = false)
    (hc : m.char ≠ '#') (hs : scan m (word ++ after) = .ok (t, after))
    (hpart : (m.char = '"' ∧ closesLiteral word = true) ∨ ∀ x ∈ m :: word, x.char ≠ '"')
    (hdot : us = [] → Grammar.IsSign .dot t) : Ended (m :: (word ++ after)) (t :: us) := by
  have hmap : (m :: (word ++ after)).map Mark.char
      = (m :: word).map Mark.char ++ after.map Mark.char := by simp
  have hclosed : m.char = '"' → closesLiteral word = true := by
    intro hquote
    rcases hpart with ⟨_, hclosed⟩ | hnone
    · exact hclosed
    · exact absurd hquote (hnone m List.mem_cons_self)
  refine ⟨.token hb hc (by rwa [List.append_nil]) hclosed h.scans, ?_, fun hnil => ?_, fun _ => ?_⟩
  · rw [hmap, quoting_append, quoting_part hpart, h.closed]
  · cases hnil
  · rw [hmap]
    cases us with
    | cons u us => exact (h.finished.2 nofun).append _
    | nil =>
      obtain ⟨hpoint, hword⟩ := scan_dot hs (hdot rfl)
      obtain rfl := List.append_left_eq_self.mp hword
      exact ⟨[], after.map Mark.char, by simp [hpoint], h.finished.1 rfl⟩

/-- A text without comments whose last token is a point is scanned to its end. -/
theorem ended_of_scanAll {marks : List Mark} {ts : List Token} (h : scanAll marks = .ok ts)
    (hmarks : Unremarked .code (marks.map Mark.char))
    (hts : ∀ d ∈ ts.getLast?, Grammar.IsSign .dot d) : Ended marks ts := by
  induction h using scanAll_induction with
  | done => exact ⟨.done, rfl, fun _ => by simp, fun hne => absurd rfl hne⟩
  | blank m rest ts _ _ hb ih =>
    have hmap : (m :: rest).map Mark.char = [m.char] ++ rest.map Mark.char := rfl
    rw [hmap, unremarked_append, quoting_of_isBlank hb] at hmarks
    exact (ih hmarks.2 hts).blank hb
  | comment m rest ts _ _ hc => exact absurd rfl ((unremarked_cons.mp hmarks).1 hc)
  | token m rest t after us _ hafter hb hc hs ih =>
    have hopen : t.kind = .string → after ≠ [] := by
      rintro hkind rfl
      rw [scanAll] at hafter
      cases hafter
      have hdot : t.kind = .symbol .dot := hts t rfl
      rw [hkind] at hdot
      cases hdot
    obtain ⟨word, rfl, hpart⟩ := scan_part hs hopen
    have hmap : (m :: (word ++ after)).map Mark.char
        = (m :: word).map Mark.char ++ after.map Mark.char := by simp
    rw [hmap, unremarked_append, quoting_part hpart] at hmarks
    have hlast : ∀ d ∈ us.getLast?, Grammar.IsSign .dot d := by
      intro d hd
      refine hts d ?_
      rw [List.getLast?_cons, Option.mem_def.mp hd]
      rfl
    have hdot : us = [] → Grammar.IsSign .dot t := by
      rintro rfl
      exact hts t rfl
    exact (ih hmarks.2 hlast).token hb hc hs hpart hdot

end Words
end Token

/-! ### Two sources -/

section Joined

variable {a b : List Char} {ts us : List Token} {zone : Zone}

/-- Behind blanks no phrase goes on. -/
theorem zoneAfter_blanks (before : Option Char) (hz : ∀ n, zone ≠ .phrase (n + 1)) {v : List Char}
    (hv : ∀ d ∈ v, isBlank d = true) (b : List Char) (n : Nat) :
    zoneAfter zone before v b ≠ .phrase (n + 1) := by
  induction v generalizing zone before with
  | nil => exact hz n
  | cons d v ih =>
    rw [List.forall_mem_cons] at hv
    have hnext := (step_of_isBland before 0 (v ++ b) hz (isBland_of_isBlank hv.1)).2
    refine ih (some d) (fun k => ?_) hv.2
    rw [hnext]
    exact ne_phrase_of_plain (plain_quote _ _) (k + 1)

/-- At the end of a program no phrase is open. -/
theorem Token.Finished.phrase (h : Finished ts a) (n : Nat) :
    zoneAfter .code none a [] ≠ .phrase (n + 1) := by
  by_cases hts : ts = []
  · have hcode : ∀ n, Zone.code ≠ .phrase (n + 1) := nofun
    exact zoneAfter_blanks none hcode (h.1 hts) [] n
  · obtain ⟨x, v, rfl, hv⟩ := h.2 hts
    have hsplit : x ++ '.' :: v = (x ++ ['.']) ++ v := by simp
    have hpoint : zoneAfter .code none (x ++ ['.']) (v ++ []) = quoting .code (x ++ ['.']) :=
      zoneAfter_snoc (by decide) Zone.Pending.code
    rw [hsplit, zoneAfter_append, hpoint]
    exact zoneAfter_blanks _ (fun k => ne_phrase_of_plain (plain_quoting rfl _) (k + 1)) hv [] n

/-- At the end of a program no word before a counted block stands. -/
theorem Token.Finished.not_awaitsColon (h : Finished ts a) {x u : List Char} (hu : a = x ++ u)
    (before : Option Char) : ¬ AwaitsColon before u := by
  rintro hawaits
  have hpoint : '.' ∉ u := by
    obtain ⟨hstarts, hgap⟩ := hawaits
    intro hd
    rw [← List.take_append_drop Phrase.times.length u, List.mem_append] at hd
    rcases hd with hd | hd
    · have hcap := (Phrase.startsAt_iff.mp hstarts).2.2.1
      have hphrasal := isPhrasal_of_inCapitals Phrase.times_mem hcap _ hd
      revert hphrasal
      decide
    · exact absurd (List.all_eq_true.mp hgap _ hd) (by decide)
  have hblank : ¬ ∀ d ∈ u, isBlank d = true := by
    intro hall
    have hhead := (Phrase.startsAt_iff.mp hawaits.1).2.1
    cases u with
    | nil => cases hhead
    | cons d u =>
      have hjoins : joinsWord d = true := hhead
      rw [joinsWord_of_isBlank (hall d List.mem_cons_self)] at hjoins
      cases hjoins
  by_cases hts : ts = []
  · subst hu
    exact hblank fun d hd => h.1 hts d (List.mem_append_right x hd)
  · obtain ⟨y, v, hyv, hv⟩ := h.2 hts
    rcases List.append_eq_append_iff.mp (hu.symm.trans hyv) with ⟨w, _, rfl⟩ | ⟨w, _, hw⟩
    · exact hpoint (by simp)
    · cases w with
      | nil =>
        rw [List.nil_append] at hw
        exact hpoint (by simp [← hw])
      | cons d w =>
        obtain ⟨rfl, rfl⟩ := List.cons.inj hw
        exact hblank fun d hd => hv d (List.mem_append_right w hd)

/-- The end of a program without comments is a cut with nothing behind it. -/
theorem cut_of_tokens (ha : Unremarked .code a) (h : Source.tokens a = .ok ts)
    (hts : ∀ d ∈ ts.getLast?, Grammar.IsSign .dot d) :
    Cut a [] ts ∧ quoting .code a = .code ∧ Finished ts a := by
  rw [Source.tokens_eq_ok] at h
  obtain ⟨hmarks, hquoting⟩ := canonical_unremarked none 0 Zone.Pending.code ha
  obtain ⟨hscans, hcode, hfinished⟩ := ended_of_scanAll h hmarks hts
  have hcode' : ∀ n, Zone.code ≠ .phrase (n + 1) := nofun
  have hend : Finished ts a := by
    refine ⟨fun hnil => ?_, fun hne => ?_⟩
    · exact blank_of_canonical none 0 hcode' (hfinished.1 hnil)
    · exact pointed_of_canonical none 0 Zone.Pending.code (hfinished.2 hne)
  have hpassed : passed .code none 0 a [] = canonicalFrom .code none 0 a := passed_nil _ _ _ _
  refine ⟨⟨?_, hend.phrase⟩, hquoting.symm.trans hcode, hend⟩
  rw [hpassed, canonicalFrom]
  exact hscans

/-- Behind a line break a text is read as from the start. -/
theorem canonicalFrom_line (k : Nat) (b : List Char) : canonicalFrom .code (some '\n') k b
    = (canonicalFrom .code none 0 b).map (Mark.shift k) := by
  have hshift := canonicalFrom_shift .code (some '\n') 0 k b
  rw [Nat.zero_add] at hshift
  rw [hshift, canonicalFrom_before (fun _ => at?_of_apart (by decide) b) 0]

/-- The tokens of a program without comments, a line break and another source are those of the
program and those of the other source, further on. -/
theorem tokens_joined (ha : Unremarked .code a) (hta : Source.tokens a = .ok ts)
    (hts : ∀ d ∈ ts.getLast?, Grammar.IsSign .dot d) (htb : Source.tokens b = .ok us) :
    Source.tokens (a ++ '\n' :: b) = .ok (ts ++ us.map (Token.moved (· + (a.length + 1)))) := by
  obtain ⟨hcut, hquoting, hend⟩ := cut_of_tokens ha hta hts
  have hexchanges : Exchanges .code none a [] ('\n' :: b) := by
    refine ⟨.of_not_isPhrasal (by decide) b, rfl, .inl rfl, fun x u hxu _ hawaits => ?_⟩
    exact absurd hawaits (hend.not_awaitsColon hxu _)
  have hcongr : zoneAfter .code none a ('\n' :: b) = zoneAfter .code none a [] ∧
      passed .code none 0 a ('\n' :: b) = passed .code none 0 a [] :=
    passed_congr hexchanges hcut.phrase
  have hplain : (zoneAfter .code none a []).plain = .code := plain_cut.trans hquoting
  have hbreak : canonicalFrom (zoneAfter .code none a []) (a.getLast?.or none) (0 + a.length)
      ('\n' :: b) = ⟨'\n', a.length⟩ :: canonicalFrom .code (some '\n') (a.length + 1) b := by
    obtain ⟨hemit, hnext⟩ := step_of_isBland (a.getLast?.or none) (0 + a.length) b hcut.phrase
      (d := '\n') (by decide)
    rw [canonicalFrom_cons, hemit, hnext, hplain, Nat.zero_add]
    rfl
  have hmoved : us.map (Token.moved (· + (a.length + 1))) = us.map (shift (a.length + 1)) := rfl
  have hblank : isBlank '\n' = true := by decide
  have hscans := hcut.scans.before_blank (n := ⟨'\n', a.length⟩) hblank
    (canonicalFrom .code (some '\n') (a.length + 1) b)
  rw [Source.tokens_eq_ok] at htb ⊢
  rw [canonicalFrom_append, hcongr.1, hcongr.2, hbreak, scanAll_append_eq_ok hscans, hmoved]
  refine ⟨_, ?_, rfl⟩
  rw [scanAll_blank hblank, canonicalFrom_line]
  exact scanAll_shift htb

theorem Source.exists_tokens {nesting : Nat} {p : Program} (h : program nesting a = .ok p) :
    ∃ ts, tokens a = .ok ts ∧ Program.parse nesting ts = .ok p := by
  cases htokens : tokens a with
  | ok ts => exact ⟨ts, rfl, (program_eq_ok htokens).mp h⟩
  | error failure =>
    rw [program, htokens] at h
    cases h

/-- The program of a source without comments, a line break and another source is that of the one
and behind it that of the other, further on. -/
theorem program_joined {nesting : Nat} {p q : Program} (ha : Unremarked .code a)
    (hp : Source.program nesting a = .ok p) (hq : Source.program nesting b = .ok q) :
    Source.program nesting (a ++ '\n' :: b) = .ok (p ++ q.moved (· + (a.length + 1))) := by
  obtain ⟨ts, hts, hp⟩ := Source.exists_tokens hp
  obtain ⟨us, hus, hq⟩ := Source.exists_tokens hq
  have hpoint : ∀ d ∈ ts.getLast?, Grammar.IsSign .dot d := by
    rcases Parse.ends_of_parse hp with rfl | ⟨vs, d, rfl, hd⟩
    · simp
    · simpa using hd
  rw [Source.program_eq_ok (tokens_joined ha hts hpoint hus)]
  exact Parse.parse_append hp hq _

end Joined
end Parlance
