import Parlance.Proofs.Lexing.Lexemes
/-!
# Where the canonical text comes from

A canonical text is its source with some phrases replaced (`laid_ofSource`). So marks follow each
other in the source as they do in the canonical text, but for the two of one symbol, which come from
one place (`Laid.ascending`), and a run of marks that are of no symbol is a part of the source
(`Laid.slice`). With the division into lexemes this says what the scanner returns, and where it
gives up (`tokens_faithful`).
-/
namespace Parlance
open Text

/-- The phrase stands in a source at an offset. -/
def Phrase.StandsAt (p : Phrase) (source : List Char) (pos : Nat) : Prop :=
  p.startsAt (source.take pos).getLast? (source.drop pos) = true

/-- The marks of a source from an offset on: each character for itself, or a phrase as the symbol
that it stands for. -/
inductive Laid (source : List Char) : (pos : Nat) → (marks : List Mark) → Prop
  | done {pos : Nat} : source.length ≤ pos → Laid source pos []
  | kept {pos : Nat} {c : Char} {marks : List Mark} : source[pos]? = some c →
      Laid source (pos + 1) marks → Laid source pos (⟨c, pos⟩ :: marks)
  | phrase {pos : Nat} {p : Phrase} {marks : List Mark} : p ∈ Phrase.all → p.StandsAt source pos →
      Laid source (pos + p.length) marks → Laid source pos (p.symbol.marks pos ++ marks)

/-- Later marks come from later places, but for a mark directly behind another one with which it
forms the symbol of two characters. -/
def Ascending (marks : List Mark) : Prop := ∀ a m b n c, marks = a ++ m :: (b ++ n :: c) →
  m.origin < n.origin ∨
    m.origin = n.origin ∧ b = [] ∧ ∃ s, Symbol.double? m.char n.char = some s

/-- The character is of no symbol of a phrase. -/
def Wordy (c : Char) : Prop := ∀ p ∈ Phrase.all, c ∉ p.symbol.spelling.toList

section Laid

variable {source : List Char} {pos : Nat} {marks : List Mark}

/-- What a character becomes: nothing, inside of a replaced phrase; itself; or the symbol of a phrase
that starts with it. -/
inductive Zone.Step (zone : Zone) (before : Option Char) (pos : Nat) (c : Char) (rest : List Char) :
    List Mark → Zone → Prop
  | inside {n : Nat} : zone = .phrase (n + 1) → Zone.Step zone before pos c rest [] (.phrase n)
  | kept {next : Zone} : (∀ n, zone ≠ .phrase (n + 1)) → (∀ n, next ≠ .phrase n) →
      (zone = .code ∨ zone = .phrase 0 → c = '"' ∨ Phrase.at? before (c :: rest) = none) →
      Zone.Step zone before pos c rest [⟨c, pos⟩] next
  | phrase {p : Phrase} : (zone = .code ∨ zone = .phrase 0) → c ≠ '"' →
      Phrase.at? before (c :: rest) = some p →
      Zone.Step zone before pos c rest (p.symbol.marks pos) (.phrase (p.length - 1))

theorem step_taken (zone : Zone) (before : Option Char) (pos : Nat) (c : Char) (rest : List Char) :
    Zone.Step zone before pos c rest (zone.emit before pos c rest) (zone.next before c rest) := by
  have hfree : zone = .code ∨ zone = .phrase 0 → Zone.Step zone before pos c rest
      (Zone.code.emit before pos c rest) (Zone.fromCode before c rest) := by
    intro hzone
    have hz : ∀ n, zone ≠ .phrase (n + 1) := by
      rintro n rfl
      rcases hzone with h | h <;> cases h
    by_cases hc : c = '"'
    · simp only [Zone.emit, Zone.fromCode, if_pos hc]
      exact .kept hz (ne_phrase_of_plain rfl) fun _ => .inl hc
    · simp only [Zone.emit, Zone.fromCode, if_neg hc]
      cases hat : Phrase.at? before (c :: rest) with
      | some p => exact .phrase hzone hc hat
      | none => exact .kept hz (ne_phrase_of_plain rfl) fun _ => .inr hat
  cases zone with
  | literal =>
    refine .kept (ne_phrase_of_plain rfl <| · + 1) (ne_phrase_of_plain (plain_fromLiteral c)) ?_
    rintro (h | h) <;> cases h
  | escape =>
    refine .kept (ne_phrase_of_plain rfl <| · + 1) (ne_phrase_of_plain rfl) ?_
    rintro (h | h) <;> cases h
  | code => exact hfree (.inl rfl)
  | phrase left =>
    cases left with
    | zero => exact hfree (.inr rfl)
    | succ left => exact .inside rfl

theorem canonicalFrom_phrase (n : Nat) (before : Option Char) (pos : Nat) (cs : List Char) :
    canonicalFrom (.phrase n) before pos cs
      = canonicalFrom .code ((cs.take n).getLast?.or before) (pos + n) (cs.drop n) := by
  induction n generalizing before pos cs with
  | zero =>
    have hplain : ∀ m, Zone.phrase 0 ≠ .phrase (m + 1) := by
      rintro m ⟨⟩
    rw [← canonicalFrom_plain hplain]
    rfl
  | succ n ih =>
    cases cs with
    | nil => rfl
    | cons c cs =>
      have hstep : canonicalFrom (.phrase (n + 1)) before pos (c :: cs)
          = canonicalFrom (.phrase n) (some c) (pos + 1) cs := rfl
      rw [hstep, ih, List.take_succ_cons, List.drop_succ_cons, getLast?_cons_or, Nat.add_assoc,
        Nat.add_comm 1 n]

/-- The rest of a source behind `done`, outside of a replaced phrase. -/
theorem laid_canonicalFrom (zone : Zone) (hz : ∀ n, zone ≠ .phrase (n + 1)) (done cs : List Char) :
    Laid (done ++ cs) done.length (canonicalFrom zone done.getLast? done.length cs) := by
  induction hn : cs.length using Nat.strong_induction_on generalizing zone done cs with
  | _ n ih =>
    subst hn
    cases cs with
    | nil =>
      rw [canonicalFrom, List.append_nil]
      exact .done (Nat.le_refl _)
    | cons c cs =>
      rw [canonicalFrom_cons]
      have hstep := step_taken zone done.getLast? done.length c cs
      generalize zone.emit done.getLast? done.length c cs = marks at hstep ⊢
      generalize zone.next done.getLast? c cs = next at hstep ⊢
      cases hstep with
      | inside hzone => exact absurd hzone (hz _)
      | kept _ hnext _ =>
        have hrest := ih _ (Nat.lt_succ_self _) next (fun n => hnext (n + 1)) (done ++ [c]) cs rfl
        rw [List.getLast?_concat, List.length_append, List.append_assoc] at hrest
        exact .kept (by simp) hrest
      | @phrase p _ _ hat =>
        obtain ⟨hp, hstarts⟩ := at?_mem hat
        have hstands : p.StandsAt (done ++ c :: cs) done.length := by
          rw [Phrase.StandsAt, List.take_left, List.drop_left]
          exact hstarts
        refine .phrase hp hstands ?_
        obtain ⟨k, hk⟩ := Nat.exists_eq_add_of_lt (length_pos hp)
        rw [Nat.zero_add] at hk
        simp only [hk, Nat.add_sub_cancel, canonicalFrom_phrase]
        by_cases hle : k ≤ cs.length
        · have hrest := ih (cs.drop k).length (by simp) .code (ne_phrase_of_plain rfl <| · + 1)
            (done ++ c :: cs.take k) (cs.drop k) rfl
          have hlength : (done ++ c :: cs.take k).length = done.length + (k + 1) := by
            simp [hle]
          have hlast : (done ++ c :: cs.take k).getLast? = (cs.take k).getLast?.or (some c) := by
            simp [List.getLast?_append, getLast?_cons_or]
          rw [hlength, hlast, List.append_assoc, List.cons_append, List.take_append_drop] at hrest
          rwa [Nat.add_assoc, Nat.add_comm 1 k]
        · rw [List.drop_eq_nil_of_le (by omega), canonicalFrom]
          exact .done (by simp; omega)

theorem laid_ofSource (source : List Char) : Laid source 0 (Canonical.ofSource source).marks :=
  laid_canonicalFrom .code (ne_phrase_of_plain rfl <| · + 1) [] source

theorem lt_of_standsAt {p : Phrase} (h : p.StandsAt source pos) : pos < source.length := by
  by_contra hle
  rw [Phrase.StandsAt, List.drop_eq_nil_of_le (by omega)] at h
  cases (Phrase.startsAt_iff.mp h).2.1

theorem Laid.origin_bounds (h : Laid source pos marks) {m : Mark} (hm : m ∈ marks) :
    pos ≤ m.origin ∧ m.origin < source.length := by
  induction h with
  | done => cases hm
  | @kept pos c marks hc _ ih =>
    rcases List.mem_cons.mp hm with rfl | hm
    · exact ⟨Nat.le_refl _, (List.getElem?_eq_some_iff.mp hc).1⟩
    · have hlater := ih hm
      omega
  | @phrase pos p marks _ hstands _ ih =>
    rcases List.mem_append.mp hm with hm | hm
    · obtain ⟨c, _, rfl⟩ := List.mem_map.mp hm
      exact ⟨Nat.le_refl _, lt_of_standsAt hstands⟩
    · have hlater := ih hm
      omega

/-- The symbol of a phrase gives one mark or two. -/
theorem Symbol.marks_cases (s : Symbol) (pos : Nat) :
    (∃ a b, s.marks pos = [⟨a, pos⟩, ⟨b, pos⟩] ∧ double? a b = some s) ∨
      ∃ a, s.marks pos = [⟨a, pos⟩] ∧ s.spelling.toList = [a] := by
  unfold Symbol.marks
  rcases s.chars_cases with ⟨a, b, hs, hdouble⟩ | ⟨a, hs, _⟩
  · exact .inl ⟨a, b, by rw [hs]; rfl, hdouble⟩
  · exact .inr ⟨a, by rw [hs]; rfl, hs⟩

theorem Ascending.cons {m : Mark} (h : Ascending marks) (hm : ∀ n ∈ marks, m.origin < n.origin) :
    Ascending (m :: marks) := by
  intro a x b n c heq
  cases a with
  | nil =>
    cases heq
    exact .inl (hm n (by simp))
  | cons y a =>
    cases heq
    exact h a x b n c rfl

theorem Laid.ascending (h : Laid source pos marks) : Ascending marks := by
  induction h with
  | done =>
    intro a m b n c heq
    simp at heq
  | kept _ hrest ih => exact ih.cons fun n hn => (hrest.origin_bounds hn).1
  | @phrase pos p marks hp _ hrest ih =>
    have hlater : ∀ n ∈ marks, pos < n.origin := by
      intro n hn
      have hbounds := hrest.origin_bounds hn
      have hpos := length_pos hp
      omega
    rcases p.symbol.marks_cases pos with ⟨a, b, hmarks, hdouble⟩ | ⟨a, hmarks, _⟩
    · rw [hmarks]
      intro before m between n behind heq
      cases before with
      | nil =>
        cases between with
        | nil =>
          cases heq
          exact .inr ⟨rfl, rfl, _, hdouble⟩
        | cons y between =>
          cases heq
          exact .inl (hlater n (by simp))
      | cons y before =>
        have htail := ih.cons (m := ⟨b, pos⟩) hlater
        exact htail before m between n behind (List.cons.inj heq).2
    · rw [hmarks]
      exact ih.cons hlater

/-- A mark is a character of the source, or of the symbol of a phrase that stands there: its first
character, or its second one and directly behind the first. -/
def Mark.ComesFrom (source : List Char) (before : List Mark) (m : Mark) : Prop :=
  source[m.origin]? = some m.char ∨ ∃ p ∈ Phrase.all, p.StandsAt source m.origin ∧
    (p.symbol.spelling.toList.head? = some m.char ∨
      ∃ n, before.getLast? = some n ∧ Symbol.double? n.char m.char = some p.symbol)

theorem Mark.ComesFrom.cons {before : List Mark} {m : Mark} (h : m.ComesFrom source before)
    (n : Mark) : m.ComesFrom source (n :: before) := by
  refine h.imp_right ?_
  rintro ⟨p, hp, hstands, hfirst | ⟨last, hlast, hdouble⟩⟩
  · exact ⟨p, hp, hstands, .inl hfirst⟩
  · exact ⟨p, hp, hstands, .inr ⟨last, by simp [List.getLast?_cons, hlast], hdouble⟩⟩

theorem Laid.comesFrom (h : Laid source pos marks) {a b : List Mark} {m : Mark}
    (heq : marks = a ++ m :: b) : m.ComesFrom source a := by
  induction h generalizing a with
  | done => simp at heq
  | kept hc _ ih =>
    cases a with
    | nil =>
      cases heq
      exact .inl hc
    | cons n a => exact (ih (List.cons.inj heq).2).cons n
  | @phrase pos p marks hp hstands _ ih =>
    rcases p.symbol.marks_cases pos with ⟨x, y, hmarks, hdouble⟩ | ⟨x, hmarks, hchars⟩
    · rw [hmarks] at heq
      cases a with
      | nil =>
        cases heq
        exact .inr ⟨p, hp, hstands, .inl (by rw [Symbol.spelling_of_double? hdouble]; rfl)⟩
      | cons n a =>
        cases a with
        | nil =>
          cases heq
          exact .inr ⟨p, hp, hstands, .inr ⟨_, rfl, hdouble⟩⟩
        | cons n' a => exact ((ih (List.cons.inj (List.cons.inj heq).2).2).cons n').cons n
    · rw [hmarks] at heq
      cases a with
      | nil =>
        cases heq
        exact .inr ⟨p, hp, hstands, .inl (by rw [hchars]; rfl)⟩
      | cons n a => exact (ih (List.cons.inj heq).2).cons n

/-- From a mark that is of no symbol on, marks are those of the source from there on. -/
theorem Laid.behind (h : Laid source pos marks) {a b : List Mark} {m : Mark}
    (heq : marks = a ++ m :: b) (hm : Wordy m.char) : Laid source m.origin (m :: b) := by
  induction h generalizing a with
  | done => simp at heq
  | kept hc hrest ih =>
    cases a with
    | nil =>
      cases heq
      exact .kept hc hrest
    | cons y a => exact ih (List.cons.inj heq).2
  | @phrase pos p marks hp _ _ ih =>
    rcases List.append_eq_append_iff.mp heq with ⟨a', -, htail⟩ | ⟨b', hmarks, htail⟩
    · exact ih htail
    · cases b' with
      | nil => exact ih (a := []) htail.symm
      | cons y b' =>
        obtain ⟨rfl, -⟩ := List.cons.inj htail
        have hmem : m ∈ p.symbol.marks pos := by simp [hmarks]
        obtain ⟨c, hc, rfl⟩ := List.mem_map.mp hmem
        exact absurd hc (hm p hp)

/-- A mark that is of no symbol is a character of the source. -/
theorem Laid.uncons {m : Mark} (h : Laid source pos (m :: marks)) (hm : Wordy m.char) :
    m.origin = pos ∧ source[pos]? = some m.char ∧ Laid source (pos + 1) marks := by
  generalize heq : m :: marks = all at h
  cases h with
  | done => cases heq
  | kept hc hrest =>
    cases heq
    exact ⟨rfl, hc, hrest⟩
  | @phrase _ p _ hp _ _ =>
    rcases p.symbol.marks_cases pos with ⟨x, y, hmarks, hdouble⟩ | ⟨x, hmarks, hchars⟩
    · rw [hmarks] at heq
      cases heq
      exact absurd (by simp [Symbol.spelling_of_double? hdouble]) (hm p hp)
    · rw [hmarks] at heq
      cases heq
      exact absurd (by simp [hchars]) (hm p hp)

/-- Marks that are of no symbol are a part of the source. -/
theorem Laid.slice {word rest : List Mark} (h : Laid source pos (word ++ rest))
    (hword : ∀ n ∈ word, Wordy n.char) :
    (source.drop pos).take word.length = word.map Mark.char := by
  induction word generalizing pos with
  | nil => rfl
  | cons m word ih =>
    obtain ⟨-, hc, hrest⟩ := h.uncons (hword m List.mem_cons_self)
    obtain ⟨hlt, hget⟩ := List.getElem?_eq_some_iff.mp hc
    have htail := ih hrest fun n hn => hword n (List.mem_cons_of_mem m hn)
    rw [List.drop_eq_getElem_cons hlt, List.length_cons, List.take_succ_cons, hget, htail,
      List.map_cons]

end Laid

/-! ### Tokens in the source -/

/-- The token stands in the source at its offset: a literal by its opening quote, an operator by its
first character or by a phrase whose symbol starts with it, any other token by its text. -/
def Token.Faithful (source : List Char) (t : Token) : Prop :=
  match t.kind with
  | .string => source[t.offset]? = some '"'
  | .symbol s => source[t.offset]? = s.spelling.toList.head? ∨
      ∃ p ∈ Phrase.all, p.StandsAt source t.offset ∧
        p.symbol.spelling.toList.head? = s.spelling.toList.head?
  | _ => (source.drop t.offset).take t.text.length = t.text.toList

theorem wordy_of_continuesName {c : Char} (h : Token.continuesName c = true) : Wordy c := by
  have hall : ∀ p ∈ Phrase.all,
      (p.symbol.spelling.toList.all fun d => !Token.continuesName d) = true := by decide
  intro p hp hmem
  have hc := List.all_eq_true.mp (hall p hp) c hmem
  rw [h] at hc
  cases hc

theorem wordy_of_decimal {cs : List Char} (h : PlainDecimal cs) : ∀ c ∈ cs, Wordy c := by
  have hdigit : ∀ {ds : List Char}, (∀ d ∈ ds, d.isDigit = true) → ∀ d ∈ ds, Wordy d :=
    fun hds d hd => wordy_of_continuesName (Token.continuesName_of_isDigit (hds d hd))
  have hpoint : Wordy '.' := by
    unfold Wordy
    decide
  cases h with
  | whole _ hds => exact hdigit hds
  | point _ hds _ hfs =>
    refine List.forall_mem_append.mpr ⟨hdigit hds, List.forall_mem_cons.mpr ⟨hpoint, hdigit hfs⟩⟩

/-! ### Between two lexemes -/

/-- A literal is closed, or it takes up any further character. -/
theorem LiteralBody.closed_or_open {cs text : List Char} (h : LiteralBody cs text) :
    (cs.getLast? = some '"' ∧ placeAfter .literal cs = .code) ∨
      ∀ c, ∃ text, LiteralBody (cs ++ [c]) text := by
  induction h with
  | closed => exact .inl ⟨rfl, rfl⟩
  | cutOff =>
    refine .inr fun c => ?_
    by_cases hquote : c = '"'
    · subst hquote
      exact ⟨_, .closed⟩
    · by_cases hslash : c = '\\'
      · subst hslash
        exact ⟨_, .cutEscape⟩
      · exact ⟨_, .plain hquote hslash .cutOff⟩
  | cutEscape => exact .inr fun c => ⟨_, .escape c .cutOff⟩
  | escape c _ ih =>
    rcases ih with ⟨hlast, hplace⟩ | hopen
    · exact .inl ⟨by simp [List.getLast?_cons, hlast], hplace⟩
    · refine .inr fun d => ?_
      obtain ⟨text, hbody⟩ := hopen d
      exact ⟨_, .escape c hbody⟩
  | plain hquote hslash _ ih =>
    rcases ih with ⟨hlast, hplace⟩ | hopen
    · refine .inl ⟨by simp [List.getLast?_cons, hlast], ?_⟩
      rw [placeAfter_plain hquote hslash, hplace]
    · refine .inr fun d => ?_
      obtain ⟨text, hbody⟩ := hopen d
      exact ⟨_, .plain hquote hslash hbody⟩

theorem PlainDecimal.last {cs : List Char} (h : PlainDecimal cs) {c : Char}
    (hc : cs.getLast? = some c) : c.isDigit = true := by
  cases h with
  | whole _ hds => exact hds c (List.mem_of_getLast? hc)
  | point _ _ hne hfs =>
    obtain ⟨f, fs, rfl⟩ := List.exists_cons_of_ne_nil hne
    rw [List.getLast?_append, List.getLast?_cons_cons, List.getLast?_cons, Option.some_or] at hc
    exact hfs c (List.mem_of_getLast? (by rw [List.getLast?_cons, hc]))

/-- Only an equality sign makes a symbol of two characters that differ. -/
theorem Symbol.double?_cases {a b : Char} {s : Symbol} (h : double? a b = some s) :
    a = b ∨ b = '=' ∧ (a = '!' ∨ a = '<' ∨ a = '>') := by
  unfold double? at h
  split at h <;> simp_all

theorem Symbol.double?_second {a b : Char} {s : Symbol} (h : double? a b = some s) :
    b = '&' ∨ b = '|' ∨ b = '=' := by
  unfold double? at h
  split at h <;> simp_all

namespace Lexeme

variable {x : Lexeme} {m n : Mark} {rest : List Mark} {s : Symbol}

/-- A lexeme does not become another one by the next mark. -/
theorem Stands.not_formed_concat (h : x.Stands (n :: rest)) (found : Option Token) :
    ¬ (Lexeme.mk (x.marks ++ [n]) found).Formed := by
  intro hy
  have hlength := h.longest _ hy ⟨rest, by simp⟩
  simp at hlength

/-- A lexeme of one mark is followed by none with which it forms a symbol. -/
theorem Stands.double?_eq_none (h : x.Stands (n :: rest)) (hx : x.marks = [m]) :
    Symbol.double? m.char n.char = none := by
  by_contra hdouble
  obtain ⟨s, hs⟩ := Option.ne_none_iff_exists'.mp hdouble
  refine h.not_formed_concat (some ⟨.symbol s, s.spelling, m.origin⟩) ?_
  rw [hx, List.singleton_append]
  refine .token ?_
  have hspells := Token.Spells.symbol s
  rwa [Symbol.spelling_of_double? hs] at hspells

/-- A literal that something follows is closed. -/
theorem Stands.literal_closed (h : x.Stands (n :: rest)) {word : List Mark} (hx : x.marks = m :: word)
    {body text : List Char} (hchars : (m :: word).map Mark.char = '"' :: body)
    (hbody : LiteralBody body text) :
    body.getLast? = some '"' ∧ placeAfter .literal body = .code := by
  refine hbody.closed_or_open.resolve_right fun hopen => ?_
  obtain ⟨text, hlonger⟩ := hopen n.char
  refine h.not_formed_concat (some ⟨.string, String.ofList text, m.origin⟩) ?_
  rw [hx, List.cons_append]
  refine .token ?_
  have hconcat : (m :: (word ++ [n])).map Mark.char = '"' :: (body ++ [n.char]) := by
    rw [← List.cons_append, List.map_append, hchars]
    rfl
  rw [hconcat]
  exact .literal hlonger

/-- Two characters that form a symbol are not parted by the end of a lexeme, unless they are the
same one twice. -/
theorem Stands.parted (h : x.Stands (n :: rest)) (hm : x.marks.getLast? = some m)
    (hs : Symbol.double? m.char n.char = some s) : m.char = n.char := by
  by_contra hne
  obtain ⟨hn, hm'⟩ := (Symbol.double?_cases hs).resolve_left hne
  have hlast : (x.marks.map Mark.char).getLast? = some m.char := by
    rw [List.getLast?_map, hm]
    rfl
  obtain ⟨marks, found⟩ := x
  cases h.formed with
  | @blank b hb =>
    obtain rfl : b = m := Option.some.inj hm
    rcases hm' with hc | hc | hc <;> rw [hc] at hb <;> cases hb
  | @comment b line hsign hline =>
    have hlonger : ∀ o ∈ line ++ [n], isLineBreak o.char = false := by
      refine List.forall_mem_append.mpr ⟨hline, List.forall_mem_singleton.mpr ?_⟩
      rw [hn]
      decide
    exact h.not_formed_concat none (.comment hsign hlonger)
  | @token b word kind text hspells =>
    generalize hcs : (b :: word).map Mark.char = cs at hspells hlast
    cases hspells with
    | number hdecimal =>
      have hdigit := hdecimal.last hlast
      rcases hm' with hc | hc | hc <;> rw [hc] at hdigit <;> cases hdigit
    | word hstart hword =>
      have hall := List.forall_mem_cons (p := (Token.continuesName · = true)).mpr
        ⟨Token.continuesName_of_startsName hstart, hword⟩
      have hcontinues := hall _ (List.mem_of_getLast? hlast)
      rcases hm' with hc | hc | hc <;> rw [hc] at hcontinues <;> cases hcontinues
    | @literal body text hbody =>
      rw [List.getLast?_cons, (h.literal_closed rfl hcs hbody).1] at hlast
      have hquote : '"' = m.char := Option.some.inj hlast
      rw [← hquote] at hm'
      exact absurd hm' (by decide)
    | symbol s' =>
      rcases s'.chars_cases with ⟨y, z, hspelling, hdouble⟩ | ⟨y, hspelling, _⟩
      · rw [hspelling] at hlast
        obtain rfl : z = m.char := Option.some.inj hlast
        have hsecond := Symbol.double?_second hdouble
        rcases hm' with hc | hc | hc <;> rw [hc] at hsecond <;> exact absurd hsecond (by decide)
      · rw [hspelling] at hcs
        obtain ⟨rfl, -⟩ : word = [] ∧ b.char = y := by simpa [and_comm] using hcs
        obtain rfl : b = m := Option.some.inj hm
        rw [h.double?_eq_none rfl] at hs
        cases hs

end Lexeme

section Divided

variable {source : List Char} {rest marks : List Mark} {xs : List Lexeme} {t : Token}

/-- Where a token of a divided text stands. -/
structure StandsIn (marks : List Mark) (t : Token) (before : List Mark) (x : Lexeme)
    (behind : List Mark) : Prop where
  split : marks = before ++ (x.marks ++ behind)
  token : x.token? = some t
  stands : x.Stands behind
  /-- no symbol of two characters that differ is parted in front of the token -/
  whole : ∀ m ∈ before.getLast?, ∀ n ∈ x.marks.head?, ∀ s,
    Symbol.double? m.char n.char = some s → m.char = n.char

theorem Divides.standsIn (h : Divides rest xs marks) (ht : t ∈ tokensOf xs) :
    ∃ before x behind, StandsIn marks t before x behind := by
  induction h with
  | done => cases ht
  | @next x xs marks hx _ ih =>
    rw [tokensOf, List.filterMap_cons] at ht
    have hlater : t ∈ tokensOf xs → ∃ before y behind,
        StandsIn (x.marks ++ marks) t before y behind := by
      intro ht
      obtain ⟨before, y, behind, hy⟩ := ih ht
      refine ⟨x.marks ++ before, y, behind, ?_, hy.token, hy.stands, fun m hm n hn s hs => ?_⟩
      · rw [hy.split, List.append_assoc]
      · cases hbefore : before.getLast? with
        | some last =>
          rw [List.getLast?_append, hbefore] at hm
          exact hy.whole m (by rwa [hbefore]) n hn s hs
        | none =>
          rw [List.getLast?_append, hbefore] at hm
          obtain ⟨word, hword⟩ := List.head?_eq_some_iff.mp hn
          have hmarks := hy.split
          rw [List.getLast?_eq_none_iff.mp hbefore, hword] at hmarks
          rw [hmarks] at hx
          exact hx.parted hm hs
    cases hfound : x.token? with
    | none =>
      rw [hfound] at ht
      exact hlater ht
    | some u =>
      rw [hfound] at ht
      rcases List.mem_cons.mp ht with rfl | ht
      · refine ⟨[], x, marks, rfl, hfound, hx, ?_⟩
        rintro m ⟨⟩
      · exact hlater ht

theorem Laid.faithful {pos : Nat} (hlaid : Laid source pos marks) {before behind : List Mark}
    {x : Lexeme} (h : StandsIn marks t before x behind) :
    t.offset < source.length ∧ t.Faithful source := by
  obtain ⟨all, found⟩ := x
  obtain ⟨hsplit, hfound, hstands, hwhole⟩ := h
  cases hstands.formed with
  | blank => cases hfound
  | comment => cases hfound
  | @token m word kind text hspells =>
    cases hfound
    have hmem : m ∈ marks := by simp [hsplit]
    refine ⟨(hlaid.origin_bounds hmem).2, ?_⟩
    have hslice : (∀ c ∈ (m :: word).map Mark.char, Wordy c) →
        (source.drop m.origin).take ((m :: word).map Mark.char).length
          = (m :: word).map Mark.char := by
      intro hwordy
      have hall : ∀ n ∈ m :: word, Wordy n.char := fun n hn => hwordy _ (List.mem_map_of_mem hn)
      have hfrom : Laid source m.origin (m :: word ++ behind) :=
        hlaid.behind hsplit (hall m List.mem_cons_self)
      rw [List.length_map]
      exact hfrom.slice hall
    have hcomes := hlaid.comesFrom hsplit
    generalize hcs : (m :: word).map Mark.char = cs at hspells hslice
    have hhead : ∀ {c : Char} {ds : List Char}, cs = c :: ds → m.char = c := by
      rintro c ds rfl
      exact (List.cons.inj hcs).1
    cases hspells with
    | number hdecimal =>
      have hword := hslice (wordy_of_decimal hdecimal)
      rw [← String.length_ofList] at hword
      exact hword.trans String.toList_ofList.symm
    | @word c cs hstart hcontinues =>
      have hall := List.forall_mem_cons (p := (Token.continuesName · = true)).mpr
        ⟨Token.continuesName_of_startsName hstart, hcontinues⟩
      have hword := hslice fun d hd => wordy_of_continuesName (hall d hd)
      generalize Keyword.ofWord? (String.ofList (c :: cs)) = found
      rw [← String.length_ofList] at hword
      cases found <;> exact hword.trans String.toList_ofList.symm
    | literal _ =>
      have hquote := hhead rfl
      have hwordy : Wordy m.char := by
        rw [hquote]
        unfold Wordy
        decide
      have hkept := ((hlaid.behind hsplit hwordy).uncons hwordy).2.1
      rw [hquote] at hkept
      exact hkept
    | symbol s =>
      obtain ⟨c, ds, hspelling⟩ := List.exists_cons_of_ne_nil (Token.Spells.symbol s).ne_nil
      have hfirst : s.spelling.toList.head? = some m.char := by
        rw [hspelling, hhead hspelling]
        rfl
      unfold Token.Faithful
      simp only [hfirst]
      refine hcomes.imp_right ?_
      rintro ⟨p, hp, hstandsAt, hsame | ⟨n, hn, hdouble⟩⟩
      · exact ⟨p, hp, hstandsAt, hsame⟩
      · refine ⟨p, hp, hstandsAt, ?_⟩
        rw [Symbol.spelling_of_double? hdouble, List.head?_cons, hwhole n hn m rfl _ hdouble]

/-- Tokens come in the order of their places. -/
theorem Divides.offsets_increase (h : Divides rest xs marks) (hmarks : Ascending marks) :
    (tokensOf xs).Pairwise fun t u => t.offset < u.offset := by
  induction h with
  | done => exact .nil
  | @next x xs marks hx hrest ih =>
    have htail := ih fun a m b n c heq => hmarks (x.marks ++ a) m b n c (by rw [heq]; simp)
    rw [tokensOf, List.filterMap_cons]
    cases hfound : x.token? with
    | none => exact htail
    | some t =>
      refine .cons (fun u hu => ?_) htail
      obtain ⟨before, y, behind, hy⟩ := hrest.standsIn hu
      obtain ⟨all, found⟩ := x
      obtain ⟨all', found'⟩ := y
      obtain ⟨hsplit, hfound', hstands, -⟩ := hy
      cases hx.formed with
      | blank => cases hfound
      | comment => cases hfound
      | @token m word kind text _ =>
        cases hfound
        cases hstands.formed with
        | blank => cases hfound'
        | comment => cases hfound'
        | @token n word' kind' text' _ =>
          cases hfound'
          have hplace := hmarks [] m (word ++ before) n (word' ++ behind) (by simp [hsplit])
          rcases hplace with hlt | ⟨-, hnil, s, hdouble⟩
          · exact hlt
          · -- the first token would not end between the two characters of a symbol
            obtain ⟨rfl, rfl⟩ := List.append_eq_nil_iff.mp hnil
            rw [hsplit] at hx
            rw [hx.double?_eq_none rfl] at hdouble
            cases hdouble

/-- The scanner gives up at the first place behind whole lexemes where no lexeme starts, or it
returns the tokens of the lexemes of which the canonical text consists: at increasing offsets, and
as they stand in the source. The end of the canonical text comes from the end of the source. -/
theorem tokens_faithful (source : List Char) :
    (∃ xs m rest, Divides (m :: rest) xs (Canonical.ofSource source).marks ∧ Barren (m :: rest) ∧
      Source.tokens source = .error (.lex (Token.refusal m.char, m.origin))) ∨
    ∃ xs, Divides [] xs (Canonical.ofSource source).marks ∧
      Source.tokens source = .ok (tokensOf xs) ∧
      (tokensOf xs).Pairwise (fun t u => t.offset < u.offset) ∧
      (∀ t ∈ tokensOf xs, t.offset < source.length ∧ t.Faithful source) ∧
      (Canonical.ofSource source).sourceOffset (Canonical.ofSource source).marks.length
        = source.length := by
  have hlaid := laid_ofSource source
  unfold Source.tokens
  cases hscan : (Canonical.ofSource source).tokens with
  | error fault =>
    obtain ⟨xs, m, rest, hdivides, hbarren, rfl⟩ := barren_of_scanAll hscan
    exact .inl ⟨xs, m, rest, hdivides, hbarren, rfl⟩
  | ok ts =>
    obtain ⟨xs, hdivides, rfl⟩ := divides_of_scanAll hscan
    refine .inr ⟨xs, hdivides, rfl, hdivides.offsets_increase hlaid.ascending, fun t ht => ?_, ?_⟩
    · obtain ⟨before, x, behind, hin⟩ := hdivides.standsIn ht
      exact hlaid.faithful hin
    · simp [Canonical.sourceOffset, Canonical.origins, Canonical.ofSource]

end Divided
end Parlance
