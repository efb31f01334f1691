import Parlance.Proofs.Lexing.Origins
import Parlance.Proofs.Lines.Breaks
/-!
# Words of the normalizer and words of the scanner

For the scanner an underscore belongs to a word, for the normalizer it stands beside one. An
identifier of the source, outside of literals and comments, becomes one token with its whole text if
and only if the normalizer replaces no phrase that overlaps it (`identifier_read_iff`). A phrase next
to an underscore overlaps the identifier that it is cut from (`underscored_breaks`).
-/
namespace Parlance
open Text

/-! ### Literals and comments of a source -/

/-- The character ends no comment and starts or ends no literal, comment or escape. -/
structure Inert (c : Char) : Prop where
  quote : c ≠ '"'
  comment : c ≠ '#'
  slash : c ≠ '\\'
  line : isLineBreak c = false

/-- The place behind characters that start and end nothing. -/
def Place.settled : Place → Place
  | .escape => .literal
  | place => place

/-- The identifier `w` of a source, between `a` and `b`: a run of letters, digits and underscores
that cannot be made longer and starts with no digit, outside of literals and comments. -/
structure Identifier (a w b : List Char) : Prop where
  starts : w.head?.any Token.startsName = true
  continues : ∀ c ∈ w, Token.continuesName c = true
  left : ∀ c ∈ a.getLast?, Token.continuesName c = false
  right : ∀ c ∈ b.head?, Token.continuesName c = false
  outside : placeAfter .code a = .code

/-- The normalizer replaces a phrase at an offset of a source. -/
structure Replaced (source : List Char) (pos : Nat) (p : Phrase) : Prop where
  free : zoneAfter .code none (source.take pos) (source.drop pos) = .code ∨
    zoneAfter .code none (source.take pos) (source.drop pos) = .phrase 0
  unquoted : (source.drop pos).head? ≠ some '"'
  found : Phrase.at? (source.take pos).getLast? (source.drop pos) = some p

/-- A text of a source from one offset up to another, apart from every replaced phrase. -/
def Untouched (source : List Char) (first last : Nat) : Prop := ∀ pos p, Replaced source pos p →
  pos + p.length ≤ first ∨ last ≤ pos

/-- The phrase stands in a source as whole words: no letter, digit or underscore touches it. -/
structure StandsWhole (p : Phrase) (source : List Char) (pos : Nat) : Prop where
  stands : p.StandsAt source pos
  before : ((source.take pos).getLast?.any Token.continuesName) = false
  behind : ((source.drop (pos + p.length)).head?.any Token.continuesName) = false

/-- An underscore stands right before the phrase or right behind it. -/
def BesideUnderscore (source : List Char) (pos : Nat) (p : Phrase) : Prop :=
  (source.take pos).getLast? = some '_' ∨ (source.drop (pos + p.length)).head? = some '_'

/-! ### What the normalizer leaves alone -/

section Normalizer

variable {a b : List Char} {c : Char} {zone : Zone} {before : Option Char} {pos n : Nat}

theorem zoneAfter_concat (a : List Char) (c : Char) (b : List Char) :
    zoneAfter .code none (a ++ [c]) b
      = (zoneAfter .code none a (c :: b)).next a.getLast? c b := by
  rw [zoneAfter_append, Option.or_none]
  rfl

/-- A phrase that is not over behind a text has been replaced in it. -/
theorem replaced_of_phrase (hz : zoneAfter .code none a b = .phrase n) :
    ∃ pos p, Replaced (a ++ b) pos p ∧ pos < a.length ∧ pos + p.length = a.length + n := by
  induction a using List.reverseRecOn generalizing b n with
  | nil => cases hz
  | append_singleton a c ih =>
    rw [zoneAfter_concat] at hz
    rw [List.append_assoc, List.singleton_append, List.length_append, List.length_singleton]
    have hstep := step_taken (zoneAfter .code none a (c :: b)) a.getLast? 0 c b
    rw [hz] at hstep
    generalize Zone.emit _ _ _ _ _ = marks at hstep
    cases hstep with
    | inside hzone =>
      obtain ⟨pos, p, hreplaced, hlt, hend⟩ := ih hzone
      exact ⟨pos, p, hreplaced, by omega, by omega⟩
    | kept _ hnext _ => exact absurd rfl (hnext n)
    | @phrase p hfree hquote hat =>
      have hpos := length_pos (at?_mem hat).1
      exact ⟨a.length, p, ⟨by simpa using hfree, by simpa using hquote, by simpa using hat⟩,
        by omega, by omega⟩

/-- What stands apart from every replaced phrase stays. -/
theorem passed_untouched {first last : Nat} {w : List Char}
    (h : Untouched (a ++ (w ++ b)) first last) (hfirst : first ≤ a.length)
    (hlast : a.length + w.length ≤ last)
    (hz : ∀ n, zoneAfter .code none a (w ++ b) ≠ .phrase (n + 1)) (pos : Nat) :
    passed (zoneAfter .code none a (w ++ b)) a.getLast? pos w b = marksFrom pos w ∧
      ∀ n, zoneAfter .code none (a ++ w) b ≠ .phrase (n + 1) := by
  induction w generalizing a pos with
  | nil =>
    rw [List.append_nil]
    exact ⟨rfl, hz⟩
  | cons c w ih =>
    rw [List.length_cons] at hlast
    have hwhole : a ++ [c] ++ (w ++ b) = a ++ (c :: w ++ b) := by simp
    have hrest := ih (a := a ++ [c]) (hwhole ▸ h) (by simp; omega) (by simp; omega)
    rw [zoneAfter_concat, List.getLast?_concat, List.append_assoc] at hrest
    rw [List.cons_append] at hz h ⊢
    rw [passed, marksFrom]
    have hstep := step_taken (zoneAfter .code none a (c :: (w ++ b))) a.getLast? pos c (w ++ b)
    generalize Zone.emit _ _ _ _ _ = marks at hstep ⊢
    generalize Zone.next _ _ _ _ = next at hstep hrest ⊢
    cases hstep with
    | inside hzone => exact absurd hzone (hz _)
    | kept _ hnext _ =>
      obtain ⟨hpassed, hbehind⟩ := hrest (fun n => hnext (n + 1)) (pos + 1)
      rw [hpassed]
      exact ⟨rfl, hbehind⟩
    | @phrase p hfree hquote hat =>
      have hpos := length_pos (at?_mem hat).1
      have hreplaced : Replaced (a ++ c :: (w ++ b)) a.length p :=
        ⟨by simpa using hfree, by simpa using hquote, by simpa using hat⟩
      rcases h _ _ hreplaced with hle | hle <;> omega

/-- The last mark of a text is its last character, or of the symbol of a phrase that is not over or
ends with the text. -/
theorem last_passed {m : Mark} (hm : (passed .code none pos a b).getLast? = some m) :
    (∃ n, zoneAfter .code none a b = .phrase n) ∧ ¬ Wordy m.char ∨
      (∀ n, zoneAfter .code none a b ≠ .phrase n) ∧ a.getLast? = some m.char := by
  induction a using List.reverseRecOn generalizing b m with
  | nil => cases hm
  | append_singleton a c ih =>
    rw [zoneAfter_concat, List.getLast?_concat]
    rw [passed_append, Option.or_none] at hm
    simp only [passed, List.nil_append, List.append_nil, List.singleton_append] at hm
    have hstep := step_taken (zoneAfter .code none a (c :: b)) a.getLast? (pos + a.length) c b
    generalize Zone.emit _ _ _ _ _ = marks at hstep hm
    generalize Zone.next _ _ _ _ = next at hstep ⊢
    cases hstep with
    | @inside n hzone =>
      rw [List.append_nil] at hm
      rcases ih hm with hphrase | ⟨hnone, _⟩
      · exact .inl ⟨⟨n, rfl⟩, hphrase.2⟩
      · exact absurd hzone (hnone _)
    | kept _ hnext _ =>
      rw [List.getLast?_concat] at hm
      cases hm
      exact .inr ⟨hnext, rfl⟩
    | @phrase p _ _ hat =>
      have hmem : m ∈ p.symbol.marks (pos + a.length) := by
        rcases p.symbol.marks_cases (pos + a.length) with ⟨x, y, hmarks, _⟩ | ⟨x, hmarks, _⟩ <;>
          rw [hmarks, List.getLast?_append] at hm <;> cases hm <;> simp [hmarks]
      obtain ⟨d, hd, rfl⟩ := List.mem_map.mp hmem
      exact .inl ⟨⟨_, rfl⟩, fun hwordy => hwordy p (at?_mem hat).1 hd⟩

theorem origin_passed {m : Mark} (h : m ∈ passed zone before pos a b) :
    pos ≤ m.origin ∧ m.origin < pos + a.length := by
  induction a generalizing zone before pos with
  | nil => cases h
  | cons c a ih =>
    rw [passed, List.mem_append] at h
    rw [List.length_cons]
    rcases h with h | h
    · have horigin : m.origin = pos := by
        have hstep := step_taken zone before pos c (a ++ b)
        generalize Zone.emit _ _ _ _ _ = marks at hstep h
        generalize Zone.next _ _ _ _ = next at hstep
        cases hstep with
        | inside _ => cases h
        | kept _ _ _ => rw [List.mem_singleton.mp h]
        | phrase _ _ _ =>
          obtain ⟨d, _, rfl⟩ := List.mem_map.mp h
          rfl
      omega
    · have hlater := ih h
      omega

theorem origin_canonicalFrom {m : Mark} {cs : List Char}
    (h : m ∈ canonicalFrom zone before pos cs) : pos ≤ m.origin := by
  rw [← passed_nil] at h
  exact (origin_passed h).1

/-- The canonical text of a source around a text that no replaced phrase overlaps. -/
theorem marks_untouched {w : List Char} (hne : w ≠ [])
    (h : Untouched (a ++ (w ++ b)) a.length (a.length + w.length)) :
    (∀ n, zoneAfter .code none a (w ++ b) ≠ .phrase (n + 1)) ∧
    ∃ z, (∀ n, z ≠ Zone.phrase (n + 1)) ∧ (Canonical.ofSource (a ++ (w ++ b))).marks
      = passed .code none 0 a (w ++ b)
        ++ (marksFrom a.length w ++ canonicalFrom z (w.getLast?.or a.getLast?)
          (a.length + w.length) b) := by
  have hlength := List.length_pos_iff.mpr hne
  have hz : ∀ n, zoneAfter .code none a (w ++ b) ≠ .phrase (n + 1) := by
    intro n hz
    obtain ⟨pos, p, hreplaced, hlt, hend⟩ := replaced_of_phrase hz
    rcases h _ _ hreplaced with hle | hle <;> omega
  obtain ⟨hpassed, hbehind⟩ := passed_untouched h (Nat.le_refl _) (Nat.le_refl _) hz a.length
  rw [zoneAfter_append, Option.or_none] at hbehind
  refine ⟨hz, _, hbehind, ?_⟩
  have hmarks : (Canonical.ofSource (a ++ (w ++ b))).marks
      = canonicalFrom .code none 0 (a ++ (w ++ b)) := rfl
  rw [hmarks, canonicalFrom_append, Option.or_none, Nat.zero_add, canonicalFrom_append, hpassed]

theorem head_canonicalFrom (hz : ∀ n, zone ≠ .phrase (n + 1))
    (hb : ∀ c ∈ b.head?, Token.continuesName c = false) :
    ∀ m ∈ (canonicalFrom zone before pos b).head?, Token.continuesName m.char = false := by
  cases b with
  | nil => simp [canonicalFrom]
  | cons c b =>
    rw [canonicalFrom_cons]
    have hstep := step_taken zone before pos c b
    generalize Zone.emit _ _ _ _ _ = marks at hstep ⊢
    generalize Zone.next _ _ _ _ = next at hstep ⊢
    cases hstep with
    | inside hzone => exact absurd hzone (hz _)
    | kept _ _ _ =>
      rintro _ ⟨⟩
      exact hb c rfl
    | @phrase p _ _ hat =>
      intro m hm
      have hmem : m ∈ p.symbol.marks pos := by
        rcases p.symbol.marks_cases pos with ⟨x, y, hmarks, _⟩ | ⟨x, hmarks, _⟩ <;>
          rw [hmarks] at hm ⊢ <;> cases hm <;> exact List.mem_cons_self
      obtain ⟨d, hd, rfl⟩ := List.mem_map.mp hmem
      by_contra hcontinues
      exact wordy_of_continuesName (by simpa using hcontinues) p (at?_mem hat).1 hd

/-! ### Places in the canonical text -/

theorem place_inert {c : Char} (h : Inert c) (place : Place) : place.next c = place.settled := by
  cases place with
  | code => simp only [Place.next, if_neg h.quote, if_neg h.comment, Place.settled]
  | literal => simp only [Place.next, if_neg h.quote, if_neg h.slash, Place.settled]
  | escape => rfl
  | comment => simp [Place.next, h.line, Place.settled]

theorem settled_settled (place : Place) : place.settled.settled = place.settled := by
  cases place <;> rfl

theorem placeAfter_inert {cs : List Char} (h : ∀ c ∈ cs, Inert c) (hne : cs ≠ [])
    (place : Place) : placeAfter place cs = place.settled := by
  induction cs generalizing place with
  | nil => exact absurd rfl hne
  | cons c cs ih =>
    have hstep : placeAfter place (c :: cs) = placeAfter (place.next c) cs := rfl
    rw [hstep, place_inert (h c List.mem_cons_self)]
    cases cs with
    | nil => rfl
    | cons d cs =>
      rw [ih (fun e he => h e (List.mem_cons_of_mem c he)) (List.cons_ne_nil d cs),
        settled_settled]

theorem inert_of_isPhrasal {c : Char} (h : isPhrasal c = true) : Inert c := by
  constructor
  · rintro rfl
    revert h
    decide
  · rintro rfl
    revert h
    decide
  · rintro rfl
    revert h
    decide
  · by_contra hline
    simp only [isLineBreak, Bool.not_eq_false, Bool.or_eq_true, beq_iff_eq] at hline
    rcases hline with rfl | rfl <;> revert h <;> decide

theorem inert_symbol (s : Symbol) : ∀ c ∈ s.spelling.toList, Inert c := by
  have hall : (s.spelling.toList.all fun c =>
      c != '"' && c != '#' && c != '\\' && !isLineBreak c) = true := by
    cases s <;> decide
  intro c hc
  have hinert := List.all_eq_true.mp hall c hc
  simp only [Bool.and_eq_true, bne_iff_ne, Bool.not_eq_true'] at hinert
  exact ⟨hinert.1.1.1, hinert.1.1.2, hinert.1.2, hinert.2⟩

/-- Phrases do not matter for where literals and comments begin and end. -/
theorem place_passed (h : zone.Pending (a ++ b)) (place : Place)
    (hplace : ∀ n, zone = .phrase (n + 1) → place.settled = place) :
    placeAfter place ((passed zone before pos a b).map Mark.char) = placeAfter place a := by
  induction a generalizing zone before pos place with
  | nil => rfl
  | cons c a ih =>
    have hpending : (zone.next before c (a ++ b)).Pending (a ++ b) := h.next
    have hsource : placeAfter place (c :: a) = placeAfter (place.next c) a := rfl
    rw [passed, List.map_append, placeAfter_append, hsource]
    have hstep := step_taken zone before pos c (a ++ b)
    generalize Zone.emit _ _ _ _ _ = marks at hstep ⊢
    generalize Zone.next _ _ _ _ = next at hstep hpending ⊢
    cases hstep with
    | @inside n hzone =>
      have hc : Inert c := inert_of_isPhrasal (h _ hzone c List.mem_cons_self)
      rw [place_inert hc, hplace n hzone]
      exact ih hpending place fun _ _ => hplace n hzone
    | kept _ hnext _ => exact ih hpending _ fun n hn => absurd hn (hnext _)
    | @phrase p _ _ hat =>
      obtain ⟨k, hk⟩ := Nat.exists_eq_add_of_lt (length_pos (at?_mem hat).1)
      have hc : Inert c := inert_of_isPhrasal (isPhrasal_of_at? hat c (by simp [hk]))
      have hmarks : placeAfter place ((p.symbol.marks pos).map Mark.char) = place.settled := by
        rw [Symbol.chars_marks]
        exact placeAfter_inert (inert_symbol _) (Token.Spells.symbol p.symbol).ne_nil place
      rw [hmarks, place_inert hc]
      exact ih hpending _ fun _ _ => settled_settled place

end Normalizer

/-! ### Places in lexemes -/

theorem eq_nil_of_singleton_eq_append {c : Char} {u v : List Char} (h : [c] = u ++ v)
    (hv : v ≠ []) : u = [] :=
  ((List.singleton_eq_append_iff.mp h).resolve_right fun hu => hv hu.2).1

theorem LiteralBody.place_inside {cs text : List Char} (h : LiteralBody cs text) {u v : List Char}
    (heq : cs = u ++ v) (hv : v ≠ []) : placeAfter .literal u ≠ .code := by
  induction h generalizing u with
  | closed =>
    obtain rfl := eq_nil_of_singleton_eq_append heq hv
    exact nofun
  | cutOff => exact absurd (List.append_eq_nil_iff.mp heq.symm).2 hv
  | cutEscape =>
    obtain rfl := eq_nil_of_singleton_eq_append heq hv
    exact nofun
  | escape c _ ih =>
    cases u with
    | nil => exact nofun
    | cons d u =>
      obtain ⟨rfl, htail⟩ := List.cons.inj heq
      cases u with
      | nil => exact nofun
      | cons e u =>
        have hsame : placeAfter .literal ('\\' :: e :: u) = placeAfter .literal u := rfl
        rw [hsame]
        exact ih (List.cons.inj htail).2
  | plain hquote hslash _ ih =>
    cases u with
    | nil => exact nofun
    | cons e u =>
      obtain ⟨rfl, htail⟩ := List.cons.inj heq
      rw [placeAfter_plain hquote hslash]
      exact ih htail

/-- One part of a text reaches up to a place, or beyond it. -/
theorem reaches_or_passes {α : Type} {x y a : List α} {n : α} {rest : List α}
    (h : x ++ y = a ++ n :: rest) :
    (∃ a', a = x ++ a' ∧ y = a' ++ n :: rest) ∨ ∃ v, x = a ++ n :: v ∧ rest = v ++ y := by
  rcases List.append_eq_append_iff.mp h with ⟨a', ha, hy⟩ | ⟨v, hx, hbehind⟩
  · exact .inl ⟨a', ha, hy⟩
  · cases v with
    | nil => exact .inl ⟨[], by simpa using hx.symm, hbehind.symm⟩
    | cons k v =>
      obtain ⟨rfl, htail⟩ := List.cons.inj hbehind
      exact .inr ⟨v, hx, htail⟩

section Places

variable {x : Lexeme} {xs : List Lexeme} {n : Mark} {rest marks : List Mark}

theorem inert_of_continuesName {c : Char} (h : Token.continuesName c = true) : Inert c := by
  constructor
  · rintro rfl
    cases h
  · rintro rfl
    cases h
  · rintro rfl
    cases h
  · by_contra hline
    simp only [isLineBreak, Bool.not_eq_false, Bool.or_eq_true, beq_iff_eq] at hline
    rcases hline with rfl | rfl <;> cases h

theorem inert_of_decimal {cs : List Char} (h : PlainDecimal cs) : ∀ c ∈ cs, Inert c := by
  have hdigit : ∀ {ds : List Char}, (∀ d ∈ ds, d.isDigit = true) → ∀ d ∈ ds, Inert d :=
    fun hds d hd => inert_of_continuesName (Token.continuesName_of_isDigit (hds d hd))
  cases h with
  | whole _ hds => exact hdigit hds
  | point _ hds _ hfs =>
    have hpoint : Inert '.' := ⟨by decide, by decide, by decide, by decide⟩
    exact List.forall_mem_append.mpr ⟨hdigit hds, List.forall_mem_cons.mpr ⟨hpoint, hdigit hfs⟩⟩

/-- No character of a symbol starts a name, and neither does a point. -/
theorem not_startsName_of_decimal {cs : List Char} (h : PlainDecimal cs) :
    ∀ c ∈ cs, Token.startsName c = false := by
  have hdigit : ∀ {ds : List Char}, (∀ d ∈ ds, d.isDigit = true) →
      ∀ d ∈ ds, Token.startsName d = false := by
    intro ds hds d hd
    by_contra hstarts
    rw [Bool.not_eq_false] at hstarts
    have hnot := Token.not_isDigit_of_startsName hstarts
    rw [hds d hd] at hnot
    cases hnot
  cases h with
  | whole _ hds => exact hdigit hds
  | point _ hds _ hfs =>
    exact List.forall_mem_append.mpr
      ⟨hdigit hds, List.forall_mem_cons.mpr ⟨by decide, hdigit hfs⟩⟩

theorem not_startsName_symbol (s : Symbol) :
    ∀ c ∈ s.spelling.toList, Token.startsName c = false := by
  have hall : (s.spelling.toList.all fun c => !Token.startsName c) = true := by
    cases s <;> decide
  intro c hc
  simpa using List.all_eq_true.mp hall c hc

theorem place_blank {c : Char} (h : isBlank c = true) : Place.next .code c = .code := by
  have hquote : c ≠ '"' := by
    rintro rfl
    cases h
  have hsign : c ≠ '#' := by
    rintro rfl
    cases h
  simp only [Place.next, if_neg hquote, if_neg hsign]

/-- A comment goes on up to a line break. -/
theorem placeAfter_comment {cs : List Char} (h : ∀ c ∈ cs, isLineBreak c = false) :
    placeAfter .comment cs = .comment := by
  induction cs with
  | nil => rfl
  | cons c cs ih =>
    have hstep : placeAfter .comment (c :: cs) = placeAfter (Place.next .comment c) cs := rfl
    have hc : Place.next .comment c = .comment := by simp [Place.next, h c List.mem_cons_self]
    rw [hstep, hc, ih fun d hd => h d (List.mem_cons_of_mem c hd)]

/-- No name starts in a lexeme outside of its literals and comments, but where the lexeme starts or
as a part of a longer name. -/
theorem Lexeme.Formed.place_inside (hx : x.Formed) {u v : List Mark} (heq : x.marks = u ++ n :: v)
    (hne : u ≠ []) (hu : ∀ m ∈ u.getLast?, Token.continuesName m.char = false)
    (hn : Token.startsName n.char = true) : placeAfter .code (u.map Mark.char) ≠ .code := by
  obtain ⟨m, u, rfl⟩ := List.exists_cons_of_ne_nil hne
  cases hx with
  | blank _ =>
    obtain ⟨-, htail⟩ := List.cons.inj heq
    exact absurd htail (by simp)
  | comment hsign hline =>
    obtain ⟨rfl, rfl⟩ := List.cons.inj heq
    have hcomment : placeAfter .comment (u.map Mark.char) = .comment := by
      refine placeAfter_comment fun c hc => ?_
      obtain ⟨k, hk, rfl⟩ := List.mem_map.mp hc
      exact hline k (List.mem_append_left _ hk)
    rw [List.map_cons, hsign]
    exact fun hcode => absurd (hcomment.symm.trans hcode) (by decide)
  | token hspells =>
    obtain ⟨rfl, rfl⟩ := List.cons.inj heq
    generalize hcs : (_ :: (u ++ n :: v)).map Mark.char = cs at hspells
    have hmem : n.char ∈ cs := by simp [← hcs]
    cases hspells with
    | number hdecimal =>
      have hnot := not_startsName_of_decimal hdecimal _ hmem
      rw [hn] at hnot
      cases hnot
    | word hstart hword =>
      -- what is before the name would go on with it
      have hall := List.forall_mem_cons (p := (Token.continuesName · = true)).mpr
        ⟨Token.continuesName_of_startsName hstart, hword⟩
      obtain ⟨k, hk⟩ : ∃ k, List.getLast? _ = some k := ⟨_, List.getLast?_eq_some_getLast hne⟩
      have hcontinues : Token.continuesName k.char = true := by
        refine hall _ ?_
        rw [← hcs, ← List.cons_append, List.map_append]
        exact List.mem_append_left _ (List.mem_map_of_mem (List.mem_of_getLast? hk))
      rw [hu k hk] at hcontinues
      cases hcontinues
    | literal hbody =>
      rw [List.map_cons] at hcs ⊢
      obtain ⟨hquote, hbody'⟩ := List.cons.inj hcs
      rw [List.map_append] at hbody'
      rw [hquote]
      exact hbody.place_inside hbody'.symm (by simp)
    | symbol s =>
      have hnot := not_startsName_symbol s _ hmem
      rw [hn] at hnot
      cases hnot

theorem Lexeme.Stands.place_end (h : x.Stands (n :: rest)) :
    placeAfter .code (x.marks.map Mark.char) = .code ∨
      placeAfter .code (x.marks.map Mark.char) = .comment ∧ isLineBreak n.char = true := by
  obtain ⟨all, found⟩ := x
  cases h.formed with
  | @blank m hb => exact .inl (place_blank hb)
  | @comment m line hsign hline =>
    refine .inr ⟨?_, ?_⟩
    · have hcomment : placeAfter .comment (line.map Mark.char) = .comment := by
        refine placeAfter_comment fun c hc => ?_
        obtain ⟨k, hk, rfl⟩ := List.mem_map.mp hc
        exact hline k hk
      rw [List.map_cons, hsign]
      exact hcomment
    · by_contra hn
      have hlonger : ∀ k ∈ line ++ [n], isLineBreak k.char = false :=
        List.forall_mem_append.mpr ⟨hline, List.forall_mem_singleton.mpr (by simpa using hn)⟩
      exact h.not_formed_concat none (.comment hsign hlonger)
  | @token m word kind text hspells =>
    refine .inl ?_
    generalize hcs : (m :: word).map Mark.char = cs at hspells ⊢
    cases hspells with
    | number hdecimal =>
      obtain ⟨d, ds, hds, _⟩ := hdecimal.head
      exact placeAfter_inert (inert_of_decimal hdecimal) (by simp [hds]) .code
    | word hstart hword =>
      have hall := List.forall_mem_cons (p := (Token.continuesName · = true)).mpr
        ⟨Token.continuesName_of_startsName hstart, hword⟩
      exact placeAfter_inert (fun c hc => inert_of_continuesName (hall c hc))
        (List.cons_ne_nil _ _) .code
    | literal hbody => exact (h.literal_closed rfl hcs hbody).2
    | symbol s => exact placeAfter_inert (inert_symbol s) (Token.Spells.symbol s).ne_nil .code

/-- A line break is a lexeme. -/
theorem Lexeme.Formed.line_break (hx : x.Formed)
    (h : ∀ m ∈ (x.marks ++ marks).head?, isLineBreak m.char = true) :
    ∃ m, x.marks = [m] ∧ isLineBreak m.char = true := by
  obtain ⟨m, word, hword⟩ := List.exists_cons_of_ne_nil hx.ne_nil
  have hline : isLineBreak m.char = true := h m (by rw [hword]; rfl)
  have hpre : x.marks <+: m :: word := hword ▸ List.prefix_rfl
  exact ⟨m, (hx.cases_of_prefix hpre).1 (isBlank_of_isLineBreak hline), hline⟩

/-- In front of a name that is in no literal or comment one lexeme ends and another one starts. -/
theorem Divides.cut (h : Divides [] xs marks) {place : Place} {a : List Mark}
    (heq : marks = a ++ n :: rest)
    (hready : place = .code ∨ place = .comment ∧ ∀ m ∈ marks.head?, isLineBreak m.char = true)
    (hplace : placeAfter place (a.map Mark.char) = .code)
    (ha : ∀ m ∈ a.getLast?, Token.continuesName m.char = false)
    (hn : Token.startsName n.char = true) :
    ∃ ys zs, xs = ys ++ zs ∧ Divides (n :: rest) ys marks ∧ Divides [] zs (n :: rest) := by
  induction h generalizing place a with
  | done => simp at heq
  | @next x xs marks hx hrest ih =>
    rcases reaches_or_passes heq with ⟨a', rfl, hmarks⟩ | ⟨v, hsplit, hrest'⟩
    · have hready' : placeAfter place (x.marks.map Mark.char) = .code ∨
          placeAfter place (x.marks.map Mark.char) = .comment ∧
            ∀ m ∈ marks.head?, isLineBreak m.char = true := by
        rcases hready with rfl | ⟨rfl, hbreak⟩
        · cases marks with
          | nil => simp at hmarks
          | cons k marks =>
            refine hx.place_end.imp_right fun hend => ⟨hend.1, ?_⟩
            rintro _ ⟨⟩
            exact hend.2
        · obtain ⟨k, hk, hline⟩ := hx.formed.line_break hbreak
          rw [hk]
          exact .inl (by simp [placeAfter, Place.next, hline])
      rw [List.map_append, placeAfter_append] at hplace
      obtain ⟨ys, zs, rfl, hys, hzs⟩ := ih hmarks hready' hplace fun m hm => ha m (by
        rw [List.getLast?_append, Option.mem_def.mp hm]
        rfl)
      exact ⟨x :: ys, zs, rfl, .next hx hys, hzs⟩
    · by_cases hnil : a = []
      · subst hnil
        have hwhole : Divides [] (x :: xs) (x.marks ++ marks) := .next hx hrest
        rw [heq, List.nil_append] at hwhole ⊢
        exact ⟨[], x :: xs, rfl, .done, hwhole⟩
      · exfalso
        rcases hready with rfl | hbreak
        · exact hx.formed.place_inside hsplit hnil ha hn hplace
        · obtain ⟨k, hk, -⟩ := hx.formed.line_break hbreak.2
          have hlength := congrArg List.length (hk.symm.trans hsplit)
          have hpos := List.length_pos_iff.mpr hnil
          simp at hlength
          omega

/-- A lexeme of a whole name and of what is behind it is that name alone. -/
theorem Lexeme.Formed.eq_name {pos : Nat} {c : Char} {cs : List Char} {e : List Mark}
    (hx : x.Formed) (hc : Token.startsName c = true)
    (hcs : ∀ d ∈ cs, Token.continuesName d = true)
    (he : ∀ m ∈ e.head?, Token.continuesName m.char = false)
    (hmarks : x.marks = marksFrom pos (c :: cs) ++ e) :
    e = [] ∧ x = ⟨marksFrom pos (c :: cs), some ⟨Token.wordKind (Keyword.ofWord?
      (String.ofList (c :: cs))), String.ofList (c :: cs), pos⟩⟩ := by
  have hchars : x.marks.map Mark.char = c :: (cs ++ e.map Mark.char) := by
    rw [hmarks, List.map_append, chars_marksFrom]
    rfl
  have hhead := (Token.Spells.word hc hcs).head
  obtain ⟨found, token⟩ := x
  cases hx with
  | blank hb =>
    obtain ⟨rfl, -⟩ := List.cons.inj hchars
    rw [hhead.1] at hb
    cases hb
  | comment hsign _ =>
    obtain ⟨rfl, -⟩ := List.cons.inj hchars
    exact absurd hsign hhead.2
  | @token m word kind text hspells =>
    have hmark : m = ⟨c, pos⟩ := (List.cons.inj hmarks).1
    generalize (m :: word).map Mark.char = ds at hspells hchars
    cases hspells with
    | number hdecimal =>
      have hnot := not_startsName_of_decimal hdecimal c (by simp [hchars])
      rw [hc] at hnot
      cases hnot
    | word hstart hword =>
      obtain ⟨rfl, rfl⟩ := List.cons.inj hchars
      obtain rfl : e = [] := by
        cases e with
        | nil => rfl
        | cons k e =>
          have hk := hword k.char (by simp)
          rw [he k rfl] at hk
          cases hk
      rw [List.append_nil] at hmarks
      subst hmark
      have hall : ⟨_, pos⟩ :: word = marksFrom pos _ := hmarks
      simp only [List.map_nil, List.append_nil, hall]
      exact ⟨trivial, trivial⟩
    | literal _ =>
      obtain ⟨rfl, -⟩ := List.cons.inj hchars
      cases hc
    | symbol s =>
      have hnot := not_startsName_symbol s c (by simp [hchars])
      rw [hc] at hnot
      cases hnot

/-- The first lexeme of a text that starts with a whole name is that name. -/
theorem Divides.word {pos : Nat} {w : List Char} (hstart : w.head?.any Token.startsName = true)
    (hw : ∀ c ∈ w, Token.continuesName c = true)
    (hrest : ∀ m ∈ rest.head?, Token.continuesName m.char = false)
    (h : Divides [] xs (marksFrom pos w ++ rest)) :
    ∃ ys, xs = ⟨marksFrom pos w,
        some ⟨Token.wordKind (Keyword.ofWord? (String.ofList w)), String.ofList w, pos⟩⟩ :: ys ∧
        Divides [] ys rest := by
  obtain ⟨c, cs, rfl, hc⟩ : ∃ c cs, w = c :: cs ∧ Token.startsName c = true := by
    cases w with
    | nil => cases hstart
    | cons c cs => exact ⟨c, cs, rfl, hstart⟩
  have hcs : ∀ d ∈ cs, Token.continuesName d = true := fun d hd => hw d (List.mem_cons_of_mem c hd)
  have hname : (Lexeme.mk (marksFrom pos (c :: cs)) (some ⟨Token.wordKind
      (Keyword.ofWord? (String.ofList (c :: cs))), String.ofList (c :: cs), pos⟩)).Formed := by
    refine .token (m := ⟨c, pos⟩) ?_
    rw [List.map_cons, chars_marksFrom]
    exact .word hc hcs
  generalize hall : marksFrom pos (c :: cs) ++ rest = all at h
  cases h with
  | done =>
    rw [marksFrom] at hall
    cases hall
  | @next x xs marks hx hxs =>
    have hlength : (marksFrom pos (c :: cs)).length ≤ x.marks.length :=
      hx.longest _ hname ⟨rest, hall⟩
    obtain ⟨e, hmarks, rfl⟩ : ∃ e, x.marks = marksFrom pos (c :: cs) ++ e ∧ rest = e ++ marks := by
      rcases List.append_eq_append_iff.mp hall with ⟨e, hmarks, hrest'⟩ | ⟨e, hmarks, hrest'⟩
      · exact ⟨e, hmarks, hrest'⟩
      · have htotal := congrArg List.length hmarks
        rw [List.length_append] at htotal
        obtain rfl : e = [] := List.eq_nil_of_length_eq_zero (by omega)
        exact ⟨[], by simpa using hmarks.symm, hrest'.symm⟩
    have he : ∀ m ∈ e.head?, Token.continuesName m.char = false := fun m hm => hrest m (by
      rw [List.head?_append, Option.mem_def.mp hm]
      rfl)
    obtain ⟨rfl, rfl⟩ := hx.formed.eq_name hc hcs he hmarks
    exact ⟨xs, rfl, hxs⟩

theorem Divides.formed {rest : List Mark} (h : Divides rest xs marks) : ∀ x ∈ xs, x.Formed := by
  induction h with
  | done => simp
  | next hx _ ih => exact List.forall_mem_cons.mpr ⟨hx.formed, ih⟩

/-- A token comes from a mark of its lexeme. -/
theorem Divides.mem_marks {t : Token} {rest : List Mark} (h : Divides rest xs marks)
    (ht : t ∈ tokensOf xs) : ∃ m ∈ xs.flatMap Lexeme.marks, t.offset = m.origin := by
  obtain ⟨⟨all, found⟩, hx, htoken⟩ := List.mem_filterMap.mp ht
  cases h.formed _ hx with
  | blank => cases htoken
  | comment => cases htoken
  | @token m word kind text _ =>
    cases htoken
    exact ⟨m, List.mem_flatMap.mpr ⟨_, hx, List.mem_cons_self⟩, rfl⟩

end Places

/-! ### Identifiers -/

theorem Laid.run {source : List Char} {pos : Nat} {word rest : List Mark}
    (h : Laid source pos (word ++ rest)) (hword : ∀ n ∈ word, Wordy n.char) (place : Nat)
    (hfirst : pos ≤ place) (hlast : place < pos + word.length) :
    ∃ m ∈ word, m.origin = place := by
  induction word generalizing pos with
  | nil =>
    rw [List.length_nil] at hlast
    omega
  | cons m word ih =>
    obtain ⟨horigin, -, hrest⟩ := h.uncons (hword m List.mem_cons_self)
    by_cases hplace : place = pos
    · exact ⟨m, List.mem_cons_self, by omega⟩
    · rw [List.length_cons] at hlast
      obtain ⟨k, hk, hkplace⟩ := ih hrest (fun n hn => hword n (List.mem_cons_of_mem m hn))
        (by omega) (by omega)
      exact ⟨k, List.mem_cons_of_mem m hk, hkplace⟩

/-- Of a replaced phrase nothing is left but its symbol. -/
theorem Replaced.origin {source : List Char} {pos : Nat} {p : Phrase} (h : Replaced source pos p)
    {m : Mark} (hm : m ∈ (Canonical.ofSource source).marks) :
    m.origin < pos ∨ ¬ Wordy m.char ∨ pos + p.length ≤ m.origin := by
  obtain ⟨hfree, hquote, hfound⟩ := h
  have hsource := List.take_append_drop pos source
  have hmarks : (Canonical.ofSource source).marks
      = canonicalFrom .code none 0 (source.take pos ++ source.drop pos) := by rw [hsource]; rfl
  cases hdrop : source.drop pos with
  | nil =>
    rw [hdrop] at hfound
    cases (Phrase.startsAt_iff.mp (at?_mem hfound).2).2.1
  | cons c cs =>
    have hlength : (source.take pos).length = pos := by
      have htotal := congrArg List.length hdrop
      rw [List.length_drop, List.length_cons] at htotal
      rw [List.length_take]
      omega
    rw [hdrop] at hfree hquote hfound hmarks
    rw [hmarks, canonicalFrom_append, hlength, canonicalFrom_cons, Option.or_none, Nat.zero_add]
      at hm
    rcases List.mem_append.mp hm with hm | hm
    · have hbounds := origin_passed hm
      rw [hlength] at hbounds
      exact .inl (by omega)
    · have hstep := step_taken (zoneAfter .code none (source.take pos) (c :: cs))
        (source.take pos).getLast? pos c cs
      generalize Zone.emit _ _ _ _ _ = marks at hstep hm
      generalize Zone.next _ _ _ _ = next at hstep hm
      cases hstep with
      | inside hzone => rcases hfree with hfree | hfree <;> rw [hfree] at hzone <;> cases hzone
      | kept _ _ hkept =>
        rcases hkept hfree with hc | hnone
        · exact absurd (congrArg some hc) hquote
        · rw [hfound] at hnone
          cases hnone
      | phrase _ _ hat =>
        obtain rfl := Option.some.inj (hfound.symm.trans hat)
        rcases List.mem_append.mp hm with hm | hm
        · obtain ⟨d, hd, rfl⟩ := List.mem_map.mp hm
          exact .inr (.inl fun hwordy => hwordy p (at?_mem hat).1 hd)
        · rw [canonicalFrom_phrase] at hm
          have hlater := origin_canonicalFrom hm
          have hpos := length_pos (at?_mem hat).1
          exact .inr (.inr (by omega))

/-- A word is spelled by its text. -/
theorem Token.Spells.eq_ofList {found : Option Keyword} {text : String} {cs : List Char}
    (h : Token.Spells (Token.wordKind found) text cs) : text = String.ofList cs := by
  generalize hkind : Token.wordKind found = kind at h
  cases h with
  | number _ => rfl
  | word _ _ => rfl
  | literal _ => cases found <;> cases hkind
  | symbol s => cases found <;> cases hkind

/-- The marks of a token that is an identifier as a whole. -/
theorem StandsIn.word {w : List Char} {marks before behind : List Mark} {x : Lexeme} {pos : Nat}
    (h : StandsIn marks ⟨Token.wordKind (Keyword.ofWord? (String.ofList w)), String.ofList w, pos⟩
      before x behind) :
    ∃ m word, marks = before ++ m :: (word ++ behind) ∧ m.origin = pos ∧
      (m :: word).map Mark.char = w := by
  obtain ⟨all, found⟩ := x
  obtain ⟨hsplit, hfound, hstands, -⟩ := h
  cases hstands.formed with
  | blank => cases hfound
  | comment => cases hfound
  | @token m word kind text hspells =>
    simp only [Option.some.injEq, Token.mk.injEq] at hfound
    obtain ⟨rfl, rfl, rfl⟩ := hfound
    exact ⟨m, word, hsplit, rfl, (String.ofList_injective hspells.eq_ofList).symm⟩

theorem identifier_of_all {a w b : List Char}
    (h : (w.head?.any Token.startsName && w.all Token.continuesName
      && !a.getLast?.any Token.continuesName && !b.head?.any Token.continuesName
      && decide (placeAfter .code a = .code)) = true) : Identifier a w b := by
  simp only [Bool.and_eq_true, Bool.not_eq_true', decide_eq_true_eq] at h
  obtain ⟨⟨⟨⟨hstarts, hall⟩, hleft⟩, hright⟩, hplace⟩ := h
  refine ⟨hstarts, List.all_eq_true.mp hall, fun c hc => ?_, fun c hc => ?_, hplace⟩
  · rw [Option.mem_def.mp hc] at hleft
    exact hleft
  · rw [Option.mem_def.mp hc] at hright
    exact hright

/-- What is read as one token with the text of the name is overlapped by no phrase: at a place that
belongs to both there would be a mark of the name and the symbol of the phrase. -/
theorem Identifier.untouched_of_mem {a w b : List Char} (h : Identifier a w b) {xs : List Lexeme}
    (hdivides : Divides [] xs (Canonical.ofSource (a ++ (w ++ b))).marks)
    (hmem : ⟨Token.wordKind (Keyword.ofWord? (String.ofList w)), String.ofList w, a.length⟩
      ∈ tokensOf xs) : Untouched (a ++ (w ++ b)) a.length (a.length + w.length) := by
  intro pos p hreplaced
  obtain ⟨before, x, behind, hin⟩ := hdivides.standsIn hmem
  obtain ⟨m, word, hsplit, horigin, hword⟩ := hin.word
  have hwordy : ∀ n ∈ m :: word, Wordy n.char := fun n hn => wordy_of_continuesName
    (h.continues _ (hword ▸ List.mem_map_of_mem hn))
  have hfrom : Laid (a ++ (w ++ b)) m.origin (m :: word ++ behind) :=
    (laid_ofSource _).behind hsplit (hwordy m List.mem_cons_self)
  have hlength := congrArg List.length hword
  rw [List.length_map, List.length_cons] at hlength
  have hpos : 0 < p.length := length_pos (at?_mem hreplaced.found).1
  by_contra hoverlap
  obtain ⟨k, hk, hplace⟩ := hfrom.run hwordy (max a.length pos) (by omega)
    (by rw [List.length_cons]; omega)
  have hkmem : k ∈ (Canonical.ofSource (a ++ (w ++ b))).marks := by
    have hsplit' : (Canonical.ofSource (a ++ (w ++ b))).marks
        = before ++ (m :: word ++ behind) := hsplit
    rw [hsplit']
    exact List.mem_append_right _ (List.mem_append_left _ hk)
  rcases hreplaced.origin hkmem with hlt | hsymbol | hge
  · omega
  · exact hsymbol (hwordy k hk)
  · omega

/-- The text is divided at both ends of an identifier that no phrase overlaps. The other tokens come
from the marks before it and from those behind it. -/
theorem Identifier.divided {a w b : List Char} (h : Identifier a w b) {xs : List Lexeme}
    (hdivides : Divides [] xs (Canonical.ofSource (a ++ (w ++ b))).marks)
    (huntouched : Untouched (a ++ (w ++ b)) a.length (a.length + w.length)) :
    ∃ ys zs, xs = ys ++ ⟨marksFrom a.length w, some
        ⟨Token.wordKind (Keyword.ofWord? (String.ofList w)), String.ofList w, a.length⟩⟩ :: zs ∧
      (∀ t ∈ tokensOf ys, t.offset < a.length) ∧
      ∀ t ∈ tokensOf zs, a.length + w.length ≤ t.offset := by
  obtain ⟨c, cs, rfl, hc⟩ : ∃ c cs, w = c :: cs ∧ Token.startsName c = true := by
    cases w with
    | nil => cases h.starts
    | cons c cs => exact ⟨c, cs, rfl, h.starts⟩
  obtain ⟨hz, z, hz', hmarks⟩ := marks_untouched (List.cons_ne_nil c cs) huntouched
  have hplace : placeAfter .code ((passed .code none 0 a (c :: cs ++ b)).map Mark.char)
      = placeAfter .code a := place_passed .code .code nofun
  rw [h.outside] at hplace
  have hlast : ∀ m ∈ (passed .code none 0 a (c :: cs ++ b)).getLast?,
      Token.continuesName m.char = false := by
    intro m hm
    rcases last_passed hm with ⟨_, hsymbol⟩ | ⟨_, hsame⟩
    · by_contra hcontinues
      exact hsymbol (wordy_of_continuesName (by simpa using hcontinues))
    · exact h.left _ hsame
  obtain ⟨ys, zs, rfl, hys, hzs⟩ := hdivides.cut hmarks (.inl rfl) hplace hlast hc
  obtain ⟨zs, rfl, htail⟩ := Divides.word h.starts h.continues
    (head_canonicalFrom hz' h.right) hzs
  refine ⟨ys, zs, rfl, fun t ht => ?_, fun t ht => ?_⟩
  · obtain ⟨m, hm, horigin⟩ := hys.mem_marks ht
    rw [List.append_cancel_right (hys.flatten.trans hmarks)] at hm
    have hbounds := origin_passed hm
    omega
  · obtain ⟨m, hm, horigin⟩ := htail.mem_marks ht
    have hflatten := htail.flatten
    rw [List.append_nil] at hflatten
    rw [hflatten] at hm
    have hbound := origin_canonicalFrom hm
    omega

theorem Identifier.read_of_untouched {a w b : List Char} (h : Identifier a w b) {xs : List Lexeme}
    (hdivides : Divides [] xs (Canonical.ofSource (a ++ (w ++ b))).marks)
    (huntouched : Untouched (a ++ (w ++ b)) a.length (a.length + w.length)) :
    (tokensOf xs).filter (fun t => a.length ≤ t.offset ∧ t.offset < a.length + w.length)
      = [⟨Token.wordKind (Keyword.ofWord? (String.ofList w)), String.ofList w, a.length⟩] := by
  obtain ⟨ys, zs, rfl, hbefore, hbehind⟩ := h.divided hdivides huntouched
  have hpos : 0 < w.length := by
    refine List.length_pos_iff.mpr ?_
    rintro rfl
    cases h.starts
  have hys : (tokensOf ys).filter (fun t => a.length ≤ t.offset ∧ t.offset < a.length + w.length)
      = [] := by
    refine List.filter_eq_nil_iff.mpr fun t ht => ?_
    have hlt := hbefore t ht
    simp only [decide_eq_true_eq]
    omega
  have hzs : (tokensOf zs).filter (fun t => a.length ≤ t.offset ∧ t.offset < a.length + w.length)
      = [] := by
    refine List.filter_eq_nil_iff.mpr fun t ht => ?_
    have hge := hbehind t ht
    simp only [decide_eq_true_eq]
    omega
  rw [tokensOf] at hys hzs
  rw [tokensOf, List.filterMap_append, List.filterMap_cons, List.filter_append, hys,
    List.filter_cons_of_pos (by simpa using hpos), hzs, List.nil_append]

/-- What touches a phrase is no letter or digit, and so it can only be an underscore that makes the
phrase a part of a longer word. -/
theorem standsWhole_of_not_beside {p : Phrase} {source : List Char} {pos : Nat}
    (h : p.StandsAt source pos) (hfree : ¬ BesideUnderscore source pos p) :
    StandsWhole p source pos := by
  have hends : ∀ c : Option Char, Phrase.apart c = true → c ≠ some '_' →
      c.any Token.continuesName = false := by
    intro c hc hunderscore
    cases c with
    | none => rfl
    | some c =>
      by_contra hcontinues
      have hword : c.isAlphanum = true := by
        simp_all [Token.continuesName]
      simp [Phrase.apart, joinsWord_of_isAlphanum hword] at hc
  obtain ⟨hbefore, -, -, hbehind, -⟩ := Phrase.startsAt_iff.mp h
  rw [List.drop_drop] at hbehind
  exact ⟨h, hends _ hbefore fun hc => hfree (.inl hc), hends _ hbehind fun hc => hfree (.inr hc)⟩

/-- An identifier outside of literals and comments becomes one token with its whole text if and only
if the normalizer replaces no phrase that overlaps it. So it does if no phrase of whole words
overlaps it, and no replaced phrase that has an underscore beside it. -/
theorem identifier_read_iff {a w b : List Char} (h : Identifier a w b) {ts : List Token}
    (hts : Source.tokens (a ++ (w ++ b)) = .ok ts) :
    (ts.filter (fun t => a.length ≤ t.offset ∧ t.offset < a.length + w.length)
        = [⟨Token.wordKind (Keyword.ofWord? (String.ofList w)), String.ofList w, a.length⟩] ↔
      Untouched (a ++ (w ++ b)) a.length (a.length + w.length)) ∧
    ((∀ p ∈ Phrase.all, ∀ pos, StandsWhole p (a ++ (w ++ b)) pos →
        pos + p.length ≤ a.length ∨ a.length + w.length ≤ pos) →
      (∀ pos p, Replaced (a ++ (w ++ b)) pos p → BesideUnderscore (a ++ (w ++ b)) pos p →
        pos + p.length ≤ a.length ∨ a.length + w.length ≤ pos) →
      ts.filter (fun t => a.length ≤ t.offset ∧ t.offset < a.length + w.length)
        = [⟨Token.wordKind (Keyword.ofWord? (String.ofList w)), String.ofList w, a.length⟩]) := by
  obtain ⟨xs, hdivides, rfl⟩ := divides_of_scanAll (Source.tokens_eq_ok.mp hts)
  have hread := h.read_of_untouched hdivides
  refine ⟨⟨fun hfilter => ?_, hread⟩, fun hwhole hbeside => hread fun pos p hreplaced => ?_⟩
  · exact h.untouched_of_mem hdivides (List.mem_filter.mp (hfilter ▸ List.mem_singleton_self _)).1
  · obtain ⟨hp, hstands⟩ := at?_mem hreplaced.found
    by_cases hunderscore : BesideUnderscore (a ++ (w ++ b)) pos p
    · exact hbeside pos p hreplaced hunderscore
    · exact hwhole p hp pos (standsWhole_of_not_beside hstands hunderscore)

/-- A name with the letters of a phrase in it, in front of a phrase. -/
theorem factor_untouched :
    Identifier "say ".toList "factor_y".toList " plus x.".toList ∧
      Source.tokens ("say ".toList ++ ("factor_y".toList ++ " plus x.".toList))
        = .ok [⟨.keyword .sayWord, "say", 0⟩, ⟨.name, "factor_y", 4⟩, ⟨.symbol .plus, "+", 13⟩,
          ⟨.name, "x", 18⟩, ⟨.symbol .dot, ".", 19⟩] ∧
      Untouched ("say ".toList ++ ("factor_y".toList ++ " plus x.".toList)) 4 12 := by
  have hname : Identifier "say ".toList "factor_y".toList " plus x.".toList :=
    identifier_of_all (by decide)
  have htokens : Source.tokens ("say ".toList ++ ("factor_y".toList ++ " plus x.".toList))
      = .ok [⟨.keyword .sayWord, "say", 0⟩, ⟨.name, "factor_y", 4⟩, ⟨.symbol .plus, "+", 13⟩,
        ⟨.name, "x", 18⟩, ⟨.symbol .dot, ".", 19⟩] := by cbv
  exact ⟨hname, htokens, (identifier_read_iff hname htokens).1.mp (by decide)⟩

/-- An identifier that no phrase of whole words overlaps is cut in two where a phrase stands beside
an underscore in it. -/
theorem underscored_breaks :
    Identifier "say ".toList "a_or".toList ".".toList ∧
      (∀ p ∈ Phrase.all, ∀ pos, StandsWhole p "say a_or.".toList pos →
        pos + p.length ≤ 4 ∨ 8 ≤ pos) ∧
      Source.tokens "say a_or.".toList = .ok [⟨.keyword .sayWord, "say", 0⟩, ⟨.name, "a_", 4⟩,
        ⟨.symbol .orOr, "||", 6⟩, ⟨.symbol .dot, ".", 8⟩] ∧
      ∀ ts, Source.tokens "say a_or.".toList = .ok ts →
        ts.filter (fun t => 4 ≤ t.offset ∧ t.offset < 8) ≠ [⟨.name, "a_or", 4⟩] := by
  have htokens : Source.tokens "say a_or.".toList = .ok [⟨.keyword .sayWord, "say", 0⟩,
      ⟨.name, "a_", 4⟩, ⟨.symbol .orOr, "||", 6⟩, ⟨.symbol .dot, ".", 8⟩] := by cbv
  refine ⟨identifier_of_all (by decide), ?_, htokens, fun ts hts => ?_⟩
  rotate_left
  · rw [htokens] at hts
    cases hts
    decide
  have hall : (Phrase.all.all fun p => (List.range 9).all fun pos =>
      !p.startsAt ("say a_or.".toList.take pos).getLast? ("say a_or.".toList.drop pos)
        || ("say a_or.".toList.take pos).getLast?.any Token.continuesName) = true := by
    decide +kernel
  intro p hp pos h
  have hpos : pos < 9 := lt_of_standsAt h.stands
  have htouched := List.all_eq_true.mp (List.all_eq_true.mp hall p hp) pos
    (List.mem_range.mpr hpos)
  have hstands : p.startsAt ("say a_or.".toList.take pos).getLast? ("say a_or.".toList.drop pos)
      = true := h.stands
  rw [hstands, h.before] at htouched
  cases htouched

end Parlance
