import Parlance.Proofs.Reading.Cuts
import Parlance.Source
/-!
# Comments

A line comment between two tokens changes no token if its quotes are balanced
(`tokens_commented`): the normalizer, which does not know comments, takes a quote in one for that of
a literal. Two more things change with any white space at the place: a word before a counted block
is taken for the operator once more than space stands between it and the colon, and a phrase is
found behind a digit that touched it.
-/
namespace Parlance
open Text Token

/-- The place between two parts of a source is one between tokens, of which `ts` come before it, and
not inside a phrase. -/
structure Cut (a b : List Char) (ts : List Token) : Prop where
  scans : Scans (passed .code none 0 a b)
    (canonicalFrom (zoneAfter .code none a b) a.getLast? a.length b) ts
  phrase : ∀ n, zoneAfter .code none a b ≠ .phrase (n + 1)

/-- A line comment, the blank before it and the line break after it. -/
def commented (c : List Char) : List Char := ' ' :: '#' :: c ++ ['\n']

/-- The quotes of the comment are balanced: behind it the source is in a literal, as the normalizer
sees it, if it was in one before. -/
def Balanced (a c : List Char) : Prop := quoting .code (a ++ commented c) = quoting .code a

/-- The first part ends with the word before a counted block, and the colon comes next. -/
def CountsBefore (a b : List Char) : Prop :=
  quoting .code a = .code ∧ Phrase.colonNext b = true ∧
    ∃ x u, a = x ++ u ∧ AwaitsColon x.getLast? u

/-- A phrase touches a digit before it. -/
def Glued (a b : List Char) : Prop :=
  quoting .code a = .code ∧ Phrase.apart a.getLast? = false ∧ (Phrase.at? none b).isSome = true

theorem Source.tokens_eq_ok {source : List Char} {ts : List Token} :
    Source.tokens source = .ok ts ↔ scanAll (canonicalFrom .code none 0 source) = .ok ts := by
  unfold Source.tokens Canonical.tokens Canonical.ofSource
  cases scanAll (canonicalFrom .code none 0 source) with
  | error fault => simp
  | ok us => simp

section Cuts

variable {a b c : List Char} {ts us : List Token}

theorem length_commented (c : List Char) : (commented c).length = c.length + 3 := by
  simp [commented]

theorem plain_cut : (zoneAfter .code none a b).plain = quoting .code a :=
  plain_zoneAfter none Zone.Pending.code

/-- The tokens behind a cut. -/
theorem Cut.behind (hcut : Cut a b ts) (h : Source.tokens (a ++ b) = .ok (ts ++ us)) :
    scanAll (canonicalFrom (zoneAfter .code none a b) a.getLast? a.length b) = .ok us := by
  rw [Source.tokens_eq_ok, canonicalFrom_append, Nat.zero_add, Option.or_none,
    scanAll_append_eq_ok hcut.scans] at h
  obtain ⟨vs, hvs, hsame⟩ := h
  rw [hvs, List.append_cancel_left hsame]

/-- The text behind a cut starts with its own character, if that joins a word. -/
theorem head_of_joined {zone : Zone} {x : Char} (hz : ∀ n, zone ≠ .phrase n)
    (hx : joinsWord x = true) (y : Char) (pos : Nat) (rest : List Char) :
    ∃ marks, canonicalFrom zone (some x) pos (y :: rest) = ⟨y, pos⟩ :: marks := by
  have hnext : ∀ n, zone.next (some x) y rest ≠ .phrase n := by
    intro n hn
    have hcode : Zone.fromCode (some x) y rest ≠ .phrase n := by
      simp only [Zone.fromCode, Phrase.at?_eq_none_of_joinsWord hx]
      split
      · intro h
        cases h
      · intro h
        cases h
    cases zone with
    | literal => exact ne_phrase_of_plain (plain_fromLiteral y) n hn
    | escape => cases hn
    | code => exact hcode hn
    | phrase left => exact hz left rfl
  rw [canonicalFrom_cons, emit_of_next_ne hnext]
  exact ⟨_, rfl⟩

/-- A phrase ends with a letter. -/
theorem last_of_capital {p : Phrase} (hp : p ∈ Phrase.all) {u : List Char} {x : Char}
    (h : inCapitals (u ++ [x]) = p.capital) : isBland x = false := by
  have hlast : ∀ p ∈ Phrase.all, p.capital.getLast?.any Char.isUpper = true := by decide
  cases hbland : isBland x with
  | false => rfl
  | true =>
    obtain ⟨hself, hlower⟩ := isBland_iff.mp hbland
    have hone : inCapitals [x] = [x] := by simp [inCapitals, hself]
    have hupper := hlast p hp
    rw [← h, inCapitals_append, hone, List.getLast?_concat, Option.any_some, hlower] at hupper
    cases hupper

/-- At a cut no word goes on that a phrase would end. -/
theorem Cut.last (hcut : Cut a b ts) (h : Source.tokens (a ++ b) = .ok (ts ++ us)) :
    Phrase.apart b.head? = true ∨
      ∀ u, u <:+ a → ∀ p ∈ Phrase.all, p.length = u.length → inCapitals u ≠ p.capital := by
  cases hapart : Phrase.apart b.head? with
  | true => exact .inl rfl
  | false =>
    refine .inr fun u hu p hp hlen hcap => ?_
    have hafter : (zoneAfter .code none a b).Apart b := Zone.Apart.after (Zone.Apart.of_plain rfl)
    have hz : ∀ n, zoneAfter .code none a b ≠ .phrase n := by
      intro n hn
      cases n with
      | succ n => exact hcut.phrase n hn
      | zero =>
        have hend := hafter 0 hn
        rw [List.drop_zero, hapart] at hend
        cases hend
    obtain ⟨v, x, rfl⟩ : ∃ v x, u = v ++ [x] := by
      have hne : u ≠ [] := by
        rintro rfl
        exact Nat.ne_of_gt (length_pos hp) hlen
      exact ⟨_, _, (List.dropLast_append_getLast hne).symm⟩
    obtain ⟨w, rfl⟩ := hu
    rw [← List.append_assoc] at hz hcut h
    have hscans := hcut.scans
    rw [passed_snoc hz] at hscans
    have hbland := last_of_capital hp hcap
    -- the letter is the last one of a name, and the word goes on behind the cut
    rcases hscans.last (List.getLast?_concat ..) with ⟨hb, _⟩ | ⟨hname, hnext⟩
    · rw [hbland] at hb
      cases hb
    · have hx : joinsWord x = true := by
        refine joinsWord_of_isAlphanum ?_
        simp only [continuesName, Bool.or_eq_true, beq_iff_eq] at hname
        rcases hname with rfl | halnum
        · exact absurd hbland (by decide)
        · exact halnum
      cases b with
      | nil => cases hapart
      | cons y b =>
        have hy : joinsWord y = true := by simpa [Phrase.apart] using hapart
        have hrest := hcut.behind h
        rw [List.getLast?_concat] at hnext hrest
        obtain ⟨marks, hmarks⟩ := head_of_joined hz hx y (w ++ v ++ [x]).length b
        rw [hmarks] at hnext hrest
        have hcontinues := continuesName_of_scanAll hrest hy
        rw [hnext _ rfl] at hcontinues
        cases hcontinues

theorem quoting_code {u : List Char} (h : ∀ d ∈ u, d ≠ '"') : quoting .code u = .code := by
  induction u with
  | nil => rfl
  | cons d u ih =>
    rw [List.forall_mem_cons] at h
    have hd : Zone.code.quote d = .code := if_neg h.1
    have hcons : quoting .code (d :: u) = quoting (Zone.code.quote d) u := rfl
    rw [hcons, hd, ih h.2]

theorem AwaitsColon.no_quote {before : Option Char} {u : List Char} (h : AwaitsColon before u) :
    ∀ d ∈ u, d ≠ '"' := by
  obtain ⟨hstarts, hgap⟩ := h
  intro d hd
  rw [← List.take_append_drop Phrase.times.length u, List.mem_append] at hd
  rcases hd with hd | hd
  · have hcap := (Phrase.startsAt_iff.mp hstarts).2.2.1
    exact ne_quote_of_isPhrasal (isPhrasal_of_inCapitals Phrase.times_mem hcap d hd)
  · rintro rfl
    have hquote := List.all_eq_true.mp hgap _ hd
    cases hquote

/-- A comment can stand between the two sides of a cut, as far as the first one goes. -/
theorem Cut.exchanges (hcut : Cut a b ts) (h : Source.tokens (a ++ b) = .ok (ts ++ us))
    (hcount : ¬ CountsBefore a b) (c w : List Char) :
    Exchanges .code none a b (commented c ++ w) where
  blocks := .of_space (by decide) _
  apart := rfl
  last := hcut.last h
  colon := by
    intro x u ha hcode hawaits
    have hcomment : Phrase.colonNext (commented c ++ w) = false := rfl
    rw [hcomment]
    by_contra hcolon
    rw [Option.or_none] at hawaits
    refine hcount ⟨?_, Bool.of_not_eq_false hcolon, x, u, ha, hawaits⟩
    rw [plain_zoneAfter none Zone.Pending.code] at hcode
    have hx : quoting .code x = .code := hcode
    rw [ha, quoting_append, hx, quoting_code hawaits.no_quote]

/-! ### The marks of a comment -/

theorem pending_of_ne {zone : Zone} (hz : ∀ n, zone ≠ .phrase (n + 1)) (rest : List Char) :
    zone.Pending rest := by
  intro n hn
  cases n with
  | zero => simp
  | succ n => exact absurd hn (hz n)

theorem zoneAfter_commented {zone : Zone} (hz : ∀ n, zone ≠ .phrase (n + 1))
    (before : Option Char) (c b : List Char) :
    zoneAfter zone before (commented c) b = quoting zone.plain (commented c) :=
  zoneAfter_snoc (by decide) (pending_of_ne hz _)

/-- What the normalizer makes of a comment is a comment. -/
theorem scans_commented {zone : Zone} (hz : ∀ n, zone ≠ .phrase (n + 1))
    (hc : ∀ d ∈ c, isLineBreak d = false) (before : Option Char) (pos : Nat) (b : List Char)
    (rest : List Mark) : Scans (passed zone before pos (commented c) b) rest [] := by
  have hend : ∀ n, zoneAfter zone before (commented c) b ≠ .phrase n := by
    rw [zoneAfter_commented hz]
    exact ne_phrase_of_plain (plain_quoting (plain_plain zone) _)
  have hspace : ∀ n, zone.plain.quote ' ' ≠ .phrase (n + 1) :=
    fun n => ne_phrase_of_plain (plain_quote _ _) (n + 1)
  have hmarks : passed zone before pos (' ' :: '#' :: c) ('\n' :: b)
      = ⟨' ', pos⟩ :: ⟨'#', pos + 1⟩ :: passed ((zone.plain.quote ' ').plain.quote '#') (some '#')
        (pos + 1 + 1) c ('\n' :: b) := by
    rw [passed_of_isBland hz (by decide), passed_of_isBland hspace (by decide)]
  have hline : ∀ n ∈ passed ((zone.plain.quote ' ').plain.quote '#') (some '#') (pos + 1 + 1) c
      ('\n' :: b), isLineBreak n.char = false := by
    have hsymbols : ∀ p ∈ Phrase.all,
        (p.symbol.spelling.toList.all fun d => !isLineBreak d) = true := by decide
    intro n hn
    rcases mem_passed hn with hmem | ⟨p, hp, hmem⟩
    · exact hc _ hmem
    · simpa using List.all_eq_true.mp (hsymbols p hp) _ hmem
  have hblank : isBlank ' ' = true := by decide
  have hbreak : isLineBreak '\n' = true := by decide
  unfold commented at hend ⊢
  rw [passed_snoc hend, hmarks, List.cons_append]
  exact .blank hblank (.comment rfl hline hbreak .done)

/-- A comment at a cut leaves the tokens before it as they are; behind it the normalizer goes on in
a literal or not as the quotes up to there have it. -/
theorem Cut.tokens_iff (hcut : Cut a b ts) (h : Source.tokens (a ++ b) = .ok (ts ++ us))
    (hcount : ¬ CountsBefore a b) (hc : ∀ d ∈ c, isLineBreak d = false) (w : List Char)
    {vs : List Token} : Source.tokens (a ++ commented c ++ w) = .ok vs ↔
      ∃ us, scanAll (canonicalFrom (quoting .code (a ++ commented c)) (some '\n')
        (a.length + (c.length + 3)) w) = .ok us ∧ vs = ts ++ us := by
  obtain ⟨hzone, hpassed⟩ := passed_congr (hcut.exchanges h hcount c w) hcut.phrase
  have hlast : (commented c).getLast?.or a.getLast? = some '\n' := by
    rw [commented, List.getLast?_concat]
    rfl
  have hmarks : canonicalFrom .code none 0 (a ++ commented c ++ w)
      = passed .code none 0 a b ++ (passed (zoneAfter .code none a b) a.getLast? a.length
          (commented c) w ++ canonicalFrom (quoting .code (a ++ commented c)) (some '\n')
            (a.length + (c.length + 3)) w) := by
    rw [List.append_assoc, canonicalFrom_append, hzone, hpassed, Nat.zero_add, Option.or_none,
      canonicalFrom_append, zoneAfter_commented hcut.phrase, plain_cut, length_commented, hlast,
      quoting_append]
  have hblank : isBlank ' ' = true := by decide
  have hcomment := scans_commented hcut.phrase hc a.getLast? a.length w
    (canonicalFrom (quoting .code (a ++ commented c)) (some '\n') (a.length + (c.length + 3)) w)
  have hbefore : Scans (passed .code none 0 a b)
      (passed (zoneAfter .code none a b) a.getLast? a.length (commented c) w
        ++ canonicalFrom (quoting .code (a ++ commented c)) (some '\n')
          (a.length + (c.length + 3)) w) ts := by
    have hspace : passed (zoneAfter .code none a b) a.getLast? a.length (commented c) w
        = ⟨' ', a.length⟩ :: passed ((zoneAfter .code none a b).plain.quote ' ') (some ' ')
          (a.length + 1) ('#' :: c ++ ['\n']) w := passed_of_isBland hcut.phrase (by decide)
    rw [hspace, List.cons_append]
    exact hcut.scans.before_blank hblank _
  rw [Source.tokens_eq_ok, hmarks, scanAll_append_eq_ok hbefore, scanAll_append hcomment]
  have hnone : ∀ r : Except (LexFault × Nat) (List Token), r.map ([] ++ ·) = r := by
    rintro (fault | us)
    · rfl
    · rfl
  rw [hnone]

/-- Behind a comment whose quotes are balanced the text is read as without the comment. -/
theorem canonicalFrom_behind (hphrase : ∀ n, zoneAfter .code none a b ≠ .phrase (n + 1))
    (hbalanced : Balanced a c) (hglued : ¬ Glued a b) :
    canonicalFrom (quoting .code (a ++ commented c)) (some '\n') (a.length + (c.length + 3)) b
      = (canonicalFrom (zoneAfter .code none a b) a.getLast? a.length b).map
          (Mark.shift (c.length + 3)) := by
  have hsame : quoting .code (a ++ commented c) = (zoneAfter .code none a b).plain :=
    hbalanced.trans plain_cut.symm
  rw [canonicalFrom_shift, hsame, canonicalFrom_plain hphrase]
  congr 1
  refine canonicalFrom_before (fun hcode => ?_) a.length
  rw [plain_cut] at hcode
  rw [at?_of_apart (by decide)]
  cases hapart : Phrase.apart a.getLast? with
  | true => rw [at?_of_apart hapart]
  | false =>
    rw [at?_of_not_apart hapart]
    cases hat : Phrase.at? none b with
    | none => rfl
    | some p => exact absurd ⟨hcode, hapart, by rw [hat]; rfl⟩ hglued

/-- A comment between two tokens changes no token, if its quotes are balanced and it stands neither
between the word before a counted block and its colon nor between a digit and a phrase that touches
it. -/
theorem tokens_commented (hcut : Cut a b ts) (h : Source.tokens (a ++ b) = .ok (ts ++ us))
    (hc : ∀ d ∈ c, isLineBreak d = false) (hbalanced : Balanced a c)
    (hcount : ¬ CountsBefore a b) (hglued : ¬ Glued a b) :
    Source.tokens (a ++ commented c ++ b) = .ok (ts ++ us.map (shift (c.length + 3))) := by
  rw [hcut.tokens_iff h hcount hc b, canonicalFrom_behind hcut.phrase hbalanced hglued]
  exact ⟨_, scanAll_shift (hcut.behind h), rfl⟩

/-! ### Quotes that are not balanced -/

theorem eq_backslash_of_next {zone : Zone} {before : Option Char} {x : Char} {rest : List Char}
    (h : zone.next before x rest = .escape) : x = '\\' := by
  have hcode : Zone.fromCode before x rest ≠ .escape := by
    unfold Zone.fromCode
    split
    · exact nofun
    · split
      · exact nofun
      · exact nofun
  cases zone with
  | literal =>
    simp only [Zone.next, Zone.fromLiteral] at h
    split at h
    · cases h
    · split at h
      · assumption
      · cases h
  | escape => cases h
  | code => exact absurd h hcode
  | phrase left =>
    cases left with
    | zero => exact absurd h hcode
    | succ left => cases h

/-- Between tokens no backslash comes last. -/
theorem Cut.quoting_ne_escape (hcut : Cut a b ts) : quoting .code a ≠ .escape := by
  intro hescape
  have hzone : zoneAfter .code none a b = .escape := by
    rw [← plain_cut (b := b)] at hescape
    cases hz : zoneAfter .code none a b with
    | escape => rfl
    | literal | code | phrase =>
      rw [hz] at hescape
      cases hescape
  rcases List.eq_nil_or_concat' a with rfl | ⟨v, x, rfl⟩
  · cases hescape
  · have hscans := hcut.scans
    rw [passed_snoc (by rw [hzone]; exact nofun)] at hscans
    rw [zoneAfter_append] at hzone
    obtain rfl := eq_backslash_of_next hzone
    rcases hscans.last (List.getLast?_concat ..) with ⟨_, hne⟩ | ⟨hname, _⟩
    · exact hne rfl
    · have hslash : continuesName '\\' = false := by decide
      rw [hslash] at hname
      cases hname

/-- Reading goes on in code, or in what the normalizer takes for a literal. -/
theorem quoting_commented (a c : List Char) :
    quoting .code (a ++ commented c) = .code ∨ quoting .code (a ++ commented c) = .literal := by
  have hsplit : quoting .code (a ++ commented c)
      = (quoting .code (a ++ ' ' :: '#' :: c)).quote '\n' := by
    unfold commented
    rw [← List.append_assoc, quoting_append]
    rfl
  rw [hsplit]
  cases quoting .code (a ++ ' ' :: '#' :: c) with
  | literal => exact .inr rfl
  | escape => exact .inr rfl
  | code => exact .inl rfl
  | phrase left => exact .inl rfl

/-- A word that is a phrase in code and a name in a literal. -/
def plusWord : List Char := "plus".toList

/-- What the word is taken for. -/
def plusKind (zone : Zone) : TokenKind := if zone = .code then .symbol .plus else .name

theorem scanAll_plus {zone : Zone} (hz : zone = .code ∨ zone = .literal) {w : List Char}
    (hw : w = plusWord ∨ w = commented [] ++ plusWord) (pos : Nat) :
    ∃ t, scanAll (canonicalFrom zone (some '\n') pos w) = .ok [t] ∧ t.kind = plusKind zone := by
  have hzero : ∃ t, scanAll (canonicalFrom zone (some '\n') 0 w) = .ok [t] ∧
      t.kind = plusKind zone := by
    rcases hz with rfl | rfl
    · rcases hw with rfl | rfl
      · exact ⟨⟨.symbol .plus, "+", 0⟩, by cbv, rfl⟩
      · exact ⟨⟨.symbol .plus, "+", 3⟩, by cbv, rfl⟩
    · rcases hw with rfl | rfl
      · exact ⟨⟨.name, "plus", 0⟩, by cbv, rfl⟩
      · exact ⟨⟨.name, "plus", 3⟩, by cbv, rfl⟩
  obtain ⟨t, ht, hkind⟩ := hzero
  refine ⟨t.shift pos, ?_, hkind⟩
  have hshift := canonicalFrom_shift zone (some '\n') 0 pos w
  rw [Nat.zero_add] at hshift
  rw [hshift]
  exact scanAll_shift ht

/-- The text before a cut is also cut in front of a comment. -/
theorem Cut.before_comment (hcut : Cut a b ts) (h : Source.tokens (a ++ b) = .ok (ts ++ us))
    (hcount : ¬ CountsBefore a b) (w : List Char) : Cut a (commented c ++ w) ts := by
  obtain ⟨hzone, hpassed⟩ := passed_congr (hcut.exchanges h hcount c w) hcut.phrase
  refine ⟨?_, hzone ▸ hcut.phrase⟩
  have hblank : isBlank ' ' = true := by decide
  obtain ⟨hemit, _⟩ := step_of_isBland a.getLast? a.length (d := ' ') ('#' :: c ++ ['\n'] ++ w)
    hcut.phrase (by decide)
  rw [hpassed, hzone, commented, List.cons_append, List.cons_append, canonicalFrom_cons]
  rw [hemit]
  exact hcut.scans.before_blank hblank _

theorem balanced_of_inert (hcut : Cut a b ts) (h : Source.tokens (a ++ b) = .ok (ts ++ us))
    (hcount : ¬ CountsBefore a b) (hc : ∀ d ∈ c, isLineBreak d = false)
    (hinert : ∀ w us, Cut a w ts → Source.tokens (a ++ w) = .ok (ts ++ us) → ¬ CountsBefore a w →
      ¬ Glued a w →
      Source.tokens (a ++ commented c ++ w) = .ok (ts ++ us.map (shift (c.length + 3)))) :
    Balanced a c := by
  have hquiet : quoting .code (a ++ commented []) = quoting .code a := by
    have hne := hcut.quoting_ne_escape
    rw [quoting_append]
    cases hq : quoting .code a with
    | escape => exact absurd hq hne
    | literal => rfl
    | code => rfl
    | phrase left => exact absurd hq (ne_phrase_of_plain (plain_quoting rfl a) left)
  -- an empty comment and the word, without the comment in question and behind it
  obtain ⟨t, ht, hkind⟩ := scanAll_plus (quoting_commented a []) (.inl rfl)
    (a.length + (([] : List Char).length + 3))
  obtain ⟨t', ht', hkind'⟩ := scanAll_plus (quoting_commented a c) (.inr rfl)
    (a.length + (c.length + 3))
  have hwith : Source.tokens (a ++ (commented [] ++ plusWord)) = .ok (ts ++ [t]) := by
    rw [← List.append_assoc, hcut.tokens_iff h hcount (by simp)]
    exact ⟨[t], ht, rfl⟩
  have hbehind : Source.tokens (a ++ commented c ++ (commented [] ++ plusWord))
      = .ok (ts ++ [t']) := by
    rw [hcut.tokens_iff h hcount hc]
    exact ⟨[t'], ht', rfl⟩
  have hsame := hinert _ _ (hcut.before_comment h hcount plusWord) hwith
    (fun hcounts => by cases hcounts.2.1) fun hglue => by cases hglue.2.2
  rw [hbehind, Except.ok.injEq, List.append_cancel_left_eq, List.map_singleton,
    List.singleton_inj] at hsame
  have hkinds : plusKind (quoting .code (a ++ commented c)) = plusKind (quoting .code a) := by
    rw [← hquiet, ← hkind', ← hkind, hsame]
    rfl
  have hbefore := quoting_commented a []
  rw [hquiet] at hbefore
  unfold Balanced
  rcases quoting_commented a c with hafter | hafter
  · rcases hbefore with hq | hq
    · rw [hafter, hq]
    · rw [hafter, hq] at hkinds
      cases hkinds
  · rcases hbefore with hq | hq
    · rw [hafter, hq] at hkinds
      cases hkinds
    · rw [hafter, hq]

/-- At a cut, a comment changes no token, whatever follows, exactly if its quotes are balanced. -/
theorem tokens_commented_iff (hcut : Cut a b ts) (h : Source.tokens (a ++ b) = .ok (ts ++ us))
    (hcount : ¬ CountsBefore a b) (hc : ∀ d ∈ c, isLineBreak d = false) :
    Balanced a c ↔ ∀ w us, Cut a w ts → Source.tokens (a ++ w) = .ok (ts ++ us) →
      ¬ CountsBefore a w → ¬ Glued a w →
      Source.tokens (a ++ commented c ++ w) = .ok (ts ++ us.map (shift (c.length + 3))) := by
  constructor
  · intro hbalanced w vs hw hws hcounts hglued
    exact tokens_commented hw hws hc hbalanced hcounts hglued
  · exact balanced_of_inert hcut h hcount hc

end Cuts

/-- The tokens of the first of two short programs. -/
def sayOne : List Token :=
  [⟨.keyword .sayWord, "say", 0⟩, ⟨.number, "1", 4⟩, ⟨.symbol .dot, ".", 5⟩]

/-- The tokens of the second one behind it. -/
def saySum : List Token :=
  [⟨.keyword .sayWord, "say", 6⟩, ⟨.number, "2", 10⟩, ⟨.symbol .plus, "+", 12⟩, ⟨.number, "3", 17⟩,
    ⟨.symbol .dot, ".", 18⟩]

theorem cut_sayOne : Cut "say 1.".toList "say 2 plus 3.".toList sayOne := by
  have hzone : zoneAfter .code none "say 1.".toList "say 2 plus 3.".toList = .code := by decide
  have hpassed : passed .code none 0 "say 1.".toList "say 2 plus 3.".toList
      = [⟨'s', 0⟩, ⟨'a', 1⟩, ⟨'y', 2⟩, ⟨' ', 3⟩, ⟨'1', 4⟩, ⟨'.', 5⟩] := by decide
  refine ⟨?_, by rw [hzone]; exact nofun⟩
  rw [hpassed]
  refine @Scans.token _ _ [⟨'a', 1⟩, ⟨'y', 2⟩] _ _ _ (by decide) (by decide) (by cbv) (by decide) ?_
  refine .blank (by decide) ?_
  refine @Scans.token _ _ [] _ _ _ (by decide) (by decide) (by cbv) (by decide) ?_
  exact @Scans.token _ _ [] _ _ _ (by decide) (by decide) (by cbv) (by decide) .done

theorem tokens_sayOne :
    Source.tokens ("say 1.".toList ++ "say 2 plus 3.".toList) = .ok (sayOne ++ saySum) := by cbv

/-- A literal and a phrase in a comment. -/
theorem remark_kept : Source.tokens
    ("say 1.".toList ++ commented " \"two\" plus 3".toList ++ "say 2 plus 3.".toList)
      = .ok (sayOne ++ saySum.map (shift 16)) := by
  have hcount : ¬ CountsBefore "say 1.".toList "say 2 plus 3.".toList :=
    fun h => absurd h.2.1 (by decide)
  have hglued : ¬ Glued "say 1.".toList "say 2 plus 3.".toList :=
    fun h => absurd h.2.1 (by decide)
  have hall : (" \"two\" plus 3".toList.all fun d => !isLineBreak d) = true := by decide
  have hc : ∀ d ∈ " \"two\" plus 3".toList, isLineBreak d = false :=
    fun d hd => by simpa using List.all_eq_true.mp hall d hd
  have hbalanced : Balanced "say 1.".toList " \"two\" plus 3".toList := by
    unfold Balanced
    decide
  exact (tokens_commented_iff cut_sayOne tokens_sayOne hcount hc).mp hbalanced _ _ cut_sayOne
    tokens_sayOne hcount hglued

/-- A cut behind a source of one token that takes up one character or a word. -/
theorem cut_word {m : Mark} {word : List Mark} {t : Token} {a b : List Char}
    (hzone : zoneAfter .code none a b = .code) (hpassed : passed .code none 0 a b = m :: word)
    (hb : isBlank m.char = false) (hc : m.char ≠ '#') (hquote : m.char ≠ '"')
    (hscan : Token.scan m (word ++ canonicalFrom .code a.getLast? a.length b)
      = .ok (t, canonicalFrom .code a.getLast? a.length b)) : Cut a b [t] := by
  refine ⟨?_, by rw [hzone]; exact nofun⟩
  rw [hpassed, hzone, ← List.append_nil (m :: word)]
  exact .token hb hc hscan (fun h => absurd h hquote) .done

/-- A quote in a comment changes what is read behind it. Any white space does so between the word
before a counted block and its colon, unless it is the space that may stand there, and between a
digit and a phrase that touches it. -/
theorem openQuote_breaks :
    (Cut "say 1.".toList "say 2 plus 3.".toList sayOne ∧
      Source.tokens ("say 1.".toList ++ "say 2 plus 3.".toList) = .ok (sayOne ++ saySum) ∧
      Source.tokens ("say 1.".toList ++ commented " \"".toList ++ "say 2 plus 3.".toList)
        ≠ .ok (sayOne ++ saySum.map (shift 5))) ∧
    (Cut "times".toList ":".toList [⟨.keyword .timesWord, "times", 0⟩] ∧
      Source.tokens ("times".toList ++ commented [] ++ ":".toList)
        = .ok [⟨.symbol .star, "*", 0⟩, ⟨.symbol .colon, ":", 8⟩]) ∧
    Cut "1".toList "and".toList [⟨.number, "1", 0⟩] ∧
      Source.tokens ("1".toList ++ "and".toList) = .ok [⟨.number, "1", 0⟩, ⟨.name, "and", 1⟩] ∧
      Source.tokens ("1".toList ++ commented [] ++ "and".toList)
        = .ok [⟨.number, "1", 0⟩, ⟨.symbol .andAnd, "&&", 4⟩] := by
  have hbreaks : Source.tokens
      ("say 1.".toList ++ commented " \"".toList ++ "say 2 plus 3.".toList)
        = .ok (sayOne ++ [⟨.keyword .sayWord, "say", 11⟩, ⟨.number, "2", 15⟩, ⟨.name, "plus", 17⟩,
          ⟨.number, "3", 22⟩, ⟨.symbol .dot, ".", 23⟩]) := by cbv
  refine ⟨⟨cut_sayOne, tokens_sayOne, ?_⟩, ⟨?_, by cbv⟩, ?_, by cbv, by cbv⟩
  · rw [hbreaks]
    decide
  · exact @cut_word ⟨'t', 0⟩ [⟨'i', 1⟩, ⟨'m', 2⟩, ⟨'e', 3⟩, ⟨'s', 4⟩] _ _ _ (by decide) (by decide)
      (by decide) (by decide) (by decide) (by cbv)
  · exact @cut_word ⟨'1', 0⟩ [] _ _ _ (by decide) (by decide) (by decide) (by decide) (by decide)
      (by cbv)

end Parlance
