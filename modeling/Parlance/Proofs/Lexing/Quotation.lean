import Parlance.Proofs.Lexing.Literals
import Parlance.Proofs.Run.Sessions
/-!
# Texts in quotes

A text that is put between quotes, with a backslash before each quote and backslash in it, is read
back as one string token, wherever it stands behind a blank that is in no literal (`tokens_quoted`).
-/
namespace Parlance
open Text Token

/-! ### Closed literals -/

section Bodies

variable {cs text : List Char} {word rest : List Mark}

/-- The normalizer leaves an open literal as it is. -/
theorem LiteralBody.passes (h : LiteralBody cs text) (before : Option Char) (pos : Nat)
    (b : List Char) : canonicalFrom .literal before pos (cs ++ b) = marksFrom pos cs
      ++ canonicalFrom (quoting .literal cs) (cs.getLast?.or before) (pos + cs.length) b := by
  induction h generalizing before pos with
  | closed | cutOff | cutEscape => rfl
  | @escape c cs _ _ ih =>
    have hsteps : canonicalFrom .literal before pos ('\\' :: c :: cs ++ b)
        = ⟨'\\', pos⟩ :: ⟨c, pos + 1⟩ :: canonicalFrom .literal (some c) (pos + 2) (cs ++ b) := rfl
    have hlength : pos + 2 + cs.length = pos + ('\\' :: c :: cs).length := by simp; omega
    rw [hsteps, ih, hlength, getLast?_cons_or, getLast?_cons_or]
    rfl
  | @plain c cs _ hquote hslash _ ih =>
    have hliteral : Zone.fromLiteral c = .literal := quote_literal hquote hslash
    have hstep : canonicalFrom .literal before pos (c :: cs ++ b)
        = ⟨c, pos⟩ :: canonicalFrom (.fromLiteral c) (some c) (pos + 1) (cs ++ b) :=
      canonicalFrom_cons _ _ _ _ _
    have hlength : pos + 1 + cs.length = pos + (c :: cs).length := by simp; omega
    rw [hstep, hliteral, ih, hlength, getLast?_cons_or, quoting_literal_cons hquote hslash]
    rfl

/-- A literal behind which none is open is closed. -/
theorem LiteralBody.closes (h : LiteralBody cs text) (hword : word.map Mark.char = cs)
    (hclosed : quoting .literal cs = .code) : closesLiteral word = true := by
  induction h generalizing word with
  | closed =>
    obtain ⟨m, tail, rfl, hm, htail⟩ := List.map_eq_cons_iff.mp hword
    obtain rfl := List.map_eq_nil_iff.mp htail
    simp [closesLiteral, hm]
  | cutOff | cutEscape => cases hclosed
  | escape c _ ih =>
    obtain ⟨m, tail, rfl, hm, htail⟩ := List.map_eq_cons_iff.mp hword
    obtain ⟨e, later, rfl, rfl, hlater⟩ := List.map_eq_cons_iff.mp htail
    simp [closesLiteral, hm, ih hlater hclosed]
  | plain hquote hslash _ ih =>
    obtain ⟨m, tail, rfl, rfl, htail⟩ := List.map_eq_cons_iff.mp hword
    rw [quoting_literal_cons hquote hslash] at hclosed
    rw [closesLiteral.eq_def]
    simp only [if_neg hquote, if_neg hslash, ih htail hclosed]

end Bodies

/-! ### Texts between quotes -/

/-- A protected text and a quote are the body of a literal for the text. -/
theorem literalBody_protected (s : List Char) : LiteralBody (s.flatMap protect ++ ['"']) s := by
  induction s with
  | nil => exact .closed
  | cons c s ih =>
    rw [List.flatMap_cons, List.append_assoc]
    by_cases hc : c = '"' ∨ c = '\\'
    · have hprotect : protect c = ['\\', c] := if_pos hc
      have hescape : unescape c = c := by
        rcases hc with rfl | rfl <;> rfl
      have hbody := LiteralBody.escape c ih
      rw [hescape] at hbody
      rw [hprotect]
      exact hbody
    · have hprotect : protect c = [c] := if_neg hc
      rw [not_or] at hc
      rw [hprotect]
      exact .plain hc.1 hc.2 ih

theorem quoting_protected (s : List Char) :
    quoting .literal (s.flatMap protect ++ ['"']) = .code := by
  induction s with
  | nil => rfl
  | cons c s ih =>
    rw [List.flatMap_cons, List.append_assoc]
    by_cases hc : c = '"' ∨ c = '\\'
    · have hprotect : protect c = ['\\', c] := if_pos hc
      rw [hprotect]
      exact ih
    · have hprotect : protect c = [c] := if_neg hc
      rw [not_or] at hc
      rw [hprotect, List.singleton_append, quoting_literal_cons hc.1 hc.2, ih]

section Quoted

variable {zone : Zone} {a b : List Char} {ts vs : List Token} {marks : List Mark} {n : Nat}

/-- The normalizer leaves a text between quotes as it is, and goes on behind it. -/
theorem canonicalFrom_quoted (hz : ∀ n, zone ≠ .phrase (n + 1)) (hzone : zone.plain = .code)
    (before : Option Char) (pos : Nat) (s b : List Char) :
    canonicalFrom zone before pos (literal s ++ b) = marksFrom pos (literal s)
      ++ canonicalFrom .code (some '"') (pos + (literal s).length) b := by
  have hbody := literalBody_protected s
  have hlast : (s.flatMap protect ++ ['"']).getLast?.or (some '"') = some '"' := by simp
  have hlength : pos + 1 + (s.flatMap protect ++ ['"']).length = pos + (literal s).length := by
    simp [literal]
    omega
  have hstep : canonicalFrom .code before pos (literal s ++ b) = ⟨'"', pos⟩ ::
      canonicalFrom .literal (some '"') (pos + 1) ((s.flatMap protect ++ ['"']) ++ b) := rfl
  rw [← canonicalFrom_plain hz, hzone, hstep, hbody.passes, quoting_protected, hlast, hlength]
  rfl

/-- No phrase goes on behind a blank. -/
theorem zoneAfter_ne_phrase (h : ∀ d ∈ a.getLast?, isBlank d = true) :
    zoneAfter .code none a [] ≠ .phrase (n + 1) := by
  intro hz
  obtain ⟨pos, p, hreplaced, hlt, hend⟩ := replaced_of_phrase hz
  obtain ⟨hp, hstarts⟩ := at?_mem hreplaced.found
  have hcap := (Phrase.startsAt_iff.mp hstarts).2.2.1
  rw [List.append_nil, List.take_of_length_le (by simp; omega)] at hcap
  have hne : a.drop pos ≠ [] := by simpa using hlt
  have hlast : a.getLast? = some ((a.drop pos).getLast hne) := by
    rw [List.getLast_drop, List.getLast?_eq_some_getLast]
  rw [← List.dropLast_append_getLast hne] at hcap
  have hletter := last_of_capital hp hcap
  rw [isBland_of_isBlank (h _ hlast)] at hletter
  cases hletter

/-- A token of a text at whose end no literal is open is closed if it is a literal. -/
theorem scan_closed {m : Mark} {rest after : List Mark} {t : Token}
    (h : scan m rest = .ok (t, after))
    (hclosed : quoting .code ((m :: rest).map Mark.char) = .code) :
    ∃ word, rest = word ++ after ∧
      ((m.char = '"' ∧ closesLiteral word = true) ∨ ∀ x ∈ m :: word, x.char ≠ '"') := by
  by_cases hafter : t.kind = .string → after ≠ []
  · exact scan_part h hafter
  · obtain ⟨hkind, rfl⟩ : t.kind = .string ∧ after = [] := by simpa using hafter
    by_cases hquote : m.char = '"'
    · rw [scan_quote hquote] at h
      have hnil : (scanLiteral rest).2 = [] := congrArg Prod.snd (Except.ok.inj h)
      obtain ⟨word, hword, hbody⟩ := scanLiteral_body rest
      obtain rfl : rest = word := by rwa [hnil, List.append_nil] at hword
      have hstep : quoting .code ((m :: rest).map Mark.char)
          = quoting (Zone.code.quote m.char) (rest.map Mark.char) := rfl
      have hopens : Zone.code.quote m.char = .literal := if_pos hquote
      rw [hstep, hopens] at hclosed
      exact ⟨rest, by simp, .inl ⟨hquote, hbody.closes rfl hclosed⟩⟩
    · obtain ⟨word, hword, hchars⟩ := scan_chars h hquote
      exact ⟨word, hword, .inr fun x hx => (hchars x hx).ne_quote⟩

/-- A text without comments is scanned to its end, if no literal is open there. -/
theorem scans_of_scanAll (h : scanAll marks = .ok ts)
    (hmarks : Unremarked .code (marks.map Mark.char))
    (hclosed : quoting .code (marks.map Mark.char) = .code) : Scans marks [] ts := by
  induction h using scanAll_induction with
  | done => exact .done
  | blank m rest ts _ _ hb ih =>
    have hmap : (m :: rest).map Mark.char = [m.char] ++ rest.map Mark.char := rfl
    rw [hmap, unremarked_append, quoting_of_isBlank hb] at hmarks
    rw [hmap, quoting_append, quoting_of_isBlank hb] at hclosed
    exact .blank hb (ih hmarks.2 hclosed)
  | comment m rest ts _ _ hc => exact absurd rfl ((unremarked_cons.mp hmarks).1 hc)
  | token m rest t after us _ _ hb hc hs ih =>
    obtain ⟨word, rfl, hpart⟩ := scan_closed hs hclosed
    have hmap : (m :: (word ++ after)).map Mark.char
        = (m :: word).map Mark.char ++ after.map Mark.char := by simp
    rw [hmap, unremarked_append, quoting_part hpart] at hmarks
    rw [hmap, quoting_append, quoting_part hpart] at hclosed
    have hword : m.char = '"' → closesLiteral word = true := by
      rcases hpart with ⟨_, hword⟩ | hnone
      · exact fun _ => hword
      · exact fun hquote => absurd hquote (hnone m List.mem_cons_self)
    exact .token hb hc (by rwa [List.append_nil]) hword (ih hmarks.2 hclosed)

/-- What a text between quotes is read as. -/
def quotedToken (s : List Char) (offset : Nat) : Token := ⟨.string, String.ofList s, offset⟩

theorem separates_quote : Separates '"' := by
  refine ⟨by decide, by decide, by decide, fun c => ?_⟩
  unfold Symbol.double?
  split <;> simp_all

theorem scan_quoted (s : List Char) (pos : Nat) (rest : List Mark) :
    ∃ m word, marksFrom pos (literal s) = m :: word ∧ m.char = '"' ∧
      scan m (word ++ rest) = .ok (quotedToken s pos, rest) := by
  have hword : (marksFrom (pos + 1) (s.flatMap protect ++ ['"'])).map Mark.char
      = s.flatMap protect ++ ['"'] := chars_marksFrom _ _
  obtain ⟨after, htext, -⟩ := scanLiteral_protected hword
  have hcloses := (literalBody_protected s).closes hword (quoting_protected s)
  have hscan := scanLiteral_closed hcloses rest
  rw [htext] at hscan
  refine ⟨⟨'"', pos⟩, _, rfl, rfl, ?_⟩
  rw [scan_quote rfl, hscan]
  rfl

/-- Behind a source without comments that ends with a blank in no literal, a text between quotes is
read as one string token, and what follows is read from behind it. -/
theorem tokens_quoted (ha : Unremarked .code a) (hts : Source.tokens a = .ok ts)
    (hblank : ∀ d ∈ a.getLast?, isBlank d = true) (hcode : quoting .code a = .code)
    (s b : List Char) : Source.tokens (a ++ (literal s ++ b)) = .ok vs ↔
      ∃ us, scanAll (canonicalFrom .code (some '"') (a.length + (literal s).length) b) = .ok us ∧
        vs = ts ++ quotedToken s a.length :: us := by
  have hphrase : ∀ n, zoneAfter .code none a [] ≠ .phrase (n + 1) :=
    fun n => zoneAfter_ne_phrase hblank
  have hexchanges : Exchanges .code none a [] (literal s ++ b) := by
    refine ⟨.of_not_isPhrasal (by decide) _, rfl, .inl rfl, fun x u _ _ _ => rfl⟩
  have hcongr : zoneAfter .code none a (literal s ++ b) = zoneAfter .code none a [] ∧
      passed .code none 0 a (literal s ++ b) = passed .code none 0 a [] :=
    passed_congr hexchanges hphrase
  have hplain : (zoneAfter .code none a []).plain = .code := plain_cut.trans hcode
  rw [Source.tokens_eq_ok] at hts ⊢
  rw [canonicalFrom_append, hcongr.1, hcongr.2, passed_nil, Nat.zero_add,
    canonicalFrom_quoted hphrase hplain]
  obtain ⟨hmarks, hquoting⟩ := canonical_unremarked none 0 Zone.Pending.code ha
  have hscans := scans_of_scanAll hts hmarks (hquoting.trans hcode)
  generalize canonicalFrom .code (some '"') (a.length + (literal s).length) b = rest
  obtain ⟨m, word, hword, hquote, hscan⟩ := scan_quoted s a.length rest
  have hnotBlank : isBlank m.char = false := by
    rw [hquote]
    decide
  have hnotSign : m.char ≠ '#' := by
    rw [hquote]
    decide
  rw [hword, List.cons_append,
    scanAll_append_eq_ok (hscans.before_separate (hquote ▸ separates_quote) _),
    scanAll_token hnotBlank hnotSign hscan]
  cases scanAll rest with
  | error fault => simp [Except.map]
  | ok us => simp [Except.map]

end Quoted

/-! ### Saying a text -/

/-- A program of one line that says a text. -/
def sayLine (text : List Char) : List Char := "say ".toList ++ (literal text ++ ['.'])

theorem tokens_say : Source.tokens "say ".toList = .ok [⟨.keyword .sayWord, "say", 0⟩] := by cbv

theorem blank_say : ∀ d ∈ "say ".toList.getLast?, isBlank d = true := by
  rintro _ ⟨⟩
  decide

theorem tokens_sayLine (text : List Char) : ∃ k, Source.tokens (sayLine text)
    = .ok [⟨.keyword .sayWord, "say", 0⟩, quotedToken text 4, ⟨.symbol .dot, ".", k⟩] := by
  have hdot (k : Nat) : scanAll (canonicalFrom .code (some '"') k ['.'])
      = .ok [⟨.symbol .dot, ".", k⟩] := by
    have hmarks : canonicalFrom .code (some '"') k ['.'] = [⟨'.', k⟩] := rfl
    have hscan : scan ⟨'.', k⟩ [] = .ok (⟨.symbol .dot, ".", k⟩, []) := rfl
    rw [hmarks, scanAll_token rfl (show '.' ≠ '#' by decide) hscan, scanAll]
    rfl
  exact ⟨_, (tokens_quoted (by decide) tokens_say blank_say (by decide) text ['.']).mpr
    ⟨_, hdot _, rfl⟩⟩

theorem program_sayLine {nesting : Nat} (h : 0 < nesting) (text : List Char) :
    Source.program nesting (sayLine text)
      = .ok ⟨[], [.say (.text (String.ofList text) 4) 0]⟩ := by
  obtain ⟨k, hk⟩ := tokens_sayLine text
  obtain ⟨n, rfl⟩ := Nat.exists_eq_add_of_lt h
  rw [Source.program_eq_ok hk, Nat.zero_add]
  rfl

theorem runSource_sayLine {s : Session} (hs : s.halted = false) (hn : 0 < s.limits.nesting)
    (text : List Char) : (s.runSource .plain (sayLine text)).outcome = .done ∧
      (s.runSource .plain (sayLine text)).written = [String.ofList text ++ "\n"] := by
  have hb : Program.bind s.functions ⟨[], [.say (.text (String.ofList text) 4) 0]⟩
      = .ok s.functions := rfl
  have hrun : ∃ final, Run.statements (s.context s.functions .plain) s.limits.calls
      ⟨[], [.say (.text (String.ofList text) 4) 0]⟩ (s.state RunOptions.plain.haltAfter)
        = (.ok (), final) ∧
        final.written = [String.ofList text ++ "\n"] := by
    obtain ⟨functions, store, frame, world, halted, debug, limits⟩ := s
    cases hs
    cases debug with
    | false => exact ⟨_, rfl, rfl⟩
    | true => exact ⟨_, rfl, rfl⟩
  obtain ⟨final, hfinal, hwritten⟩ := hrun
  have hstep := Session.run_eq_stepOf (o := .plain) rfl hb
  rw [hfinal] at hstep
  unfold Session.runSource
  rw [program_sayLine hn]
  simp only [hstep, Session.stepOf, hwritten]
  exact ⟨rfl, rfl⟩

/-- Literals survive reading. In a source whose number signs all stand in literals, the string
tokens are the literals that the normalizer passes through, and these are parts of the source. A
text that is put between quotes behind such a source, which ends with a blank in no literal, is read
back as one string token, and what follows is read from behind it; a program that says it writes it.
-/
theorem literals_survive :
    (∀ source ts, Unremarked .code source → Source.tokens source = .ok ts →
      (∃ xs, Divides [] xs (Canonical.ofSource source).marks ∧ ts = tokensOf xs) ∧
      (∀ xs, Divides [] xs (Canonical.ofSource source).marks → stringsOf xs = literalsOf source) ∧
      ∀ run ∈ literalsOf source, IsSlice source run) ∧
    (∀ a ts, Unremarked .code a → Source.tokens a = .ok ts →
      (∀ d ∈ a.getLast?, isBlank d = true) → quoting .code a = .code → ∀ text b vs,
        Source.tokens (a ++ (literal text ++ b)) = .ok vs ↔ ∃ us,
          scanAll (canonicalFrom .code (some '"') (a.length + (literal text).length) b) = .ok us ∧
            vs = ts ++ ⟨.string, String.ofList text, a.length⟩ :: us) ∧
    ∀ s : Session, s.halted = false → 0 < s.limits.nesting → ∀ text,
      (s.runSource .plain ("say ".toList ++ (literal text ++ ['.']))).outcome = .done ∧
        (s.runSource .plain ("say ".toList ++ (literal text ++ ['.']))).written
          = [String.ofList text ++ "\n"] := by
  refine ⟨fun source ts hsource hts => ?_, fun a ts ha hts hblank hcode text b vs => ?_,
    fun s hs hn text => runSource_sayLine hs hn text⟩
  · exact ⟨divides_of_scanAll (Source.tokens_eq_ok.mp hts),
      fun xs hxs => strings_eq_literals hsource hxs, fun run hrun => isSlice_of_mem_literalsOf hrun⟩
  · exact tokens_quoted ha hts hblank hcode text b

/-- A phrase between quotes and a literal that is left open, and a text with both characters that
have to be protected. -/
theorem open_literal_survives :
    Unremarked .code "say \"1 plus 2\" plus \"a plus".toList ∧
      (∀ xs, Divides [] xs (Canonical.ofSource "say \"1 plus 2\" plus \"a plus".toList).marks →
        stringsOf xs = [marksFrom 4 "\"1 plus 2\"".toList, marksFrom 20 "\"a plus".toList]) ∧
      Source.tokens ("say ".toList ++ (literal ['"', '\\'] ++ []))
        = .ok [⟨.keyword .sayWord, "say", 0⟩, ⟨.string, "\"\\", 4⟩] ∧
      (Session.blank.runSource .plain ("say ".toList ++ (literal ['"', '\\'] ++ ['.']))).written
        = ["\"\\\n"] := by
  have hopen : Unremarked .code "say \"1 plus 2\" plus \"a plus".toList := by decide
  have hread : ∃ ts, Source.tokens "say \"1 plus 2\" plus \"a plus".toList = .ok ts :=
    ⟨[⟨.keyword .sayWord, "say", 0⟩, ⟨.string, "1 plus 2", 4⟩, ⟨.symbol .plus, "+", 15⟩,
      ⟨.string, "a plus", 20⟩], by cbv⟩
  have hruns : literalsOf "say \"1 plus 2\" plus \"a plus".toList
      = [marksFrom 4 "\"1 plus 2\"".toList, marksFrom 20 "\"a plus".toList] := by decide
  obtain ⟨hstrings, hquoted, hsaid⟩ := literals_survive
  obtain ⟨ts, hts⟩ := hread
  refine ⟨hopen, fun xs hxs => ?_, ?_, ?_⟩
  · rw [(hstrings _ ts hopen hts).2.1 xs hxs, hruns]
  · exact (hquoted _ _ (by decide) tokens_say blank_say (by decide) ['"', '\\'] [] _).mpr
      ⟨[], by rw [canonicalFrom, scanAll], rfl⟩
  · exact (hsaid Session.blank rfl (by decide) ['"', '\\']).2

end Parlance
