import Parlance.Proofs.Grammar.Bare
import Parlance.Proofs.Reading.Written
import Parlance.Token.Scan
/-!
# Scanning written tokens

The tokens of a text that is written in pieces, with no phrase in it, are the tokens of the pieces
(`scanAll_written`).
-/
namespace Parlance.Token
open Text Grammar

section Runs

variable {p : Char → Bool} {marks : List Mark} {cs rest : List Char}

/-- A run of characters is as long as it can be if a blank or nothing follows. -/
theorem takeWhile_chars (h : marks.map Mark.char = cs ++ rest) (hcs : ∀ c ∈ cs, p c = true)
    (hstop : ∀ c ∈ rest.head?, p c = false) :
    (marks.takeWhile (p ·.char)).map Mark.char = cs ∧ (marks.dropWhile (p ·.char)).map Mark.char = rest := by
  obtain ⟨xs, ys, rfl, hxs, hys⟩ := List.map_eq_append_iff.mp h
  have hall : ∀ m ∈ xs, p m.char = true := by
    intro m hm
    exact hcs _ (hxs ▸ List.mem_map_of_mem hm)
  rw [List.takeWhile_append_of_pos hall, List.dropWhile_append_of_pos hall]
  cases ys with
  | nil => simp [hxs, ← hys]
  | cons m ys =>
    have hm : p m.char = false := hstop m.char (by simp [← hys])
    rw [List.takeWhile_cons, List.dropWhile_cons, hm]
    simp [hxs, ← hys]

end Runs

theorem isDigit_of_isBlank (c : Char) (h : isBlank c = true) : c.isDigit = false :=
  forall_blank (P := fun c => c.isDigit = false) (by decide) h

theorem continuesName_of_isBlank (c : Char) (h : isBlank c = true) : continuesName c = false :=
  forall_blank (P := fun c => continuesName c = false) (by decide) h

section Tokens

variable {marks : List Mark} {m : Mark} {cs rest : List Char}

/-! ### Numbers -/

theorem scanFraction_of_closes (h : marks.map Mark.char = rest) (hrest : Closes rest) :
    scanFraction marks = ([], marks) := by
  unfold scanFraction
  split
  · rename_i p d marks
    have hp : isBlank p.char = true := hrest p.char (by simp [← h])
    have hne : p.char ≠ '.' := by
      intro hdot
      rw [hdot] at hp
      cases hp
    rw [if_neg fun hpoint => hne hpoint.1]
  · rfl

theorem scanFraction_of_point {fs : List Char} (h : marks.map Mark.char = '.' :: fs ++ rest)
    (hne : fs ≠ []) (hfs : ∀ f ∈ fs, f.isDigit = true) (hrest : Closes rest) :
    ∃ fraction after, scanFraction marks = (fraction, after) ∧ fraction.map Mark.char = '.' :: fs ∧
      after.map Mark.char = rest := by
  obtain ⟨f, fs, rfl⟩ := List.exists_cons_of_ne_nil hne
  obtain ⟨p, marks, rfl, hp, h⟩ := List.map_eq_cons_iff.mp h
  obtain ⟨d, marks, rfl, hd, h⟩ := List.map_eq_cons_iff.mp h
  rw [List.forall_mem_cons] at hfs
  obtain ⟨htake, hdrop⟩ := takeWhile_chars h hfs.2 (hrest.stops isDigit_of_isBlank)
  refine ⟨_, _, if_pos ⟨hp, hd ▸ hfs.1⟩, ?_, hdrop⟩
  rw [List.map_cons, List.map_cons, hp, hd, htake]

theorem scan_number (hcs : PlainDecimal cs) (h : (m :: marks).map Mark.char = cs ++ rest)
    (hrest : Closes rest) : ∃ u after, scan m marks = .ok (u, after) ∧ u.kind = .number ∧
      u.text = String.ofList cs ∧ after.map Mark.char = rest := by
  have hdot : ('.' : Char).isDigit = false := by decide
  cases hcs with
  | whole hne hds =>
    obtain ⟨d, ds, rfl⟩ := List.exists_cons_of_ne_nil hne
    rw [List.forall_mem_cons] at hds
    obtain ⟨hd, htail⟩ := List.cons.inj h
    obtain ⟨htake, hdrop⟩ := takeWhile_chars htail hds.2 (hrest.stops isDigit_of_isBlank)
    have hfraction := scanFraction_of_closes hdrop hrest
    unfold scan
    rw [if_pos (hd ▸ hds.1), hfraction]
    refine ⟨_, _, rfl, rfl, ?_, hdrop⟩
    rw [textOf, List.append_nil, List.map_cons, hd, htake]
  | @point ds fs hne hds hfs hfraction =>
    obtain ⟨d, ds, rfl⟩ := List.exists_cons_of_ne_nil hne
    rw [List.forall_mem_cons] at hds
    rw [List.append_assoc] at h
    obtain ⟨hd, htail⟩ := List.cons.inj h
    obtain ⟨htake, hdrop⟩ := takeWhile_chars htail hds.2 (by simp [hdot])
    obtain ⟨fraction, after, hscan, hchars, hafter⟩ :=
      scanFraction_of_point hdrop hfs hfraction hrest
    unfold scan
    rw [if_pos (hd ▸ hds.1), hscan]
    refine ⟨_, _, rfl, rfl, ?_, hafter⟩
    rw [textOf, List.map_append, List.map_cons, hd, htake, hchars]

/-! ### Words -/

theorem scan_word (hletter : cs.head?.any Char.isAlpha = true)
    (halnum : ∀ c ∈ cs, c.isAlphanum = true) (h : (m :: marks).map Mark.char = cs ++ rest)
    (hrest : Closes rest) : ∃ u after, scan m marks = .ok (u, after) ∧
      u.text = String.ofList cs ∧ u.kind = (match Keyword.ofWord? (String.ofList cs) with
        | some k => .keyword k
        | none => .name) ∧ after.map Mark.char = rest := by
  cases cs with
  | nil => cases hletter
  | cons c cs =>
    rw [List.forall_mem_cons] at halnum
    have hc : c.isAlpha = true := by simpa using hletter
    obtain ⟨hm, htail⟩ := List.cons.inj h
    have hdigit : m.char.isDigit = false := by
      rw [hm]
      exact forall_ascii (P := fun c => c.isAlpha = true → c.isDigit = false) (by decide)
        (lt_of_isAlphanum halnum.1) hc
    have hstart : startsName m.char = true := by simp [startsName, hm, hc]
    have hcontinue : ∀ d ∈ cs, continuesName d = true := by
      intro d hd
      simp [continuesName, halnum.2 d hd]
    obtain ⟨htake, hdrop⟩ := takeWhile_chars htail hcontinue (hrest.stops continuesName_of_isBlank)
    have htext : textOf (m :: marks.takeWhile (continuesName ·.char))
        = String.ofList (c :: cs) := by
      rw [textOf, List.map_cons, hm, htake]
    unfold scan
    rw [hdigit, hstart, htext]
    exact ⟨_, _, rfl, rfl, rfl, hdrop⟩

theorem ofWord?_of_map_toLower {k : Keyword}
    (hcs : cs.map Char.toLower = k.spelling.toList) :
    Keyword.ofWord? (String.ofList cs) = some k := by
  have hlower : Text.lower (String.ofList cs) = k.spelling := by
    have hmap : cs.map lowerChar = cs.map Char.toLower := by
      refine List.map_congr_left fun c hc => ?_
      have halnum := isAlphanum_of_map_toLower k.spelling_isLower hcs c hc
      have hne : c ≠ '\u212A' := by
        rintro rfl
        cases halnum
      exact if_neg hne
    unfold Text.lower
    rw [String.toList_ofList, hmap, hcs, String.ofList_toList]
  unfold Keyword.ofWord?
  rw [hlower]
  cases k <;> rfl

/-! ### Literals -/

theorem scanLiteral_protected {text : List Char}
    (h : marks.map Mark.char = text.flatMap protect ++ '"' :: rest) :
    ∃ after, scanLiteral marks = (text, after) ∧ after.map Mark.char = rest := by
  -- a protected character takes two marks, any other one
  induction text generalizing marks with
  | nil =>
    obtain ⟨q, marks, rfl, hq, h⟩ := List.map_eq_cons_iff.mp h
    refine ⟨marks, ?_, h⟩
    rw [scanLiteral.eq_def]
    simp only [if_pos hq]
  | cons c text ih =>
    rw [List.flatMap_cons, List.append_assoc] at h
    by_cases hc : c = '"' ∨ c = '\\'
    · have hprotect : protect c = ['\\', c] := if_pos hc
      rw [hprotect] at h
      obtain ⟨b, marks, rfl, hb, h⟩ := List.map_eq_cons_iff.mp h
      obtain ⟨e, marks, rfl, he, h⟩ := List.map_eq_cons_iff.mp h
      obtain ⟨after, hscan, hafter⟩ := ih h
      have hescape : unescape c = c := by
        rcases hc with rfl | rfl <;> rfl
      refine ⟨after, ?_, hafter⟩
      have hquote : b.char ≠ '"' := by
        rw [hb]
        decide
      rw [scanLiteral.eq_def]
      simp only [if_neg hquote, if_pos hb, hscan, he, hescape]
    · have hprotect : protect c = [c] := if_neg hc
      rw [hprotect] at h
      rw [not_or] at hc
      obtain ⟨d, marks, rfl, hd, h⟩ := List.map_eq_cons_iff.mp h
      obtain ⟨after, hscan, hafter⟩ := ih h
      refine ⟨after, ?_, hafter⟩
      rw [scanLiteral.eq_def]
      simp only [hd, hc.1, hc.2, if_false, hscan]

/-! ### Symbols -/

theorem double?_of_isBlank {a b : Char} (hb : isBlank b = true) : Symbol.double? a b = none := by
  unfold Symbol.double?
  split <;> first | cases hb | rfl

theorem scan_sign {s : Symbol} (h : (m :: marks).map Mark.char = s.spelling.toList ++ rest)
    (hrest : Closes rest) : ∃ u after, scan m marks = .ok (u, after) ∧ u.kind = .symbol s ∧
      after.map Mark.char = rest := by
  have hsymbol : ∃ a bs, s.spelling.toList = a :: bs ∧
      (a.isDigit || startsName a || a == '"') = false ∧
      (bs = [] ∧ Symbol.single? a = some s ∨ ∃ b, bs = [b] ∧ Symbol.double? a b = some s) := by
    cases s <;> first
      | exact ⟨_, _, rfl, by decide, .inl ⟨rfl, rfl⟩⟩
      | exact ⟨_, _, rfl, by decide, .inr ⟨_, rfl, rfl⟩⟩
  obtain ⟨a, bs, hspelling, hother, hshape⟩ := hsymbol
  rw [hspelling] at h
  obtain ⟨hm, htail⟩ := List.cons.inj h
  have hscan : ∃ after, scanSymbol? m marks = some (s, after) ∧ after.map Mark.char = rest := by
    rcases hshape with ⟨rfl, hsingle⟩ | ⟨b, rfl, hdouble⟩
    · refine ⟨marks, ?_, htail⟩
      have hnone : (marks.head?.bind fun n => Symbol.double? m.char n.char) = none := by
        cases marks with
        | nil => rfl
        | cons n marks =>
          have hn : rest.head? = some n.char := by
            have htail : n.char :: marks.map Mark.char = rest := htail
            rw [← htail]
            rfl
          exact double?_of_isBlank (hrest n.char hn)
      unfold scanSymbol?
      rw [hnone, hm, hsingle]
      rfl
    · obtain ⟨n, marks, rfl, hn, htail⟩ := List.map_eq_cons_iff.mp htail
      refine ⟨marks, ?_, htail⟩
      have hsome : ((n :: marks).head?.bind fun n => Symbol.double? m.char n.char) = some s := by
        rw [List.head?_cons, Option.bind_some, hm, hn, hdouble]
      unfold scanSymbol?
      rw [hsome]
      rfl
  obtain ⟨after, hscan, hafter⟩ := hscan
  simp only [Bool.or_eq_false_iff, beq_eq_false_iff_ne] at hother
  unfold scan
  rw [hm, hother.1.1, hother.1.2, if_neg hother.2, hscan]
  exact ⟨_, _, rfl, rfl, hafter⟩

/-! ### All tokens -/

/-- A written token is read as it was meant, up to the blank after it. -/
theorem scan_written {t : Token} (ht : Written t cs)
    (h : (m :: marks).map Mark.char = cs ++ rest) (hrest : Closes rest) :
    ∃ u after, scan m marks = .ok (u, after) ∧ Alike u t ∧ after.map Mark.char = rest := by
  cases ht with
  | sign hk =>
    obtain ⟨u, after, hscan, hu, hafter⟩ := scan_sign h hrest
    refine ⟨u, after, hscan, ⟨hu.trans hk.symm, ?_⟩, hafter⟩
    rw [hk]
    simp
  | @word k _ hk hwords =>
    have halpha := isAlpha_of_map_toLower k.spelling_isLower hwords
    have hletter : cs.head?.any Char.isAlpha = true := by
      obtain ⟨c, ds, hcs, _⟩ := (Written.word hk hwords).head
      simp [hcs, halpha c (by simp [hcs])]
    obtain ⟨u, after, hscan, _, hu, hafter⟩ :=
      scan_word hletter (isAlphanum_of_map_toLower k.spelling_isLower hwords) h hrest
    rw [ofWord?_of_map_toLower hwords] at hu
    refine ⟨u, after, hscan, ⟨hu.trans hk.symm, ?_⟩, hafter⟩
    rw [hk]
    simp
  | name hk hname =>
    obtain ⟨u, after, hscan, htext, hu, hafter⟩ :=
      scan_word hname.letter hname.alphanumeric h hrest
    rw [hname.reserved] at hu
    rw [String.ofList_toList] at htext
    exact ⟨u, after, hscan, ⟨hu.trans hk.symm, fun _ => htext⟩, hafter⟩
  | number hk hnumber =>
    obtain ⟨u, after, hscan, hu, htext, hafter⟩ := scan_number hnumber h hrest
    rw [String.ofList_toList] at htext
    exact ⟨u, after, hscan, ⟨hu.trans hk.symm, fun _ => htext⟩, hafter⟩
  | string hk =>
    unfold literal at h
    rw [List.cons_append, List.append_assoc] at h
    obtain ⟨hm, htail⟩ := List.cons.inj h
    obtain ⟨after, hscan, hafter⟩ := scanLiteral_protected htail
    unfold scan
    rw [hm, hscan]
    refine ⟨_, after, rfl, ⟨hk.symm, fun _ => ?_⟩, hafter⟩
    rw [String.ofList_toList]

theorem scanAll_blanks {gap : List Char} (hgap : ∀ c ∈ gap, isBlank c = true)
    (h : marks.map Mark.char = gap ++ rest) :
    ∃ after, scanAll marks = scanAll after ∧ after.map Mark.char = rest := by
  induction gap generalizing marks with
  | nil => exact ⟨marks, rfl, h⟩
  | cons b gap ih =>
    rw [List.forall_mem_cons] at hgap
    obtain ⟨m, marks, rfl, hm, h⟩ := List.map_eq_cons_iff.mp h
    obtain ⟨after, hscan, hafter⟩ := ih hgap.2 h
    refine ⟨after, ?_, hafter⟩
    rw [scanAll, if_pos (hm ▸ hgap.1), hscan]

end Tokens

/-- A text that is written in pieces has the tokens of the pieces. -/
theorem scanAll_written {xs : List Piece} (hxs : ∀ x ∈ xs, Written x.token x.spelling)
    (hspaced : Spaced xs) {marks : List Mark} (h : marks.map Mark.char = Piece.join xs) :
    ∃ us, scanAll marks = .ok us ∧ Copies us (xs.map Piece.token) := by
  induction xs generalizing marks with
  | nil =>
    rw [List.map_eq_nil_iff.mp h, scanAll]
    exact ⟨[], rfl, .nil⟩
  | cons x xs ih =>
    rw [List.forall_mem_cons] at hxs
    rw [Piece.join_cons] at h
    obtain ⟨c, cs, hcs, hhead⟩ := hxs.1.head
    obtain ⟨m, marks, rfl, hm, _⟩ : ∃ m ms, marks = m :: ms ∧ m.char = c ∧ ms.map Mark.char
        = cs ++ (x.gap ++ Piece.join xs) := by
      rw [hcs] at h
      exact List.map_eq_cons_iff.mp h
    obtain ⟨u, after, hscan, hu, hafter⟩ := scan_written hxs.1 h hspaced.closes
    obtain ⟨after', hblanks, hafter'⟩ :=
      scanAll_blanks (hspaced.blank x List.mem_cons_self) hafter
    obtain ⟨us, hus, hcopies⟩ := ih hxs.2 hspaced.tail hafter'
    refine ⟨u :: us, ?_, .cons hu hcopies⟩
    have hblank : ¬ isBlank m.char = true := by simp [hm, hhead.blank]
    have hcomment : m.char ≠ '#' := hm ▸ hhead.comment
    rw [scanAll, if_neg hblank, if_neg hcomment]
    split
    · rename_i hfault
      rw [hscan] at hfault
      cases hfault
    · rename_i hread
      rw [hscan] at hread
      cases hread
      rw [← hblanks] at hus
      rw [hus]
end Parlance.Token
