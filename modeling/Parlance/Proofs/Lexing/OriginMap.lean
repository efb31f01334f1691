import Parlance.Proofs.Lexing.Words
/-!
# The origin map

What comes from an offset of a source: the character there, if no replaced phrase takes it up; the
symbol of a phrase that is replaced there; nothing, inside of a replaced phrase (`marksAt_spared`,
`marksAt_replaced`). So the origins of a canonical text tell for each of its characters where it
comes from (`origins_exact`).
-/
namespace Parlance
open Text

/-- The marks of a canonical text that come from an offset of its source. -/
def marksAt (source : List Char) (i : Nat) : List Mark :=
  (Canonical.ofSource source).marks.filter fun m => m.origin = i

/-- The offset is inside of no replaced phrase of a source. -/
def Spared (source : List Char) (i : Nat) : Prop := Untouched source i (i + 1)

section Offsets

variable {source a b : List Char} {c : Char} {i pos : Nat} {p : Phrase}

theorem Replaced.standsAt (h : Replaced source pos p) :
    p ∈ Phrase.all ∧ p.StandsAt source pos := at?_mem h.found

theorem exists_append_of_getElem? {α : Type} {xs : List α} {x : α} (h : xs[i]? = some x) :
    ∃ a b, xs = a ++ x :: b ∧ i = a.length := by
  obtain ⟨hlt, rfl⟩ := List.getElem?_eq_some_iff.mp h
  refine ⟨xs.take i, xs.drop (i + 1), ?_, ?_⟩
  · rw [← List.drop_eq_getElem_cons hlt, List.take_append_drop]
  · rw [List.length_take]
    omega

theorem replaced_iff : Replaced (a ++ c :: b) a.length p ↔
    (zoneAfter .code none a (c :: b) = .code ∨ zoneAfter .code none a (c :: b) = .phrase 0) ∧
      c ≠ '"' ∧ Phrase.at? a.getLast? (c :: b) = some p := by
  constructor
  · rintro ⟨hfree, hquote, hfound⟩
    rw [List.take_left, List.drop_left] at *
    exact ⟨hfree, by simpa using hquote, hfound⟩
  · rintro ⟨hfree, hquote, hfound⟩
    constructor
    all_goals simpa

/-- Inside of a replaced phrase the normalizer skips. -/
theorem Replaced.zone (h : Replaced (a ++ b) pos p) (hpos : pos < a.length)
    (hend : a.length < pos + p.length) : ∃ n, zoneAfter .code none a b = .phrase (n + 1) := by
  obtain ⟨c, hc⟩ : ∃ c, a[pos]? = some c := ⟨_, List.getElem?_eq_getElem hpos⟩
  obtain ⟨x, u, rfl, rfl⟩ := exists_append_of_getElem? hc
  rw [List.append_assoc, List.cons_append, replaced_iff] at h
  obtain ⟨hfree, hquote, hfound⟩ := h
  have hlt : (c :: u).length < p.length := by
    rw [List.length_append] at hend
    omega
  rw [zoneAfter_append, Option.or_none]
  exact ⟨_, zoneAfter_of_at? hfree hquote hfound hlt⟩

/-- What comes from an offset is what the character there becomes. -/
theorem marksAt_step (a : List Char) (c : Char) (b : List Char) :
    Zone.Step (zoneAfter .code none a (c :: b)) a.getLast? a.length c b
      (marksAt (a ++ c :: b) a.length)
      ((zoneAfter .code none a (c :: b)).next a.getLast? c b) := by
  have hstep := step_taken (zoneAfter .code none a (c :: b)) a.getLast? a.length c b
  have hmarks : (Canonical.ofSource (a ++ c :: b)).marks
      = canonicalFrom .code none 0 (a ++ c :: b) := rfl
  have hbefore : (passed .code none 0 a (c :: b)).filter (fun m => m.origin = a.length) = [] := by
    refine List.filter_eq_nil_iff.mpr fun m hm => ?_
    have hbounds := origin_passed hm
    simp only [decide_eq_true_eq]
    omega
  have hbehind (z : Zone) :
      (canonicalFrom z (some c) (a.length + 1) b).filter (fun m => m.origin = a.length) = [] := by
    refine List.filter_eq_nil_iff.mpr fun m hm => ?_
    have hbound := origin_canonicalFrom hm
    simp only [decide_eq_true_eq]
    omega
  rw [marksAt, hmarks, canonicalFrom_append, canonicalFrom_cons, Option.or_none, Nat.zero_add,
    List.filter_append, List.filter_append, hbefore, hbehind, List.nil_append, List.append_nil]
  generalize Zone.emit _ _ _ _ _ = es at hstep ⊢
  have hown : es.filter (fun m => m.origin = a.length) = es := by
    refine List.filter_eq_self.mpr fun m hm => ?_
    generalize Zone.next _ _ _ _ = next at hstep
    cases hstep with
    | inside => cases hm
    | kept => simp [List.mem_singleton.mp hm]
    | phrase =>
      obtain ⟨d, -, rfl⟩ := List.mem_map.mp hm
      simp
  rwa [hown]

/-- What comes from an offset: its character, if no replaced phrase takes it up; the symbol of the
phrase that is replaced there; or nothing, inside of one. -/
theorem marksAt_cases (h : source[i]? = some c) :
    Spared source i ∧ marksAt source i = [⟨c, i⟩] ∨
      (∃ p, Replaced source i p ∧ marksAt source i = p.symbol.marks i) ∨
      (∃ pos p, Replaced source pos p ∧ pos < i ∧ i < pos + p.length) ∧ marksAt source i = [] := by
  obtain ⟨a, b, rfl, rfl⟩ := exists_append_of_getElem? h
  have hstep := marksAt_step a c b
  generalize marksAt _ _ = es at hstep ⊢
  generalize Zone.next _ _ _ _ = next at hstep
  cases hstep with
  | inside hzone =>
    obtain ⟨pos, p, hreplaced, hpos, hend⟩ := replaced_of_phrase hzone
    exact .inr (.inr ⟨⟨pos, p, hreplaced, hpos, by omega⟩, rfl⟩)
  | kept hzone _ hkept =>
    refine .inl ⟨fun pos p hreplaced => ?_, rfl⟩
    by_contra htouched
    rcases Nat.lt_trichotomy pos a.length with hpos | rfl | hpos
    · obtain ⟨n, hn⟩ := hreplaced.zone hpos (by omega)
      exact hzone n hn
    · obtain ⟨hcode, hquote, hfound⟩ := replaced_iff.mp hreplaced
      rcases hkept hcode with hc | hnone
      · exact hquote hc
      · rw [hfound] at hnone
        cases hnone
    · omega
  | @phrase p hcode hquote hfound =>
    exact .inr (.inl ⟨p, replaced_iff.mpr ⟨hcode, hquote, hfound⟩, rfl⟩)

theorem Spared.not_replaced (h : Spared source i) (hreplaced : Replaced source pos p)
    (hpos : pos ≤ i) : pos + p.length ≤ i := by
  rcases h pos p hreplaced with hle | hle <;> omega

/-- A character that no replaced phrase takes up comes from its own place, and nothing else does. -/
theorem marksAt_spared (h : Spared source i) (hc : source[i]? = some c) :
    marksAt source i = [⟨c, i⟩] := by
  rcases marksAt_cases hc with ⟨-, hmarks⟩ | ⟨p, hreplaced, -⟩ | ⟨⟨pos, p, hreplaced, hpos, hend⟩, -⟩
  · exact hmarks
  · have hend := h.not_replaced hreplaced (Nat.le_refl i)
    have hlength := length_pos hreplaced.standsAt.1
    omega
  · have hle := h.not_replaced hreplaced hpos.le
    omega

/-- From the place of a replaced phrase comes its symbol. -/
theorem marksAt_replaced (h : Replaced source i p) : marksAt source i = p.symbol.marks i := by
  obtain ⟨c, hc⟩ : ∃ c, source[i]? = some c :=
    ⟨_, List.getElem?_eq_getElem (lt_of_standsAt h.standsAt.2)⟩
  rcases marksAt_cases hc with
    ⟨hspared, -⟩ | ⟨q, hreplaced, hmarks⟩ | ⟨⟨pos, q, hreplaced, hpos, hend⟩, -⟩
  · have hend := hspared.not_replaced h (Nat.le_refl i)
    have hlength := length_pos h.standsAt.1
    omega
  · obtain rfl : p = q := Option.some.inj (h.found.symm.trans hreplaced.found)
    exact hmarks
  · obtain ⟨a, b, rfl, rfl⟩ := exists_append_of_getElem? hc
    obtain ⟨n, hn⟩ := hreplaced.zone hpos hend
    rcases (replaced_iff.mp h).1 with hz | hz <;> rw [hz] at hn <;> cases hn

/-- A mark is the character at its origin, which no replaced phrase takes up, or it is of the symbol
of the phrase that is replaced there. -/
theorem origin_cases {m : Mark} (h : m ∈ (Canonical.ofSource source).marks) :
    Spared source m.origin ∧ source[m.origin]? = some m.char ∨
      ∃ p, Replaced source m.origin p ∧ m ∈ p.symbol.marks m.origin := by
  have hlt : m.origin < source.length := ((laid_ofSource source).origin_bounds h).2
  have hmem : m ∈ marksAt source m.origin := List.mem_filter.mpr ⟨h, by simp⟩
  rcases marksAt_cases (List.getElem?_eq_getElem hlt) with
    ⟨hspared, hmarks⟩ | ⟨p, hreplaced, hmarks⟩ | ⟨-, hmarks⟩
  · rw [hmarks, List.mem_singleton] at hmem
    exact .inl ⟨hspared, by rw [hmem, List.getElem?_eq_getElem]⟩
  · exact .inr ⟨p, hreplaced, hmarks ▸ hmem⟩
  · rw [hmarks] at hmem
    cases hmem

end Offsets

/-! ### All entries -/

/-- The origins of a canonical text: one for each character and one for the end, in the order of the
source. What no replaced phrase takes up has one entry, which is that of its character; all other
entries are those of symbols, of each phrase at its place. Two entries are the same for the two
characters of one symbol only. -/
structure ExactOrigins (source : List Char) (n : Canonical) : Prop where
  length : n.origins.length = n.chars.length + 1
  ascending : n.origins.Pairwise (· ≤ ·)
  bounded : ∀ i ∈ n.origins, i ≤ source.length
  last : n.origins.getLast? = some source.length
  spared : ∀ (i : Nat) (c : Char), source[i]? = some c → Spared source i →
    ∃ k : Nat, n.chars[k]? = some c ∧ ∀ j < n.chars.length, n.origins[j]? = some i ↔ j = k
  replaced : ∀ (k i : Nat) (c : Char), n.chars[k]? = some c → n.origins[k]? = some i →
    Spared source i ∧ source[i]? = some c ∨
      ∃ p ∈ Phrase.all, Replaced source i p ∧ p.StandsAt source i ∧ c ∈ p.symbol.spelling.toList
  equal : ∀ j k i : Nat, j < k → n.origins[j]? = some i → n.origins[k]? = some i →
    k = j + 1 ∧ ∃ p c d, Replaced source i p ∧ n.chars[j]? = some c ∧ n.chars[k]? = some d ∧
      p.symbol.spelling.toList = [c, d]
  inside : ∀ (k : Nat) (hk : k < n.origins.length), n.sourceOffset k = n.origins[k]
  outside : ∀ k, n.origins.length ≤ k → n.sourceOffset k = source.length

section Entries

variable {source : List Char} {marks : List Mark} {n : Canonical} {i k : Nat} {c : Char}

/-- Behind the entries of its characters a canonical text has one for its end. -/
theorem origins_getElem? (hk : k < n.chars.length) :
    n.origins[k]? = (n.marks[k]?).map Mark.origin := by
  rw [Canonical.chars, List.length_map] at hk
  rw [Canonical.origins, List.getElem?_append_left (by simpa using hk), List.getElem?_map]

/-- A character of a canonical text with its entry. -/
theorem marks_getElem? (hc : n.chars[k]? = some c) (hi : n.origins[k]? = some i) :
    n.marks[k]? = some ⟨c, i⟩ := by
  have hk := (List.getElem?_eq_some_iff.mp hc).1
  rw [origins_getElem? hk] at hi
  rw [Canonical.chars, List.getElem?_map] at hc
  cases hmark : n.marks[k]? with
  | none => simp [hmark] at hc
  | some m =>
    rw [hmark, Option.map_some, Option.some.injEq] at hc hi
    rw [← hc, ← hi]

theorem ascending_pairwise (h : Ascending marks) : marks.Pairwise (·.origin ≤ ·.origin) := by
  induction marks with
  | nil => exact .nil
  | cons m marks ih =>
    refine .cons (fun x hx => ?_) (ih fun a y b z c heq => h (m :: a) y b z c (by rw [heq]; rfl))
    obtain ⟨b, c, rfl⟩ := List.append_of_mem hx
    rcases h [] m b x c rfl with hlt | ⟨heq, -⟩ <;> omega

/-- Two marks from one place are the symbol of the phrase that is replaced there. -/
theorem symbol_of_same_origin {a b : List Mark} {x y : Mark}
    (h : (Canonical.ofSource source).marks = a ++ x :: y :: b) (hsame : x.origin = y.origin) :
    ∃ p, Replaced source x.origin p ∧ p.symbol.spelling.toList = [x.char, y.char] := by
  have hx : x ∈ (Canonical.ofSource source).marks := by simp [h]
  have hboth : [x, y].Sublist (marksAt source x.origin) := by
    have hpair : [x, y].Sublist (Canonical.ofSource source).marks := by
      rw [h]
      exact (((List.nil_sublist b).cons_cons y).cons_cons x).trans (List.sublist_append_right a _)
    have hfilter := hpair.filter fun m => m.origin = x.origin
    rwa [List.filter_cons_of_pos (by simp), List.filter_cons_of_pos (by simp [hsame]),
      List.filter_nil] at hfilter
  have hget := List.getElem?_eq_getElem ((laid_ofSource source).origin_bounds hx).2
  rcases marksAt_cases hget with ⟨-, hmarks⟩ | ⟨p, hreplaced, hmarks⟩ | ⟨-, hmarks⟩
  · rw [hmarks] at hboth
    simpa using hboth.length_le
  · refine ⟨p, hreplaced, ?_⟩
    rw [hmarks] at hboth
    rcases p.symbol.marks_cases x.origin with ⟨u, v, hpair, hdouble⟩ | ⟨u, hone, -⟩
    · rw [hpair] at hboth
      have heq := congrArg (List.map Mark.char) (hboth.eq_of_length rfl)
      rw [Symbol.spelling_of_double? hdouble]
      exact heq.symm
    · rw [hone] at hboth
      simpa using hboth.length_le
  · rw [hmarks] at hboth
    simpa using hboth.length_le

theorem origins_ascending (source : List Char) :
    (Canonical.ofSource source).origins.Pairwise (· ≤ ·) := by
  have hlaid := laid_ofSource source
  rw [Canonical.origins, List.pairwise_append, List.pairwise_map]
  refine ⟨ascending_pairwise hlaid.ascending, List.pairwise_singleton _ _, fun i hi j hj => ?_⟩
  obtain ⟨m, hm, rfl⟩ := List.mem_map.mp hi
  rw [List.mem_singleton.mp hj]
  exact (hlaid.origin_bounds hm).2.le

/-- A character that no replaced phrase takes up stands in the canonical text once. -/
theorem origins_spared (h : Spared source i) (hc : source[i]? = some c) :
    ∃ k : Nat, (Canonical.ofSource source).chars[k]? = some c ∧
      ∀ j < (Canonical.ofSource source).chars.length,
        (Canonical.ofSource source).origins[j]? = some i ↔ j = k := by
  obtain ⟨a, b, hmarks, hbefore, -, hbehind⟩ := List.filter_eq_cons_iff.mp (marksAt_spared h hc)
  refine ⟨a.length, by simp [Canonical.chars, hmarks], fun j hj => ?_⟩
  rw [origins_getElem? hj, hmarks]
  constructor
  · intro hj
    obtain ⟨m, hm, horigin⟩ := Option.map_eq_some_iff.mp hj
    rcases Nat.lt_trichotomy j a.length with hlt | rfl | hgt
    · rw [List.getElem?_append_left hlt] at hm
      exact absurd (by simpa using horigin) (hbefore m (List.mem_of_getElem? hm))
    · rfl
    · obtain ⟨d, rfl⟩ : ∃ d, j = a.length + (d + 1) := ⟨j - a.length - 1, by omega⟩
      rw [List.getElem?_append_right (by omega), Nat.add_sub_cancel_left,
        List.getElem?_cons_succ] at hm
      rw [List.filter_eq_nil_iff] at hbehind
      exact absurd (by simpa using horigin) (hbehind m (List.mem_of_getElem? hm))
  · rintro rfl
    simp

theorem origins_equal {j : Nat} (hjk : j < k)
    (hj : (Canonical.ofSource source).origins[j]? = some i)
    (hk : (Canonical.ofSource source).origins[k]? = some i) :
    k = j + 1 ∧ ∃ p c d, Replaced source i p ∧ (Canonical.ofSource source).chars[j]? = some c ∧
      (Canonical.ofSource source).chars[k]? = some d ∧ p.symbol.spelling.toList = [c, d] := by
  have hlaid := laid_ofSource source
  generalize hn : Canonical.ofSource source = n at *
  have hlength : n.length = source.length := by rw [← hn]; rfl
  have hkn := (List.getElem?_eq_some_iff.mp hk).1
  have hmarkslength : n.chars.length = n.marks.length := List.length_map _
  rw [Canonical.origins, List.length_append, List.length_map, List.length_singleton] at hkn
  rw [origins_getElem? (by omega)] at hj
  obtain ⟨x, hx, hxi⟩ := Option.map_eq_some_iff.mp hj
  have hxlt := (hlaid.origin_bounds (List.mem_of_getElem? hx)).2
  have hklt : k < n.marks.length := by
    -- the entry of the end is larger than all others
    by_contra hend
    obtain rfl : k = n.marks.length := by omega
    rw [Canonical.origins, List.getElem?_append_right (by simp)] at hk
    simp at hk
    omega
  rw [origins_getElem? (by omega)] at hk
  obtain ⟨y, hy, hyi⟩ := Option.map_eq_some_iff.mp hk
  obtain ⟨d, c, hsplit, rfl⟩ := exists_append_of_getElem? hy
  rw [hsplit, List.getElem?_append_left hjk] at hx
  obtain ⟨a, b, rfl, rfl⟩ := exists_append_of_getElem? hx
  rw [List.append_assoc, List.cons_append] at hsplit
  rcases hlaid.ascending a x b y c hsplit with hlt | ⟨hsame, rfl, -⟩
  · omega
  · obtain ⟨p, hreplaced, hspelling⟩ := symbol_of_same_origin (hn ▸ hsplit) hsame
    refine ⟨by simp, p, x.char, y.char, hxi ▸ hreplaced, ?_, ?_, hspelling⟩
    · simp [Canonical.chars, hsplit]
    · simp [Canonical.chars, hsplit]

/-- The origin map of every source is exact. -/
theorem origins_exact (source : List Char) :
    ExactOrigins source (Canonical.ofSource source) where
  length := by simp [Canonical.origins, Canonical.chars]
  ascending := origins_ascending source
  bounded := by
    intro i hi
    rcases List.mem_append.mp hi with hi | hi
    · obtain ⟨m, hm, rfl⟩ := List.mem_map.mp hi
      exact ((laid_ofSource source).origin_bounds hm).2.le
    · exact (List.mem_singleton.mp hi).le
  last := List.getLast?_concat
  spared i c hc h := origins_spared h hc
  replaced k i c hc hi := by
    have hmark := marks_getElem? hc hi
    refine (origin_cases (List.mem_of_getElem? hmark)).imp_right ?_
    rintro ⟨p, hreplaced, hmem⟩
    obtain ⟨hp, hstands⟩ := hreplaced.standsAt
    obtain ⟨d, hd, heq⟩ := List.mem_map.mp hmem
    cases heq
    exact ⟨p, hp, hreplaced, hstands, hd⟩
  equal j k i hjk hj hk := origins_equal hjk hj hk
  inside k hk := by simp [Canonical.sourceOffset, List.getD_eq_getElem?_getD, hk]
  outside k hk := by
    rw [Canonical.sourceOffset, List.getD_eq_default _ _ hk]
    rfl

end Entries

end Parlance
