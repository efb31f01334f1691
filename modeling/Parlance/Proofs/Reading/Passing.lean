import Parlance.Proofs.Reading.Canonical
/-!
# The normalizer in the middle of a source

Reading a source in two parts: what the normalizer makes of the first part in front of the second,
and the zone in which it comes to the second (`canonicalFrom_append`). It takes the first part in
the same way in front of another text, if no phrase goes on from the one into the other
(`passed_congr`). Where literals begin and end does not depend on phrases (`plain_zoneAfter`).
-/
namespace Parlance
open Text

/-! ### One character -/

/-- The zone after a character of code, in front of what follows. -/
def Zone.fromCode (before : Option Char) (c : Char) (rest : List Char) : Zone :=
  if c = '"' then .literal
  else
    match Phrase.at? before (c :: rest) with
    | some p => .phrase (p.length - 1)
    | none => .code

/-- The zone after a character of a literal. -/
def Zone.fromLiteral (c : Char) : Zone :=
  if c = '"' then .code else if c = '\\' then .escape else .literal

/-- The zone after a character, in front of what follows. -/
def Zone.next (zone : Zone) (before : Option Char) (c : Char) (rest : List Char) : Zone :=
  match zone with
  | .literal => .fromLiteral c
  | .escape => .literal
  | .phrase (left + 1) => .phrase left
  | _ => .fromCode before c rest

/-- What a character becomes, in front of what follows. -/
def Zone.emit (zone : Zone) (before : Option Char) (pos : Nat) (c : Char) (rest : List Char) :
    List Mark :=
  match zone with
  | .literal | .escape => [⟨c, pos⟩]
  | .phrase (_ + 1) => []
  | _ =>
    if c = '"' then [⟨c, pos⟩]
    else
      match Phrase.at? before (c :: rest) with
      | some p => p.symbol.marks pos
      | none => [⟨c, pos⟩]

theorem canonicalFrom_cons (zone : Zone) (before : Option Char) (pos : Nat) (c : Char)
    (cs : List Char) : canonicalFrom zone before pos (c :: cs)
      = zone.emit before pos c cs
        ++ canonicalFrom (zone.next before c cs) (some c) (pos + 1) cs := by
  rw [canonicalFrom.eq_def]
  simp only [Zone.emit, Zone.next, Zone.fromCode, Zone.fromLiteral]
  cases zone with
  | literal => rfl
  | escape => rfl
  | code =>
    by_cases hc : c = '"'
    · simp only [if_pos hc, List.singleton_append]
    · simp only [if_neg hc]
      cases Phrase.at? before (c :: cs) with
      | some p => rfl
      | none => rfl
  | phrase left =>
    cases left with
    | succ left => rfl
    | zero =>
      by_cases hc : c = '"'
      · simp only [if_pos hc, List.singleton_append]
      · simp only [if_neg hc]
        cases Phrase.at? before (c :: cs) with
        | some p => rfl
        | none => rfl

/-! ### A first part -/

/-- The zone after a text, in front of another one. -/
def zoneAfter (zone : Zone) (before : Option Char) : (a b : List Char) → Zone
  | [], _ => zone
  | c :: a, b => zoneAfter (zone.next before c (a ++ b)) (some c) a b

/-- What a text becomes, in front of another one. -/
def passed (zone : Zone) (before : Option Char) (pos : Nat) : (a b : List Char) → List Mark
  | [], _ => []
  | c :: a, b =>
    zone.emit before pos c (a ++ b)
      ++ passed (zone.next before c (a ++ b)) (some c) (pos + 1) a b

variable {zone : Zone} {before : Option Char} {pos : Nat} {a b : List Char}

theorem getLast?_cons_or (c : Char) (a : List Char) (before : Option Char) :
    (c :: a).getLast?.or before = a.getLast?.or (some c) := by
  rw [List.getLast?_cons]
  cases a.getLast? with
  | none => rfl
  | some d => rfl

theorem canonicalFrom_append (zone : Zone) (before : Option Char) (pos : Nat) (a b : List Char) :
    canonicalFrom zone before pos (a ++ b) = passed zone before pos a b
      ++ canonicalFrom (zoneAfter zone before a b) (a.getLast?.or before) (pos + a.length) b := by
  induction a generalizing zone before pos with
  | nil => rfl
  | cons c a ih =>
    have hpos : pos + (c :: a).length = pos + 1 + a.length := by
      rw [List.length_cons]
      omega
    rw [List.cons_append, canonicalFrom_cons, ih, getLast?_cons_or, hpos, ← List.append_assoc]
    rfl

theorem zoneAfter_append (zone : Zone) (before : Option Char) (x y b : List Char) :
    zoneAfter zone before (x ++ y) b
      = zoneAfter (zoneAfter zone before x (y ++ b)) (x.getLast?.or before) y b := by
  induction x generalizing zone before with
  | nil => rfl
  | cons c x ih =>
    rw [List.cons_append, getLast?_cons_or]
    simp only [zoneAfter, List.append_assoc]
    exact ih _ _

theorem passed_append (zone : Zone) (before : Option Char) (pos : Nat) (x y b : List Char) :
    passed zone before pos (x ++ y) b = passed zone before pos x (y ++ b)
      ++ passed (zoneAfter zone before x (y ++ b)) (x.getLast?.or before) (pos + x.length) y b := by
  induction x generalizing zone before pos with
  | nil => rfl
  | cons c x ih =>
    have hpos : pos + (c :: x).length = pos + 1 + x.length := by
      rw [List.length_cons]
      omega
    rw [List.cons_append, getLast?_cons_or, hpos]
    simp only [passed, zoneAfter, List.append_assoc]
    rw [ih]

theorem passed_nil (zone : Zone) (before : Option Char) (pos : Nat) (a : List Char) :
    passed zone before pos a [] = canonicalFrom zone before pos a := by
  have happend := canonicalFrom_append zone before pos a []
  rw [List.append_nil] at happend
  rw [happend, canonicalFrom, List.append_nil]

/-- Inside a phrase the zone counts down. -/
theorem zoneAfter_phrase {n : Nat} (h : a.length ≤ n) :
    zoneAfter (.phrase n) before a b = .phrase (n - a.length) := by
  induction a generalizing before n with
  | nil => rfl
  | cons c a ih =>
    rw [List.length_cons] at h
    obtain ⟨m, rfl⟩ : ∃ m, n = m + 1 := ⟨n - 1, by omega⟩
    have hstep : zoneAfter (.phrase (m + 1)) before (c :: a) b
        = zoneAfter (.phrase m) (some c) a b := rfl
    rw [hstep, ih (by omega), List.length_cons, Nat.add_sub_add_right]

/-! ### Shifted offsets -/

/-- A mark that comes from so many places further on. -/
def Mark.shift (k : Nat) (m : Mark) : Mark := { m with origin := m.origin + k }

theorem emit_shift (zone : Zone) (before : Option Char) (pos k : Nat) (c : Char)
    (rest : List Char) :
    zone.emit before (pos + k) c rest = (zone.emit before pos c rest).map (Mark.shift k) := by
  unfold Zone.emit
  split
  · rfl
  · rfl
  · rfl
  · split
    · rfl
    · split
      · simp [Symbol.marks, Mark.shift]
      · rfl

theorem canonicalFrom_shift (zone : Zone) (before : Option Char) (pos k : Nat) (cs : List Char) :
    canonicalFrom zone before (pos + k) cs
      = (canonicalFrom zone before pos cs).map (Mark.shift k) := by
  induction cs generalizing zone before pos with
  | nil => rfl
  | cons c cs ih =>
    rw [canonicalFrom_cons, canonicalFrom_cons, List.map_append, emit_shift,
      Nat.add_right_comm pos k 1, ih]

/-! ### What comes before does not matter where a phrase has room -/

theorem at?_of_apart (h : Phrase.apart before = true) (rest : List Char) :
    Phrase.at? before rest = Phrase.at? none rest := by
  unfold Phrase.at? Phrase.startsAt
  rw [h]
  rfl

theorem at?_of_not_apart (h : Phrase.apart before = false) (rest : List Char) :
    Phrase.at? before rest = none := by
  refine List.find?_eq_none.mpr fun p _ hstarts => ?_
  have hapart := (Phrase.startsAt_iff.mp hstarts).1
  rw [h] at hapart
  cases hapart

/-! ### Where literals begin and end -/

/-- The zone as far as it is one of literals. -/
def Zone.plain : Zone → Zone
  | .phrase _ => .code
  | zone => zone

/-- The zone after a character, as far as it is one of literals. -/
def Zone.quote (zone : Zone) (c : Char) : Zone :=
  match zone with
  | .literal => .fromLiteral c
  | .escape => .literal
  | _ => if c = '"' then .literal else .code

/-- In a literal or not, after a text. -/
def quoting (zone : Zone) (cs : List Char) : Zone := cs.foldl Zone.quote zone

theorem quoting_append (zone : Zone) (xs ys : List Char) :
    quoting zone (xs ++ ys) = quoting (quoting zone xs) ys := List.foldl_append

theorem canonicalFrom_plain (h : ∀ n, zone ≠ .phrase (n + 1)) (cs : List Char) :
    canonicalFrom zone.plain before pos cs = canonicalFrom zone before pos cs := by
  cases zone with
  | literal => rfl
  | escape => rfl
  | code => rfl
  | phrase left =>
    cases left with
    | succ left => exact absurd rfl (h left)
    | zero =>
      cases cs with
      | nil => rfl
      | cons c cs => rfl

/-- The character before a text matters in code only, and only if it joins the text to a word. -/
theorem canonicalFrom_before {before' : Option Char} {cs : List Char}
    (h : zone.plain = .code → Phrase.at? before cs = Phrase.at? before' cs) (pos : Nat) :
    canonicalFrom zone before pos cs = canonicalFrom zone before' pos cs := by
  cases cs with
  | nil => rfl
  | cons c cs =>
    rw [canonicalFrom_cons, canonicalFrom_cons]
    have hcode : zone = .code ∨ zone = .phrase 0 → Phrase.at? before (c :: cs)
        = Phrase.at? before' (c :: cs) := by
      rintro (rfl | rfl)
      · exact h rfl
      · exact h rfl
    cases zone with
    | literal => rfl
    | escape => rfl
    | code => simp only [Zone.emit, Zone.next, Zone.fromCode, hcode (.inl rfl)]
    | phrase left =>
      cases left with
      | succ left => rfl
      | zero => simp only [Zone.emit, Zone.next, Zone.fromCode, hcode (.inr rfl)]

/-- The capitals of a character are letters or spaces, as those of a phrase are. -/
def isPhrasal (c : Char) : Bool := (capitals c).all fun u => u == ' ' || u.isUpper

theorem isPhrasal_of_inCapitals {p : Phrase} (hp : p ∈ Phrase.all) {cs : List Char}
    (h : inCapitals cs = p.capital) : ∀ c ∈ cs, isPhrasal c = true := by
  have hall : ∀ p ∈ Phrase.all, (p.capital.all fun u => u == ' ' || u.isUpper) = true := by decide
  intro c hc
  refine List.all_eq_true.mpr fun u hu => ?_
  have hmem : u ∈ p.capital := h ▸ List.mem_flatMap.mpr ⟨c, hc, hu⟩
  exact List.all_eq_true.mp (hall p hp) u hmem

theorem at?_mem {rest : List Char} {p : Phrase} (h : Phrase.at? before rest = some p) :
    p ∈ Phrase.all ∧ p.startsAt before rest = true :=
  ⟨List.mem_of_find?_eq_some h, by simpa using List.find?_some h⟩

theorem isPhrasal_of_at? {rest : List Char} {p : Phrase} (h : Phrase.at? before rest = some p) :
    ∀ c ∈ rest.take p.length, isPhrasal c = true :=
  isPhrasal_of_inCapitals (at?_mem h).1 (Phrase.startsAt_iff.mp (at?_mem h).2).2.2.1

theorem length_pos {p : Phrase} (hp : p ∈ Phrase.all) : 0 < p.length := by
  have hall : ∀ p ∈ Phrase.all, 0 < p.length := by decide
  exact hall p hp

theorem at?_eq_none_of_not_isPhrasal {c : Char} (hc : isPhrasal c = false) (rest : List Char) :
    Phrase.at? before (c :: rest) = none := by
  cases hat : Phrase.at? before (c :: rest) with
  | none => rfl
  | some p =>
    obtain ⟨n, hn⟩ := Nat.exists_eq_add_of_lt (length_pos (at?_mem hat).1)
    have hmem : c ∈ (c :: rest).take p.length := by
      rw [hn, List.take_succ_cons]
      exact List.mem_cons_self
    rw [isPhrasal_of_at? hat c hmem] at hc
    cases hc

/-- What is still to come of a phrase consists of characters of phrases. -/
def Zone.Pending (zone : Zone) (rest : List Char) : Prop :=
  ∀ n, zone = .phrase n → ∀ c ∈ rest.take n, isPhrasal c = true

theorem Zone.Pending.code {rest : List Char} : Zone.code.Pending rest := nofun

theorem Zone.Pending.fromCode (before : Option Char) (c : Char) (rest : List Char) :
    (Zone.fromCode before c rest).Pending rest := by
  unfold Zone.fromCode
  split
  · exact nofun
  · cases hat : Phrase.at? before (c :: rest) with
    | none => exact nofun
    | some p =>
      rintro _ ⟨⟩ d hd
      obtain ⟨n, hn⟩ := Nat.exists_eq_add_of_lt (length_pos (at?_mem hat).1)
      refine isPhrasal_of_at? hat d ?_
      rw [hn] at hd ⊢
      rw [List.take_succ_cons]
      exact List.mem_cons_of_mem c hd

theorem plain_fromLiteral (c : Char) : (Zone.fromLiteral c).plain = Zone.fromLiteral c := by
  unfold Zone.fromLiteral
  split
  · rfl
  · split
    · rfl
    · rfl

theorem plain_fromCode (before : Option Char) (c : Char) (rest : List Char) :
    (Zone.fromCode before c rest).plain = Zone.code.quote c := by
  simp only [Zone.fromCode, Zone.quote]
  split
  · rfl
  · cases Phrase.at? before (c :: rest) with
    | none => rfl
    | some p => rfl

theorem Zone.Pending.of_plain {rest : List Char} (h : zone.plain = zone) : zone.Pending rest := by
  rintro n rfl
  cases h

theorem Zone.Pending.next {c : Char} {rest : List Char} (h : zone.Pending (c :: rest)) :
    (zone.next before c rest).Pending rest := by
  cases zone with
  | literal => exact .of_plain (plain_fromLiteral c)
  | escape => exact nofun
  | code => exact .fromCode before c rest
  | phrase left =>
    cases left with
    | zero => exact .fromCode before c rest
    | succ left =>
      rintro _ ⟨⟩ d hd
      exact h _ rfl d (List.mem_cons_of_mem c hd)

theorem Zone.Pending.after (h : zone.Pending (a ++ b)) : (zoneAfter zone before a b).Pending b := by
  induction a generalizing zone before with
  | nil => exact h
  | cons c a ih => exact ih (Zone.Pending.next h)

theorem ne_quote_of_isPhrasal {c : Char} (h : isPhrasal c = true) : c ≠ '"' := by
  rintro rfl
  revert h
  decide

theorem plain_next (before : Option Char) {c : Char} {rest : List Char}
    (h : zone.Pending (c :: rest)) :
    (zone.next before c rest).plain = zone.plain.quote c := by
  cases zone with
  | literal => exact plain_fromLiteral c
  | escape => rfl
  | code => exact plain_fromCode before c rest
  | phrase left =>
    cases left with
    | zero => exact plain_fromCode before c rest
    | succ left =>
      have hc : c ≠ '"' := ne_quote_of_isPhrasal (h _ rfl c List.mem_cons_self)
      simp only [Zone.next, Zone.plain, Zone.quote, if_neg hc]

/-- Phrases do not matter for where literals begin and end. -/
theorem plain_zoneAfter (before : Option Char) (h : zone.Pending (a ++ b)) :
    (zoneAfter zone before a b).plain = quoting zone.plain a := by
  induction a generalizing zone before with
  | nil => rfl
  | cons c a ih =>
    have hstep : quoting zone.plain (c :: a) = quoting (zone.plain.quote c) a := rfl
    rw [hstep, ← plain_next before h]
    exact ih (some c) (Zone.Pending.next h)

/-- After a character of no phrase the zone is not one of a phrase. -/
theorem plain_next_of_not_isPhrasal {d : Char} {rest : List Char} (hd : isPhrasal d = false)
    (h : zone.Pending (d :: rest)) :
    (zone.next before d rest).plain = zone.next before d rest := by
  have hcode : (Zone.fromCode before d rest).plain = Zone.fromCode before d rest := by
    simp only [Zone.fromCode, at?_eq_none_of_not_isPhrasal hd]
    split
    · rfl
    · rfl
  cases zone with
  | literal => exact plain_fromLiteral d
  | escape => rfl
  | code => exact hcode
  | phrase left =>
    cases left with
    | zero => exact hcode
    | succ left =>
      rw [h _ rfl d List.mem_cons_self] at hd
      cases hd

theorem zoneAfter_snoc {d : Char} (hd : isPhrasal d = false) (h : zone.Pending (a ++ d :: b)) :
    zoneAfter zone before (a ++ [d]) b = quoting zone.plain (a ++ [d]) := by
  have hsplit : zoneAfter zone before (a ++ [d]) b
      = (zoneAfter zone before a (d :: b)).next (a.getLast?.or before) d b := by
    rw [zoneAfter_append]
    rfl
  have hwhole : zone.Pending (a ++ [d] ++ b) := by
    rwa [List.append_assoc, List.singleton_append]
  rw [← plain_zoneAfter before hwhole, hsplit]
  exact (plain_next_of_not_isPhrasal hd h.after).symm

/-! ### Another continuation -/

/-- No phrase goes on from a text into this one. -/
def Blocks (b : List Char) : Prop :=
  ∀ p ∈ Phrase.all, ∀ u, u ≠ [] → u.length < p.length →
    inCapitals ((u ++ b).take p.length) ≠ p.capital

theorem Blocks.of_not_isPhrasal {d : Char} (hd : isPhrasal d = false) (w : List Char) :
    Blocks (d :: w) := by
  intro p hp u _ hlt hcap
  have hmem : d ∈ (u ++ d :: w).take p.length := by
    rw [List.take_append]
    obtain ⟨n, hn⟩ := Nat.exists_eq_add_of_lt hlt
    have hmore : p.length - u.length = n + 1 := by omega
    rw [hmore, List.take_succ_cons]
    exact List.mem_append_right _ List.mem_cons_self
  rw [isPhrasal_of_inCapitals hp hcap d hmem] at hd
  cases hd

/-- No phrase ends with a space. -/
theorem Blocks.of_space {d : Char} (hd : isPhrasal d = false) (w : List Char) :
    Blocks (' ' :: d :: w) := by
  intro p hp u hu hlt hcap
  by_cases hnext : u.length + 1 < p.length
  · have hblocked := Blocks.of_not_isPhrasal hd w p hp (u ++ [' ']) (by simp) (by simpa using hnext)
    rw [List.append_assoc, List.singleton_append] at hblocked
    exact hblocked hcap
  · have hlen : p.length = u.length + 1 := by omega
    have hlast : ∀ p ∈ Phrase.all, p.capital.getLast? ≠ some ' ' := by decide
    have htake : (u ++ ' ' :: d :: w).take p.length = u ++ [' '] := by
      rw [hlen, List.take_append]
      simp
    refine hlast p hp ?_
    rw [← hcap, htake, inCapitals_append]
    have hspace : inCapitals [' '] = [' '] := by decide
    rw [hspace, List.getLast?_concat]

/-- The word before a counted block stands at the end, up to the space before a colon. -/
def AwaitsColon (before : Option Char) (u : List Char) : Prop :=
  Phrase.times.startsAt before u = true ∧ (u.drop Phrase.times.length).all Phrase.isGap = true

/-- A text can be followed by `b'` in place of `b`: no phrase at its end is found in the one case
only. -/
structure Exchanges (zone : Zone) (before : Option Char) (a b b' : List Char) : Prop where
  blocks : Blocks b'
  apart : Phrase.apart b'.head? = true
  last : Phrase.apart b.head? = true ∨
    ∀ u, u <:+ a → ∀ p ∈ Phrase.all, p.length = u.length → inCapitals u ≠ p.capital
  colon : ∀ x u, a = x ++ u → (zoneAfter zone before x (u ++ b)).plain = .code →
    AwaitsColon (x.getLast?.or before) u → Phrase.colonNext b = Phrase.colonNext b'

theorem colonNext_append (v b : List Char) : Phrase.colonNext (v ++ b)
    = if v.all Phrase.isGap then Phrase.colonNext b else Phrase.colonNext v := by
  unfold Phrase.colonNext
  induction v with
  | nil => rfl
  | cons c v ih =>
    rw [List.cons_append, List.dropWhile_cons, List.dropWhile_cons, List.all_cons]
    cases hc : Phrase.isGap c with
    | true => simpa using ih
    | false => simp

/-- A phrase that ends in a text stands in front of one continuation if it stands in front of the
other one. -/
theorem startsAt_exchange {u : List Char} (hu : u ≠ []) {p : Phrase} (hp : p ∈ Phrase.all)
    (hlen : p.length ≤ u.length) (hb : p.length = u.length → inCapitals u = p.capital →
      Phrase.apart b.head? = true)
    {b' : List Char} (hcolon : AwaitsColon before u → Phrase.colonNext b = Phrase.colonNext b')
    (h : p.startsAt before (u ++ b') = true) : p.startsAt before (u ++ b) = true := by
  obtain ⟨hbefore, hhead, hcap, hapart, hyields⟩ := Phrase.startsAt_iff.mp h
  rw [List.take_append_of_le_length hlen] at hcap
  rw [List.drop_append_of_le_length hlen] at hapart hyields
  rw [List.head?_append_of_ne_nil _ hu] at hhead
  refine Phrase.startsAt_iff.mpr ⟨hbefore, ?_, ?_, ?_, ?_⟩
  · rwa [List.head?_append_of_ne_nil _ hu]
  · rwa [List.take_append_of_le_length hlen]
  · rw [List.drop_append_of_le_length hlen]
    cases hdrop : u.drop p.length with
    | nil =>
      have hle := List.drop_eq_nil_iff.mp hdrop
      refine hb (by omega) ?_
      rwa [List.take_of_length_le hle] at hcap
    | cons d v =>
      rw [hdrop] at hapart
      exact hapart
  · rw [List.drop_append_of_le_length hlen]
    rintro ⟨hyield, hnext⟩
    refine hyields ⟨hyield, ?_⟩
    rw [colonNext_append] at hnext ⊢
    split at hnext
    · next hgap =>
      rw [if_pos hgap, ← hcolon ?_]
      · exact hnext
      · -- a phrase that gives way to a colon is the word before a counted block
        have hown : ∀ p ∈ Phrase.all, p.yieldsToColon = true → p = Phrase.times := by decide
        obtain rfl := hown p hp hyield
        refine ⟨Phrase.startsAt_iff.mpr ⟨hbefore, hhead, hcap, ?_, ?_⟩, hgap⟩
        · cases hdrop : u.drop Phrase.times.length with
          | nil => rfl
          | cons d v =>
            rw [hdrop] at hapart
            exact hapart
        · rintro ⟨_, hown⟩
          have hnone := colonNext_append (u.drop Phrase.times.length) []
          rw [if_pos hgap, List.append_nil, hown] at hnone
          cases hnone
    · next hgap =>
      rw [if_neg hgap]
      exact hnext

theorem find?_eq_of_imp {α : Type} {l : List α} {s t : α → Bool}
    (h : ∀ p ∈ l, t p = true → s p = true) (hfound : ∀ p, l.find? s = some p → t p = true) :
    l.find? t = l.find? s := by
  induction l with
  | nil => rfl
  | cons p l ih =>
    rw [List.forall_mem_cons] at h
    rw [List.find?_cons, List.find?_cons]
    cases hs : s p with
    | true =>
      have htp := hfound p (by rw [List.find?_cons, hs])
      rw [htp]
    | false =>
      have htp : t p = false := by
        cases ht : t p with
        | false => rfl
        | true =>
          rw [h.1 ht] at hs
          cases hs
      rw [htp]
      refine ih h.2 fun q hq => hfound q ?_
      rw [List.find?_cons, hs, hq]

/-- In front of either continuation of a text the same phrase is found at its start, if the one that
is found in front of the first is over before it. -/
theorem at?_congr {u b' : List Char} (hu : u ≠ []) (hblocks : Blocks b')
    (hapart : Phrase.apart b'.head? = true)
    (hlast : ∀ p ∈ Phrase.all, p.length = u.length → inCapitals u = p.capital →
      Phrase.apart b.head? = true)
    (hcolon : AwaitsColon before u → Phrase.colonNext b = Phrase.colonNext b')
    (hin : ∀ p, Phrase.at? before (u ++ b) = some p → p.length ≤ u.length) :
    Phrase.at? before (u ++ b') = Phrase.at? before (u ++ b) := by
  refine find?_eq_of_imp (fun p hp h => ?_) fun p h => ?_
  · have hlen : p.length ≤ u.length := by
      by_contra hlt
      exact hblocks p hp u hu (by omega) (Phrase.startsAt_iff.mp h).2.2.1
    exact startsAt_exchange hu hp hlen (hlast p hp) hcolon h
  · obtain ⟨hp, hstarts⟩ := at?_mem h
    exact startsAt_exchange hu hp (hin p h) (fun _ _ => hapart) (fun hawaits => (hcolon hawaits).symm)
      hstarts

theorem at?_exchange {x u b' : List Char} (hex : Exchanges zone before a b b') (ha : a = x ++ u)
    (hu : u ≠ []) (hcode : (zoneAfter zone before x (u ++ b)).plain = .code)
    (hin : ∀ p, Phrase.at? (x.getLast?.or before) (u ++ b) = some p → p.length ≤ u.length) :
    Phrase.at? (x.getLast?.or before) (u ++ b') = Phrase.at? (x.getLast?.or before) (u ++ b) := by
  refine at?_congr hu hex.blocks hex.apart (fun p hp hsame hcap => ?_) (hex.colon x u ha hcode) hin
  rcases hex.last with hapart | hnone
  · exact hapart
  · exact absurd hcap (hnone u ⟨x, ha.symm⟩ p hp hsame)

/-- Phrases are looked for in code only. -/
theorem step_congr {c : Char} {rest rest' : List Char}
    (h : zone = .code ∨ zone = .phrase 0 → c ≠ '"' →
      Phrase.at? before (c :: rest') = Phrase.at? before (c :: rest)) :
    zone.next before c rest' = zone.next before c rest ∧
      zone.emit before pos c rest' = zone.emit before pos c rest := by
  by_cases hcode : (zone = .code ∨ zone = .phrase 0) ∧ c ≠ '"'
  · have hsame := h hcode.1 hcode.2
    unfold Zone.next Zone.emit Zone.fromCode
    rw [hsame]
    exact ⟨rfl, rfl⟩
  · cases zone with
    | literal => exact ⟨rfl, rfl⟩
    | escape => exact ⟨rfl, rfl⟩
    | code =>
      have hc : c = '"' := by simpa using hcode
      simp only [Zone.next, Zone.emit, Zone.fromCode, if_pos hc, and_self]
    | phrase left =>
      cases left with
      | succ left => exact ⟨rfl, rfl⟩
      | zero =>
        have hc : c = '"' := by simpa using hcode
        simp only [Zone.next, Zone.emit, Zone.fromCode, if_pos hc, and_self]

/-- A phrase that is longer than the text is not over at its end. -/
theorem zoneAfter_of_at? {c : Char} {u : List Char} (hzone : zone = .code ∨ zone = .phrase 0)
    (hc : c ≠ '"') {p : Phrase} (h : Phrase.at? before (c :: (u ++ b)) = some p)
    (hlt : (c :: u).length < p.length) :
    zoneAfter zone before (c :: u) b = .phrase (p.length - 1 - u.length - 1 + 1) := by
  rw [List.length_cons] at hlt
  have hcode : Zone.fromCode before c (u ++ b) = .phrase (p.length - 1) := by
    simp only [Zone.fromCode, if_neg hc, h]
  have hnext : zone.next before c (u ++ b) = .phrase (p.length - 1) := by
    rcases hzone with rfl | rfl <;> exact hcode
  have hcount : p.length - 1 - u.length = p.length - 1 - u.length - 1 + 1 := by omega
  simp only [zoneAfter]
  rw [hnext, zoneAfter_phrase (by omega), ← hcount]

/-- The first part of a source is read in the same way in front of either continuation, unless the
first one is entered inside a phrase. -/
theorem passed_congr {b' : List Char} (hex : Exchanges zone before a b b')
    (hend : ∀ n, zoneAfter zone before a b ≠ .phrase (n + 1)) :
    zoneAfter zone before a b' = zoneAfter zone before a b ∧
      passed zone before pos a b' = passed zone before pos a b := by
  -- the induction is on what is left of the first part, so that its end stays the same
  have hsuffix : ∀ u x z pos, a = x ++ u → z = zoneAfter zone before x (u ++ b) →
      zoneAfter z (x.getLast?.or before) u b' = zoneAfter z (x.getLast?.or before) u b ∧
        passed z (x.getLast?.or before) pos u b'
          = passed z (x.getLast?.or before) pos u b := by
    intro u
    induction u with
    | nil => exact fun _ _ _ _ _ => ⟨rfl, rfl⟩
    | cons c u ih =>
      intro x z pos ha hz
      have hlast : (x ++ [c]).getLast?.or before = some c := by simp
      have hwhole : zoneAfter zone before a b = zoneAfter z (x.getLast?.or before) (c :: u) b := by
        rw [ha, zoneAfter_append, hz]
      have hstep : z.next (x.getLast?.or before) c (u ++ b')
            = z.next (x.getLast?.or before) c (u ++ b) ∧
          z.emit (x.getLast?.or before) pos c (u ++ b')
            = z.emit (x.getLast?.or before) pos c (u ++ b) := by
        refine step_congr fun hcode hc => ?_
        have hplain : (zoneAfter zone before x (c :: u ++ b)).plain = .code := by
          rw [← hz]
          rcases hcode with rfl | rfl
          · rfl
          · rfl
        refine at?_exchange (u := c :: u) hex ha (List.cons_ne_nil c u) hplain fun p hp => ?_
        by_contra hlt
        exact hend _ (hwhole.trans (zoneAfter_of_at? hcode hc hp (by omega)))
      have hnext : z.next (x.getLast?.or before) c (u ++ b)
          = zoneAfter zone before (x ++ [c]) (u ++ b) := by
        rw [zoneAfter_append, hz]
        rfl
      have hrest := ih (x ++ [c]) _ (pos + 1)
        (by rw [ha, List.append_assoc, List.singleton_append]) hnext
      rw [hlast] at hrest
      simp only [zoneAfter, passed, hstep.1, hstep.2, hrest.1, hrest.2, and_self]
  exact hsuffix a [] zone pos rfl rfl

/-! ### The end of the first part -/

theorem emit_of_next_ne {c : Char} {rest : List Char}
    (h : ∀ n, zone.next before c rest ≠ .phrase n) : zone.emit before pos c rest = [⟨c, pos⟩] := by
  have hcode : (∀ n, Zone.fromCode before c rest ≠ .phrase n) →
      Zone.code.emit before pos c rest = [⟨c, pos⟩] := by
    intro hne
    by_cases hc : c = '"'
    · simp only [Zone.emit, if_pos hc]
    · simp only [Zone.fromCode, if_neg hc] at hne
      simp only [Zone.emit, if_neg hc]
      cases hat : Phrase.at? before (c :: rest) with
      | none => rfl
      | some p =>
        rw [hat] at hne
        exact absurd rfl (hne _)
  cases zone with
  | literal => rfl
  | escape => rfl
  | code => exact hcode h
  | phrase left =>
    cases left with
    | zero => exact hcode h
    | succ left => exact absurd rfl (h left)

/-- Behind a phrase stands its symbol, otherwise the last character itself. -/
theorem passed_snoc {d : Char} (h : ∀ n, zoneAfter zone before (a ++ [d]) b ≠ .phrase n) :
    passed zone before pos (a ++ [d]) b
      = passed zone before pos a (d :: b) ++ [⟨d, pos + a.length⟩] := by
  rw [zoneAfter_append] at h
  have hemit : (zoneAfter zone before a (d :: b)).emit (a.getLast?.or before) (pos + a.length) d b
      = [⟨d, pos + a.length⟩] := emit_of_next_ne h
  rw [passed_append]
  simp only [passed, List.singleton_append, List.nil_append, List.append_nil, hemit]

/-- Behind what is still to come of a phrase no word goes on. -/
def Zone.Apart (zone : Zone) (rest : List Char) : Prop :=
  ∀ n, zone = .phrase n → Phrase.apart (rest.drop n).head? = true

theorem Zone.Apart.of_plain {rest : List Char} (h : zone.plain = zone) : zone.Apart rest := by
  rintro n rfl
  cases h

theorem Zone.Apart.fromCode (before : Option Char) (c : Char) (rest : List Char) :
    (Zone.fromCode before c rest).Apart rest := by
  unfold Zone.fromCode
  split
  · exact nofun
  · cases hat : Phrase.at? before (c :: rest) with
    | none => exact nofun
    | some p =>
      rintro _ ⟨⟩
      obtain ⟨hp, hstarts⟩ := at?_mem hat
      obtain ⟨n, hn⟩ := Nat.exists_eq_add_of_lt (length_pos hp)
      have hapart := (Phrase.startsAt_iff.mp hstarts).2.2.2.1
      rw [hn] at hapart ⊢
      simpa using hapart

theorem Zone.Apart.after (h : zone.Apart (a ++ b)) : (zoneAfter zone before a b).Apart b := by
  induction a generalizing zone before with
  | nil => exact h
  | cons c a ih =>
    refine ih ?_
    cases zone with
    | literal => exact .of_plain (plain_fromLiteral c)
    | escape => exact nofun
    | code => exact .fromCode before c (a ++ b)
    | phrase left =>
      cases left with
      | zero => exact .fromCode before c (a ++ b)
      | succ left =>
        rintro _ ⟨⟩
        exact h _ rfl

/-! ### Characters that stay -/

/-- A character with which no phrase starts stays, unless it is passed over. -/
theorem step_of_isBland (before : Option Char) (pos : Nat) {d : Char} (rest : List Char)
    (hz : ∀ n, zone ≠ .phrase (n + 1)) (hd : isBland d = true) :
    zone.emit before pos d rest = [⟨d, pos⟩] ∧
      zone.next before d rest = zone.plain.quote d := by
  have hnone : Phrase.at? before (d :: rest) = none := Phrase.at?_eq_none_of_isBland hd
  have hcode : Zone.code.emit before pos d rest = [⟨d, pos⟩] ∧
      Zone.fromCode before d rest = Zone.code.quote d := by
    simp only [Zone.emit, Zone.fromCode, Zone.quote, hnone, ite_self, and_self]
  cases zone with
  | literal => exact ⟨rfl, rfl⟩
  | escape => exact ⟨rfl, rfl⟩
  | code => exact hcode
  | phrase left =>
    cases left with
    | zero => exact hcode
    | succ left => exact absurd rfl (hz left)

theorem passed_of_isBland {d : Char} (hz : ∀ n, zone ≠ .phrase (n + 1)) (hd : isBland d = true) :
    passed zone before pos (d :: a) b
      = ⟨d, pos⟩ :: passed (zone.plain.quote d) (some d) (pos + 1) a b := by
  obtain ⟨hemit, hnext⟩ := step_of_isBland before pos (a ++ b) hz hd
  rw [passed, hemit, hnext]
  rfl

theorem plain_quote (zone : Zone) (c : Char) : (zone.quote c).plain = zone.quote c := by
  have hcode : (if c = '"' then Zone.literal else Zone.code).plain
      = if c = '"' then Zone.literal else Zone.code := by
    split
    · rfl
    · rfl
  cases zone with
  | literal => exact plain_fromLiteral c
  | escape => rfl
  | code => exact hcode
  | phrase left => exact hcode

theorem ne_phrase_of_plain (h : zone.plain = zone) (n : Nat) : zone ≠ .phrase n := by
  rintro rfl
  cases h

theorem plain_plain (zone : Zone) : zone.plain.plain = zone.plain := by
  cases zone with
  | literal | escape | code | phrase => rfl

theorem plain_quoting (h : zone.plain = zone) (cs : List Char) :
    (quoting zone cs).plain = quoting zone cs := by
  induction cs generalizing zone with
  | nil => exact h
  | cons c cs ih => exact ih (plain_quote zone c)

/-- The marks of a text have its characters and those of symbols. -/
theorem mem_passed {m : Mark} (h : m ∈ passed zone before pos a b) :
    m.char ∈ a ∨ ∃ p ∈ Phrase.all, m.char ∈ p.symbol.spelling.toList := by
  induction a generalizing zone before pos with
  | nil => cases h
  | cons c a ih =>
    rw [passed, List.mem_append] at h
    rcases h with h | h
    · have hkept : m ∈ [(⟨c, pos⟩ : Mark)] → m.char ∈ c :: a ∨
          ∃ p ∈ Phrase.all, m.char ∈ p.symbol.spelling.toList := by
        intro hm
        rw [List.mem_singleton.mp hm]
        exact .inl List.mem_cons_self
      unfold Zone.emit at h
      split at h
      · exact hkept h
      · exact hkept h
      · cases h
      · split at h
        · exact hkept h
        · split at h
          · next p hat =>
            obtain ⟨u, hu, rfl⟩ := List.mem_map.mp h
            exact .inr ⟨p, (at?_mem hat).1, hu⟩
          · exact hkept h
    · rcases ih h with hm | hm
      · exact .inl (List.mem_cons_of_mem c hm)
      · exact .inr hm

end Parlance
