import Mathlib
import Parlance.Diagnostic
import Parlance.Proofs.Lists.Sequences
import Parlance.Proofs.Numbers.Remainder
/-!
# Ranges

A range counts from the floor of one bound to the floor of the other, up or down, with both ends in
it. Between the ends an integer may fall between two numbers and is rounded; the ends are floors of
numbers and stand as they are (`Run.range_covers`). A loop over the values of a list that is not
left early is a row of as many runs of its body (`Run.forEach_eq_ok`).
-/
namespace Parlance

-- arithmetic is not to compute the powers of two
attribute [local irreducible] unit overflow

/-! ### Counting between integers -/

namespace Run

variable {p q i : Int}

theorem length_countFrom (p q : Int) : (countFrom p q).length = (q - p).natAbs + 1 := by
  unfold countFrom
  split
  · rw [List.length_map, List.length_range]
    omega
  · rw [List.length_map, List.length_range]
    omega

theorem getElem_countFrom {k : Nat} (h : k < (countFrom p q).length) :
    (countFrom p q)[k] = if p ≤ q then p + k else p - k := by
  unfold countFrom
  split
  · rw [List.getElem_map, List.getElem_range]
  · rw [List.getElem_map, List.getElem_range]

theorem reverse_countFrom (p q : Int) : (countFrom p q).reverse = countFrom q p := by
  apply List.ext_getElem
  · rw [List.length_reverse, length_countFrom, length_countFrom]
    omega
  · intro k hk hk'
    rw [length_countFrom] at hk'
    rw [List.getElem_reverse, getElem_countFrom, getElem_countFrom, length_countFrom]
    split
    · split
      · omega
      · omega
    · split
      · omega
      · omega

theorem head?_countFrom (p q : Int) : (countFrom p q).head? = some p := by
  have hpos : 0 < (countFrom p q).length := by
    rw [length_countFrom]
    omega
  rw [List.head?_eq_getElem?, List.getElem?_eq_getElem hpos, getElem_countFrom]
  simp

theorem getLast?_countFrom (p q : Int) : (countFrom p q).getLast? = some q := by
  rw [List.getLast?_eq_head?_reverse, reverse_countFrom, head?_countFrom]

theorem natAbs_le_of_mem_countFrom (h : i ∈ countFrom p q) :
    i.natAbs ≤ p.natAbs ∨ i.natAbs ≤ q.natAbs := by
  obtain ⟨k, hk, rfl⟩ := List.getElem_of_mem h
  rw [length_countFrom] at hk
  rw [getElem_countFrom]
  split
  · omega
  · omega

end Run

/-! ### The numbers nearest to integers -/

namespace Number

variable {x : Number} {i : Int}

/-- The number is the one that an integer is rounded to. -/
def NearestTo (i : Int) (x : Number) : Prop := Nearest (i < 0) (i.natAbs * unit) x

theorem nearestTo_ofInt (i : Int) : NearestTo i (ofInt i) := by
  have h := nearest_ofQuotient (i < 0) (i.natAbs * unit) Nat.one_pos
  rw [Nat.cast_one, div_one, Nat.cast_mul] at h
  exact h

/-- An integer that is no further from zero than a finite number is not rounded to an infinity. -/
theorem NearestTo.isFinite {n : Nat} (h : NearestTo i x) (hn : Fits (n * unit))
    (hle : i.natAbs ≤ n) : x.isFinite = true := by
  cases h with
  | finite => rfl
  | @infinite u hrounded hlarge =>
    have hbound : (i.natAbs * unit : ℚ) ≤ (n * unit : Nat) := by
      exact_mod_cast Nat.mul_le_mul_right unit hle
    have hsmall : u ≤ n * unit := hrounded.le_of_ge hn.2 hbound
    exact absurd (hlarge.trans hsmall) (Nat.not_le.mpr hn.1)

theorem floor?_eq_some {u : ℚ} (h : x.value? = some u) : x.floor? = some ⌊u⌋ := by
  rw [floor_eq_map, h, Option.map_some]

theorem floor?_eq_none (h : x.value? = none) : x.floor? = none := by
  rw [floor_eq_map, h, Option.map_none]

end Number

/-! ### Loops over values -/

namespace Run

variable {c : Context} {invoke : Invoke} {s s' between : State} {vs : List Value} {item : String}
  {source : Expr} {body : List Stmt} {offset : Nat}

theorem forAll_eq_ok {round : Value → Run Unit} :
    forAll round vs s = (.ok (), s') ↔
      ∃ states : Nat → State, states 0 = s ∧ states vs.length = s' ∧
        ∀ k (h : k < vs.length), round vs[k] (states k) = (.ok (), states (k + 1)) := by
  induction vs generalizing s with
  | nil =>
    constructor
    · intro h
      cases h
      exact ⟨fun _ => s', rfl, rfl, nofun⟩
    · rintro ⟨states, rfl, rfl, -⟩
      rfl
  | cons v vs ih =>
    rw [forAll, bind_eq_ok]
    constructor
    · rintro ⟨u, between, hround, hrest⟩
      obtain ⟨states, rfl, hlast, hsteps⟩ := ih.mp hrest
      refine ⟨fun k => k.casesOn s states, rfl, hlast, fun k hk => ?_⟩
      cases k with
      | zero => exact hround
      | succ k => exact hsteps k (Nat.lt_of_succ_lt_succ hk)
    · rintro ⟨states, rfl, hlast, hsteps⟩
      refine ⟨(), states 1, hsteps 0 (Nat.succ_pos _), ih.mpr ⟨fun k => states (k + 1), rfl, hlast, ?_⟩⟩
      exact fun k hk => hsteps (k + 1) (Nat.succ_lt_succ hk)

/-- The body of a loop is run once for each of some values and each time to its end: the variable is
bound to the value, and the next run begins where the one before it ended. No run begins after the
program has been told to stop. -/
def RunsOver (c : Context) (invoke : Invoke) (item : String) (body : List Stmt) (offset : Nat)
    (vs : List Value) (s s' : State) : Prop :=
  ∃ states : Nat → State, states 0 = s ∧ states vs.length = s' ∧
    ∀ k (h : k < vs.length), heed c offset (states k) = (.ok (), states k) ∧
      Stmt.execAll c invoke body
          { states k with frame := (states k).frame.put (Text.lower item) vs[k] }
        = (.ok (), states (k + 1))

theorem heed_eq_ok : heed c offset s = (.ok (), s') ↔ heed c offset s = (.ok (), s) ∧ s' = s := by
  unfold heed
  split
  · simp [fail, stop]
  · simp [eq_comm]

/-- A loop that is not left early has run its body once for each element that its list had at the
start. -/
theorem forEach_eq_ok {address : Nat} (h : source.eval c invoke s = (.ok (.list address), between)) :
    (Stmt.forEach item source body offset).exec c invoke s = (.ok (), s') ↔
      RunsOver c invoke item body offset (between.store.elements address).toList between s' := by
  have hitems : between.store.items (.list address)
      = .ok (between.store.elements address).toList := rfl
  have hround : ∀ v (t t' : State),
      (do
        heed c offset
        assign item v
        Stmt.execAll c invoke body) t = (.ok (), t') ↔
      heed c offset t = (.ok (), t) ∧
        Stmt.execAll c invoke body { t with frame := t.frame.put (Text.lower item) v }
          = (.ok (), t') := by
    intro v t t'
    rw [bind_eq_ok]
    constructor
    · rintro ⟨u, t₁, hheed, hbody⟩
      obtain ⟨hheed, rfl⟩ := heed_eq_ok.mp hheed
      exact ⟨hheed, hbody⟩
    · rintro ⟨hheed, hbody⟩
      exact ⟨(), t, hheed, hbody⟩
  rw [Stmt.exec, bind_apply, h]
  simp only [bind_apply (fromStore _ _), fromStore, hitems, ofExcept, result]
  rw [forAll_eq_ok]
  simp only [hround, RunsOver]

end Run

/-! ### Ranges -/

namespace Run

variable {s s' : State} {a b : Value} {x y : Number} {called : String} {offset : Nat}

/-- A new list is all that has been added to a state. -/
structure Adds (s s' : State) (address : Nat) (items : List Value) : Prop where
  fresh : address = s.store.size
  elements : s'.store.elements address = items.toArray
  others : ∀ other, other ≠ address → s'.store.elements other = s.store.elements other
  size : s'.store.size = s.store.size + 1
  rest : s' = { s with store := s'.store }

theorem newList_adds (s : State) (items : List Value) :
    ∃ address s', newList items.toArray s = (.ok (.list address), s') ∧ Adds s s' address items := by
  refine ⟨s.store.size, { s with store := (s.store.alloc items.toArray).2 }, rfl, rfl, ?_, ?_,
    Store.size_alloc _ _, rfl⟩
  · rw [Store.elements_alloc, if_pos rfl]
  · intro other hother
    rw [Store.elements_alloc, if_neg hother]

theorem callBuiltin_range :
    callBuiltin .range called [a, b] offset s = (do
      let items ← fromStore offset (rangeOf · a b)
      newList items.toArray) s := rfl

/-- The displays of the bounds may fail in their turn, with an error of the same kind. -/
theorem rangeOf_unbounded {store : Store} (ha : store.toNumber a = .ok x)
    (hb : store.toNumber b = .ok y) (h : x.floor? = none ∨ y.floor? = none) :
    ∃ fault, rangeOf store a b = .error fault ∧ fault.kind = .runtime ∧
      ∀ first last, store.toText a = .ok first → store.toText b = .ok last →
        fault = .unboundedRange first last := by
  have hrange : rangeOf store a b = (do
      .error (.unboundedRange (← store.toText a) (← store.toText b))) := by
    rw [rangeOf, Store.toInteger, Store.toInteger, ha, hb]
    simp only [bind, Except.bind, pure, Except.pure]
    split
    · next hp hq => simp_all
    · rfl
  rw [hrange]
  cases hfirst : store.toText a with
  | error fault =>
    obtain ⟨rfl, -⟩ := Store.toText_eq_error_iff.mp hfirst
    refine ⟨.tooDeep, rfl, rfl, fun _ _ h _ => ?_⟩
    cases h
  | ok first =>
    cases hlast : store.toText b with
    | error fault =>
      obtain ⟨rfl, -⟩ := Store.toText_eq_error_iff.mp hlast
      refine ⟨.tooDeep, rfl, rfl, fun _ _ _ h => ?_⟩
      cases h
    | ok last =>
      refine ⟨.unboundedRange first last, rfl, rfl, ?_⟩
      rintro _ _ ⟨⟩ ⟨⟩
      rfl

theorem callBuiltin_range_of_floor (ha : s.store.toNumber a = .ok x)
    (hb : s.store.toNumber b = .ok y) {p q : Int} (hp : x.floor? = some p)
    (hq : y.floor? = some q) :
    ∃ address s', callBuiltin .range called [a, b] offset s = (.ok (.list address), s') ∧
      Adds s s' address (((countFrom p q).map Number.ofInt).map .number) := by
  have hrange : rangeOf s.store a b
      = .ok (((countFrom p q).map Number.ofInt).map .number) := by
    simp only [rangeOf, Store.toInteger, ha, hb, hp, hq, bind, Except.bind, pure, Except.pure,
      List.map_map]
    rfl
  rw [callBuiltin_range, bind_apply, fromStore, hrange]
  exact newList_adds s _

/-- The numbers of a range from one integer to another: one for each integer between them, nearest
to it, and at the ends the integers themselves. -/
structure Covers (p q : Int) (items : List Number) : Prop where
  length : items.length = (q - p).natAbs + 1
  nearest : ∀ k (h : k < items.length), items[k].isFinite = true ∧
    Number.NearestTo (if p ≤ q then p + k else p - k) items[k]
  first : items.head?.bind Number.value? = some (p : ℚ)
  last : items.getLast?.bind Number.value? = some (q : ℚ)

theorem covers_countFrom {p q : Int} (hp : Fits (p.natAbs * unit)) (hq : Fits (q.natAbs * unit)) :
    Covers p q ((countFrom p q).map Number.ofInt) where
  length := by rw [List.length_map, length_countFrom]
  nearest k hk := by
    rw [List.length_map] at hk
    have hnearest := Number.nearestTo_ofInt (countFrom p q)[k]
    rw [List.getElem_map, ← getElem_countFrom hk]
    refine ⟨?_, hnearest⟩
    rcases natAbs_le_of_mem_countFrom (List.getElem_mem hk) with hle | hle
    · exact hnearest.isFinite hp hle
    · exact hnearest.isFinite hq hle
  first := by
    rw [List.head?_map, head?_countFrom, Option.map_some, Option.bind_some]
    exact Number.value_ofInt hp
  last := by
    rw [List.getLast?_map, getLast?_countFrom, Option.map_some, Option.bind_some]
    exact Number.value_ofInt hq

/-- There is one such list only. -/
theorem Covers.eq {p q : Int} {items : List Number} (h : Covers p q items) :
    items = (countFrom p q).map Number.ofInt := by
  apply List.ext_getElem
  · rw [h.length, List.length_map, length_countFrom]
  · intro k hk hk'
    rw [List.getElem_map, getElem_countFrom]
    exact (h.nearest k hk).2.unique (Number.nearestTo_ofInt _)

/-- For finite bounds a range is a new list that covers the integers from the floor of the first
bound to that of the second. With the bounds exchanged it is the same list from its end, and a loop
over its elements that is not left early runs its body once for each. If a bound is not finite there
is no range, but a runtime error, and nothing is changed. -/
theorem range_covers (ha : s.store.toNumber a = .ok x) (hb : s.store.toNumber b = .ok y) :
    (∀ u v, x.value? = some u → y.value? = some v → ∃ items : List Number,
      Covers ⌊u⌋ ⌊v⌋ items ∧
      (∃ address s', callBuiltin .range called [a, b] offset s = (.ok (.list address), s') ∧
        Adds s s' address (items.map .number)) ∧
      (∃ address s', callBuiltin .range called [b, a] offset s = (.ok (.list address), s') ∧
        Adds s s' address (items.reverse.map .number)) ∧
      ∀ c invoke item source body place start between after address,
        source.eval c invoke start = (.ok (.list address), between) →
        between.store.elements address = (items.map Value.number).toArray →
        ((Stmt.forEach item source body place).exec c invoke start = (.ok (), after) ↔
          RunsOver c invoke item body place (items.map .number) between after)) ∧
    ((x.value? = none ∨ y.value? = none) → ∃ fault,
      callBuiltin .range called [a, b] offset s
        = (.error (.fault fault (fault.place offset)), s) ∧
      fault.kind = .runtime ∧
      ∀ first last, s.store.toText a = .ok first → s.store.toText b = .ok last →
        fault = .unboundedRange first last) := by
  constructor
  · intro u v hu hv
    have hp := Number.floor?_eq_some hu
    have hq := Number.floor?_eq_some hv
    have hreverse : ((countFrom ⌊u⌋ ⌊v⌋).map Number.ofInt).reverse
        = (countFrom ⌊v⌋ ⌊u⌋).map Number.ofInt := by
      rw [← List.map_reverse, reverse_countFrom]
    refine ⟨(countFrom ⌊u⌋ ⌊v⌋).map Number.ofInt,
      covers_countFrom (Number.fits_floor hp) (Number.fits_floor hq),
      callBuiltin_range_of_floor ha hb hp hq, ?_, ?_⟩
    · rw [hreverse]
      exact callBuiltin_range_of_floor hb ha hq hp
    · intro c invoke item source body place start between after address heval helements
      rw [forEach_eq_ok heval, helements]
  · intro h
    obtain ⟨fault, hfault, hkind, htexts⟩ :=
      rangeOf_unbounded ha hb (h.imp Number.floor?_eq_none Number.floor?_eq_none)
    refine ⟨fault, ?_, hkind, htexts⟩
    rw [callBuiltin_range, bind_apply, fromStore, hfault]
    rfl

/-- Beyond 2⁵³ only every other integer is a number. Between the ends each odd one is rounded to the
neighbour whose significand is even. -/
theorem range_with_gaps :
    let low : Value := .number (.ofInt (2 ^ 53))
    let high : Value := .number (.ofInt (2 ^ 53 + 4))
    let items := [2 ^ 53, 2 ^ 53, 2 ^ 53 + 2, 2 ^ 53 + 4, 2 ^ 53 + 4].map Number.ofInt
    desk.store.toNumber low = .ok (.ofInt (2 ^ 53)) ∧
      desk.store.toNumber high = .ok (.ofInt (2 ^ 53 + 4)) ∧
      (Number.ofInt (2 ^ 53)).value? = some (2 ^ 53) ∧
      (Number.ofInt (2 ^ 53 + 4)).value? = some (2 ^ 53 + 4) ∧
      (∃ address s', callBuiltin .range "range" [low, high] 0 desk = (.ok (.list address), s') ∧
        Adds desk s' address (items.map .number)) ∧
      ∃ address s', callBuiltin .range "range" [high, low] 0 desk = (.ok (.list address), s') ∧
        Adds desk s' address (items.reverse.map .number) := by
  intro low high items
  have hlow : desk.store.toNumber low = .ok (.ofInt (2 ^ 53)) := rfl
  have hhigh : desk.store.toNumber high = .ok (.ofInt (2 ^ 53 + 4)) := rfl
  have hp : (Number.ofInt (2 ^ 53)).value? = some (2 ^ 53) := by decide +kernel
  have hq : (Number.ofInt (2 ^ 53 + 4)).value? = some (2 ^ 53 + 4) := by decide +kernel
  have hpfloor : ⌊(2 ^ 53 : ℚ)⌋ = 2 ^ 53 := by norm_num
  have hqfloor : ⌊(2 ^ 53 + 4 : ℚ)⌋ = 2 ^ 53 + 4 := by norm_num
  obtain ⟨given, hcovers, hcall, hback, -⟩ := (range_covers hlow hhigh).1 _ _ hp hq
  have hgiven : given = items := by
    rw [hcovers.eq, hpfloor, hqfloor]
    decide +kernel
  subst hgiven
  exact ⟨hlow, hhigh, hp, hq, hcall, hback⟩

end Run
end Parlance
