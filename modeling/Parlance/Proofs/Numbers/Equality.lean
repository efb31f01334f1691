import Mathlib
import Parlance.Proofs.Lists.Display
import Parlance.Proofs.Numbers.Coercions
import Parlance.Proofs.Numbers.Rounding
/-!
# Equality of values

Two values are equal or not whichever comes first, by one rule for texts, one for truths and one for
numbers, and every value equals itself except for numbers that are infinite or none
(`Store.equal_laws`). Numbers are equal if they are finite and their distance is rounded to less
than the tolerance (`Number.lt_tolerance_iff`).
-/
namespace Parlance

-- arithmetic is not to compute the powers of two
attribute [local irreducible] unit overflow

namespace Number

variable {a b x y : Number} {gap : Nat} {p q : Int}

/-- How many units are between two finite numbers. -/
def gap? : Number → Number → Option Nat
  | finite a u _, finite b v _ => some (signed a u - signed b v).natAbs
  | _, _ => none

/-- Finite numbers whose distance is rounded to less than the tolerance. -/
def Close (a b : Number) : Prop :=
  ∃ gap u t, a.gap? b = some gap ∧ Rounded gap u ∧ tolerance.place? = some t ∧ (u : Int) < t

/-! ### Distances -/

theorem gap_comm (a b : Number) : a.gap? b = b.gap? a := by
  cases a with
  | nan | infinite => cases b <;> rfl
  | finite negative u =>
    cases b with
    | nan | infinite => rfl
    | finite negative' v => rw [gap?, gap?, ← Int.natAbs_neg, Int.neg_sub]

theorem gap_self_eq_some : x.gap? x = some gap ↔ x.isFinite = true ∧ gap = 0 := by
  cases x with
  | nan | infinite => simp [gap?, isFinite]
  | finite negative u => simp [gap?, isFinite, eq_comm]

theorem signed_not (negative : Bool) (u : Nat) : signed (!negative) u = -signed negative u := by
  cases negative with
  | false => rfl
  | true => simp [signed]

theorem place_le (h : x.place? = some p) : p ≤ overflow := by
  cases x with
  | nan => cases h
  | infinite negative =>
    cases h
    have := natAbs_signed negative overflow
    omega
  | finite negative u fits =>
    cases h
    have := natAbs_signed negative u
    have := fits.1
    omega

theorem place_abs_ofQuotient (negative : Bool) (num den : Nat) :
    (ofQuotient negative num den).abs.place? = some (min (nearest num den) overflow : Nat) := by
  unfold ofQuotient
  split
  · next h => simp [Number.abs, place?, signed, Nat.min_eq_left h.le]
  · next h => simp [Number.abs, place?, signed, Nat.min_eq_right (not_lt.mp h)]

theorem nearest_zero : nearest 0 1 = 0 := rounded_natCast_iff.mp (Short.rounded fits_zero.2)

/-- The difference of finite numbers is their distance, rounded. -/
theorem place_abs_sub (h : a.gap? b = some gap) :
    (a.sub b).abs.place? = some (min (nearest gap 1) overflow : Nat) := by
  cases a with
  | nan | infinite => cases h
  | finite negative u =>
    cases b with
    | nan | infinite => cases h
    | finite negative' v =>
      cases h
      simp only [sub, neg, add, signed_not, ← sub_eq_add_neg]
      split
      · next htotal =>
        rw [htotal, Int.natAbs_zero, nearest_zero]
        simp [zero, Number.abs, place?, signed]
      · exact place_abs_ofQuotient _ _ _

/-- Any other difference is none or infinite. -/
theorem place_abs_sub_of_gap (h : a.gap? b = none) (hp : (a.sub b).abs.place? = some p) :
    p = overflow := by
  cases a with
  | nan => cases b <;> cases hp
  | infinite negative =>
    cases b with
    | nan => cases hp
    | infinite negative' =>
      simp only [sub, neg, add] at hp
      split at hp
      · cases hp
        rfl
      · cases hp
    | finite => cases hp; rfl
  | finite =>
    cases b with
    | nan => cases hp
    | infinite => cases hp; rfl
    | finite => cases h

theorem lt_eq_true : x.lt y = true ↔ ∃ p q, x.place? = some p ∧ y.place? = some q ∧ p < q := by
  unfold lt
  split
  · next p q hp hq => simp [hp, hq]
  · next hnone =>
    simp only [Bool.false_eq_true, false_iff, not_exists, not_and]
    exact fun p q hp hq => absurd hq (hnone p q hp)

/-- What the tolerance decides of two numbers. -/
theorem lt_tolerance_iff : (a.sub b).abs.lt tolerance = true ↔ a.Close b := by
  rw [lt_eq_true]
  constructor
  · intro h
    obtain ⟨p, t, hp, ht, hlt⟩ := h
    -- so that the tolerance is not above an infinite difference
    have hbound := place_le ht
    cases hgap : a.gap? b with
    | none =>
      rw [place_abs_sub_of_gap hgap hp] at hlt
      omega
    | some gap =>
      rw [place_abs_sub hgap] at hp
      cases hp
      exact ⟨gap, _, t, hgap, rounded_natCast_iff.mpr rfl, ht, by omega⟩
  · intro h
    obtain ⟨gap, u, t, hgap, hrounded, ht, hlt⟩ := h
    have hnearest := rounded_natCast_iff.mp hrounded
    exact ⟨_, t, place_abs_sub hgap, ht, by omega⟩

theorem close_comm : a.Close b ↔ b.Close a := by
  unfold Close
  rw [gap_comm]

/-- The tolerance is above zero, so a finite number is close to itself. -/
theorem close_self_iff : x.Close x ↔ x.isFinite = true := by
  constructor
  · intro h
    obtain ⟨gap, u, t, hgap, -⟩ := h
    exact (gap_self_eq_some.mp hgap).1
  · intro h
    obtain ⟨t, ht, hpos⟩ : ∃ t, tolerance.place? = some t ∧ 0 < t := by
      have hlt : (zero false).lt tolerance = true := by decide +kernel
      obtain ⟨_, t, hzero, ht, hpos⟩ := lt_eq_true.mp hlt
      cases hzero
      exact ⟨t, ht, hpos⟩
    exact ⟨0, 0, t, gap_self_eq_some.mpr ⟨h, rfl⟩, Short.rounded fits_zero.2, ht, hpos⟩

theorem isFinite_ofNat {n : Nat} (h : n ≤ 2 ^ 64) : (ofNat n).isFinite = true := by
  obtain ⟨k, hk⟩ := exists_unit_eq
  have hshort : Short (2 ^ 64 * unit) := by
    rw [hk]
    exact (short_two_pow 64).mul_two_pow k
  have hlarge : 2 ^ 64 * unit < overflow := by decide +kernel
  have hrounded := rounded_natCast_iff.mpr (rfl : nearest (n * unit) 1 = _)
  have hle := hrounded.le_of_ge hshort (by exact_mod_cast Nat.mul_le_mul_right unit h)
  have hfits : nearest (n * unit) 1 < overflow := by omega
  change (ofQuotient _ (n * unit) 1).isFinite = true
  rw [ofQuotient, dif_pos hfits]
  rfl

end Number

namespace Store

variable {store : Store} {x y : Value} {fault : Fault}

/-- The order of two operands that can fail in one way only does not matter. -/
theorem operands_comm {α β : Type} {p q : Except Fault α} {k k' : α → α → β} {e : Fault}
    (hp : ∀ f, p = .error f → f = e) (hq : ∀ f, q = .error f → f = e)
    (hk : ∀ a b, k a b = k' b a) :
    (do
      let a ← p
      let b ← q
      return k a b) = (do
      let b ← q
      let a ← p
      return k' b a) := by
  cases p with
  | error f =>
    obtain rfl := hp f rfl
    cases q with
    | error g => rw [hq g rfl]; rfl
    | ok b => rfl
  | ok a =>
    cases q with
    | error g => rfl
    | ok b => exact congrArg Except.ok (hk a b)

theorem equal_comm (store : Store) (x y : Value) : store.equal x y = store.equal y x := by
  unfold equal
  rw [Bool.or_comm y.isText, Bool.or_comm y.isTruth]
  split
  · exact operands_comm (fun _ h => (toText_eq_error_iff.mp h).1)
      (fun _ h => (toText_eq_error_iff.mp h).1) fun a b => Bool.beq_comm
  split
  · rw [Bool.beq_comm]
  · refine operands_comm (fun _ h => (toNumber_eq_error.mp h).1)
      (fun _ h => (toNumber_eq_error.mp h).1) fun a b => ?_
    rw [Bool.eq_iff_iff, Number.lt_tolerance_iff, Number.lt_tolerance_iff, Number.close_comm]

theorem applyBinary_equal :
    store.applyBinary .equal x y = (store.equal x y).map .truth := by
  simp only [applyBinary]
  cases store.equal x y <;> rfl

theorem applyBinary_unequal :
    store.applyBinary .unequal x y = (store.equal x y).map (fun b => .truth !b) := by
  simp only [applyBinary]
  cases store.equal x y <;> rfl

/-- A comparison fails only as one of texts, and only if a side has no display. -/
theorem equal_eq_error : store.equal x y = .error fault ↔
    fault = .tooDeep ∧ (x.isText = true ∨ y.isText = true) ∧
      (¬ store.Acyclic x ∨ ¬ store.Acyclic y) := by
  unfold equal
  split
  · next htext =>
    rw [operands_eq_error (fun _ => toText_eq_error_iff) (fun _ => toText_eq_error_iff)
      (by intro a b f h; cases h)]
    rw [Bool.or_eq_true] at htext
    simp [htext]
  · next htext =>
    have hnot : ¬ (x.isText = true ∨ y.isText = true) := by rwa [← Bool.or_eq_true]
    simp only [hnot, false_and, and_false, iff_false]
    split
    · intro h
      cases h
    · exact numbers_ne_error htext

theorem equal_number {a b : Number} :
    store.equal (.number a) (.number b) = .ok true ↔ a.Close b := by
  change Except.ok ((a.sub b).abs.lt tolerance) = .ok true ↔ _
  rw [Except.ok.injEq, Number.lt_tolerance_iff]

/-- A number that is infinite or none, or a list with so many elements that their number is
infinite. -/
def isUnbounded (store : Store) : Value → Bool
  | .number x => !x.isFinite
  | .list a => !(Number.ofNat (store.elements a).size).isFinite
  | _ => false

theorem equal_self_of_toNumber {n : Number} (htext : x.isText = false) (htruth : x.isTruth = false)
    (h : store.toNumber x = .ok n) : store.equal x x = .ok n.isFinite := by
  have hclose : (n.sub n).abs.lt tolerance = n.isFinite := by
    rw [Bool.eq_iff_iff, Number.lt_tolerance_iff, Number.close_self_iff]
  simp only [equal, htext, htruth, h, Bool.or_self, Bool.false_eq_true, if_false]
  exact congrArg Except.ok hclose

theorem equal_self (store : Store) (x : Value) : store.equal x x = .ok (!store.isUnbounded x) := by
  cases x with
  | number n =>
    rw [equal_self_of_toNumber rfl rfl rfl, isUnbounded, Bool.not_not]
  | text s =>
    have htext : store.toText (.text s) = .ok s := rfl
    simp only [equal, Value.isText, htext]
    exact congrArg Except.ok (beq_self_eq_true s)
  | truth b =>
    simp only [equal, Value.isText, Value.isTruth]
    exact congrArg Except.ok (beq_self_eq_true _)
  | list a =>
    rw [equal_self_of_toNumber rfl rfl rfl, isUnbounded, Bool.not_not]
  | nothing =>
    rw [equal_self_of_toNumber rfl rfl rfl, Number.isFinite_ofNat (Nat.zero_le _)]
    rfl

/-- What `==` says of two values it says of them in the other order, and `!=` says the opposite;
they fail together, for a list that contains itself and is compared as a text. Every value equals
itself except for a number that is infinite or none. No list is so long that its length is an
infinite number. -/
theorem equal_laws (store : Store) (x y : Value) :
    (∃ r : Except Fault Bool,
      store.applyBinary .equal x y = r.map .truth ∧
      store.applyBinary .equal y x = r.map .truth ∧
      store.applyBinary .unequal x y = r.map (fun b => .truth !b) ∧
      store.applyBinary .unequal y x = r.map (fun b => .truth !b) ∧
      ∀ fault, r = .error fault ↔ fault = .tooDeep ∧ (x.isText = true ∨ y.isText = true) ∧
        (¬ store.Acyclic x ∨ ¬ store.Acyclic y)) ∧
    (store.applyBinary .equal x x = .ok (.truth !store.isUnbounded x) ∧
      store.applyBinary .unequal x x = .ok (.truth (store.isUnbounded x))) ∧
    (∀ a, (store.elements a).size ≤ 2 ^ 64 → store.isUnbounded (.list a) = false) ∧
    ∀ a b, store.applyBinary .equal (.number a) (.number b) = .ok (.truth true) ↔ a.Close b := by
  refine ⟨⟨store.equal x y, ?_, ?_, ?_, ?_, fun fault => equal_eq_error⟩, ⟨?_, ?_⟩, ?_, ?_⟩
  · exact applyBinary_equal
  · rw [applyBinary_equal, equal_comm]
  · exact applyBinary_unequal
  · rw [applyBinary_unequal, equal_comm]
  · rw [applyBinary_equal, equal_self]
    rfl
  · rw [applyBinary_unequal, equal_self, Except.map, Bool.not_not]
  · intro a hsize
    rw [isUnbounded, Number.isFinite_ofNat hsize]
    rfl
  · intro a b
    rw [applyBinary_equal, except_map_eq_ok]
    simp [equal_number]

/-- One divided by zero is not less than itself, nor greater, nor equal to itself. -/
theorem infinity_not_equal_self :
    let infinity : Value := .number (.infinite false)
    empty.applyBinary .divide (.ofNat 1) (.ofNat 0) = .ok infinity ∧
      empty.applyBinary .lessEqual infinity infinity = .ok (.truth true) ∧
      empty.applyBinary .greaterEqual infinity infinity = .ok (.truth true) ∧
      empty.applyBinary .equal infinity infinity = .ok (.truth false) ∧
      empty.applyBinary .unequal infinity infinity = .ok (.truth true) := by
  refine ⟨?_, ?_, ?_, rfl, rfl⟩
  · decide +kernel
  · decide +kernel
  · decide +kernel

end Store
end Parlance
