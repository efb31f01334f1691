import Mathlib
import Parlance.Proofs.Lists.Sequences
import Parlance.Proofs.Numbers.Decimals
import Parlance.Proofs.Numbers.Numerals
import Parlance.Proofs.Run.Sessions
/-!
# Texts where numbers are needed

A text counts as the number nearest to the numeral it holds, or as zero if it holds none. The one
exception is a numeral with a separator character among the blanks around it, which cannot be read;
it makes everything break down that needs the number, and nothing else does
(`Store.coercion_breaks_iff`).
-/
namespace Parlance
open Text

/-- A blank that may stand around a numeral that is read. -/
def Text.isPadding (c : Char) : Bool := isBlank c && !isSeparator c

/-- A text that holds a numeral between blanks, not all of which may stand there. -/
def Value.Unreadable (v : Value) : Prop :=
  ∃ s n d, v = .text s ∧ Padded isBlank s.toList n d ∧ ¬ Padded isPadding s.toList n d

/-- What a text comes to where a number is needed. -/
inductive ReadsText (s : String) : Except Fault Number → Prop
  | numeral {negative : Bool} {d : Decimal} {x : Number} :
      Padded isPadding s.toList negative d → Number.Nearest negative (d.value * unit) x →
        ReadsText s (.ok x)
  | other : (∀ negative d, ¬ Padded isBlank s.toList negative d) → ReadsText s (.ok (.zero false))
  | separator {negative : Bool} {d : Decimal} :
      Padded isBlank s.toList negative d → ¬ Padded isPadding s.toList negative d →
        ReadsText s (.error (.breakdown .numeral))

/-- The operators that take both operands as numbers whatever they are. -/
def BinaryOp.IsArithmetic (op : BinaryOp) : Prop :=
  op = .subtract ∨ op = .multiply ∨ op = .divide ∨ op = .remainder

section Readings

variable {cs : List Char} {negative : Bool} {d : Decimal}

theorem padded_isPadding_iff :
    Padded isPadding cs negative d ↔ Padded isBlank cs negative d ∧ cs.any isSeparator = false := by
  constructor
  · intro h
    -- a separator is a blank, so it does not stand inside the numeral
    obtain ⟨hfront, h, hback⟩ := h
    simp only [isPadding, Bool.and_eq_true, Bool.not_eq_true'] at hfront hback
    refine ⟨.mk (fun c hc => (hfront c hc).1) h fun c hc => (hback c hc).1, ?_⟩
    rw [List.any_eq_false]
    simp only [List.forall_mem_append, Bool.not_eq_true]
    refine ⟨⟨fun c hc => (hfront c hc).2, fun c hc => ?_⟩, fun c hc => (hback c hc).2⟩
    rw [← Bool.not_eq_true]
    intro hseparator
    have hblank := isBlank_of_isSeparator hseparator
    rw [h.isBlank_eq_false c hc] at hblank
    cases hblank
  · intro h
    obtain ⟨⟨hfront, h, hback⟩, hany⟩ := h
    rw [List.any_eq_false] at hany
    simp only [List.forall_mem_append, Bool.not_eq_true] at hany
    refine .mk (fun c hc => ?_) h fun c hc => ?_
    · simp [isPadding, hfront c hc, hany.1.1 c hc]
    · simp [isPadding, hback c hc, hany.2 c hc]

theorem readNumber_of_padded (h : Padded isBlank cs negative d) :
    readNumber cs = if cs.any isSeparator then .unreadable else .number (d.toNumber negative) := by
  rw [padded_iff_trim, ← readNumeral?_eq_some] at h
  simp only [readNumber, h]

theorem readNumber_of_not_padded (h : ∀ negative d, ¬ Padded isBlank cs negative d) :
    readNumber cs = .number (.zero false) := by
  cases hread : readNumeral? (trim cs) with
  | none => simp only [readNumber, hread]
  | some found =>
    obtain ⟨negative, d⟩ := found
    exact absurd (padded_iff_trim.mpr (readNumeral?_eq_some.mp hread)) (h negative d)

theorem ReadsText.unique {s : String} {r r' : Except Fault Number} (h : ReadsText s r)
    (h' : ReadsText s r') : r = r' := by
  cases h with
  | numeral hpadded hx =>
    have hblank := (padded_isPadding_iff.mp hpadded).1
    cases h' with
    | numeral hpadded' hx' =>
      obtain ⟨rfl, rfl⟩ := hblank.unique (padded_isPadding_iff.mp hpadded').1
      rw [hx.unique hx']
    | other hnone => exact absurd hblank (hnone _ _)
    | separator hblank' hpadding =>
      obtain ⟨rfl, rfl⟩ := hblank.unique hblank'
      exact absurd hpadded hpadding
  | other hnone =>
    cases h' with
    | numeral hpadded => exact absurd (padded_isPadding_iff.mp hpadded).1 (hnone _ _)
    | other => rfl
    | separator hblank => exact absurd hblank (hnone _ _)
  | separator hblank hpadding =>
    cases h' with
    | numeral hpadded =>
      obtain ⟨rfl, rfl⟩ := hblank.unique (padded_isPadding_iff.mp hpadded).1
      exact absurd hpadded hpadding
    | other hnone => exact absurd hblank (hnone _ _)
    | separator => rfl

end Readings

namespace Store

variable {store : Store} {v x y target index : Value} {fault : Fault} {s : String}

/-! ### Numbers of values -/

theorem readsText_toNumber (store : Store) (s : String) :
    ReadsText s (store.toNumber (.text s)) := by
  by_cases hblank : ∃ negative d, Padded isBlank s.toList negative d
  · obtain ⟨negative, d, h⟩ := hblank
    simp only [toNumber, readNumber_of_padded h]
    split
    · next hread =>
      split at hread
      · cases hread
      · next hany =>
        cases hread
        refine .numeral (padded_isPadding_iff.mpr ⟨h, ?_⟩) (d.nearest_toNumber negative)
        rwa [Bool.not_eq_true] at hany
    · next hread =>
      split at hread
      · next hany =>
        refine .separator h fun hpadded => ?_
        rw [(padded_isPadding_iff.mp hpadded).2] at hany
        cases hany
      · cases hread
  · rw [not_exists] at hblank
    simp only [not_exists] at hblank
    simp only [toNumber, readNumber_of_not_padded hblank]
    exact .other hblank

/-- Of the readings of a text there is one only. -/
theorem toNumber_text_iff {r : Except Fault Number} :
    store.toNumber (.text s) = r ↔ ReadsText s r := by
  constructor
  · rintro rfl
    exact readsText_toNumber store s
  · intro h
    exact (readsText_toNumber store s).unique h

/-- Only an unreadable text has no number. -/
theorem toNumber_eq_error :
    store.toNumber v = .error fault ↔ fault = .breakdown .numeral ∧ v.Unreadable := by
  cases v with
  | number | truth | list | nothing => simp [toNumber, Value.Unreadable]
  | text s =>
    have hread := readsText_toNumber store s
    constructor
    · intro h
      rw [h] at hread
      cases hread with
      | separator hblank hpadding => exact ⟨rfl, s, _, _, rfl, hblank, hpadding⟩
    · intro h
      obtain ⟨rfl, _, negative, d, ⟨⟩, hblank, hpadding⟩ := h
      generalize store.toNumber (.text s) = outcome at *
      cases hread with
      | separator => rfl
      | other hnone => exact absurd hblank (hnone negative d)
      | numeral hpadded =>
        obtain ⟨rfl, rfl⟩ := (padded_isPadding_iff.mp hpadded).1.unique hblank
        exact absurd hpadded hpadding

theorem not_unreadable_of_isText (h : v.isText = false) : ¬ v.Unreadable := by
  intro hv
  obtain ⟨s, _, _, rfl, -⟩ := hv
  cases h

theorem exists_toNumber_iff : (∃ n, store.toNumber v = .ok n) ↔ ¬ v.Unreadable := by
  cases h : store.toNumber v with
  | ok n =>
    simp only [Except.ok.injEq, exists_eq', true_iff]
    intro hv
    rw [toNumber_eq_error.mpr ⟨rfl, hv⟩] at h
    cases h
  | error fault => simp [(toNumber_eq_error.mp h).2]

theorem exists_toInteger_iff : (∃ i, store.toInteger v = .ok i) ↔ ¬ v.Unreadable := by
  have hnumber : (∃ n, store.toNumber v = .ok n) ↔ ¬ v.Unreadable := exists_toNumber_iff
  rw [← hnumber]
  simp only [toInteger_eq_ok]
  constructor
  · intro h
    obtain ⟨_, n, h, -⟩ := h
    exact ⟨n, h⟩
  · intro h
    obtain ⟨n, h⟩ := h
    exact ⟨_, n, h, rfl⟩

/-! ### Operators -/

/-- Two operands are taken one after the other, and each may be the one that fails. -/
theorem operands_eq_error {α β : Type} {p q : Except Fault α} {k : α → α → Except Fault β}
    {e : Fault} {P Q : Prop} (hp : ∀ f, p = .error f ↔ f = e ∧ P)
    (hq : ∀ f, q = .error f ↔ f = e ∧ Q) (hk : ∀ a b f, k a b ≠ .error f) :
    (p >>= fun a => q >>= k a) = .error fault ↔ fault = e ∧ (P ∨ Q) := by
  simp only [except_bind_eq_error, hp, hq, hk, and_false, exists_false, or_false]
  cases hr : p with
  | ok a =>
    have hP : ¬ P := fun hP => by
      rw [(hp e).mpr ⟨rfl, hP⟩] at hr
      cases hr
    simp [hP]
  | error f => simp [((hp f).mp hr).2]

variable {op : BinaryOp} {cause : Breakdown}

/-- Two operands that are taken as numbers fail together if one of them is unreadable. -/
theorem numbers_eq_error {β : Type} {k : Number → Number → β} :
    (do
      let a ← store.toNumber x
      let b ← store.toNumber y
      return k a b) = .error fault ↔
      fault = .breakdown .numeral ∧ (x.Unreadable ∨ y.Unreadable) := by
  refine operands_eq_error (fun _ => toNumber_eq_error) (fun _ => toNumber_eq_error) ?_
  intro a b f h
  cases h

theorem remainder_eq_error :
    store.remainder x y = .error fault ↔
      fault = .breakdown .numeral ∧ (x.Unreadable ∨ y.Unreadable) := by
  refine operands_eq_error (fun _ => toInteger_eq_error.trans toNumber_eq_error)
    (fun _ => toInteger_eq_error.trans toNumber_eq_error) ?_
  intro a b f h
  split at h
  · cases h
  · cases h

/-- Operands that are taken as texts do not break down. -/
theorem texts_ne_breakdown {β : Type} {k : String → String → β} :
    (do
      let a ← store.toText x
      let b ← store.toText y
      return k a b) ≠ .error (.breakdown cause) := by
  intro h
  rcases except_bind_eq_error.mp h with h | ⟨a, -, h⟩
  · cases (toText_eq_error_iff.mp h).1
  · rw [except_bind_pure_eq_error] at h
    cases (toText_eq_error_iff.mp h).1

/-- Numbers are taken of operands only if neither is a text. -/
theorem numbers_ne_error {β : Type} {k : Number → Number → β}
    (h : ¬ (x.isText || y.isText) = true) :
    (do
      let a ← store.toNumber x
      let b ← store.toNumber y
      return k a b) ≠ .error fault := by
  rw [Bool.not_eq_true, Bool.or_eq_false_iff] at h
  intro herror
  rcases (numbers_eq_error.mp herror).2 with hx | hy
  · exact not_unreadable_of_isText h.1 hx
  · exact not_unreadable_of_isText h.2 hy

theorem add_ne_breakdown : store.add x y ≠ .error (.breakdown cause) := by
  unfold add
  split
  · exact texts_ne_breakdown
  · next htext => exact numbers_ne_error htext

theorem compare_ne_breakdown {texts : String → String → Bool} {numbers : Number → Number → Bool} :
    store.compare texts numbers x y ≠ .error (.breakdown cause) := by
  unfold compare
  split
  · exact texts_ne_breakdown
  · next htext => exact numbers_ne_error htext

theorem equal_ne_breakdown : store.equal x y ≠ .error (.breakdown cause) := by
  unfold equal
  split
  · exact texts_ne_breakdown
  · next htext =>
    split
    · intro h
      cases h
    · exact numbers_ne_error htext

theorem applyBinary_eq_breakdown :
    store.applyBinary op x y = .error (.breakdown cause) ↔
      cause = .numeral ∧ op.IsArithmetic ∧ (x.Unreadable ∨ y.Unreadable) := by
  cases op with
  | or | and => simp [applyBinary, BinaryOp.IsArithmetic, pure, Except.pure]
  | add => simp [applyBinary, BinaryOp.IsArithmetic, add_ne_breakdown]
  | less | lessEqual | greater | greaterEqual =>
    simp [applyBinary, BinaryOp.IsArithmetic, compare_ne_breakdown]
  | equal | unequal =>
    simp only [applyBinary, except_bind_pure_eq_error, equal_ne_breakdown]
    simp [BinaryOp.IsArithmetic]
  | subtract | multiply | divide =>
    simp only [applyBinary, arithmetic, numbers_eq_error]
    simp [BinaryOp.IsArithmetic]
  | remainder => simp [applyBinary, BinaryOp.IsArithmetic, remainder_eq_error]

theorem applyUnary_eq_error {op : UnaryOp} :
    store.applyUnary op x = .error fault ↔
      fault = .breakdown .numeral ∧ op = .minus ∧ x.Unreadable := by
  cases op with
  | not | plus => simp [applyUnary, pure, Except.pure]
  | minus => simp only [applyUnary, except_bind_pure_eq_error, toNumber_eq_error, true_and]

/-! ### Indices -/

theorem positionOf_eq_breakdown {length : Nat} :
    store.positionOf length index = .error (.breakdown cause) ↔
      cause = .numeral ∧ index.Unreadable := by
  constructor
  · intro h
    rcases positionOf_eq_error h with h | ⟨_, _, _, ⟨_, _, h⟩ | ⟨_, h⟩⟩
    · simpa using toNumber_eq_error.mp h
    · cases h
    · cases h
  · intro h
    obtain ⟨rfl, h⟩ := h
    rw [positionOf, except_bind_eq_error]
    exact .inl (toInteger_eq_error.mpr (toNumber_eq_error.mpr ⟨rfl, h⟩))

/-- An index that is used on a target breaks down if it is unreadable and the target is a list. -/
theorem index_eq_breakdown {α : Type} {use : ListUse} {length : Nat → Nat} {f : Nat → Nat → α} :
    (do
        let a ← addressOf use target
        let n ← store.positionOf (length a) index
        return f a n) = .error (.breakdown cause) ↔
      cause = .numeral ∧ target.kind = .list ∧ index.Unreadable := by
  cases target with
  | list a =>
    change (do return f a (← store.positionOf (length a) index)) = .error _ ↔ _
    rw [except_bind_pure_eq_error, positionOf_eq_breakdown]
    simp [Value.kind]
  | number | text | truth | nothing =>
    simp only [addressOf, except_bind_eq_error]
    simp [Value.kind]

theorem getAt_eq_breakdown :
    store.getAt target index = .error (.breakdown cause) ↔
      cause = .numeral ∧ target.kind = .list ∧ index.Unreadable :=
  index_eq_breakdown

theorem setAt_eq_breakdown :
    store.setAt target index v = .error (.breakdown cause) ↔
      cause = .numeral ∧ target.kind = .list ∧ index.Unreadable :=
  index_eq_breakdown

/-- A text counts as the number nearest to the numeral that it holds between blanks, or else as
zero, unless it is unreadable; a value that is not has a number, and an integer for a number of
repetitions. What breaks down over an unreadable value is subtraction, multiplication, division,
the remainder and the change of sign, and its use as an index into a list. No sum, no comparison and
no other operator breaks down. -/
theorem coercion_breaks_iff (store : Store) (x y target : Value) :
    (∀ s r, store.toNumber (.text s) = r ↔ ReadsText s r) ∧
    ((∃ n, store.toNumber x = .ok n) ↔ ¬ x.Unreadable) ∧
    ((∃ i, store.toInteger x = .ok i) ↔ ¬ x.Unreadable) ∧
    (∀ op cause, store.applyBinary op x y = .error (.breakdown cause) ↔
      cause = .numeral ∧ op.IsArithmetic ∧ (x.Unreadable ∨ y.Unreadable)) ∧
    (∀ op fault, store.applyUnary op x = .error fault ↔
      fault = .breakdown .numeral ∧ op = .minus ∧ x.Unreadable) ∧
    (∀ cause, store.getAt target x = .error (.breakdown cause) ↔
      cause = .numeral ∧ target.kind = .list ∧ x.Unreadable) ∧
    (∀ cause, store.setAt target x y = .error (.breakdown cause) ↔
      cause = .numeral ∧ target.kind = .list ∧ x.Unreadable) := by
  refine ⟨fun s r => toNumber_text_iff, exists_toNumber_iff, exists_toInteger_iff, ?_, ?_, ?_, ?_⟩
  · exact fun op cause => applyBinary_eq_breakdown
  · exact fun op fault => applyUnary_eq_error
  · exact fun cause => getAt_eq_breakdown
  · exact fun cause => setAt_eq_breakdown

end Store

namespace Session

/-- A difference of two texts, the first of which has a separator before its numeral. -/
def separatorSource : List Char := "say \"\x1c1\" - \"1\".".toList

def separated : Program :=
  ⟨[], [.say (.binary .subtract (.text "\x1c1" 4) (.text "1" 11) 4) 0]⟩

/-- A numeral after a separator has no number, and a program that subtracts from it ends for a cause
of which no report is made. -/
theorem separator_breaks_down :
    Padded isBlank "\x1c1".toList false ⟨1, 0⟩ ∧
      Store.empty.toNumber (.text "\x1c1") = .error (.breakdown .numeral) ∧
      (blank.runSource .plain separatorSource).outcome
        = .failed (.run (.breakdown .numeral) 0) := by
  have hpadded : Padded isBlank "\x1c1".toList false ⟨1, 0⟩ :=
    padded_iff_trim.mpr (readNumeral?_eq_some.mp (by decide))
  have hread : Source.program blank.limits.nesting separatorSource = .ok separated := by cbv
  refine ⟨hpadded, rfl, ?_⟩
  rw [runSource, hread]
  rfl

end Session
end Parlance
