import Mathlib.Data.List.Basic
import Parlance.Proofs.Except
import Parlance.Run.Evaluate
/-!
# Faults of computations on values

Computations on values fail for the sake of values: none of them looks for a name or counts
arguments.
-/
namespace Parlance

/-- The faults that binding is there to prevent. -/
def Fault.OfBinding : Fault → Prop
  | .unknownFunction _ | .argumentCount .. => True
  | _ => False

/-- The faults that name what a program calls or reads. -/
def Fault.OfName : Fault → Prop
  | .undefined _ => True
  | fault => fault.OfBinding

theorem Fault.OfBinding.ofName {fault : Fault} (h : fault.OfBinding) : fault.OfName := by
  cases fault <;> trivial

namespace Run

/-- A computation on values that does not fail for the sake of a name. -/
def Computes {α : Type} (r : Except Fault α) : Prop := ∀ fault, r = .error fault → ¬ fault.OfName

namespace Computes

variable {α β : Type}

theorem ok (a : α) : Computes (.ok a : Except Fault α) := nofun

theorem error {fault : Fault} (h : ¬ fault.OfName) : Computes (.error fault : Except Fault α) := by
  rintro _ ⟨⟩
  exact h

theorem bind {r : Except Fault α} {f : α → Except Fault β} (hr : Computes r)
    (hf : ∀ a, Computes (f a)) : Computes (r >>= f) := by
  intro fault h
  rcases except_bind_eq_error.mp h with h | ⟨a, _, h⟩
  · exact hr fault h
  · exact hf a fault h

theorem toText (store : Store) (v : Value) : Computes (store.toText v) := by
  unfold Store.toText
  split
  · exact ok _
  · exact error nofun

theorem toNumber (store : Store) (v : Value) : Computes (store.toNumber v) := by
  unfold Store.toNumber
  split
  · exact ok _
  · split
    · exact ok _
    · exact error nofun
  · exact ok _
  · exact ok _
  · exact ok _

theorem toInteger (store : Store) (v : Value) : Computes (store.toInteger v) :=
  (toNumber store v).bind fun _ => ok _

theorem textsOf (store : Store) (vs : List Value) : Computes (textsOf store vs) := by
  induction vs with
  | nil => exact ok _
  | cons v vs ih => exact (toText store v).bind fun _ => ih.bind fun _ => ok _

theorem arithmetic (store : Store) (f : Number → Number → Number) (x y : Value) :
    Computes (store.arithmetic f x y) :=
  (toNumber store x).bind fun _ => (toNumber store y).bind fun _ => ok _

theorem texts (store : Store) (f : String → String → β) (x y : Value) :
    Computes (do
      let a ← store.toText x
      let b ← store.toText y
      return f a b) :=
  (toText store x).bind fun _ => (toText store y).bind fun _ => ok _

theorem numbers (store : Store) (f : Number → Number → β) (x y : Value) :
    Computes (do
      let a ← store.toNumber x
      let b ← store.toNumber y
      return f a b) :=
  (toNumber store x).bind fun _ => (toNumber store y).bind fun _ => ok _

theorem compare (store : Store) (f : String → String → Bool) (g : Number → Number → Bool)
    (x y : Value) : Computes (store.compare f g x y) := by
  unfold Store.compare
  split
  · exact texts store (fun a b => Value.truth (f a b)) x y
  · exact numbers store (fun a b => Value.truth (g a b)) x y

theorem equal (store : Store) (x y : Value) : Computes (store.equal x y) := by
  unfold Store.equal
  split
  · exact texts store (fun a b => a == b) x y
  · split
    · exact ok _
    · exact numbers store (fun a b => (a.sub b).abs.lt tolerance) x y

theorem add (store : Store) (x y : Value) : Computes (store.add x y) := by
  unfold Store.add
  split
  · exact texts store (fun a b => Value.text (a ++ b)) x y
  · exact arithmetic store .add x y

theorem remainder (store : Store) (x y : Value) : Computes (store.remainder x y) := by
  refine (toInteger store x).bind fun a => (toInteger store y).bind fun b => ?_
  split
  · exact ok _
  · exact ok _

theorem applyBinary (store : Store) (op : BinaryOp) (x y : Value) :
    Computes (store.applyBinary op x y) := by
  cases op with
  | or | and => exact ok _
  | equal | unequal => exact (equal store x y).bind fun _ => ok _
  | less | lessEqual | greater | greaterEqual => exact compare store _ _ x y
  | add => exact add store x y
  | subtract | multiply | divide => exact arithmetic store _ x y
  | remainder => exact remainder store x y

theorem applyUnary (store : Store) (op : UnaryOp) (x : Value) :
    Computes (store.applyUnary op x) := by
  cases op with
  | not | plus => exact ok _
  | minus => exact (toNumber store x).bind fun _ => ok _

theorem addressOf (use : ListUse) (v : Value) : Computes (Store.addressOf use v) := by
  unfold Store.addressOf
  split
  · exact ok _
  · exact error nofun

theorem positionOf (store : Store) (length : Nat) (index : Value) :
    Computes (store.positionOf length index) := by
  have hrange : Computes (do
      Except.error (.outOfRange (← store.toText index) length) : Except Fault Nat) :=
    (toText store index).bind fun _ => error nofun
  refine (toInteger store index).bind fun i => ?_
  split
  · split
    · exact ok _
    · exact hrange
  · exact hrange

theorem getAt (store : Store) (target index : Value) : Computes (store.getAt target index) :=
  (addressOf _ _).bind fun _ => (positionOf store _ _).bind fun _ => ok _

theorem setAt (store : Store) (target index value : Value) :
    Computes (store.setAt target index value) :=
  (addressOf _ _).bind fun _ => (positionOf store _ _).bind fun _ => ok _

theorem append (store : Store) (target value : Value) : Computes (store.append target value) :=
  (addressOf _ _).bind fun _ => ok _

theorem without (store : Store) (shown : String) (vs : List Value) :
    Computes (store.without shown vs) := by
  induction vs with
  | nil => exact ok _
  | cons v vs ih => exact (toText store v).bind fun _ => ih.bind fun _ => ok _

theorem remove (store : Store) (target value : Value) : Computes (store.remove target value) :=
  (addressOf _ _).bind fun _ => (toText store value).bind fun _ =>
    (without store _ _).bind fun _ => ok _

theorem items (store : Store) (source : Value) : Computes (store.items source) :=
  (addressOf _ _).bind fun _ => ok _

theorem lengthOf (store : Store) (v : Value) : Computes (lengthOf store v) := by
  unfold Run.lengthOf
  split
  · exact ok _
  · exact ok _
  · exact (toNumber store v).bind fun _ => ok _

theorem rangeOf (store : Store) (first last : Value) : Computes (rangeOf store first last) := by
  refine (toInteger store first).bind fun p => (toInteger store last).bind fun q => ?_
  split
  · exact ok _
  · exact (toText store first).bind fun _ => (toText store last).bind fun _ => error nofun

end Computes

end Run
end Parlance
