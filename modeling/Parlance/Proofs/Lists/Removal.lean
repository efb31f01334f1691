import Mathlib.Data.List.Basic
import Parlance.Proofs.Files.Writing
import Parlance.Proofs.Lists.Display
import Parlance.Value.Lists
/-!
# Removal from a list

What is removed from a list are the elements that have the display of a given value, and this value
and the elements may lead to one another and to the list itself. A removal that succeeds has seen the
displays of all elements, so none of them leads to the list. If the value does, its display is longer
than those of all elements, and nothing is removed. So the displays that count stay as they are,
nothing with that of the value is left, and a second removal finds nothing to do
(`Run.removal_thorough`).
-/
namespace Parlance
namespace Store

variable {σ τ : Store} {v w : Value} {vs : List Value} {t : Tree} {a b : Nat} {s shown : String}

/-! ### When a removal succeeds -/

theorem toText_ne_ok_iff {text : String} (h : σ.toText v = .ok text) :
    σ.toText v ≠ .ok shown ↔ text ≠ shown := by
  rw [h, Ne, Except.ok.injEq]

theorem without_eq_ok_iff {kept : List Value} :
    σ.without shown vs = .ok kept ↔
      (∀ w ∈ vs, σ.Acyclic w) ∧ kept = vs.filter fun w => σ.toText w ≠ .ok shown := by
  induction vs generalizing kept with
  | nil => simp [without, eq_comm]
  | cons v vs ih =>
    rw [without, except_bind_eq_ok, List.forall_mem_cons, ← exists_toText_iff]
    constructor
    · rintro ⟨text, htext, h⟩
      obtain ⟨rest, hrest, h⟩ := except_bind_eq_ok.mp h
      obtain ⟨hall, rfl⟩ := ih.mp hrest
      cases h
      refine ⟨⟨⟨text, htext⟩, hall⟩, ?_⟩
      rw [List.filter_cons, htext]
      by_cases heq : text = shown <;> simp [heq]
    · rintro ⟨⟨⟨text, htext⟩, hall⟩, rfl⟩
      refine ⟨text, htext, except_bind_eq_ok.mpr ⟨_, ih.mpr ⟨hall, rfl⟩, ?_⟩⟩
      rw [List.filter_cons, htext]
      by_cases heq : text = shown <;> simp [heq] <;> rfl

/-- The elements of a list that have another display than a value. -/
def others (σ : Store) (a : Nat) (value : Value) : List Value :=
  (σ.elements a).toList.filter fun w => σ.toText w ≠ σ.toText value

theorem addressOf_eq_ok {use : ListUse} : addressOf use v = .ok a ↔ v = .list a := by
  cases v with
  | list b => simp [addressOf]
  | number | text | truth | nothing => simp [addressOf]

theorem remove_eq_ok_iff {target value : Value} :
    σ.remove target value = .ok τ ↔
      ∃ a, target = .list a ∧ σ.Acyclic value ∧ (∀ w ∈ σ.elements a, σ.Acyclic w) ∧
        τ = σ.update a fun _ => (σ.others a value).toArray := by
  rw [remove, except_bind_eq_ok]
  constructor
  · rintro ⟨a, ha, h⟩
    obtain ⟨shown, hshown, h⟩ := except_bind_eq_ok.mp h
    obtain ⟨kept, hkept, h⟩ := except_bind_eq_ok.mp h
    obtain ⟨hall, rfl⟩ := without_eq_ok_iff.mp hkept
    cases h
    refine ⟨a, addressOf_eq_ok.mp ha, exists_toText_iff.mp ⟨shown, hshown⟩, ?_, ?_⟩
    · exact fun w hw => hall w (Array.mem_toList_iff.mpr hw)
    · rw [others, hshown]
  · rintro ⟨a, rfl, hvalue, hall, rfl⟩
    obtain ⟨shown, hshown⟩ := exists_toText_iff.mpr hvalue
    refine ⟨a, rfl, except_bind_eq_ok.mpr ⟨shown, hshown, except_bind_eq_ok.mpr ?_⟩⟩
    refine ⟨σ.others a value, without_eq_ok_iff.mpr ⟨?_, ?_⟩, rfl⟩
    · exact fun w hw => hall w (Array.mem_toList_iff.mp hw)
    · rw [others, hshown]

theorem without_eq_error {fault : Fault} (h : σ.without shown vs = .error fault) :
    fault = .tooDeep := by
  induction vs with
  | nil => cases h
  | cons v vs ih =>
    rw [without, except_bind_eq_error] at h
    rcases h with h | ⟨text, -, h⟩
    · exact (toText_eq_error_iff.mp h).1
    · rcases except_bind_eq_error.mp h with h | ⟨rest, -, h⟩
      · exact ih h
      · cases h

/-- A removal fails if it is not from a list, or if some display that it needs has no end. -/
theorem remove_eq_error {target value : Value} {fault : Fault}
    (h : σ.remove target value = .error fault) :
    (target.kind ≠ .list ∧ fault = .notList .remove target.kind) ∨
      target.kind = .list ∧ fault = .tooDeep := by
  cases target with
  | number | text | truth | nothing =>
    cases h
    exact .inl ⟨by simp [Value.kind], rfl⟩
  | list a =>
    refine .inr ⟨rfl, ?_⟩
    rw [remove, except_bind_eq_error] at h
    rcases h with h | ⟨_, -, h⟩
    · cases h
    rcases except_bind_eq_error.mp h with h | ⟨shown, -, h⟩
    · exact (toText_eq_error_iff.mp h).1
    rcases except_bind_eq_error.mp h with h | ⟨kept, -, h⟩
    · exact without_eq_error h
    · cases h

theorem elements_update_const (σ : Store) (a : Nat) {items : Array Value}
    (h : σ.size ≤ a → items = #[]) :
    (σ.update a fun _ => items).elements a = items ∧
      ∀ b ≠ a, (σ.update a fun _ => items).elements b = σ.elements b := by
  by_cases ha : a < σ.size
  · refine ⟨?_, fun b hb => ?_⟩
    · rw [elements_update σ a a _ ha, if_pos rfl]
    · rw [elements_update σ a b _ ha, if_neg hb]
  · have hle := Nat.le_of_not_lt ha
    rw [update_of_le hle, elements_of_le hle, h hle]
    exact ⟨rfl, fun b _ => rfl⟩

theorem others_of_le (h : σ.size ≤ a) (value : Value) : σ.others a value = [] := by
  rw [others, elements_of_le h]
  rfl

/-- A change of a list depends on the elements that it has only. -/
theorem update_eq_const (σ : Store) (a : Nat) (f : Array Value → Array Value) :
    σ.update a f = σ.update a fun _ => f (σ.elements a) := by
  have hlists : σ.lists.modify a f = σ.lists.modify a fun _ => f (σ.elements a) := by
    apply Array.ext_getElem?
    intro i
    rw [Array.getElem?_modify, Array.getElem?_modify]
    split
    · next hi =>
      subst hi
      rw [elements, Array.getD_eq_getD_getElem?]
      cases σ.lists[a]? with
      | none => rfl
      | some items => rfl
    · rfl
  rw [update, update, hlists]

/-- Putting the elements of a list in place of themselves changes nothing. -/
theorem update_self (σ : Store) (a : Nat) :
    (σ.update a fun _ => (σ.elements a).toList.toArray) = σ := by
  have hlists : σ.lists.modify a id = σ.lists := by
    apply Array.ext_getElem?
    intro i
    rw [Array.getElem?_modify, Option.map_id_fun, id_eq, ite_self]
  rw [Array.toArray_toList]
  exact (update_eq_const σ a id).symm.trans (congrArg Store.mk hlists)

/-! ### Stores that differ in one list -/

/-- The second store is the first one, but for one list, which may have lost elements. -/
structure Thinned (a : Nat) (σ τ : Store) : Prop where
  elsewhere : ∀ b ≠ a, τ.elements b = σ.elements b
  mem : ∀ w ∈ τ.elements a, w ∈ σ.elements a

theorem thinned_of_remove {value : Value}
    (h : τ = σ.update a fun _ => (σ.others a value).toArray) :
    (τ.elements a).toList = σ.others a value ∧ Thinned a σ τ := by
  subst h
  have hnone : σ.size ≤ a → (σ.others a value).toArray = #[] := fun hle => by
    rw [others_of_le hle]
  obtain ⟨hself, helse⟩ := elements_update_const σ a hnone
  refine ⟨by rw [hself], helse, fun w hw => ?_⟩
  rw [hself, List.mem_toArray] at hw
  exact Array.mem_toList_iff.mp (List.mem_filter.mp hw).1

theorem Thinned.mem_of_mem (h : Thinned a σ τ) (hw : w ∈ τ.elements b) : w ∈ σ.elements b := by
  by_cases hb : b = a
  · subst hb
    exact h.mem w hw
  · rwa [← h.elsewhere b hb]

theorem Thinned.reaches (h : Thinned a σ τ) (hv : τ.Reaches v b) : σ.Reaches v b := by
  induction hv with
  | self hv => exact .self hv
  | element _ hb ih => exact ih.element (h.mem_of_mem hb)

theorem Thinned.acyclic (h : Thinned a σ τ) (hv : σ.Acyclic v) : τ.Acyclic v := by
  rintro b hb ⟨w, hw, hback⟩
  exact hv b (h.reaches hb) ⟨w, h.mem_of_mem hw, h.reaches hback⟩

mutual

/-- A value unfolds as before if the lists that it leads to have their elements. -/
theorem Unfolds.carried {σ τ : Store} : (t : Tree) → {v : Value} → σ.Unfolds v t →
    (∀ b, σ.Reaches v b → τ.elements b = σ.elements b) → τ.Unfolds v t
  | .number x, _, .number _, _ => .number x
  | .text s, _, .text _, _ => .text s
  | .truth b, _, .truth _, _ => .truth b
  | .nothing, _, .nothing, _ => .nothing
  | .list items, _, .list (a := a) h, hsame => by
    apply Unfolds.list
    rw [hsame a (.self rfl)]
    apply Unfolds.carried_all items h
    intro w hw b hb
    exact hsame b (.of_mem (Array.mem_toList_iff.mp hw) hb)

theorem Unfolds.carried_all {σ τ : Store} : (ts : List Tree) → {vs : List Value} →
    List.Forall₂ σ.Unfolds vs ts →
      (∀ w ∈ vs, ∀ b, σ.Reaches w b → τ.elements b = σ.elements b) →
        List.Forall₂ τ.Unfolds vs ts
  | [], _, .nil, _ => .nil
  | t :: ts, _, .cons h hs, hsame => by
    rw [List.forall_mem_cons] at hsame
    exact .cons (Unfolds.carried t h hsame.1) (Unfolds.carried_all ts hs hsame.2)

end

/-- What does not lead to the list has its old display. -/
theorem Thinned.toText_eq (h : Thinned a σ τ) (hv : ¬ σ.Reaches v a) (hs : σ.toText v = .ok s) :
    τ.toText v = .ok s := by
  obtain ⟨t, ht, hshown⟩ := toText_eq_ok_iff.mp hs
  refine toText_eq_ok_iff.mpr ⟨t, ht.carried t fun b hb => h.elsewhere b ?_, hshown⟩
  rintro rfl
  exact hv hb

theorem Acyclic.not_reaches (h : σ.Acyclic w) (hw : w ∈ σ.elements a) : ¬ σ.Reaches w a :=
  fun hback => h a hback ⟨w, hw, hback⟩

/-- The display of a value that leads to a list is longer than those of the elements. -/
theorem length_lt_of_reaches {text : String} (hs : σ.toText v = .ok s) (hv : σ.Reaches v a)
    (hw : w ∈ σ.elements a) (htext : σ.toText w = .ok text) : text.length < s.length := by
  obtain ⟨t, ht, rfl⟩ := toText_eq_ok_iff.mp hs
  obtain ⟨x, hx, rfl⟩ := toText_eq_ok_iff.mp htext
  obtain ⟨u, hu, hle⟩ := ht.of_reaches hv
  obtain ⟨y, hy, hlt⟩ := hu.of_mem hw
  rw [Unfolds.unique x hx hy]
  exact Nat.lt_of_lt_of_le hlt hle

/-! ### After a removal -/

theorem others_of_forall_ne {value : Value}
    (h : ∀ w ∈ σ.elements a, σ.toText w ≠ σ.toText value) :
    σ.others a value = (σ.elements a).toList := by
  apply List.filter_eq_self.mpr
  intro w hw
  exact decide_eq_true (h w (Array.mem_toList_iff.mp hw))

/-- The display of the value is the same after the removal: if it shows the list, it is longer than
those of the elements, so that none of them is removed. -/
theorem toText_removed {value : Value} (hvalue : σ.Acyclic value)
    (hall : ∀ w ∈ σ.elements a, σ.Acyclic w)
    (hτ : τ = σ.update a fun _ => (σ.others a value).toArray) : τ.toText value = σ.toText value := by
  obtain ⟨shown, hshown⟩ := exists_toText_iff.mpr hvalue
  by_cases hreach : σ.Reaches value a
  · have hnone : σ.others a value = (σ.elements a).toList := by
      apply others_of_forall_ne
      intro w hw
      obtain ⟨text, htext⟩ := exists_toText_iff.mpr (hall w hw)
      rw [hshown, toText_ne_ok_iff htext]
      rintro rfl
      exact Nat.lt_irrefl _ (length_lt_of_reaches hshown hreach hw htext)
    rw [hτ, hnone, update_self]
  · rw [hshown]
    exact (thinned_of_remove hτ).2.toText_eq hreach hshown

/-- Nothing that is left in the list has the display of the value. -/
theorem toText_ne_of_removed {value : Value} (hvalue : σ.Acyclic value)
    (hall : ∀ w ∈ σ.elements a, σ.Acyclic w)
    (hτ : τ = σ.update a fun _ => (σ.others a value).toArray) (hw : w ∈ τ.elements a) :
    τ.toText w ≠ τ.toText value := by
  obtain ⟨hkept, hthin⟩ := thinned_of_remove hτ
  have hold : w ∈ σ.elements a := hthin.mem w hw
  obtain ⟨text, htext⟩ := exists_toText_iff.mpr (hall w hold)
  rw [← Array.mem_toList_iff, hkept, others, List.mem_filter, decide_eq_true_eq] at hw
  rw [toText_removed hvalue hall hτ, hthin.toText_eq ((hall w hold).not_reaches hold) htext,
    ← htext]
  exact hw.2

/-- A second removal finds all displays as they were, and nothing to remove. -/
theorem remove_removed {value : Value} (hvalue : σ.Acyclic value)
    (hall : ∀ w ∈ σ.elements a, σ.Acyclic w)
    (hτ : τ = σ.update a fun _ => (σ.others a value).toArray) :
    τ.remove (.list a) value = .ok τ := by
  have hthin := (thinned_of_remove hτ).2
  refine remove_eq_ok_iff.mpr ⟨a, rfl, hthin.acyclic hvalue, ?_, ?_⟩
  · exact fun w hw => hthin.acyclic (hall w (hthin.mem w hw))
  · rw [others_of_forall_ne fun w hw => toText_ne_of_removed hvalue hall hτ hw, update_self]

end Store

namespace Run

open Store

theorem changeStore_eq_ok {offset : Nat} {f : Store → Except Fault Store} {s s' : State} :
    changeStore offset f s = (.ok (), s') ↔
      ∃ store, f s.store = .ok store ∧ s' = { s with store := store } := by
  unfold changeStore
  cases f s.store with
  | ok store => simp [eq_comm]
  | error fault => simp [fail, stop]

theorem changeStore_eq_error {offset : Nat} {f : Store → Except Fault Store} {s s' : State}
    {e : Stop} :
    changeStore offset f s = (.error e, s') ↔
      ∃ fault, f s.store = .error fault ∧ e = .fault fault (fault.place offset) ∧ s' = s := by
  unfold changeStore
  cases f s.store with
  | ok store => simp
  | error fault => simp [fail, stop, eq_comm]

theorem remove_succeeds_iff {target value : Value} {offset : Nat} {s s' : State} :
    changeStore offset (·.remove target value) s = (.ok (), s') ↔
      ∃ a, target = .list a ∧ s.store.Acyclic value ∧ (∀ w ∈ s.store.elements a, s.store.Acyclic w) ∧
        s' = { s with store := s.store.update a fun _ => (s.store.others a value).toArray } := by
  rw [changeStore_eq_ok]
  constructor
  · rintro ⟨store, hstore, rfl⟩
    obtain ⟨a, ha, hvalue, hall, rfl⟩ := remove_eq_ok_iff.mp hstore
    exact ⟨a, ha, hvalue, hall, rfl⟩
  · rintro ⟨a, ha, hvalue, hall, rfl⟩
    exact ⟨_, remove_eq_ok_iff.mpr ⟨a, ha, hvalue, hall, rfl⟩, rfl⟩

/-- A removal succeeds exactly if it is from a list and the value and all elements have displays. It
leaves the elements that have another display than the value, in their order, and every other list
as it is. With the displays as they are then, nothing in the list has that of the value any more,
and the same removal changes nothing. A removal that fails changes nothing. -/
theorem removal_thorough (target value : Value) (offset : Nat) (s : State) :
    let removal := changeStore offset (·.remove target value)
    ((∃ after, removal s = (.ok (), after)) ↔
      ∃ a, target = .list a ∧ s.store.Acyclic value ∧
        ∀ w ∈ s.store.elements a, s.store.Acyclic w) ∧
    (∀ after a, removal s = (.ok (), after) → target = .list a →
      (after.store.elements a).toList
          = (s.store.elements a).toList.filter (fun w => s.store.toText w ≠ s.store.toText value) ∧
        (∀ b ≠ a, after.store.elements b = s.store.elements b) ∧
        (∀ w ∈ after.store.elements a, after.store.toText w ≠ after.store.toText value) ∧
        removal after = (.ok (), after)) ∧
    ∀ after e, removal s = (.error e, after) →
      after = s ∧
        (target.kind ≠ .list ∧ e = .fault (.notList .remove target.kind) offset ∨
          target.kind = .list ∧ e = .fault .tooDeep 0) := by
  intro removal
  refine ⟨⟨?_, ?_⟩, ?_, ?_⟩
  · rintro ⟨after, h⟩
    obtain ⟨a, ha, hvalue, hall, -⟩ := remove_succeeds_iff.mp h
    exact ⟨a, ha, hvalue, hall⟩
  · rintro ⟨a, ha, hvalue, hall⟩
    exact ⟨_, remove_succeeds_iff.mpr ⟨a, ha, hvalue, hall, rfl⟩⟩
  · rintro after a h rfl
    obtain ⟨b, hb, hvalue, hall, hafter⟩ := remove_succeeds_iff.mp h
    cases hb
    have hstore : after.store
        = s.store.update a fun _ => (s.store.others a value).toArray := by rw [hafter]
    obtain ⟨hkept, hthin⟩ := thinned_of_remove hstore
    refine ⟨hkept, hthin.elsewhere, fun w hw => toText_ne_of_removed hvalue hall hstore hw, ?_⟩
    exact changeStore_eq_ok.mpr ⟨after.store, remove_removed hvalue hall hstore, rfl⟩
  · intro after e h
    obtain ⟨fault, hfault, rfl, rfl⟩ := changeStore_eq_error.mp h
    obtain ⟨hkind, rfl⟩ | ⟨hkind, rfl⟩ := remove_eq_error hfault
    · exact ⟨rfl, .inl ⟨hkind, rfl⟩⟩
    · exact ⟨rfl, .inr ⟨hkind, rfl⟩⟩

example :
    Store.remove ⟨#[#[.text "[]", .list 1, .truth true, .list 1], #[]]⟩ (.list 0) (.list 1)
      = .ok ⟨#[#[.truth true], #[]]⟩ := rfl

end Run
end Parlance
