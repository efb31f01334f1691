import Mathlib.Data.Finset.Card
import Mathlib.Data.Finset.Range
import Mathlib.Data.List.Forall2
import Parlance.Proofs.Run.Touching
/-!
# Displays that come to an end

The lists of a store refer to one another, so a value stands for a graph. Where no list on the way
can be reached from its own elements, the value unfolds to a finite tree, its display is that of the
tree, and the depth that a display may have is never used up; in all other cases there is no tree
and no display (`Store.toText_ends`). A display therefore does not tell lists that are shared from
copies.
-/
namespace Parlance

/-- A value whose lists hold their elements themselves. -/
inductive Tree
  | number (x : Number)
  | text (s : String)
  | truth (b : Bool)
  | nothing
  | list (items : List Tree)

namespace Tree

mutual

/-- The display of a tree. -/
def shown : Tree → String
  | number x => x.text
  | text s => s
  | truth b => truthWord b
  | nothing => "nothing"
  | list items => bracketed (shownAll items)

def shownAll : List Tree → List String
  | [] => []
  | t :: ts => t.shown :: shownAll ts

end

mutual

/-- How many lists stand inside one another. -/
def height : Tree → Nat
  | number _ | text _ | truth _ | nothing => 0
  | list items => heightAll items + 1

def heightAll : List Tree → Nat
  | [] => 0
  | t :: ts => max t.height (heightAll ts)

end

end Tree

namespace Store

variable {store : Store} {v w : Value} {vs : List Value} {t u : Tree} {ts : List Tree}
  {a b depth n : Nat} {s : String}

/-- A tree is what a value unfolds to: each list in it is replaced by its elements, unfolded in
their turn. -/
inductive Unfolds (store : Store) : Value → Tree → Prop
  | number (x : Number) : store.Unfolds (.number x) (.number x)
  | text (s : String) : store.Unfolds (.text s) (.text s)
  | truth (b : Bool) : store.Unfolds (.truth b) (.truth b)
  | nothing : store.Unfolds .nothing .nothing
  | list {a : Nat} {items : List Tree} :
      List.Forall₂ store.Unfolds (store.elements a).toList items →
        store.Unfolds (.list a) (.list items)

/-- A list can be reached from its own elements. -/
def Recurs (store : Store) (a : Nat) : Prop := ∃ w ∈ store.elements a, store.Reaches w a

/-- No list that a value leads to can be reached from its own elements. -/
def Acyclic (store : Store) (v : Value) : Prop := ∀ a, store.Reaches v a → ¬ store.Recurs a

/-! ### Displays of trees -/

theorem mapM_cons_eq_some {f : Value → Option String} {shown : List String} :
    (v :: vs).mapM f = some shown ↔
      ∃ s rest, f v = some s ∧ vs.mapM f = some rest ∧ shown = s :: rest := by
  simp only [List.mapM_cons, Option.bind_eq_bind, Option.bind_eq_some_iff, Option.pure_def,
    Option.some.injEq]
  constructor
  · rintro ⟨s, hs, rest, hrest, rfl⟩
    exact ⟨s, rest, hs, hrest, rfl⟩
  · rintro ⟨s, rest, hs, hrest, rfl⟩
    exact ⟨s, hs, rest, hrest, rfl⟩

mutual

/-- A display that may go as deep as the tree is the display of the tree. -/
theorem Unfolds.displayWithin {store : Store} {depth : Nat} :
    (t : Tree) → {v : Value} → store.Unfolds v t → t.height ≤ depth →
      store.displayWithin depth v = some t.shown
  | .number _, _, .number _, _ => by rw [Store.displayWithin, Tree.shown]
  | .text _, _, .text _, _ => by rw [Store.displayWithin, Tree.shown]
  | .truth _, _, .truth _, _ => by rw [Store.displayWithin, Tree.shown]
  | .nothing, _, .nothing, _ => by rw [Store.displayWithin, Tree.shown]
  | .list items, _, .list (a := a) h, hheight => by
    rw [Tree.height] at hheight
    obtain ⟨depth, rfl⟩ := Nat.exists_eq_add_of_le' (Nat.le_of_add_left_le hheight)
    rw [Store.displayWithin, Unfolds.mapM_displayWithin items h (Nat.le_of_add_le_add_right hheight),
      Option.map_some, Tree.shown]

theorem Unfolds.mapM_displayWithin {store : Store} {depth : Nat} :
    (ts : List Tree) → {vs : List Value} → List.Forall₂ store.Unfolds vs ts →
      Tree.heightAll ts ≤ depth → vs.mapM (store.displayWithin depth) = some (Tree.shownAll ts)
  | [], _, .nil, _ => rfl
  | t :: ts, _, .cons h hs, hheight => by
    rw [Tree.heightAll, Nat.max_le] at hheight
    apply mapM_cons_eq_some.mpr
    exact ⟨_, _, h.displayWithin t hheight.1, Unfolds.mapM_displayWithin ts hs hheight.2, rfl⟩

end

theorem exists_forall₂_unfolds {shown : List String}
    (hall : ∀ v s, store.displayWithin depth v = some s → ∃ t, store.Unfolds v t ∧ t.shown = s)
    (h : vs.mapM (store.displayWithin depth) = some shown) :
    ∃ ts, List.Forall₂ store.Unfolds vs ts ∧ Tree.shownAll ts = shown := by
  induction vs generalizing shown with
  | nil =>
    cases h
    exact ⟨[], .nil, rfl⟩
  | cons v vs ih =>
    obtain ⟨s, rest, hs, hrest, rfl⟩ := mapM_cons_eq_some.mp h
    obtain ⟨t, ht, rfl⟩ := hall v s hs
    obtain ⟨ts, hts, rfl⟩ := ih hrest
    exact ⟨t :: ts, .cons ht hts, rfl⟩

/-- What has a display unfolds to a tree with this display. -/
theorem exists_unfolds {store : Store} : (depth : Nat) → (v : Value) → (s : String) →
    store.displayWithin depth v = some s → ∃ t, store.Unfolds v t ∧ t.shown = s
  | _, .number x, s, h => by
    rw [displayWithin, Option.some.injEq] at h
    exact ⟨.number x, .number x, h⟩
  | _, .text t, s, h => by
    rw [displayWithin, Option.some.injEq] at h
    exact ⟨.text t, .text t, h⟩
  | _, .truth b, s, h => by
    rw [displayWithin, Option.some.injEq] at h
    exact ⟨.truth b, .truth b, h⟩
  | _, .nothing, s, h => by
    rw [displayWithin, Option.some.injEq] at h
    exact ⟨.nothing, .nothing, h⟩
  | 0, .list a, s, h => by cases h
  | depth + 1, .list a, s, h => by
    rw [displayWithin, Option.map_eq_some_iff] at h
    obtain ⟨shown, hshown, rfl⟩ := h
    obtain ⟨items, hitems, rfl⟩ := exists_forall₂_unfolds (exists_unfolds depth) hshown
    exact ⟨.list items, .list hitems, rfl⟩

mutual

/-- A value unfolds to one tree only. -/
theorem Unfolds.unique {store : Store} :
    (t : Tree) → {u : Tree} → {v : Value} → store.Unfolds v t → store.Unfolds v u → t = u
  | .number _, _, _, .number _, .number _ => rfl
  | .text _, _, _, .text _, .text _ => rfl
  | .truth _, _, _, .truth _, .truth _ => rfl
  | .nothing, _, _, .nothing, .nothing => rfl
  | .list items, _, _, .list h, .list h' => by rw [Unfolds.unique_all items h h']

theorem Unfolds.unique_all {store : Store} :
    (ts : List Tree) → {us : List Tree} → {vs : List Value} →
      List.Forall₂ store.Unfolds vs ts → List.Forall₂ store.Unfolds vs us → ts = us
  | [], _, _, .nil, .nil => rfl
  | t :: ts, _, _, .cons h hs, .cons h' hs' => by
    rw [Unfolds.unique t h h', Unfolds.unique_all ts hs hs']

end

/-! ### Trees of values that do not recur -/

theorem length_le_intercalate {separator : String} {items : List String} (h : s ∈ items) :
    s.length ≤ (separator.intercalate items).length := by
  induction items with
  | nil => cases h
  | cons first items ih =>
    cases items with
    | nil =>
      obtain rfl := List.mem_singleton.mp h
      rw [String.intercalate_singleton]
    | cons second items =>
      rw [String.intercalate_cons_cons, String.length_append, String.length_append]
      rcases List.mem_cons.mp h with rfl | h
      · omega
      · exact Nat.le_trans (ih h) (Nat.le_add_left _ _)

theorem Tree.shown_mem_shownAll : {ts : List Tree} → u ∈ ts → u.shown ∈ Tree.shownAll ts
  | _ :: _, .head _ => List.mem_cons_self
  | _ :: _, .tail _ h => List.mem_cons_of_mem _ (Tree.shown_mem_shownAll h)

/-- A list has a longer display than each of its elements. -/
theorem Tree.length_lt_of_mem {items : List Tree} (h : u ∈ items) :
    u.shown.length < (Tree.list items).shown.length := by
  have hinside : u.shown.length ≤ (", ".intercalate (Tree.shownAll items)).length :=
    length_le_intercalate (Tree.shown_mem_shownAll h)
  have hopen : "[".length = 1 := rfl
  rw [Tree.shown, bracketed, String.length_append, String.length_append]
  omega

theorem exists_unfolds_of_mem {items : List Tree}
    (h : List.Forall₂ store.Unfolds vs items) (hw : w ∈ vs) : ∃ u ∈ items, store.Unfolds w u := by
  induction h with
  | nil => cases hw
  | cons hvt _ ih =>
    rcases List.mem_cons.mp hw with rfl | hw
    · exact ⟨_, List.mem_cons_self, hvt⟩
    · obtain ⟨u, hu, hwu⟩ := ih hw
      exact ⟨u, List.mem_cons_of_mem _ hu, hwu⟩

/-- The elements of a list that unfolds have shorter displays than the list. -/
theorem Unfolds.of_mem (h : store.Unfolds (.list a) t) (hw : w ∈ store.elements a) :
    ∃ u, store.Unfolds w u ∧ u.shown.length < t.shown.length := by
  cases h with
  | list hitems =>
    obtain ⟨u, hu, hwu⟩ := exists_unfolds_of_mem hitems (Array.mem_toList_iff.mpr hw)
    exact ⟨u, hwu, Tree.length_lt_of_mem hu⟩

/-- No list that a value leads to has a longer display than the value. -/
theorem Unfolds.of_reaches (h : store.Unfolds v t) (ha : store.Reaches v a) :
    ∃ u, store.Unfolds (.list a) u ∧ u.shown.length ≤ t.shown.length := by
  induction ha with
  | self hv =>
    subst hv
    exact ⟨t, h, Nat.le_refl _⟩
  | element _ hb ih =>
    obtain ⟨u, hu, hle⟩ := ih
    obtain ⟨x, hx, hlt⟩ := hu.of_mem hb
    exact ⟨x, hx, Nat.le_of_lt (Nat.lt_of_lt_of_le hlt hle)⟩

/-- A list that recurs would have a display shorter than itself. -/
theorem Unfolds.acyclic (h : store.Unfolds v t) : store.Acyclic v := by
  rintro a ha ⟨w, hw, hback⟩
  obtain ⟨u, hu, -⟩ := h.of_reaches ha
  obtain ⟨x, hx, hlt⟩ := hu.of_mem hw
  obtain ⟨y, hy, hle⟩ := hx.of_reaches hback
  rw [Unfolds.unique u hu hy] at hlt
  exact Nat.not_le_of_lt hlt hle

theorem Reaches.of_mem (hw : w ∈ store.elements a) (h : store.Reaches w b) :
    store.Reaches (.list a) b := by
  induction h with
  | self h =>
    subst h
    exact .element (.self rfl) hw
  | element _ hb ih => exact ih.element hb

theorem Acyclic.of_mem (h : store.Acyclic (.list a)) (hw : w ∈ store.elements a) :
    store.Acyclic w := fun b hb => h b (.of_mem hw hb)

open Classical in
/-- The lists of the store that a value leads to. -/
noncomputable def reached (store : Store) (v : Value) : Finset Nat :=
  (Finset.range store.size).filter (store.Reaches v)

theorem card_reached_le (store : Store) (v : Value) : (store.reached v).card ≤ store.size := by
  classical
  calc (store.reached v).card ≤ (Finset.range store.size).card := Finset.card_filter_le _ _
    _ = store.size := Finset.card_range _

/-- Fewer lists remain behind each element of a list that does not recur. -/
theorem Acyclic.card_reached_lt (h : store.Acyclic (.list a)) (hw : w ∈ store.elements a) :
    (store.reached w).card < (store.reached (.list a)).card := by
  classical
  apply Finset.card_lt_card
  rw [Finset.ssubset_iff_of_subset]
  · refine ⟨a, ?_, ?_⟩
    · have ha : a < store.size := by
        by_contra hle
        rw [elements_of_le (Nat.le_of_not_lt hle)] at hw
        exact Array.not_mem_empty _ hw
      exact Finset.mem_filter.mpr ⟨Finset.mem_range.mpr ha, .self rfl⟩
    · intro hmem
      exact h a (.self rfl) ⟨w, hw, (Finset.mem_filter.mp hmem).2⟩
  · intro b hb
    obtain ⟨hlt, hb⟩ := Finset.mem_filter.mp hb
    exact Finset.mem_filter.mpr ⟨hlt, .of_mem hw hb⟩

theorem exists_forall₂_of_forall (h : ∀ w ∈ vs, ∃ t, store.Unfolds w t ∧ t.height ≤ n) :
    ∃ ts, List.Forall₂ store.Unfolds vs ts ∧ Tree.heightAll ts ≤ n := by
  induction vs with
  | nil => exact ⟨[], .nil, Nat.zero_le n⟩
  | cons v vs ih =>
    rw [List.forall_mem_cons] at h
    obtain ⟨t, ht, hheight⟩ := h.1
    obtain ⟨ts, hts, hheights⟩ := ih h.2
    exact ⟨t :: ts, .cons ht hts, Nat.max_le.mpr ⟨hheight, hheights⟩⟩

/-- A value that leads to no list that recurs unfolds to a tree, which is no higher than there are
lists behind the value. -/
theorem Acyclic.exists_unfolds (h : store.Acyclic v) :
    ∃ t, store.Unfolds v t ∧ t.height ≤ (store.reached v).card + 1 := by
  induction hn : (store.reached v).card using Nat.strong_induction_on generalizing v with
  | _ n ih =>
    subst hn
    cases v with
    | number x => exact ⟨.number x, .number x, Nat.zero_le _⟩
    | text s => exact ⟨.text s, .text s, Nat.zero_le _⟩
    | truth b => exact ⟨.truth b, .truth b, Nat.zero_le _⟩
    | nothing => exact ⟨.nothing, .nothing, Nat.zero_le _⟩
    | list a =>
      have hall : ∀ w ∈ (store.elements a).toList,
          ∃ t, store.Unfolds w t ∧ t.height ≤ (store.reached (.list a)).card := by
        intro w hw
        have hmem := Array.mem_toList_iff.mp hw
        have hlt := h.card_reached_lt hmem
        obtain ⟨t, ht, hheight⟩ := ih _ hlt (h.of_mem hmem) rfl
        exact ⟨t, ht, Nat.le_trans hheight hlt⟩
      obtain ⟨items, hitems, hheight⟩ := exists_forall₂_of_forall hall
      exact ⟨.list items, .list hitems, Nat.succ_le_succ hheight⟩

/-- The depth that a display may have is enough for every tree. -/
theorem display?_eq_some_iff : store.display? v = some s ↔ ∃ t, store.Unfolds v t ∧ t.shown = s := by
  constructor
  · exact Store.exists_unfolds _ v s
  · rintro ⟨t, ht, rfl⟩
    obtain ⟨u, hu, hheight⟩ := ht.acyclic.exists_unfolds
    rw [Unfolds.unique t ht hu]
    apply hu.displayWithin u
    exact Nat.le_trans hheight (Nat.succ_le_succ (store.card_reached_le v))

theorem toText_eq_ok_iff : store.toText v = .ok s ↔ ∃ t, store.Unfolds v t ∧ t.shown = s := by
  rw [← display?_eq_some_iff, toText]
  cases store.display? v with
  | none => simp
  | some shown => simp

theorem exists_toText_iff : (∃ s, store.toText v = .ok s) ↔ store.Acyclic v := by
  constructor
  · rintro ⟨s, hs⟩
    obtain ⟨t, ht, -⟩ := toText_eq_ok_iff.mp hs
    exact ht.acyclic
  · intro h
    obtain ⟨t, ht, -⟩ := h.exists_unfolds
    exact ⟨t.shown, toText_eq_ok_iff.mpr ⟨t, ht, rfl⟩⟩

theorem toText_eq_error_iff {fault : Fault} :
    store.toText v = .error fault ↔ fault = .tooDeep ∧ ¬ store.Acyclic v := by
  rw [← exists_toText_iff, toText]
  cases store.display? v with
  | none => simp [eq_comm]
  | some shown => simp

/-- A value has a display exactly if no list that it leads to can be reached from its own elements.
Otherwise what needs the display stops with too deep a call, and nothing has changed. The display is
that of the one tree to which the value unfolds, so whatever unfolds to the same tree, in this store
or another, with its lists shared or copied, has the same display. -/
theorem toText_ends (store : Store) (v : Value) :
    ((∃ text, store.toText v = .ok text) ↔ store.Acyclic v) ∧
    (¬ store.Acyclic v →
      Fault.tooDeep.message = "Maximum call depth exceeded" ∧
      ∀ (offset : Nat) (β : Type) (use : String → Run β) (s : State), s.store = store →
        (Run.fromStore offset (·.toText v) >>= use) s = (.error (.fault .tooDeep 0), s)) ∧
    ∀ text, store.toText v = .ok text →
      ∃ tree, store.Unfolds v tree ∧ tree.shown = text ∧
        (∀ other, store.Unfolds v other → other = tree) ∧
        ∀ (copies : Store) (w : Value), copies.Unfolds w tree → copies.toText w = .ok text := by
  refine ⟨exists_toText_iff, fun hcyclic => ⟨rfl, fun offset β use s hs => ?_⟩, fun text htext => ?_⟩
  · have hfails : s.store.toText v = .error .tooDeep := by
      rw [hs]
      exact toText_eq_error_iff.mpr ⟨rfl, hcyclic⟩
    rw [Run.bind_apply, Run.fromStore, hfails]
    rfl
  · obtain ⟨tree, htree, hshown⟩ := toText_eq_ok_iff.mp htext
    refine ⟨tree, htree, hshown, fun other hother => Unfolds.unique other hother htree, ?_⟩
    intro copies w hw
    exact toText_eq_ok_iff.mpr ⟨tree, hw, hshown⟩

example :
    Store.toText ⟨#[#[.truth true], #[.list 0, .list 0]]⟩ (.list 1)
      = Store.toText ⟨#[#[.truth true], #[.truth true], #[.list 0, .list 1]]⟩ (.list 2) := rfl

end Store
end Parlance
