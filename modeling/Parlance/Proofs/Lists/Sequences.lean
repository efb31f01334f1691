import Mathlib.Logic.Function.Basic
import Parlance.Diagnostic
import Parlance.Proofs.Lists.Removal
/-!
# Lists as shared sequences

A store of lists is a table of sequences by address, and whoever holds an address shares the
sequence. Each operation on a list does to one of them what it does to a sequence and leaves the
others alone, or it fails and leaves all of them alone; what an operation has given back, the
elements for a loop among it, is not touched by anything that is done later
(`ListOperation.performAll_refines`).
-/
namespace Parlance

/-- An operation on a list, with the values it is given. -/
inductive ListOperation
  | get (target index : Value)
  | set (target index value : Value)
  | append (target value : Value)
  | remove (target value : Value)
  | items (target : Value)

namespace ListOperation

/-- What an operation gives back. -/
inductive Answer
  | element (v : Value)
  | done
  | snapshot (items : List Value)
  deriving DecidableEq

/-- The element that has been read. -/
def Answer.value : Answer → Value
  | element v => v
  | done | snapshot _ => .nothing

/-- The elements that a loop goes through. -/
def Answer.values : Answer → List Value
  | snapshot vs => vs
  | done | element _ => []

/-- The value that ought to be a list. -/
def target : ListOperation → Value
  | get target _ | set target _ _ | append target _ | remove target _ | items target => target

/-- What the list is needed for. -/
def use : ListOperation → ListUse
  | get .. => .indexing
  | set .. => .assignment
  | append .. => .append
  | remove .. => .remove
  | items .. => .forEach

/-- The index, for an operation that has one. -/
def index? : ListOperation → Option Value
  | get _ index | set _ index _ => some index
  | append .. | remove .. | items .. => none

/-- The part of a run that an index expression, an assignment to an element, one of the statements
append and remove, or the beginning of a loop over a list comes to when its operands have been
evaluated. -/
def perform (offset : Nat) : ListOperation → Run Answer
  | get target index => do
    let v ← Run.fromStore offset (·.getAt target index)
    return .element v
  | set target index value => do
    Run.changeStore offset (·.setAt target index value)
    return .done
  | append target value => do
    Run.changeStore offset (·.append target value)
    return .done
  | remove target value => do
    Run.changeStore offset (·.remove target value)
    return .done
  | items target => do
    let vs ← Run.fromStore offset (·.items target)
    return .snapshot vs

/-- Performs operations, each at its offset, one after another, also after one that fails. -/
def performAll (s : State) : List (Nat × ListOperation) → List (Except Stop Answer) × State
  | [] => ([], s)
  | (offset, op) :: ops =>
    let (outcome, after) := op.perform offset s
    let (outcomes, last) := performAll after ops
    (outcome :: outcomes, last)

end ListOperation

/-- The elements of the lists, by address. -/
def Store.sequences (σ : Store) (a : Nat) : List Value := (σ.elements a).toList

/-- The number, rounded down, is a position in a sequence of the given length. -/
def Number.Within (x : Number) (length : Nat) : Prop :=
  ∃ i, x.floor? = some i ∧ 0 ≤ i ∧ i < length

/-! ### Positions -/

namespace Store

variable {σ τ : Store} {target index value v : Value} {fault : Fault} {a n length : Nat}

theorem toInteger_eq_ok {i : Option Int} :
    σ.toInteger v = .ok i ↔ ∃ x, σ.toNumber v = .ok x ∧ x.floor? = i := by
  rw [toInteger, except_bind_eq_ok]
  simp only [pure, Except.pure, Except.ok.injEq]

theorem toInteger_eq_error : σ.toInteger v = .error fault ↔ σ.toNumber v = .error fault := by
  rw [toInteger, except_bind_eq_error]
  simp [pure, Except.pure]

theorem positionOf_eq_ok :
    σ.positionOf length index = .ok n ↔
      ∃ x, σ.toNumber index = .ok x ∧ x.floor? = some (n : Int) ∧ n < length := by
  rw [positionOf, except_bind_eq_ok]
  constructor
  · rintro ⟨i, hi, h⟩
    obtain ⟨x, hx, hfloor⟩ := toInteger_eq_ok.mp hi
    cases i with
    | none =>
      obtain ⟨shown, -, h⟩ := except_bind_eq_ok.mp h
      cases h
    | some i =>
      simp only at h
      split at h
      · next hrange =>
        cases h
        refine ⟨x, hx, ?_, ?_⟩
        · rw [hfloor, Int.toNat_of_nonneg hrange.1]
        · omega
      · obtain ⟨shown, -, h⟩ := except_bind_eq_ok.mp h
        cases h
  · rintro ⟨x, hx, hfloor, hn⟩
    refine ⟨some n, toInteger_eq_ok.mpr ⟨x, hx, hfloor⟩, ?_⟩
    have hrange : 0 ≤ (n : Int) ∧ (n : Int) < length := by omega
    simp only [if_pos hrange]
    rfl

theorem positionOf_eq_error (h : σ.positionOf length index = .error fault) :
    σ.toNumber index = .error fault ∨
      ∃ x, σ.toNumber index = .ok x ∧ ¬ x.Within length ∧
        ((∃ shown, σ.toText index = .ok shown ∧ fault = .outOfRange shown length) ∨
          ¬ σ.Acyclic index ∧ fault = .tooDeep) := by
  rw [positionOf, except_bind_eq_error] at h
  rcases h with h | ⟨i, hi, h⟩
  · exact .inl (toInteger_eq_error.mp h)
  obtain ⟨x, hx, hfloor⟩ := toInteger_eq_ok.mp hi
  refine .inr ⟨x, hx, ?_⟩
  -- whatever the reason, the display of the index is asked for
  have hshow : ∀ r : Except Fault Nat,
      (do Except.error (.outOfRange (← σ.toText index) length)) = r → r = .error fault →
        (∃ shown, σ.toText index = .ok shown ∧ fault = .outOfRange shown length) ∨
          ¬ σ.Acyclic index ∧ fault = .tooDeep := by
    rintro _ rfl hr
    rcases except_bind_eq_error.mp hr with hr | ⟨shown, hshown, hr⟩
    · exact .inr (toText_eq_error_iff.mp hr).symm
    · cases hr
      exact .inl ⟨shown, hshown, rfl⟩
  cases i with
  | none =>
    refine ⟨?_, hshow _ rfl h⟩
    rintro ⟨i, hi, -⟩
    rw [hfloor] at hi
    cases hi
  | some i =>
    simp only at h
    split at h
    · cases h
    · next hrange =>
      refine ⟨?_, hshow _ rfl h⟩
      rintro ⟨j, hj, hpos, hlt⟩
      rw [hfloor, Option.some.injEq] at hj
      subst hj
      exact hrange ⟨hpos, hlt⟩

theorem getAt_eq_ok :
    σ.getAt target index = .ok v ↔
      ∃ (a n : Nat) (x : Number), target = .list a ∧ σ.toNumber index = .ok x ∧
        x.floor? = some (n : Int) ∧ (σ.sequences a)[n]? = some v := by
  rw [getAt, except_bind_eq_ok]
  constructor
  · rintro ⟨a, ha, h⟩
    obtain ⟨n, hn, h⟩ := except_bind_eq_ok.mp h
    obtain ⟨x, hx, hfloor, hlt⟩ := positionOf_eq_ok.mp hn
    cases h
    refine ⟨a, n, x, addressOf_eq_ok.mp ha, hx, hfloor, ?_⟩
    rw [sequences, Array.getElem?_toList, Array.getD_eq_getD_getElem?, Array.getElem?_eq_getElem hlt,
      Option.getD_some]
  · rintro ⟨a, n, x, rfl, hx, hfloor, hv⟩
    rw [sequences, Array.getElem?_toList] at hv
    obtain ⟨hlt, -⟩ := Array.getElem?_eq_some_iff.mp hv
    refine ⟨a, rfl, except_bind_eq_ok.mpr ⟨n, positionOf_eq_ok.mpr ⟨x, hx, hfloor, hlt⟩, ?_⟩⟩
    rw [Array.getD_eq_getD_getElem?, hv]
    rfl

theorem setAt_eq_ok :
    σ.setAt target index value = .ok τ ↔
      ∃ (a n : Nat) (x : Number), target = .list a ∧ σ.toNumber index = .ok x ∧
        x.floor? = some (n : Int) ∧ n < (σ.sequences a).length ∧
        τ = σ.update a fun _ => ((σ.sequences a).set n value).toArray := by
  have hset : ∀ a n, σ.update a (fun items => items.setIfInBounds n value)
      = σ.update a fun _ => ((σ.sequences a).set n value).toArray := by
    intro a n
    rw [update_eq_const, sequences, ← Array.toList_setIfInBounds, Array.toArray_toList]
  rw [setAt, except_bind_eq_ok]
  constructor
  · rintro ⟨a, ha, h⟩
    obtain ⟨n, hn, h⟩ := except_bind_eq_ok.mp h
    obtain ⟨x, hx, hfloor, hlt⟩ := positionOf_eq_ok.mp hn
    cases h
    exact ⟨a, n, x, addressOf_eq_ok.mp ha, hx, hfloor, hlt, hset a n⟩
  · rintro ⟨a, n, x, rfl, hx, hfloor, hlt, rfl⟩
    refine ⟨a, rfl, except_bind_eq_ok.mpr ⟨n, positionOf_eq_ok.mpr ⟨x, hx, hfloor, hlt⟩, ?_⟩⟩
    rw [← hset a n]
    rfl

theorem append_eq_ok :
    σ.append target value = .ok τ ↔
      ∃ a, target = .list a ∧ τ = σ.update a fun _ => (σ.sequences a ++ [value]).toArray := by
  have hpush : ∀ a, σ.update a (·.push value)
      = σ.update a fun _ => (σ.sequences a ++ [value]).toArray := by
    intro a
    rw [update_eq_const, sequences, ← Array.toList_push, Array.toArray_toList]
  rw [append, except_bind_eq_ok]
  constructor
  · rintro ⟨a, ha, h⟩
    cases h
    exact ⟨a, addressOf_eq_ok.mp ha, hpush a⟩
  · rintro ⟨a, rfl, rfl⟩
    exact ⟨a, rfl, congrArg Except.ok (hpush a)⟩

theorem items_eq_ok {vs : List Value} :
    σ.items target = .ok vs ↔ ∃ a, target = .list a ∧ vs = σ.sequences a := by
  rw [items, except_bind_eq_ok]
  constructor
  · rintro ⟨a, ha, h⟩
    cases h
    exact ⟨a, addressOf_eq_ok.mp ha, rfl⟩
  · rintro ⟨a, rfl, rfl⟩
    exact ⟨a, rfl, rfl⟩

end Store

namespace ListOperation

open Store

variable {σ τ : Store} {op : ListOperation} {l l' : List Value} {answer : Answer}
  {target index value v : Value} {fault : Fault} {a n length : Nat}

/-- What an operation asks of its operands, besides a list to work on. -/
def Suits (σ : Store) (l : List Value) : ListOperation → Prop
  | get _ index | set _ index _ => ∃ x, σ.toNumber index = .ok x ∧ x.Within l.length
  | append .. | items .. => True
  | remove _ value => σ.Acyclic value ∧ ∀ w ∈ l, σ.Acyclic w

/-- What an operation makes of a sequence, and what it gives back. -/
inductive Does (σ : Store) : ListOperation → List Value → List Value → Answer → Prop
  | get {target index v : Value} {x : Number} {l : List Value} {n : Nat} :
      σ.toNumber index = .ok x → x.floor? = some (n : Int) → l[n]? = some v →
        Does σ (get target index) l l (.element v)
  | set {target index value : Value} {x : Number} {l : List Value} {n : Nat} :
      σ.toNumber index = .ok x → x.floor? = some (n : Int) → n < l.length →
        Does σ (set target index value) l (l.set n value) .done
  | append {target value : Value} {l : List Value} :
      Does σ (append target value) l (l ++ [value]) .done
  | remove {target value : Value} {l : List Value} :
      σ.Acyclic value → (∀ w ∈ l, σ.Acyclic w) →
        Does σ (remove target value) l (l.filter fun w => σ.toText w ≠ σ.toText value) .done
  | items {target : Value} {l : List Value} : Does σ (items target) l l (.snapshot l)

/-- Why an operation fails. -/
inductive Fails (σ : Store) (op : ListOperation) : Fault → Prop
  | notList : op.target.kind ≠ .list → Fails σ op (.notList op.use op.target.kind)
  | unreadable {a : Nat} {index : Value} {fault : Fault} :
      op.target = .list a → op.index? = some index → σ.toNumber index = .error fault →
        Fails σ op fault
  | outOfRange {a : Nat} {index : Value} {x : Number} {shown : String} :
      op.target = .list a → op.index? = some index → σ.toNumber index = .ok x →
        ¬ x.Within (σ.sequences a).length → σ.toText index = .ok shown →
          Fails σ op (.outOfRange shown (σ.sequences a).length)
  | unshownIndex {a : Nat} {index : Value} {x : Number} :
      op.target = .list a → op.index? = some index → σ.toNumber index = .ok x →
        ¬ x.Within (σ.sequences a).length → ¬ σ.Acyclic index → Fails σ op .tooDeep
  | unshownElement {a : Nat} {value : Value} :
      op = .remove (.list a) value → ¬ op.Suits σ (σ.sequences a) → Fails σ op .tooDeep

/-- An operation on a store goes as the operation on shared sequences does. -/
structure Refines (op : ListOperation) (offset : Nat) (s : State) (outcome : Except Stop Answer)
    (after : State) : Prop where
  succeeds_iff : (∃ answer, outcome = .ok answer) ↔
    ∃ a, op.target = .list a ∧ op.Suits s.store (s.store.sequences a)
  /-- one sequence changes, for all who hold its address, and no other does -/
  of_ok : ∀ answer, outcome = .ok answer →
    ∃ a l, op.target = .list a ∧ op.Does s.store (s.store.sequences a) l answer ∧
      after.store.sequences = Function.update s.store.sequences a l ∧
      after = { s with store := after.store }
  of_error : ∀ e, outcome = .error e →
    after = s ∧ ∃ fault, e = .fault fault (fault.place offset) ∧ op.Fails s.store fault
  type_iff : ∀ fault place, outcome = .error (.fault fault place) →
    (fault.kind = .type ↔ op.target.kind ≠ .list)
  /-- the index has a number and a display -/
  index_iff : ∀ fault place, outcome = .error (.fault fault place) →
    (fault.kind = .index ↔ op.target.kind = .list ∧ ∃ index x shown, op.index? = some index ∧
      s.store.toNumber index = .ok x ∧ s.store.toText index = .ok shown)

/-! ### Operations on stores -/

/-- The effect of an operation on the store. -/
def outcome (σ : Store) : ListOperation → Except Fault (Answer × Store)
  | get target index => (σ.getAt target index).map fun v => (.element v, σ)
  | set target index value => (σ.setAt target index value).map fun τ => (.done, τ)
  | append target value => (σ.append target value).map fun τ => (.done, τ)
  | remove target value => (σ.remove target value).map fun τ => (.done, τ)
  | items target => (σ.items target).map fun vs => (.snapshot vs, σ)

/-- An operation takes over its effect on the store, or stops and leaves the state as it is. -/
theorem perform_eq (op : ListOperation) (offset : Nat) (s : State) :
    op.perform offset s = match op.outcome s.store with
      | .ok (answer, store) => (.ok answer, { s with store := store })
      | .error fault => (.error (.fault fault (fault.place offset)), s) := by
  cases op with
  | get target index =>
    rw [perform, outcome, Run.bind_apply, Run.fromStore]
    cases s.store.getAt target index with
    | ok | error => rfl
  | items target =>
    rw [perform, outcome, Run.bind_apply, Run.fromStore]
    cases s.store.items target with
    | ok | error => rfl
  | set target index value =>
    rw [perform, outcome, Run.bind_apply, Run.changeStore]
    cases s.store.setAt target index value with
    | ok | error => rfl
  | append target value =>
    rw [perform, outcome, Run.bind_apply, Run.changeStore]
    cases s.store.append target value with
    | ok | error => rfl
  | remove target value =>
    rw [perform, outcome, Run.bind_apply, Run.changeStore]
    cases s.store.remove target value with
    | ok | error => rfl

/-! ### What the evaluator does to lists -/

section Evaluator

variable (c : Context) (invoke : Invoke) (list : String) (value : Expr) (offset : Nat)

theorem changeStore_eq_perform (op : ListOperation) {f : Store → Except Fault Store}
    (h : ∀ σ, op.outcome σ = (f σ).map fun τ => (.done, τ)) :
    Run.changeStore offset f = (do let _ ← op.perform offset) := by
  funext s
  rw [Run.bind_apply, perform_eq, h, Run.changeStore]
  cases f s.store with
  | ok | error => rfl

theorem eval_index (t i : Expr) :
    (Expr.index t i offset).eval c invoke = (do
      let target ← t.eval c invoke
      let index ← i.eval c invoke
      let answer ← (get target index).perform offset
      return answer.value) := by
  rw [Expr.eval]
  congr 1; funext target
  congr 1; funext index
  funext s
  rw [Run.bind_apply, perform_eq, outcome, Run.fromStore]
  cases s.store.getAt target index with
  | ok | error => rfl

theorem assign_element (i : Expr) :
    (Target.element list i offset).assign c invoke value = (do
      let owner ← Run.lookup list offset
      let index ← i.eval c invoke
      let v ← value.eval c invoke
      let _ ← (set owner index v).perform offset) := by
  rw [Target.assign]
  congr 1; funext owner
  congr 1; funext index
  congr 1; funext v
  exact changeStore_eq_perform offset (set owner index v) fun _ => rfl

theorem exec_append :
    (Stmt.append value list offset).exec c invoke = (do
      let v ← value.eval c invoke
      let owner ← Run.lookup list offset
      let _ ← (append owner v).perform offset) := by
  rw [Stmt.exec]
  congr 1; funext v
  congr 1; funext owner
  exact changeStore_eq_perform offset (append owner v) fun _ => rfl

theorem exec_remove :
    (Stmt.remove value list offset).exec c invoke = (do
      let v ← value.eval c invoke
      let owner ← Run.lookup list offset
      let _ ← (remove owner v).perform offset) := by
  rw [Stmt.exec]
  congr 1; funext v
  congr 1; funext owner
  exact changeStore_eq_perform offset (remove owner v) fun _ => rfl

theorem exec_forEach (item : String) (body : List Stmt) :
    (Stmt.forEach item value body offset).exec c invoke = (do
      let v ← value.eval c invoke
      let answer ← (items v).perform offset
      Run.forAll (fun v => do
        Run.heed c offset
        Run.assign item v
        Stmt.execAll c invoke body) answer.values) := by
  rw [Stmt.exec]
  congr 1; funext v
  funext s
  rw [Run.bind_apply, Run.bind_apply, perform_eq, outcome, Run.fromStore]
  cases s.store.items v with
  | ok | error => rfl

end Evaluator

/-! ### When operations succeed, and why they fail -/

/-- An operation that succeeds puts a new sequence in place of the one that it is addressed to. -/
theorem outcome_eq_ok :
    op.outcome σ = .ok (answer, τ) ↔
      ∃ a l, op.target = .list a ∧ op.Does σ (σ.sequences a) l answer ∧
        τ = σ.update a fun _ => l.toArray := by
  cases op with
  | get target index =>
    rw [outcome, except_map_eq_ok]
    constructor
    · rintro ⟨v, h, heq⟩
      cases heq
      obtain ⟨a, n, x, ha, hx, hfloor, hv⟩ := getAt_eq_ok.mp h
      exact ⟨a, _, ha, .get hx hfloor hv, (update_self σ a).symm⟩
    · rintro ⟨a, l, ha, hdoes, hτ⟩
      cases hdoes with
      | @get _ _ v x _ n hx hfloor hv =>
        refine ⟨v, getAt_eq_ok.mpr ⟨a, n, x, ha, hx, hfloor, hv⟩, ?_⟩
        rw [hτ, sequences, update_self]
  | set target index value =>
    rw [outcome, except_map_eq_ok]
    constructor
    · rintro ⟨τ, h, heq⟩
      cases heq
      obtain ⟨a, n, x, ha, hx, hfloor, hn, rfl⟩ := setAt_eq_ok.mp h
      exact ⟨a, _, ha, .set hx hfloor hn, rfl⟩
    · rintro ⟨a, l, ha, hdoes, rfl⟩
      cases hdoes with
      | @set _ _ _ x _ n hx hfloor hn =>
        exact ⟨_, setAt_eq_ok.mpr ⟨a, n, x, ha, hx, hfloor, hn, rfl⟩, rfl⟩
  | append target value =>
    rw [outcome, except_map_eq_ok]
    constructor
    · rintro ⟨τ, h, heq⟩
      cases heq
      obtain ⟨a, ha, rfl⟩ := append_eq_ok.mp h
      exact ⟨a, _, ha, .append, rfl⟩
    · rintro ⟨a, l, ha, hdoes, rfl⟩
      cases hdoes with
      | append => exact ⟨_, append_eq_ok.mpr ⟨a, ha, rfl⟩, rfl⟩
  | remove target value =>
    rw [outcome, except_map_eq_ok]
    constructor
    · rintro ⟨τ, h, heq⟩
      cases heq
      obtain ⟨a, ha, hvalue, hall, rfl⟩ := remove_eq_ok_iff.mp h
      refine ⟨a, _, ha, .remove hvalue fun w hw => hall w (Array.mem_toList_iff.mp hw), rfl⟩
    · rintro ⟨a, l, ha, hdoes, rfl⟩
      cases hdoes with
      | remove hvalue hall =>
        refine ⟨_, remove_eq_ok_iff.mpr ⟨a, ha, hvalue, fun w hw => ?_, rfl⟩, rfl⟩
        exact hall w (Array.mem_toList_iff.mpr hw)
  | items target =>
    rw [outcome, except_map_eq_ok]
    constructor
    · rintro ⟨vs, h, heq⟩
      cases heq
      obtain ⟨a, ha, rfl⟩ := items_eq_ok.mp h
      exact ⟨a, _, ha, .items, (update_self σ a).symm⟩
    · rintro ⟨a, l, ha, hdoes, hτ⟩
      cases hdoes with
      | items =>
        refine ⟨_, items_eq_ok.mpr ⟨a, ha, rfl⟩, ?_⟩
        rw [hτ, sequences, update_self]

theorem suits_iff : op.Suits σ l ↔ ∃ l' answer, op.Does σ l l' answer := by
  cases op with
  | get target index =>
    constructor
    · rintro ⟨x, hx, i, hfloor, hpos, hlt⟩
      obtain ⟨n, rfl⟩ := Int.eq_ofNat_of_zero_le hpos
      have hn : n < l.length := Int.ofNat_lt.mp hlt
      exact ⟨l, _, .get hx hfloor (List.getElem?_eq_getElem hn)⟩
    · rintro ⟨l', answer, hdoes⟩
      cases hdoes with
      | @get _ _ v x _ n hx hfloor hv =>
        obtain ⟨hn, -⟩ := List.getElem?_eq_some_iff.mp hv
        exact ⟨x, hx, n, hfloor, Int.natCast_nonneg n, Int.ofNat_lt.mpr hn⟩
  | set target index value =>
    constructor
    · rintro ⟨x, hx, i, hfloor, hpos, hlt⟩
      obtain ⟨n, rfl⟩ := Int.eq_ofNat_of_zero_le hpos
      exact ⟨_, _, .set hx hfloor (Int.ofNat_lt.mp hlt)⟩
    · rintro ⟨l', answer, hdoes⟩
      cases hdoes with
      | @set _ _ _ x _ n hx hfloor hn =>
        exact ⟨x, hx, n, hfloor, Int.natCast_nonneg n, Int.ofNat_lt.mpr hn⟩
  | append target value => exact ⟨fun _ => ⟨_, _, .append⟩, fun _ => trivial⟩
  | remove target value =>
    constructor
    · rintro ⟨hvalue, hall⟩
      exact ⟨_, _, .remove hvalue hall⟩
    · rintro ⟨l', answer, hdoes⟩
      cases hdoes with
      | remove hvalue hall => exact ⟨hvalue, hall⟩
  | items target => exact ⟨fun _ => ⟨_, _, .items⟩, fun _ => trivial⟩

theorem addressOf_eq_error {use : ListUse} :
    addressOf use v = .error fault ↔ v.kind ≠ .list ∧ fault = .notList use v.kind := by
  cases v with
  | list a => simp [addressOf, Value.kind]
  | number | text | truth | nothing => simp [addressOf, Value.kind, eq_comm]

theorem fails_of_position (ha : op.target = .list a) (hindex : op.index? = some index)
    (h : σ.positionOf (σ.elements a).size index = .error fault) : op.Fails σ fault := by
  rw [← Array.length_toList] at h
  rcases positionOf_eq_error h with hx | ⟨x, hx, hout, ⟨shown, hshown, rfl⟩ | ⟨hcyclic, rfl⟩⟩
  · exact .unreadable ha hindex hx
  · exact .outOfRange ha hindex hx hout hshown
  · exact .unshownIndex ha hindex hx hout hcyclic

theorem fails_of_outcome (h : op.outcome σ = .error fault) : op.Fails σ fault := by
  cases op with
  | get target index =>
    rw [outcome, except_map_eq_error, getAt, except_bind_eq_error] at h
    rcases h with h | ⟨a, ha, h⟩
    · obtain ⟨hkind, rfl⟩ := addressOf_eq_error.mp h
      exact .notList hkind
    · rcases except_bind_eq_error.mp h with h | ⟨n, -, h⟩
      · exact fails_of_position (addressOf_eq_ok.mp ha) rfl h
      · cases h
  | set target index value =>
    rw [outcome, except_map_eq_error, setAt, except_bind_eq_error] at h
    rcases h with h | ⟨a, ha, h⟩
    · obtain ⟨hkind, rfl⟩ := addressOf_eq_error.mp h
      exact .notList hkind
    · rcases except_bind_eq_error.mp h with h | ⟨n, -, h⟩
      · exact fails_of_position (addressOf_eq_ok.mp ha) rfl h
      · cases h
  | append target value =>
    rw [outcome, except_map_eq_error, Store.append, except_bind_eq_error] at h
    rcases h with h | ⟨a, -, h⟩
    · obtain ⟨hkind, rfl⟩ := addressOf_eq_error.mp h
      exact .notList hkind
    · cases h
  | remove target value =>
    rw [outcome, except_map_eq_error] at h
    rcases remove_eq_error h with ⟨hkind, rfl⟩ | ⟨hkind, rfl⟩
    · exact .notList hkind
    · cases target with
      | number | text | truth | nothing => cases hkind
      | list a =>
        refine .unshownElement rfl fun hsuits => ?_
        obtain ⟨l, answer, hdoes⟩ := suits_iff.mp hsuits
        have hok := outcome_eq_ok.mpr ⟨a, l, rfl, hdoes, rfl⟩
        rw [outcome, h] at hok
        cases hok
  | items target =>
    rw [outcome, except_map_eq_error, Store.items, except_bind_eq_error] at h
    rcases h with h | ⟨a, -, h⟩
    · obtain ⟨hkind, rfl⟩ := addressOf_eq_error.mp h
      exact .notList hkind
    · cases h

theorem kind_of_toNumber_eq_error (h : σ.toNumber v = .error fault) : fault.kind = .runtime := by
  cases v with
  | number | truth | list | nothing => cases h
  | text s =>
    rw [toNumber] at h
    split at h
    · cases h
    · cases h
      rfl

/-- Only what is no list is reported as having the wrong type. -/
theorem Fails.kind_eq_type_iff (h : op.Fails σ fault) :
    fault.kind = .type ↔ op.target.kind ≠ .list := by
  cases h with
  | notList hkind => exact ⟨fun _ => hkind, fun _ => rfl⟩
  | unreadable ha _ hx => simp [kind_of_toNumber_eq_error hx, ha, Value.kind]
  | outOfRange ha => simp [Fault.kind, ha, Value.kind]
  | unshownIndex ha => simp [Fault.kind, ha, Value.kind]
  | unshownElement hop => simp [Fault.kind, hop, ListOperation.target, Value.kind]

/-- An index is reported if it has a number and a display. -/
theorem Fails.kind_eq_index_iff (h : op.Fails σ fault) :
    fault.kind = .index ↔ op.target.kind = .list ∧ ∃ index x shown, op.index? = some index ∧
      σ.toNumber index = .ok x ∧ σ.toText index = .ok shown := by
  cases h with
  | notList hkind => simp [Fault.kind, hkind]
  | unreadable ha hindex hx =>
    rw [kind_of_toNumber_eq_error hx]
    refine ⟨by rintro ⟨⟩, ?_⟩
    rintro ⟨-, other, x, shown, hother, hnumber, -⟩
    obtain rfl := Option.some.inj (hindex.symm.trans hother)
    rw [hx] at hnumber
    cases hnumber
  | @outOfRange a index x shown ha hindex hx _ hshown =>
    exact ⟨fun _ => ⟨by rw [ha, Value.kind], index, x, shown, hindex, hx, hshown⟩, fun _ => rfl⟩
  | unshownIndex ha hindex hx _ hcyclic =>
    refine ⟨by rintro ⟨⟩, ?_⟩
    rintro ⟨-, other, x, shown, hother, -, hshown⟩
    obtain rfl := Option.some.inj (hindex.symm.trans hother)
    exact absurd (exists_toText_iff.mp ⟨shown, hshown⟩) hcyclic
  | unshownElement hop =>
    refine ⟨by rintro ⟨⟩, ?_⟩
    rintro ⟨-, other, x, shown, hother, -⟩
    rw [hop] at hother
    cases hother

theorem sequences_update (ha : a < σ.size) :
    (σ.update a fun _ => l.toArray).sequences = Function.update σ.sequences a l := by
  have hnone : σ.size ≤ a → l.toArray = #[] := fun hle => absurd hle (Nat.not_le_of_lt ha)
  obtain ⟨hself, helse⟩ := elements_update_const σ a hnone
  funext b
  by_cases hb : b = a
  · subst hb
    rw [Function.update_self, sequences, hself]
  · rw [Function.update_of_ne hb, sequences, helse b hb, sequences]

/-- Each single operation goes as the operation on shared sequences. -/
theorem perform_refines {s : State} (offset : Nat)
    (hlist : ∀ a, op.target = .list a → a < s.store.size) :
    op.Refines offset s (op.perform offset s).1 (op.perform offset s).2 := by
  rw [perform_eq]
  cases h : op.outcome s.store with
  | error fault =>
    have hfails := fails_of_outcome h
    refine ⟨⟨?_, ?_⟩, ?_, ?_, ?_, ?_⟩
    · rintro ⟨answer, hok⟩
      cases hok
    · rintro ⟨a, ha, hsuits⟩
      obtain ⟨l, answer, hdoes⟩ := suits_iff.mp hsuits
      rw [outcome_eq_ok.mpr ⟨a, l, ha, hdoes, rfl⟩] at h
      cases h
    · intro answer hok
      cases hok
    · intro e herror
      cases herror
      exact ⟨rfl, fault, rfl, hfails⟩
    · intro other place herror
      cases herror
      exact hfails.kind_eq_type_iff
    · intro other place herror
      cases herror
      exact hfails.kind_eq_index_iff
  | ok result =>
    obtain ⟨answer, store⟩ := result
    obtain ⟨a, l, ha, hdoes, rfl⟩ := outcome_eq_ok.mp h
    refine ⟨⟨fun _ => ?_, fun _ => ⟨answer, rfl⟩⟩, ?_, ?_, ?_, ?_⟩
    · exact ⟨a, ha, suits_iff.mpr ⟨l, answer, hdoes⟩⟩
    · intro answer' hok
      cases hok
      exact ⟨a, l, ha, hdoes, sequences_update (hlist a ha), rfl⟩
    · intro e herror
      cases herror
    · intro fault place herror
      cases herror
    · intro fault place herror
      cases herror

/-! ### Operations one after another -/

theorem size_perform (op : ListOperation) (offset : Nat) (s : State) :
    (op.perform offset s).2.store.size = s.store.size := by
  rw [perform_eq]
  cases h : op.outcome s.store with
  | error fault => rfl
  | ok result =>
    obtain ⟨answer, store⟩ := result
    obtain ⟨a, l, -, -, rfl⟩ := outcome_eq_ok.mp h
    exact size_update s.store a _

/-- Operations on lists neither create lists nor give any back. -/
theorem size_performAll (s : State) (ops : List (Nat × ListOperation)) :
    (performAll s ops).2.store.size = s.store.size := by
  induction ops generalizing s with
  | nil => rfl
  | cons entry ops ih => exact (ih _).trans (size_perform entry.2 entry.1 s)

theorem performAll_cons (s : State) (offset : Nat) (op : ListOperation)
    (ops : List (Nat × ListOperation)) :
    performAll s ((offset, op) :: ops)
      = ((op.perform offset s).1 :: (performAll (op.perform offset s).2 ops).1,
          (performAll (op.perform offset s).2 ops).2) := rfl

theorem performAll_append (s : State) (ops later : List (Nat × ListOperation)) :
    performAll s (ops ++ later)
      = ((performAll s ops).1 ++ (performAll (performAll s ops).2 later).1,
          (performAll (performAll s ops).2 later).2) := by
  induction ops generalizing s with
  | nil => rfl
  | cons entry ops ih =>
    obtain ⟨offset, op⟩ := entry
    rw [List.cons_append, performAll_cons, performAll_cons, ih, List.cons_append]

theorem length_performAll (s : State) (ops : List (Nat × ListOperation)) :
    (performAll s ops).1.length = ops.length := by
  induction ops generalizing s with
  | nil => rfl
  | cons entry ops ih => exact congrArg Nat.succ (ih _)

/-- In any row of operations, some of which may fail, each one goes as the operation on shared
sequences does: it changes the one sequence that it is addressed to, or fails and changes nothing.
What it has given back stays, whatever is done later. -/
theorem performAll_refines (s : State) (before : List (Nat × ListOperation)) (offset : Nat)
    (op : ListOperation) (hlist : ∀ a, op.target = .list a → a < s.store.size) :
    ∃ outcome after, op.Refines offset (performAll s before).2 outcome after ∧
      ∀ later,
        (performAll s (before ++ (offset, op) :: later)).1[before.length]? = some outcome ∧
        (performAll s (before ++ (offset, op) :: later)).2 = (performAll after later).2 := by
  have hrefines := perform_refines (s := (performAll s before).2) offset fun a ha => by
    rw [size_performAll]
    exact hlist a ha
  refine ⟨_, _, hrefines, fun later => ?_⟩
  rw [performAll_append, performAll_cons]
  refine ⟨?_, rfl⟩
  rw [List.getElem?_append_right (Nat.le_of_eq (length_performAll s before)), length_performAll,
    Nat.sub_self]
  rfl

/-- One list has another one as its element twice. -/
def twofold : State := { Run.desk with store := ⟨#[#[.list 1, .list 1], #[.truth true]]⟩ }

/-- An element is added to the inner list, and then an index out of range is tried. -/
def additions : List (Nat × ListOperation) :=
  [(0, .append (.list 1) (.text "x")), (5, .get (.list 0) (.list 0))]

theorem twofold_refined :
    (∀ a, (items (.list 1)).target = .list a → a < twofold.store.size) ∧
      ∃ after, (items (.list 1)).Refines 9 (performAll twofold additions).2
          (.ok (.snapshot [.truth true, .text "x"])) after ∧
        (performAll twofold additions).1[1]?
          = some (.error (.fault (.outOfRange "[[true, x], [true, x]]" 2) 5)) ∧
        ∀ later, (performAll twofold (additions ++ (9, items (.list 1)) :: later)).1[2]?
          = some (.ok (.snapshot [.truth true, .text "x"])) := by
  have hlist : ∀ a, (items (.list 1)).target = .list a → a < twofold.store.size := by
    rintro a ⟨⟩
    decide
  obtain ⟨outcome, after, hrefines, hlater⟩ := performAll_refines twofold additions 9 _ hlist
  have hrun : (performAll twofold (additions ++ [(9, items (.list 1))])).1[2]?
      = some (.ok (.snapshot [.truth true, .text "x"])) := by decide +kernel
  have houtcome : outcome = .ok (.snapshot [.truth true, .text "x"]) :=
    Option.some.inj ((hlater []).1.symm.trans hrun)
  subst houtcome
  exact ⟨hlist, after, hrefines, by decide +kernel, fun later => (hlater later).1⟩

end ListOperation
end Parlance
