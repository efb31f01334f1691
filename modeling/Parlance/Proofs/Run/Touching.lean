import Parlance.Proofs.Run.Keeping
/-!
# What a call can touch

A call reaches the lists that its arguments lead to and those that it creates, and no others: the
lists that it cannot reach keep their elements, what it gives back leads to no list that it cannot
reach, and the frames of all callers are as they were when control comes back to them
(`callFunction_touches`). This holds whatever the outcome of the call.
-/
namespace Parlance

/-- A value leads to a list: it is the list, or leads to one that has the list as an element. -/
inductive Store.Reaches (store : Store) (v : Value) : Nat → Prop
  | self {a} : v = .list a → store.Reaches v a
  | element {a b} : store.Reaches v a → .list b ∈ store.elements a → store.Reaches v b

/-- A list that is not there is not changed. -/
theorem Store.update_of_le {store : Store} {a : Nat} (h : store.size ≤ a)
    (f : Array Value → Array Value) : store.update a f = store := by
  have hlists : store.lists.modify a f = store.lists := by
    apply Array.ext_getElem?
    intro i
    rw [Array.getElem?_modify]
    split
    · next hi => rw [← hi, Array.getElem?_eq_none h, Option.map_none]
    · rfl
  rw [Store.update, hlists]

/-- A list that is not there has no elements. -/
theorem Store.elements_of_le {store : Store} {a : Nat} (h : store.size ≤ a) :
    store.elements a = #[] := by
  rw [Store.elements, Array.getD_eq_getD_getElem?, Array.getElem?_eq_none h, Option.getD_none]

namespace Run

/-- A call of a declared function, after its arguments are evaluated. -/
def callFunction (c : Context) (depth : Nat) (d : Declaration) (args : List Value) (offset : Nat) :
    Run Value := do
  checkCount d.name d.parameters.length args.length offset
  invoke c depth d args

/-- Runs a part inside calls that have the given frames, the outermost first. The list is that of
the frames as control comes back to them, the innermost first. -/
def underneath {α : Type} (x : Run α) : List Frame → Run (Except Stop α × List Frame)
  | [] => fun s => (.ok ((x s).1, [(x s).2.frame]), (x s).2)
  | frame :: frames => do
    let (r, seen) ← within frame (underneath x frames)
    return (r, seen ++ [(← getState).frame])

variable {c : Context} {depth : Nat} {d : Declaration} {args : List Value} {offset : Nat}

/-- A name that is not built in calls the function that the table has under it. -/
theorem call_declared {name : String} (hb : Builtin.find? name = none)
    (hd : c.functions.get? (Text.lower name) = some d) :
    call c (invoke c depth) name args offset = callFunction c depth d args offset := by
  simp only [call, hb, hd, callFunction]

/-- A call neither reads nor changes the frame of its caller. -/
theorem callFunction_frame (frame : Frame) (s : State) :
    callFunction c depth d args offset { s with frame := frame }
      = ((callFunction c depth d args offset s).1,
          { (callFunction c depth d args offset s).2 with frame := frame }) := by
  unfold callFunction checkCount
  split
  · cases depth with
    | zero => rfl
    | succ depth => rfl
  · rfl

/-- A part that neither reads nor changes the frame leaves all frames underneath as they are. -/
theorem underneath_eq {α : Type} {x : Run α}
    (h : ∀ frame s, x { s with frame := frame } = ((x s).1, { (x s).2 with frame := frame }))
    (frames : List Frame) (s : State) :
    underneath x frames s = (.ok ((x s).1, frames.reverse ++ [s.frame]), (x s).2) := by
  have hown : ∀ s, (x s).2.frame = s.frame := fun s =>
    congrArg (fun p : Except Stop α × State => p.2.frame) (h s.frame s)
  induction frames generalizing s with
  | nil => simp only [underneath, hown, List.reverse_nil, List.nil_append]
  | cons frame frames ih =>
    have hback : { (x s).2 with frame := s.frame } = (x s).2 := by rw [← hown s]
    simp only [underneath, Run.bind_apply, within, ih, getState, pure_apply, h frame s, hback,
      hown s, List.reverse_cons]

/-! ### What a call is handed -/

/-- A list is at hand if an argument led to it when the call began, or if it is newer. -/
def AtHand (store : Store) (args : List Value) (a : Nat) : Prop :=
  store.size ≤ a ∨ ∃ w ∈ args, store.Reaches w a

/-- All that a call is handed: its values lead to lists at hand, and other lists stay the same. -/
def handed (store : Store) (args : List Value) : Pact where
  value v := ∀ a, v = .list a → AtHand store args a
  store σ := store.size ≤ σ.size ∧
    (∀ a, ¬ AtHand store args a → σ.elements a = store.elements a) ∧
    ∀ a, AtHand store args a → ∀ b, .list b ∈ σ.elements a → AtHand store args b
  waits := True
  tires := True
  plain v hv a := by
    rintro rfl
    exact absurd rfl hv
  element := by
    intro σ a hσ ha v hv b hb
    exact hσ.2.2 a (ha a rfl) b (hb ▸ hv)
  alloc := by
    intro σ items hσ hitems
    have hsize : store.size ≤ (σ.alloc items).2.size := by
      rw [Store.size_alloc]
      exact Nat.le_succ_of_le hσ.1
    refine ⟨⟨hsize, fun a ha => ?_, fun a ha b hb => ?_⟩, ?_⟩
    · have hne : a ≠ σ.size := fun h => ha (.inl (h ▸ hσ.1))
      rw [Store.elements_alloc, if_neg hne]
      exact hσ.2.1 a ha
    · rw [Store.elements_alloc] at hb
      split at hb
      · exact hitems _ hb b rfl
      · exact hσ.2.2 a ha b hb
    · rintro a ⟨⟩
      exact .inl hσ.1
  update := by
    intro σ a f hσ ha hf
    by_cases hlt : a < σ.size
    · refine ⟨(Store.size_update σ a f).symm ▸ hσ.1, fun o ho => ?_, fun o ho b hb => ?_⟩
      · have hne : o ≠ a := fun h => ho (h ▸ ha a rfl)
        rw [Store.elements_update σ a o f hlt, if_neg hne]
        exact hσ.2.1 o ho
      · rw [Store.elements_update σ a o f hlt] at hb
        split at hb
        · exact hf _ hb b rfl
        · exact hσ.2.2 o ho b hb
    · rw [Store.update_of_le (Nat.le_of_not_lt hlt)]
      exact hσ

theorem AtHand.of_mem {store : Store} {v : Value} (hv : v ∈ args) :
    (handed store args).value v := fun _ ha => .inr ⟨v, hv, .self ha⟩

/-- When the call begins its frame is empty and every list is as it is. -/
theorem handed_holds (s : State) : (handed s.store args).Holds { s with frame := [] } := by
  refine ⟨⟨Nat.le_refl _, fun _ _ => rfl, fun a ha b hb => ?_⟩, .nil, fun h => absurd trivial h⟩
  rcases ha with ha | ⟨w, hw, ha⟩
  · rw [Store.elements_of_le ha] at hb
    exact absurd hb (Array.not_mem_empty _)
  · exact .inr ⟨w, hw, ha.element hb⟩

/-- A value at hand leads to lists at hand only. -/
theorem AtHand.of_reaches {store σ : Store} {v : Value} {a : Nat}
    (hσ : (handed store args).store σ) (hv : (handed store args).value v) (h : σ.Reaches v a) :
    AtHand store args a := by
  induction h with
  | self ha => exact hv _ ha
  | element _ hb ih => exact hσ.2.2 _ ih _ hb

theorem callFunction_keeps {P : Pact} (hP : P.tires) (hargs : ∀ v ∈ args, P.value v) :
    Keeps P false P.value (callFunction c depth d args offset) :=
  (Keeps.checkCount _ _ _ offset).bind fun _ _ => invoke_keeps hP depth d args hargs

/-- A call of a declared function leaves every list that its arguments do not lead to as it is, and
the frames of all its callers; what it gives back leads to lists that an argument led to or that are
new. -/
theorem callFunction_touches (c : Context) (depth : Nat) (d : Declaration) (args : List Value)
    (offset : Nat) (s : State) :
    let call := callFunction c depth d args offset
    let after := (call s).2
    (∀ a < s.store.size, (∀ v ∈ args, ¬ s.store.Reaches v a) →
      after.store.elements a = s.store.elements a) ∧
    (∀ frames,
      underneath call frames s = (.ok ((call s).1, frames.reverse ++ [s.frame]), after)) ∧
    ∀ v, (call s).1 = .ok v → ∀ a, after.store.Reaches v a →
      s.store.size ≤ a ∨ ∃ w ∈ args, s.store.Reaches w a := by
  intro call after
  -- the frame of the caller plays no part, so the call may as well be made from an empty one
  have hkeeps : Keeps (handed s.store args) false (handed s.store args).value call :=
    callFunction_keeps trivial fun v hv => AtHand.of_mem hv
  obtain ⟨hholds, hends⟩ := hkeeps _ (handed_holds s)
  simp only [call, callFunction_frame] at hholds hends
  refine ⟨fun a ha hunreached => ?_, (underneath_eq callFunction_frame · s), fun v hv a ha => ?_⟩
  · refine hholds.store.2.1 a ?_
    rintro (hnew | ⟨w, hw, hreach⟩)
    · exact Nat.not_le_of_lt ha hnew
    · exact hunreached w hw hreach
  · have hvalue : (handed s.store args).value v := by
      have hend : (handed s.store args).Ends false (handed s.store args).value (call s).1 := hends
      rw [hv] at hend
      exact hend
    exact AtHand.of_reaches hholds.store hvalue ha

/-- Adds an element to a list and gives back a new list with the old one as its element. -/
def extend : Declaration :=
  ⟨"extend", ["list", "v"],
    [.append (.name "v" 10) "list" 3, .giveBack (.list [.name "list" 30] 29) 22], 0⟩

/-- The first of two lists contains itself. -/
def knotted : State :=
  ⟨⟨#[#[.list 0], #[.truth true]]⟩, [("xs", .list 1)],
    .complete ⟨2024, 1, 31, 0, 0, 0, 0⟩ [] .empty, false, none, [], []⟩

theorem extend_touches :
    let call := callFunction ⟨[], false, true, 100⟩ 1 extend [.list 0, .list 0] 0
    let after := (call knotted).2
    (call knotted).1 = .ok (.list 2) ∧ after.store.elements 0 = #[.list 0, .list 0] ∧
      after.store.elements 1 = #[.truth true] ∧ ¬ after.store.Reaches (.list 2) 1 ∧
      (underneath call [[("ys", .list 1)]] knotted).1
        = .ok (.ok (.list 2), [[("ys", .list 1)], [("xs", .list 1)]]) := by
  intro call after
  have hone : ∀ a, knotted.store.Reaches (.list 0) a → a ≠ 1 := by
    intro a ha
    suffices a = 0 by omega
    induction ha with
    | self h => exact (Value.list.inj h).symm
    | element _ hb ih =>
      subst ih
      exact Value.list.inj (Array.mem_singleton.mp hb)
  have hargs : ∀ v ∈ [Value.list 0, .list 0], ¬ knotted.store.Reaches v 1 := by
    intro v hv h
    simp only [List.mem_cons, List.not_mem_nil, or_false, or_self] at hv
    subst hv
    exact hone 1 h rfl
  have hcall : (call knotted).1 = .ok (.list 2) := rfl
  obtain ⟨hsame, hframes, hreach⟩ :=
    callFunction_touches ⟨[], false, true, 100⟩ 1 extend [.list 0, .list 0] 0 knotted
  refine ⟨hcall, rfl, hsame 1 (by decide) hargs, fun h => ?_, ?_⟩
  · rcases hreach _ hcall 1 h with h | ⟨v, hv, h⟩
    · exact absurd h (by decide)
    · exact hargs v hv h
  · rw [hframes, ← hcall]
    rfl

end Run
end Parlance
