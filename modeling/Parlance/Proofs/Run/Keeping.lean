import Parlance.Proofs.Binding.Calls
import Parlance.Proofs.Except
import Parlance.Run.Evaluate
/-!
# What runs hold on to

A pact says which stores and which values a run may meet: it survives everything that a run does
with a value that it has. Then a run that starts under the pact ends under it, whatever its outcome
(`exec_keeps`, `invoke_keeps`). Only a function body may stop to give back a value, only a run in a
world of which not everything is known may wait, and only a loop may run out of rounds.
-/
namespace Parlance

/-- Nothing remains to be learned from outside. -/
structure World.IsComplete (w : World) : Prop where
  inputClosed : w.inputOpen = false
  surveyed : w.surveyed = none

/-- A condition on stores and on values that a run cannot break with the values it has. -/
structure Pact where
  store : Store → Prop
  value : Value → Prop
  /-- the run may wait for what it does not know -/
  waits : Prop
  /-- a loop may run out of rounds -/
  tires : Prop
  plain : ∀ v : Value, v.kind ≠ .list → value v
  element : ∀ {σ a}, store σ → value (.list a) → ∀ v ∈ σ.elements a, value v
  alloc : ∀ {σ items}, store σ → (∀ v ∈ items, value v) →
    store (σ.alloc items).2 ∧ value (.list σ.size)
  update : ∀ {σ a f}, store σ → value (.list a) → (∀ v ∈ f (σ.elements a), value v) →
    store (σ.update a f)

namespace Pact

/-- The variables of a frame hold values of the pact. -/
def Fits (P : Pact) (frame : Frame) : Prop := ∀ key v, frame.get? key = some v → P.value v

structure Holds (P : Pact) (s : State) : Prop where
  store : P.store s.store
  frame : P.Fits s.frame
  world : ¬ P.waits → s.world.IsComplete

/-- The stops that a run may come to, inside the body of a function or outside. -/
def Allows (P : Pact) (inside : Bool) : Stop → Prop
  | .returned v => inside = true ∧ P.value v
  | .waiting _ => P.waits
  | .exhausted => P.tires
  | .fault .. => True

def Ends {α : Type} (P : Pact) (inside : Bool) (good : α → Prop) : Except Stop α → Prop
  | .ok a => good a
  | .error e => P.Allows inside e

/-- A pact about how runs stop only. -/
def onStops (waits tires : Prop) : Pact where
  store _ := True
  value _ := True
  waits := waits
  tires := tires
  plain _ _ := trivial
  element _ _ _ _ := trivial
  alloc _ _ := ⟨trivial, trivial⟩
  update _ _ _ := trivial

theorem onStops_holds {waits tires : Prop} {s : State} (h : ¬ waits → s.world.IsComplete) :
    (onStops waits tires).Holds s := ⟨trivial, fun _ _ _ => trivial, h⟩

variable {P : Pact}

theorem Fits.nil : P.Fits [] := by
  intro key v h
  cases h

theorem Fits.put {frame : Frame} (h : P.Fits frame) {v : Value} (hv : P.value v) (key : String) :
    P.Fits (frame.put key v) := by
  intro other w hw
  rw [Table.get?_put] at hw
  split at hw
  · cases hw
    exact hv
  · exact h other w hw

/-- The frame of a call fits if the arguments do. -/
theorem Fits.parameterFrame (parameters : List String) {args : List Value}
    (h : ∀ v ∈ args, P.value v) : P.Fits (Run.parameterFrame parameters args) := by
  have hfold : ∀ (bound : List (String × Value)) (frame : Frame), (∀ b ∈ bound, P.value b.2) →
      P.Fits frame →
      P.Fits (bound.foldl (fun frame b => frame.put (Text.lower b.1) b.2) frame) := by
    intro bound
    induction bound with
    | nil => exact fun frame _ hframe => hframe
    | cons b bound ih =>
      intro frame hb hframe
      rw [List.forall_mem_cons] at hb
      exact ih _ hb.2 (hframe.put hb.1 _)
  exact hfold _ [] (fun b hb => h _ (List.of_mem_zip hb).2) Fits.nil

end Pact

/-! ### What operations on values yield -/

/-- What a computation on values yields if it does not fail. -/
def Yields {α : Type} (good : α → Prop) (r : Except Fault α) : Prop := ∀ a, r = .ok a → good a

namespace Yields

variable {α β : Type} {P : Pact} {σ : Store}

theorem any (r : Except Fault α) : Yields (fun _ => True) r := fun _ _ => trivial

theorem ok {good : α → Prop} {a : α} (h : good a) : Yields good (.ok a) := by
  rintro _ ⟨⟩
  exact h

theorem error {good : α → Prop} {fault : Fault} : Yields good (.error fault : Except Fault α) :=
  nofun

theorem bind {good : β → Prop} {r : Except Fault α} {f : α → Except Fault β}
    (h : ∀ a, r = .ok a → Yields good (f a)) : Yields good (r >>= f) := by
  intro b hb
  obtain ⟨a, ha, hfa⟩ := except_bind_eq_ok.mp hb
  exact h a ha b hfa

/-- A pair of operands is turned into a pair of something plain, and this into a plain value. -/
theorem pair {γ : Type} {r : Except Fault α} {q : Except Fault β} {f : α → β → γ}
    {good : γ → Prop} (h : ∀ a b, good (f a b)) :
    Yields good (do
      let a ← r
      let b ← q
      return f a b) :=
  bind fun a _ => bind fun b _ => ok (h a b)

theorem compare (texts : String → String → Bool) (numbers : Number → Number → Bool) (x y : Value) :
    Yields P.value (σ.compare texts numbers x y) := by
  unfold Store.compare
  split
  · exact pair fun _ _ => P.plain _ nofun
  · exact pair fun _ _ => P.plain _ nofun

theorem applyBinary (op : BinaryOp) (x y : Value) : Yields P.value (σ.applyBinary op x y) := by
  cases op with
  | or | and => exact ok (P.plain _ nofun)
  | equal | unequal => exact bind fun _ _ => ok (P.plain _ nofun)
  | less | lessEqual | greater | greaterEqual => exact compare _ _ x y
  | subtract | multiply | divide => exact pair fun _ _ => P.plain _ nofun
  | add =>
    simp only [Store.applyBinary, Store.add]
    split
    · exact pair fun _ _ => P.plain _ nofun
    · exact pair fun _ _ => P.plain _ nofun
  | remainder =>
    refine bind fun a _ => bind fun b _ => ?_
    split
    · exact ok (P.plain _ nofun)
    · exact ok (P.plain _ nofun)

theorem applyUnary (op : UnaryOp) {x : Value} (hx : P.value x) :
    Yields P.value (σ.applyUnary op x) := by
  cases op with
  | not => exact ok (P.plain _ nofun)
  | minus => exact bind fun _ _ => ok (P.plain _ nofun)
  | plus => exact ok hx

theorem addressOf {use : ListUse} {v : Value} (hv : P.value v) :
    Yields (fun a => P.value (.list a)) (Store.addressOf use v) := by
  unfold Store.addressOf
  split
  · exact ok hv
  · exact error

theorem getAt (hσ : P.store σ) {target : Value} (ht : P.value target) (index : Value) :
    Yields P.value (σ.getAt target index) := by
  refine bind fun a ha => bind fun i _ => ok ?_
  rw [Array.getD_eq_getD_getElem?]
  cases hi : (σ.elements a)[i]? with
  | none => exact P.plain _ nofun
  | some v => exact P.element hσ (addressOf ht a ha) v (Array.mem_of_getElem? hi)

theorem items (hσ : P.store σ) {source : Value} (hs : P.value source) :
    Yields (fun vs => ∀ v ∈ vs, P.value v) (σ.items source) := by
  refine bind fun a ha => ok fun v hv => ?_
  exact P.element hσ (addressOf hs a ha) v (Array.mem_toList_iff.mp hv)

theorem setAt (hσ : P.store σ) {target value : Value} (ht : P.value target) (index : Value)
    (hv : P.value value) : Yields P.store (σ.setAt target index value) := by
  refine bind fun a ha => bind fun i _ => ok ?_
  refine P.update hσ (addressOf ht a ha) fun w hw => ?_
  rcases Array.mem_or_eq_of_mem_setIfInBounds hw with hw | rfl
  · exact P.element hσ (addressOf ht a ha) w hw
  · exact hv

theorem append (hσ : P.store σ) {target value : Value} (ht : P.value target) (hv : P.value value) :
    Yields P.store (σ.append target value) := by
  refine bind fun a ha => ok (P.update hσ (addressOf ht a ha) fun w hw => ?_)
  rcases Array.mem_push.mp hw with hw | rfl
  · exact P.element hσ (addressOf ht a ha) w hw
  · exact hv

theorem without (shown : String) (vs : List Value) :
    Yields (fun kept => ∀ v ∈ kept, v ∈ vs) (σ.without shown vs) := by
  induction vs with
  | nil => exact ok fun _ => id
  | cons v vs ih =>
    refine bind fun text _ => bind fun rest hrest => ok fun w hw => ?_
    split at hw
    · exact List.mem_cons_of_mem v (ih rest hrest w hw)
    · rcases List.mem_cons.mp hw with rfl | hw
      · exact List.mem_cons_self
      · exact List.mem_cons_of_mem v (ih rest hrest w hw)

theorem remove (hσ : P.store σ) {target : Value} (ht : P.value target) (value : Value) :
    Yields P.store (σ.remove target value) := by
  refine bind fun a ha => bind fun shown _ => bind fun kept hkept => ok ?_
  refine P.update hσ (addressOf ht a ha) fun w hw => ?_
  have hmem := without shown _ kept hkept w (List.mem_toArray.mp hw)
  exact P.element hσ (addressOf ht a ha) w (Array.mem_toList_iff.mp hmem)

theorem lengthOf (v : Value) : Yields P.value (Run.lengthOf σ v) := by
  unfold Run.lengthOf
  split
  · exact ok (P.plain _ nofun)
  · exact ok (P.plain _ nofun)
  · exact bind fun _ _ => ok (P.plain _ nofun)

theorem rangeOf (first last : Value) :
    Yields (fun vs => ∀ v ∈ vs, P.value v) (Run.rangeOf σ first last) := by
  refine bind fun p _ => bind fun q _ => ?_
  split
  · refine ok fun v hv => ?_
    obtain ⟨i, _, rfl⟩ := List.mem_map.mp hv
    exact P.plain _ nofun
  · exact bind fun _ _ => bind fun _ _ => error

end Yields

namespace Run

/-- A run that starts under a pact ends under it, with a good result or an allowed stop. -/
def Keeps {α : Type} (P : Pact) (inside : Bool) (good : α → Prop) (x : Run α) : Prop :=
  ∀ s, P.Holds s → P.Holds (x s).2 ∧ P.Ends inside good (x s).1

namespace Keeps

variable {α β : Type} {P : Pact} {inside : Bool} {good : α → Prop}

theorem mono {x : Run α} (h : Keeps P false good x) : Keeps P inside good x := by
  intro s hs
  refine ⟨(h s hs).1, ?_⟩
  have hend := (h s hs).2
  cases hr : (x s).1 with
  | ok a =>
    rw [hr] at hend
    exact hend
  | error e =>
    rw [hr] at hend
    cases e with
    | returned v => cases hend.1
    | fault | exhausted | waiting => exact hend

theorem pure {a : α} (h : good a) : Keeps P inside good (Pure.pure a : Run α) := fun _ hs => ⟨hs, h⟩

theorem bind {good' : β → Prop} {x : Run α} {f : α → Run β} (hx : Keeps P inside good x)
    (hf : ∀ a, good a → Keeps P inside good' (f a)) : Keeps P inside good' (x >>= f) := by
  intro s hs
  have h := hx s hs
  rw [Run.bind_apply]
  cases hr : x s with
  | mk r after =>
    rw [hr] at h
    cases r with
    | ok a => exact hf a h.2 after h.1
    | error e => exact h

theorem stop {e : Stop} (h : P.Allows inside e) : Keeps P inside good (Run.stop e : Run α) :=
  fun _ hs => ⟨hs, h⟩

theorem fail (offset : Nat) (fault : Fault) :
    Keeps P inside good (Run.fail offset fault : Run α) := stop trivial

theorem getState : Keeps P inside (fun _ => True) getState := fun _ hs => ⟨hs, trivial⟩

/-- A change of what a pact says nothing about. -/
theorem change {f : State → State} (hstore : ∀ s, (f s).store = s.store)
    (hframe : ∀ s, (f s).frame = s.frame) (hworld : ∀ s, (f s).world = s.world) :
    Keeps P inside (fun _ => True) (change f) := by
  intro s hs
  have h : P.Holds (f s) :=
    ⟨hstore s ▸ hs.store, hframe s ▸ hs.frame, fun hw => hworld s ▸ hs.world hw⟩
  exact ⟨h, trivial⟩

theorem write (text : String) : Keeps P inside (fun _ => True) (write text) :=
  change (fun _ => rfl) (fun _ => rfl) fun _ => rfl

theorem note (line : String) : Keeps P inside (fun _ => True) (note line) :=
  change (fun _ => rfl) (fun _ => rfl) fun _ => rfl

theorem assign (name : String) {v : Value} (h : P.value v) :
    Keeps P inside (fun _ => True) (assign name v) :=
  fun _ hs => ⟨⟨hs.store, hs.frame.put h _, hs.world⟩, trivial⟩

theorem lookup (name : String) (offset : Nat) : Keeps P inside P.value (lookup name offset) := by
  intro s hs
  unfold Run.lookup
  split
  · next v hv => exact ⟨hs, hs.frame _ v hv⟩
  · exact ⟨hs, trivial⟩

theorem fromStore {offset : Nat} {f : Store → Except Fault α}
    (h : ∀ σ, P.store σ → Yields good (f σ)) : Keeps P inside good (fromStore offset f) := by
  intro s hs
  unfold Run.fromStore
  cases hr : f s.store with
  | ok a => exact ⟨hs, h _ hs.store a hr⟩
  | error fault => exact ⟨hs, trivial⟩

theorem changeStore {offset : Nat} {f : Store → Except Fault Store}
    (h : ∀ σ, P.store σ → Yields P.store (f σ)) :
    Keeps P inside (fun _ => True) (changeStore offset f) := by
  intro s hs
  unfold Run.changeStore
  cases hr : f s.store with
  | ok σ => exact ⟨⟨h _ hs.store σ hr, hs.frame, hs.world⟩, trivial⟩
  | error fault => exact ⟨hs, trivial⟩

theorem newList {items : Array Value} (h : ∀ v ∈ items, P.value v) :
    Keeps P inside P.value (newList items) := by
  intro s hs
  obtain ⟨hstore, hvalue⟩ := P.alloc hs.store h
  exact ⟨⟨hstore, hs.frame, hs.world⟩, hvalue⟩

theorem within {frame : Frame} {body : Run α} (hframe : P.Fits frame)
    (h : Keeps P inside good body) : Keeps P inside good (within frame body) := by
  intro s hs
  obtain ⟨hafter, hend⟩ := h { s with frame := frame } ⟨hs.store, hframe, hs.world⟩
  exact ⟨⟨hafter.store, hs.frame, hafter.world⟩, hend⟩

/-- The value that a body gives back becomes the result of the call. -/
theorem catchReturn {body : Run Unit} (h : Keeps P true (fun _ => True) body) :
    Keeps P inside P.value (catchReturn body) := by
  intro s hs
  have hbody := h s hs
  unfold Run.catchReturn
  cases hr : body s with
  | mk r after =>
    rw [hr] at hbody
    cases r with
    | ok u => exact ⟨hbody.1, P.plain _ nofun⟩
    | error e =>
      cases e with
      | returned v => exact ⟨hbody.1, hbody.2.2⟩
      | fault | exhausted | waiting => exact hbody

/-! ### Loops and traces -/

theorem loop (hP : P.tires) {test : Run Bool} {body : Run Unit}
    (ht : Keeps P inside (fun _ => True) test) (hb : Keeps P inside (fun _ => True) body)
    (rounds : Nat) : Keeps P inside (fun _ => True) (loop test body rounds) := by
  induction rounds with
  | zero => exact stop hP
  | succ rounds ih =>
    refine ht.bind fun b _ => ?_
    cases b with
    | true => exact hb.bind fun _ _ => ih
    | false => exact pure trivial

theorem times {body : Run Unit} (h : Keeps P inside (fun _ => True) body) (n : Nat) :
    Keeps P inside (fun _ => True) (times body n) := by
  induction n with
  | zero => exact pure trivial
  | succ n ih => exact h.bind fun _ _ => ih

theorem timesWithin (hP : P.tires) {body : Run Unit} (h : Keeps P inside (fun _ => True) body)
    (rounds n : Nat) : Keeps P inside (fun _ => True) (timesWithin body rounds n) := by
  refine (times h _).bind fun _ _ => ?_
  split
  · exact stop hP
  · exact pure trivial

theorem forAll {body : Value → Run Unit}
    (h : ∀ v, P.value v → Keeps P inside (fun _ => True) (body v)) {vs : List Value}
    (hvs : ∀ v ∈ vs, P.value v) : Keeps P inside (fun _ => True) (forAll body vs) := by
  induction vs with
  | nil => exact pure trivial
  | cons v vs ih =>
    rw [List.forall_mem_cons] at hvs
    exact (h v hvs.1).bind fun _ _ => ih hvs.2

theorem heed (c : Context) (offset : Nat) : Keeps P inside (fun _ => True) (heed c offset) := by
  intro s hs
  unfold Run.heed
  split
  · exact ⟨hs, trivial⟩
  · exact ⟨hs, trivial⟩

theorem enter (c : Context) (kind : NodeKind) (offset : Nat) :
    Keeps P inside (fun _ => True) (enter c kind offset) := by
  refine (heed c offset).bind fun _ _ => ?_
  split
  · exact note _
  · exact pure trivial

theorem noteCall (c : Context) (name : String) (args : List Value) :
    Keeps P inside (fun _ => True) (noteCall c name args) := by
  unfold Run.noteCall
  split
  · exact (fromStore fun _ _ => .any _).bind fun _ _ => note _
  · exact pure trivial

/-! ### Built-in functions -/

theorem readLine : Keeps P inside (fun _ => True) readLine := by
  intro s hs
  unfold Run.readLine
  split
  · exact ⟨⟨hs.store, hs.frame, fun hw => ⟨(hs.world hw).1, (hs.world hw).2⟩⟩, trivial⟩
  · split
    · next hopen =>
      refine ⟨hs, Classical.byContradiction fun hw => ?_⟩
      rw [(hs.world hw).inputClosed] at hopen
      cases hopen
    · exact ⟨hs, trivial⟩

theorem knowing {path : String} {body : Run α} (h : Keeps P inside good body) :
    Keeps P inside good (knowing path body) := by
  intro s hs
  unfold Run.knowing
  split
  · exact h s hs
  · next hknows =>
    refine ⟨hs, Classical.byContradiction fun hw => hknows ?_⟩
    rw [World.knows, (hs.world hw).surveyed]

theorem readFile (offset : Nat) (path : String) :
    Keeps P inside (fun _ => True) (readFile offset path) := by
  refine knowing fun s hs => ?_
  split
  · exact ⟨hs, trivial⟩
  · exact ⟨hs, trivial⟩

theorem storeFile (place : List String) (text : String) :
    Keeps P inside (fun _ => True) (storeFile place text) :=
  fun _ hs => ⟨⟨hs.store, hs.frame, fun hw => ⟨(hs.world hw).1, (hs.world hw).2⟩⟩, trivial⟩

theorem writeFile (offset : Nat) (path : String) (content : Value) :
    Keeps P inside (fun _ => True) (writeFile offset path content) := by
  refine knowing fun s hs => ?_
  split
  · exact ⟨hs, trivial⟩
  · next place _ =>
    have hwrite : Keeps P inside (fun _ => True) (do
        Run.storeFile place ""
        let text ← Run.fromStore offset (·.toText content)
        Run.storeFile place text) :=
      (storeFile place "").bind fun _ _ =>
        (fromStore fun _ _ => .any _).bind fun text _ => storeFile place text
    exact hwrite s hs

theorem clock : Keeps P inside (fun _ => True) clock := fun _ hs => ⟨hs, trivial⟩

theorem builtin (b : Builtin) (args : List Value) (offset : Nat) :
    Keeps P inside P.value (builtin b args offset) := by
  have htext : ∀ v : Value, Keeps P inside (fun _ => True) (Run.fromStore offset (·.toText v)) :=
    fun v => fromStore fun _ _ => .any _
  have hrange : ∀ first last : Value, Keeps P inside (fun vs => ∀ v ∈ vs, P.value v)
      (Run.fromStore offset (rangeOf · first last)) := fun _ _ => fromStore fun _ _ => .rangeOf _ _
  unfold Run.builtin
  split
  · exact fromStore fun _ _ => .lengthOf _
  · exact (hrange _ _).bind fun vs hvs => newList fun v hv => hvs v (List.mem_toArray.mp hv)
  · exact (fromStore fun _ _ => .any _).bind fun _ _ => pure (P.plain _ nofun)
  · exact (htext _).bind fun _ _ => pure (P.plain _ nofun)
  · exact fromStore fun _ _ => .ok (P.plain _ nofun)
  · refine (htext _).bind fun _ _ => (write _).bind fun _ _ => readLine.bind fun _ _ => ?_
    exact pure (P.plain _ nofun)
  · exact clock.bind fun _ _ => pure (P.plain _ nofun)
  · exact (htext _).bind fun _ _ => clock.bind fun _ _ => pure (P.plain _ nofun)
  · exact (htext _).bind fun _ _ => (readFile offset _).bind fun _ _ => pure (P.plain _ nofun)
  · exact (htext _).bind fun _ _ => (writeFile offset _ _).bind fun _ _ => pure (P.plain _ nofun)
  · exact fail _ _

theorem checkCount (name : String) (expected got offset : Nat) :
    Keeps P inside (fun _ => True) (checkCount name expected got offset) := by
  unfold Run.checkCount
  split
  · exact pure trivial
  · exact fail _ _

theorem callBuiltin (b : Builtin) (called : String) (args : List Value) (offset : Nat) :
    Keeps P inside P.value (callBuiltin b called args offset) :=
  (checkCount called _ _ offset).bind fun _ _ => builtin b args offset

end Keeps

/-- Calls of declared functions with values of the pact keep it. -/
def InvokesKeeping (P : Pact) (invoke : Invoke) : Prop :=
  ∀ d args, (∀ v ∈ args, P.value v) → Keeps P false P.value (invoke d args)

variable {P : Pact} {c : Context} {invoke : Invoke}

theorem call_keeps (hi : InvokesKeeping P invoke) (name : String) {args : List Value}
    (h : ∀ v ∈ args, P.value v) (offset : Nat) :
    Keeps P false P.value (call c invoke name args offset) := by
  unfold call
  split
  · exact .callBuiltin _ name args offset
  · split
    · exact .fail _ _
    · next d _ => exact (Keeps.checkCount _ _ _ offset).bind fun _ _ => hi d args h

end Run

open Run

variable {P : Pact} {c : Context} {invoke : Invoke} {inside : Bool}

mutual

theorem Expr.eval_keeps (hi : InvokesKeeping P invoke) :
    (e : Expr) → Keeps P false P.value (e.eval c invoke)
  | .number .. | .text .. | .truth .. => Keeps.pure (P.plain _ nofun)
  | .name n o => Keeps.lookup n o
  | .unary op x o => by
    rw [Expr.eval]
    exact (Expr.eval_keeps hi x).bind fun v hv => .fromStore fun _ _ => .applyUnary op hv
  | .binary op l r o => by
    rw [Expr.eval]
    refine (Expr.eval_keeps hi l).bind fun x _ => (Expr.eval_keeps hi r).bind fun y _ => ?_
    exact .fromStore fun _ _ => .applyBinary op x y
  | .call f args o => by
    rw [Expr.eval]
    refine (Expr.evalAll_keeps hi args).bind fun vs hvs => ?_
    exact (Keeps.noteCall c f vs).bind fun _ _ => call_keeps hi f hvs o
  | .index t i o => by
    rw [Expr.eval]
    refine (Expr.eval_keeps hi t).bind fun x hx => (Expr.eval_keeps hi i).bind fun y _ => ?_
    exact .fromStore fun _ hσ => .getAt hσ hx y
  | .list items _ => by
    rw [Expr.eval]
    refine (Expr.evalAll_keeps hi items).bind fun vs hvs => .newList fun v hv => ?_
    exact hvs v (List.mem_toArray.mp hv)

theorem Expr.evalAll_keeps (hi : InvokesKeeping P invoke) :
    (es : List Expr) → Keeps P false (fun vs => ∀ v ∈ vs, P.value v) (Expr.evalAll c invoke es)
  | [] => Keeps.pure fun v hv => by cases hv
  | e :: es => by
    rw [Expr.evalAll]
    refine (Expr.eval_keeps hi e).bind fun v hv => (Expr.evalAll_keeps hi es).bind fun vs hvs => ?_
    exact .pure (List.forall_mem_cons.mpr ⟨hv, hvs⟩)

end

theorem Target.assign_keeps (hi : InvokesKeeping P invoke) (t : Target) (value : Expr) :
    Keeps P false (fun _ => True) (t.assign c invoke value) := by
  cases t with
  | name n o => exact (Expr.eval_keeps hi value).bind fun v hv => .assign n hv
  | element list i o =>
    refine (Keeps.lookup list o).bind fun owner howner => ?_
    refine (Expr.eval_keeps hi i).bind fun index _ => (Expr.eval_keeps hi value).bind fun v hv => ?_
    exact .changeStore fun _ hσ => .setAt hσ howner index hv

mutual

/-- A statement keeps every pact; one without a `return` does not give back a value. -/
theorem Stmt.exec_keeps (hP : P.tires) (hi : InvokesKeeping P invoke) :
    (s : Stmt) → (s.returns = true → inside = true) →
      Keeps P inside (fun _ => True) (s.exec c invoke)
  | .letBe n v o, _ => by
    rw [Stmt.exec]
    exact (Expr.eval_keeps hi v).mono.bind fun x hx => .assign n hx
  | .setTo t v o, _ => by
    rw [Stmt.exec]
    exact (Target.assign_keeps hi t v).mono
  | .say v o, _ => by
    rw [Stmt.exec]
    refine (Expr.eval_keeps hi v).mono.bind fun x _ => ?_
    exact (Keeps.fromStore fun _ _ => .any _).bind fun text _ => .write _
  | .ifThen e a b o, h => by
    rw [Stmt.returns, Bool.or_eq_true] at h
    rw [Stmt.exec]
    refine (Expr.eval_keeps hi e).mono.bind fun x _ => Keeps.getState.bind fun s _ => ?_
    split
    · exact Stmt.execAll_keeps hP hi a fun ha => h (.inl ha)
    · exact Stmt.execAll_keeps hP hi b fun hb => h (.inr hb)
  | .whileDo e b o, h => by
    rw [Stmt.returns] at h
    rw [Stmt.exec]
    refine Keeps.loop hP ?_ ?_ _
    · exact (Expr.eval_keeps hi e).mono.bind fun x _ => Keeps.getState.bind fun s _ => .pure trivial
    · exact (Keeps.heed c o).bind fun _ _ => Stmt.execAll_keeps hP hi b h
  | .repeatTimes e b o, h => by
    rw [Stmt.returns] at h
    rw [Stmt.exec]
    refine (Expr.eval_keeps hi e).mono.bind fun x _ => ?_
    refine (Keeps.fromStore fun _ _ => .any _).bind fun n _ => ?_
    cases n with
    | none => exact .pure trivial
    | some n =>
      exact .timesWithin hP ((Keeps.heed c o).bind fun _ _ => Stmt.execAll_keeps hP hi b h) _ _
  | .forEach n e b o, h => by
    rw [Stmt.returns] at h
    rw [Stmt.exec]
    refine (Expr.eval_keeps hi e).mono.bind fun x hx => ?_
    refine (Keeps.fromStore fun _ hσ => .items hσ hx).bind fun vs hvs => ?_
    refine Keeps.forAll (fun v hv => ?_) hvs
    exact (Keeps.heed c o).bind fun _ _ => (Keeps.assign n hv).bind fun _ _ =>
      Stmt.execAll_keeps hP hi b h
  | .append v list o, _ => by
    rw [Stmt.exec]
    refine (Expr.eval_keeps hi v).mono.bind fun x hx => (Keeps.lookup list o).bind fun t ht => ?_
    exact .changeStore fun _ hσ => .append hσ ht hx
  | .remove v list o, _ => by
    rw [Stmt.exec]
    refine (Expr.eval_keeps hi v).mono.bind fun x _ => (Keeps.lookup list o).bind fun t ht => ?_
    exact .changeStore fun _ hσ => .remove hσ ht x
  | .giveBack v o, h => by
    rw [Stmt.exec]
    exact (Expr.eval_keeps hi v).mono.bind fun x hx => .stop ⟨h rfl, hx⟩
  | .evaluate v o, _ => by
    rw [Stmt.exec]
    exact (Expr.eval_keeps hi v).mono.bind fun x _ => .pure trivial

theorem Stmt.execAll_keeps (hP : P.tires) (hi : InvokesKeeping P invoke) :
    (ss : List Stmt) → (Stmt.returnsAny ss = true → inside = true) →
      Keeps P inside (fun _ => True) (Stmt.execAll c invoke ss)
  | [], _ => Keeps.pure trivial
  | s :: ss, h => by
    rw [Stmt.returnsAny, Bool.or_eq_true] at h
    rw [Stmt.execAll]
    exact (Keeps.enter c _ _).bind fun _ _ => (Stmt.exec_keeps hP hi s fun hs => h (.inl hs)).bind
      fun _ _ => Stmt.execAll_keeps hP hi ss fun hss => h (.inr hss)

end

namespace Run

/-- Calls keep every pact, however deep: the body of a call starts with the arguments only. -/
theorem invoke_keeps (hP : P.tires) (depth : Nat) : InvokesKeeping P (Run.invoke c depth) := by
  induction depth with
  | zero => exact fun d args _ => .fail _ _
  | succ depth ih =>
    intro d args hargs
    exact .within (.parameterFrame d.parameters hargs)
      (.catchReturn (Stmt.execAll_keeps hP ih d.body fun _ => rfl))

end Run
end Parlance
