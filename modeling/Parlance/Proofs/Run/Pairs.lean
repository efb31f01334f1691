import Parlance.Run.Evaluate
/-!
# Two runs of one program

A run computes with the store, the variables and the world, its data. The halt flag, the count of
writes, the texts written and the trace it meets in few places: where it writes, where it heeds the
flag and where it keeps a trace. So a relation between runs that holds in these places, holds of
whatever touches the data only, and goes through sequences, frames, calls and loops, holds between
the runs of any program in two contexts with the same functions (`Correspondence.statements`). Loops
need no more than sequences if both contexts let them make the same number of rounds
(`Congruence.statements`).
-/
namespace Parlance

/-- What a run computes with. -/
structure Data where
  store : Store
  frame : Frame
  world : World

def State.data (s : State) : Data := ⟨s.store, s.frame, s.world⟩

def State.withData (s : State) (d : Data) : State :=
  { s with store := d.store, frame := d.frame, world := d.world }

/-- The state with the data alone. -/
def Data.state (d : Data) : State :=
  { store := d.store
    frame := d.frame
    world := d.world
    halted := false
    haltAfter := none
    written := []
    trace := [] }

namespace Run

variable {α β : Type}

/-- The run looks at the data only and changes the data only. -/
def OnData (x : Run α) : Prop :=
  ∀ s, x s = ((x s.data.state).1, s.withData (x s.data.state).2.data)

namespace OnData

theorem pure (a : α) : OnData (Pure.pure a : Run α) := fun _ => rfl

theorem stop (e : Stop) : OnData (Run.stop e : Run α) := fun _ => rfl

theorem fail (offset : Nat) (fault : Fault) : OnData (Run.fail offset fault : Run α) := stop _

theorem bind {x : Run α} {f : α → Run β} (hx : OnData x) (hf : ∀ a, OnData (f a)) :
    OnData (x >>= f) := by
  intro s
  rw [bind_apply, bind_apply, hx s]
  rcases x s.data.state with ⟨e | a, after⟩
  · rfl
  · have hsecond := hf a (s.withData after.data)
    have hdata : (s.withData after.data).data = after.data := rfl
    simp only [hsecond, hf a after, hdata]
    rfl

/-- A run that has two ways to go and chooses by the data. -/
theorem cond {x y : Run α} (p : Data → Bool) (hx : OnData x) (hy : OnData y) :
    OnData fun s => if p s.data then x s else y s := by
  intro s
  have hdata : s.data.state.data = s.data := rfl
  simp only [hdata]
  split
  · exact hx s
  · exact hy s

theorem fromStore (offset : Nat) (f : Store → Except Fault α) :
    OnData (Run.fromStore offset f) := by
  intro s
  have hstore : s.data.state.store = s.store := rfl
  simp only [Run.fromStore, hstore]
  cases f s.store with
  | ok a => rfl
  | error fault => rfl

theorem changeStore (offset : Nat) (f : Store → Except Fault Store) :
    OnData (Run.changeStore offset f) := by
  intro s
  have hstore : s.data.state.store = s.store := rfl
  simp only [Run.changeStore, hstore]
  cases f s.store with
  | ok store => rfl
  | error fault => rfl

theorem newList (items : Array Value) : OnData (Run.newList items) := fun _ => rfl

theorem assign (name : String) (v : Value) : OnData (Run.assign name v) := fun _ => rfl

theorem lookup (name : String) (offset : Nat) : OnData (Run.lookup name offset) := by
  intro s
  have hframe : s.data.state.frame = s.frame := rfl
  simp only [Run.lookup, hframe]
  cases s.frame.get? (Text.lower name) with
  | some v => rfl
  | none => rfl

/-- What a value counts as when a condition is tested. -/
theorem toTruth (v : Value) : OnData (do return (← getState).store.toTruth v) := fun _ => rfl

theorem clock : OnData clock := fun _ => rfl

theorem readLine : OnData readLine := by
  intro s
  have hworld : s.data.state.world = s.world := rfl
  simp only [Run.readLine, hworld]
  cases s.world.input with
  | cons line rest => rfl
  | nil =>
    cases s.world.inputOpen with
    | true => rfl
    | false => rfl

theorem knowing (path : String) {x : Run α} (hx : OnData x) : OnData (knowing path x) :=
  cond (fun d => d.world.knows path) hx (stop (.waiting (.path path)))

theorem readFile (offset : Nat) (path : String) : OnData (readFile offset path) := by
  apply knowing
  intro s
  have hworld : s.data.state.world = s.world := rfl
  simp only [hworld]
  cases s.world.files.readText path with
  | ok cs => rfl
  | error reason => rfl

theorem storeFile (place : List String) (text : String) : OnData (storeFile place text) :=
  fun _ => rfl

theorem writeFile (offset : Nat) (path : String) (content : Value) :
    OnData (writeFile offset path content) := by
  apply knowing
  intro s
  have hworld : s.data.state.world = s.world := rfl
  simp only [hworld]
  cases s.world.files.writable path with
  | error reason => rfl
  | ok place =>
    have hfill : OnData (do
        Run.storeFile place ""
        let text ← Run.fromStore offset (·.toText content)
        Run.storeFile place text) := by
      apply (storeFile place "").bind
      intro _
      exact (fromStore offset _).bind fun text => storeFile place text
    exact hfill s

theorem checkCount (name : String) (expected got offset : Nat) :
    OnData (checkCount name expected got offset) := by
  unfold Run.checkCount
  split
  · exact pure ()
  · exact fail _ _

end OnData

/-! ### What a run leaves behind -/

/-- From every state the run comes to a state that is related to it, whatever its outcome. -/
def Advances (r : State → State → Prop) (x : Run α) : Prop := ∀ s, r s (x s).2

theorem Advances.bind {r : State → State → Prop} (htrans : ∀ s t u, r s t → r t u → r s u)
    {x : Run α} {f : α → Run β} (hx : Advances r x) (hf : ∀ a, Advances r (f a)) :
    Advances r (x >>= f) := by
  intro s
  have hfirst := hx s
  rw [bind_apply]
  generalize x s = q at hfirst
  rcases q with ⟨e | a, after⟩
  · exact hfirst
  · exact htrans s after _ hfirst (hf a after)

/-- The end of a sequence is related to the end of its first part. -/
theorem Advances.second {r : State → State → Prop} (hrefl : ∀ s, r s s) (x : Run α)
    {f : α → Run β} (hf : ∀ a, Advances r (f a)) (s : State) : r (x s).2 ((x >>= f) s).2 := by
  rw [bind_apply]
  rcases x s with ⟨e | a, after⟩
  · exact hrefl after
  · exact hf a after

theorem catchReturn_snd (x : Run Unit) (s : State) : (catchReturn x s).2 = (x s).2 := by
  unfold catchReturn
  split
  · next h => rw [h]
  · next h => rw [h]
  · next h => rw [h]

/-- A run that stops at a fault stops a sequence, and the call whose body it is. -/
theorem bind_of_fault {x : Run α} {s : State} {fault : Fault} {offset : Nat}
    (h : (x s).1 = .error (.fault fault offset)) (f : α → Run β) :
    (x >>= f) s = (.error (.fault fault offset), (x s).2) := by
  rw [bind_apply]
  rcases hr : x s with ⟨r, after⟩
  rw [hr] at h
  cases h
  rfl

theorem catchReturn_of_fault {x : Run Unit} {s : State} {fault : Fault} {offset : Nat}
    (h : (x s).1 = .error (.fault fault offset)) :
    catchReturn x s = (.error (.fault fault offset), (x s).2) := by
  unfold catchReturn
  rcases hr : x s with ⟨r, after⟩
  rw [hr] at h
  cases h
  rfl

/-! ### Relations between runs -/

/-- A relation between runs that holds between equal results and goes through sequences. -/
structure Sequential (R : ∀ {α : Type}, Run α → Run α → Prop) : Prop where
  pure : ∀ {α : Type} (a : α), R (Pure.pure a : Run α) (Pure.pure a)
  exhausted : R (Run.stop .exhausted : Run Unit) (Run.stop .exhausted)
  toTruth : ∀ v, R (do return (← getState).store.toTruth v) (do return (← getState).store.toTruth v)
  bind : ∀ {α β : Type} {x y : Run α} {f g : α → Run β}, R x y → (∀ a, R (f a) (g a)) →
    R (x >>= f) (y >>= g)

namespace Sequential

variable {R : ∀ {α : Type}, Run α → Run α → Prop} (h : Sequential R) {body body' : Run Unit}
include h

theorem loop {test test' : Run Bool} (ht : R test test') (hb : R body body') (rounds : Nat) :
    R (Run.loop test body rounds) (Run.loop test' body' rounds) := by
  induction rounds with
  | zero => exact h.exhausted
  | succ rounds ih =>
    apply h.bind ht
    intro b
    cases b with
    | true => exact h.bind hb fun _ => ih
    | false => exact h.pure ()

theorem times (hb : R body body') (n : Nat) : R (Run.times body n) (Run.times body' n) := by
  induction n with
  | zero => exact h.pure ()
  | succ n ih => exact h.bind hb fun _ => ih

theorem timesWithin (hb : R body body') (rounds n : Nat) :
    R (Run.timesWithin body rounds n) (Run.timesWithin body' rounds n) := by
  apply h.bind (h.times hb _)
  intro _
  split
  · exact h.exhausted
  · exact h.pure ()

theorem forAll {body body' : Value → Run Unit} (hb : ∀ v, R (body v) (body' v))
    (vs : List Value) : R (Run.forAll body vs) (Run.forAll body' vs) := by
  induction vs with
  | nil => exact h.pure ()
  | cons v vs ih => exact h.bind (hb v) fun _ => ih

/-- A value decides between two ways to go on. -/
theorem whether (v : Value) {other other' : Run Unit} (hb : R body body')
    (ho : R other other') :
    R (do if (← getState).store.toTruth v then body else other)
      (do if (← getState).store.toTruth v then body' else other') := by
  have hboth := h.bind (h.toTruth v) (f := fun b => if b then body else other)
    (g := fun b => if b then body' else other') fun b => by
      cases b with
      | true => exact hb
      | false => exact ho
  exact hboth

end Sequential

/-- A relation between the runs in two contexts that all constructs of the language keep up, loops
with the rounds that each context gives them. -/
structure Correspondence (R : ∀ {α : Type}, Run α → Run α → Prop) (c c' : Context) : Prop where
  functions : c'.functions = c.functions
  onData : ∀ {α : Type} {x : Run α}, OnData x → R x x
  bind : ∀ {α β : Type} {x y : Run α} {f g : α → Run β}, R x y → (∀ a, R (f a) (g a)) →
    R (x >>= f) (y >>= g)
  within : ∀ {α : Type} (frame : Frame) {x y : Run α}, R x y →
    R (Run.within frame x) (Run.within frame y)
  catchReturn : ∀ {x y : Run Unit}, R x y → R (Run.catchReturn x) (Run.catchReturn y)
  loop : ∀ {test test' : Run Bool} {x y : Run Unit}, R test test' → R x y →
    R (Run.loop test x c.rounds) (Run.loop test' y c'.rounds)
  timesWithin : ∀ {x y : Run Unit}, R x y → ∀ n : Nat,
    R (Run.timesWithin x c.rounds n) (Run.timesWithin y c'.rounds n)
  write : ∀ text : String, R (Run.write text) (Run.write text)
  heed : ∀ offset : Nat, R (Run.heed c offset) (Run.heed c' offset)
  enter : ∀ (kind : NodeKind) (offset : Nat), R (Run.enter c kind offset) (Run.enter c' kind offset)
  noteCall : ∀ (name : String) (args : List Value),
    R (Run.noteCall c name args) (Run.noteCall c' name args)

namespace Correspondence

variable {R : ∀ {α : Type}, Run α → Run α → Prop} {c c' : Context}

theorem sequential (h : Correspondence R c c') : Sequential R where
  pure _ := h.onData (.pure _)
  exhausted := h.onData (.stop _)
  toTruth v := h.onData (.toTruth v)
  bind := h.bind

theorem pure (h : Correspondence R c c') (a : α) : R (Pure.pure a : Run α) (Pure.pure a) :=
  h.onData (.pure a)

/-! ### Calls -/

theorem builtin (h : Correspondence R c c') (b : Builtin) (args : List Value) (offset : Nat) :
    R (Run.builtin b args offset) (Run.builtin b args offset) := by
  have htext : ∀ v : Value, OnData (Run.fromStore offset (·.toText v)) := fun v => .fromStore _ _
  unfold Run.builtin
  split
  · exact h.onData (.fromStore _ _)
  · exact h.onData ((OnData.fromStore _ _).bind fun items => .newList _)
  · exact h.onData ((OnData.fromStore _ _).bind fun x => .pure _)
  · exact h.onData ((htext _).bind fun text => .pure _)
  · exact h.onData (.fromStore _ _)
  · apply h.bind (h.onData (htext _))
    intro text
    exact h.bind (h.write text) fun _ => h.onData (OnData.readLine.bind fun line => .pure _)
  · exact h.onData (OnData.clock.bind fun m => .pure _)
  · exact h.onData ((htext _).bind fun format => OnData.clock.bind fun m => .pure _)
  · exact h.onData ((htext _).bind fun path => (OnData.readFile _ _).bind fun text => .pure _)
  · exact h.onData ((htext _).bind fun path => (OnData.writeFile _ _ _).bind fun _ => .pure _)
  · exact h.onData (.fail _ _)

variable {i i' : Invoke}

theorem call (h : Correspondence R c c') (hi : ∀ d args, R (i d args) (i' d args)) (name : String)
    (args : List Value) (offset : Nat) :
    R (Run.call c i name args offset) (Run.call c' i' name args offset) := by
  unfold Run.call
  rw [h.functions]
  split
  · exact h.bind (h.onData (.checkCount _ _ _ _)) fun _ => h.builtin _ args offset
  · split
    · exact h.onData (.fail _ _)
    · exact h.bind (h.onData (.checkCount _ _ _ _)) fun _ => hi _ args

mutual

theorem eval (h : Correspondence R c c') (hi : ∀ d args, R (i d args) (i' d args)) :
    (e : Expr) → R (e.eval c i) (e.eval c' i')
  | .number .. | .text .. | .truth .. => h.pure _
  | .name n o => h.onData (.lookup n o)
  | .unary _ x _ => h.bind (h.eval hi x) fun _ => h.onData (.fromStore _ _)
  | .binary _ l r _ =>
    h.bind (h.eval hi l) fun _ => h.bind (h.eval hi r) fun _ => h.onData (.fromStore _ _)
  | .call f args o =>
    h.bind (h.evalAll hi args) fun vs => h.bind (h.noteCall f vs) fun _ => h.call hi f vs o
  | .index t j _ =>
    h.bind (h.eval hi t) fun _ => h.bind (h.eval hi j) fun _ => h.onData (.fromStore _ _)
  | .list items _ => h.bind (h.evalAll hi items) fun _ => h.onData (.newList _)

theorem evalAll (h : Correspondence R c c') (hi : ∀ d args, R (i d args) (i' d args)) :
    (es : List Expr) → R (Expr.evalAll c i es) (Expr.evalAll c' i' es)
  | [] => h.pure []
  | e :: es => h.bind (h.eval hi e) fun _ => h.bind (h.evalAll hi es) fun _ => h.pure _

end

theorem assign (h : Correspondence R c c') (hi : ∀ d args, R (i d args) (i' d args))
    (value : Expr) : (t : Target) → R (t.assign c i value) (t.assign c' i' value)
  | .name n _ => h.bind (h.eval hi value) fun v => h.onData (.assign n v)
  | .element list j o =>
    h.bind (h.onData (.lookup list o)) fun _ => h.bind (h.eval hi j) fun _ =>
      h.bind (h.eval hi value) fun _ => h.onData (.changeStore o _)

mutual

theorem exec (h : Correspondence R c c') (hi : ∀ d args, R (i d args) (i' d args)) :
    (st : Stmt) → R (st.exec c i) (st.exec c' i')
  | .letBe n value _ => h.bind (h.eval hi value) fun v => h.onData (.assign n v)
  | .setTo t value _ => h.assign hi value t
  | .say value o =>
    h.bind (h.eval hi value) fun _ => h.bind (h.onData (.fromStore o _)) fun _ => h.write _
  | .ifThen condition a b _ =>
    h.bind (h.eval hi condition) fun v =>
      h.sequential.whether v (h.execAll hi a) (h.execAll hi b)
  | .whileDo condition body o => by
    exact h.loop (h.bind (h.eval hi condition) fun v => h.onData (.toTruth v))
      (h.bind (h.heed o) fun _ => h.execAll hi body)
  | .repeatTimes count body o => by
    unfold Stmt.exec
    apply h.bind (h.eval hi count)
    intro v
    apply h.bind (h.onData (.fromStore o _))
    intro n
    cases n with
    | none => exact h.pure ()
    | some n => exact h.timesWithin (h.bind (h.heed o) fun _ => h.execAll hi body) n.toNat
  | .forEach item source body o => by
    unfold Stmt.exec
    apply h.bind (h.eval hi source)
    intro v
    apply h.bind (h.onData (.fromStore o _))
    intro items
    exact h.sequential.forAll (fun w => h.bind (h.heed o) fun _ =>
      h.bind (h.onData (.assign item w)) fun _ => h.execAll hi body) items
  | .append value list o | .remove value list o =>
    h.bind (h.eval hi value) fun _ => h.bind (h.onData (.lookup list o)) fun _ =>
      h.onData (.changeStore o _)
  | .giveBack value _ => h.bind (h.eval hi value) fun v => h.onData (.stop (.returned v))
  | .evaluate value _ => h.bind (h.eval hi value) fun _ => h.pure ()

theorem execAll (h : Correspondence R c c') (hi : ∀ d args, R (i d args) (i' d args)) :
    (ss : List Stmt) → R (Stmt.execAll c i ss) (Stmt.execAll c' i' ss)
  | [] => h.pure ()
  | st :: ss =>
    h.bind (h.enter st.kind st.offset) fun _ =>
      h.bind (h.exec hi st) fun _ => h.execAll hi ss

end

variable (h : Correspondence R c c')
include h

theorem invoke (depth : Nat) (d : Declaration) (args : List Value) :
    R (Run.invoke c depth d args) (Run.invoke c' depth d args) := by
  induction depth generalizing d args with
  | zero => exact h.onData (.fail _ _)
  | succ depth ih => exact h.within _ (h.catchReturn (h.execAll ih d.body))

/-- The runs of a program in the two contexts are related. -/
theorem statements (depth : Nat) (p : Program) :
    R (Run.statements c depth p) (Run.statements c' depth p) :=
  h.execAll (h.invoke depth) p.statements

end Correspondence

/-- A relation between the runs in two contexts that differ at most in how they look at the halt
flag and keep a trace. -/
structure Congruence (R : ∀ {α : Type}, Run α → Run α → Prop) (c c' : Context) : Prop where
  functions : c'.functions = c.functions
  rounds : c'.rounds = c.rounds
  onData : ∀ {α : Type} {x : Run α}, OnData x → R x x
  bind : ∀ {α β : Type} {x y : Run α} {f g : α → Run β}, R x y → (∀ a, R (f a) (g a)) →
    R (x >>= f) (y >>= g)
  within : ∀ {α : Type} (frame : Frame) {x y : Run α}, R x y →
    R (Run.within frame x) (Run.within frame y)
  catchReturn : ∀ {x y : Run Unit}, R x y → R (Run.catchReturn x) (Run.catchReturn y)
  write : ∀ text : String, R (Run.write text) (Run.write text)
  heed : ∀ offset : Nat, R (Run.heed c offset) (Run.heed c' offset)
  enter : ∀ (kind : NodeKind) (offset : Nat), R (Run.enter c kind offset) (Run.enter c' kind offset)
  noteCall : ∀ (name : String) (args : List Value),
    R (Run.noteCall c name args) (Run.noteCall c' name args)

namespace Congruence

variable {R : ∀ {α : Type}, Run α → Run α → Prop} {c c' : Context} (h : Congruence R c c')
include h

theorem correspondence : Correspondence R c c' := by
  have hsequential : Sequential R :=
    ⟨fun _ => h.onData (.pure _), h.onData (.stop _), fun v => h.onData (.toTruth v), h.bind⟩
  refine ⟨h.functions, h.onData, h.bind, h.within, h.catchReturn, fun ht hb => ?_, fun hb n => ?_,
    h.write, h.heed, h.enter, h.noteCall⟩
  · rw [h.rounds]
    exact hsequential.loop ht hb c.rounds
  · rw [h.rounds]
    exact hsequential.timesWithin hb c.rounds n

/-- The runs of a program in the two contexts are related. -/
theorem statements (depth : Nat) (p : Program) :
    R (Run.statements c depth p) (Run.statements c' depth p) :=
  h.correspondence.statements depth p

end Congruence
end Run
end Parlance
