import Parlance.Proofs.Joining.Offsets
import Parlance.Proofs.Run.Pairs
/-!
# Runs that mirror runs

The program of a text that stands somewhere else runs as before, but reports other offsets. It also
runs as before with texts already written, and with more functions known, as long as it does not
come to the call of a function that is not known. `Mirrors` says all of this of two runs at once,
and one induction on the syntax gives it for programs (`statements_mirrors`). No trace is kept.
-/
namespace Parlance

/-- The offset at which a fault is reported whose node has moved: what belongs to no node stays. -/
def Fault.movedTo (φ : Nat → Nat) (offset : Nat) : Fault → Nat
  | tooDeep | breakdown _ | timedOut _ => offset
  | _ => φ offset

theorem Fault.movedTo_place (φ : Nat → Nat) (offset : Nat) (fault : Fault) :
    fault.movedTo φ (fault.place offset) = fault.place (φ offset) := by
  cases fault <;> rfl

/-- A fault belongs to a node or to none. -/
theorem Fault.movedTo_cases (fault : Fault) :
    (∀ φ offset, fault.movedTo φ offset = offset) ∨
      ∀ φ offset, fault.movedTo φ offset = φ offset := by
  cases fault <;> first | exact .inl fun _ _ => rfl | exact .inr fun _ _ => rfl

def Stop.moved (φ : Nat → Nat) : Stop → Stop
  | .fault f offset => .fault f (f.movedTo φ offset)
  | .returned v => .returned v
  | .exhausted => .exhausted
  | .waiting need => .waiting need

/-- The state with texts that have been written before. -/
def State.behind (texts : List String) (s : State) : State :=
  { s with written := s.written ++ texts }

/-- No trace is kept and no writes are counted. -/
structure State.Quiet (s : State) : Prop where
  trace : s.trace = []
  haltAfter : s.haltAfter = none

/-- The functions of the second context are those of the first, moved, and perhaps more if `grows`;
neither run keeps a trace. -/
structure Context.Extends (φ : Nat → Nat) (grows : Prop) (c c' : Context) : Prop where
  silent : c.debug = false
  silent' : c'.debug = false
  heedsHalt : c'.heedsHalt = c.heedsHalt
  rounds : c'.rounds = c.rounds
  known : ∀ key d, c.functions.get? key = some d → c'.functions.get? key = some (d.moved φ)
  unknown : ∀ key, c.functions.get? key = none → grows ∨ c'.functions.get? key = none

namespace Run

variable {α β : Type} {φ : Nat → Nat} {grows : Prop} {texts : List String}

/-- The run came to the call of a function that is not known. -/
def Lost (r : Except Stop α) : Prop :=
  ∃ name offset, r = .error (.fault (.unknownFunction name) offset)

/-- The second run does behind some texts what the first one does without them, and reports moved
offsets; if it may know more functions, then unless the first run is lost for want of one. -/
def Mirrors (φ : Nat → Nat) (grows : Prop) (texts : List String) (x y : Run α) : Prop :=
  ∀ s, s.Quiet → (x s).2.Quiet ∧ (grows ∧ Lost (x s).1 ∨
    y (s.behind texts) = ((x s).1.mapError (Stop.moved φ), (x s).2.behind texts))

/-- The answers at one state mirror each other. -/
abbrev Mirrored (φ : Nat → Nat) (grows : Prop) (texts : List String) (r q : Except Stop α × State) :
    Prop :=
  r.2.Quiet ∧ (grows ∧ Lost r.1 ∨ q = (r.1.mapError (Stop.moved φ), r.2.behind texts))

namespace Mirrors

theorem same {s : State} (hs : s.Quiet) (r : Except Stop α)
    {q : Except Stop α × State} (h : q = (r.mapError (Stop.moved φ), s.behind texts)) :
    Mirrored φ grows texts (r, s) q := ⟨hs, .inr h⟩

theorem pure (a : α) : Mirrors φ grows texts (Pure.pure a : Run α) (Pure.pure a) :=
  fun _ hs => same hs (.ok a) rfl

theorem bind {x y : Run α} {f g : α → Run β} (hx : Mirrors φ grows texts x y)
    (hf : ∀ a, Mirrors φ grows texts (f a) (g a)) :
    Mirrors φ grows texts (x >>= f) (y >>= g) := by
  intro s hs
  have h := hx s hs
  rw [bind_apply, bind_apply]
  cases hr : x s with
  | mk r after =>
    rw [hr] at h
    obtain ⟨hquiet, hlost | hy⟩ := h
    · obtain ⟨hgrows, name, offset, rfl⟩ := hlost
      exact ⟨hquiet, .inl ⟨hgrows, name, offset, rfl⟩⟩
    · rw [hy]
      cases r with
      | ok a => exact hf a after hquiet
      | error e => exact same hquiet _ rfl

theorem stop {e : Stop} (he : ∀ fault offset, e ≠ .fault fault offset) :
    Mirrors φ grows texts (Run.stop e : Run α) (Run.stop e) := by
  intro s hs
  refine same hs _ ?_
  cases e with
  | fault fault offset => exact absurd rfl (he fault offset)
  | returned | exhausted | waiting => rfl

theorem fail (offset : Nat) (fault : Fault) :
    Mirrors φ grows texts (Run.fail offset fault : Run α) (Run.fail (φ offset) fault) := by
  intro s hs
  have hmoved : (Stop.fault fault (fault.place offset)).moved φ
      = .fault fault (fault.place (φ offset)) := by rw [Stop.moved, Fault.movedTo_place]
  exact same hs _ (congrArg (fun e => (Except.error e, s.behind texts)) hmoved.symm)

theorem write (text : String) : Mirrors φ grows texts (write text) (write text) := by
  intro s hs
  have hquiet : (s.afterWrite text).Quiet := by
    refine ⟨hs.trace, ?_⟩
    simp only [State.afterWrite, hs.haltAfter, Option.map_none]
  exact ⟨hquiet, .inr rfl⟩

theorem assign (name : String) (v : Value) :
    Mirrors φ grows texts (assign name v) (assign name v) :=
  fun _ hs => ⟨⟨hs.trace, hs.haltAfter⟩, .inr rfl⟩

theorem lookup (name : String) (offset : Nat) :
    Mirrors φ grows texts (lookup name offset) (lookup name (φ offset)) := by
  intro s hs
  have hframe : (s.behind texts).frame = s.frame := rfl
  unfold Run.lookup
  rw [hframe]
  cases s.frame.get? (Text.lower name) with
  | some v => exact same hs (.ok v) rfl
  | none => exact fail offset _ s hs

theorem fromStore (offset : Nat) (f : Store → Except Fault α) :
    Mirrors φ grows texts (fromStore offset f) (fromStore (φ offset) f) := by
  intro s hs
  have hstore : (s.behind texts).store = s.store := rfl
  unfold Run.fromStore
  rw [hstore]
  cases f s.store with
  | ok a => exact same hs (.ok a) rfl
  | error fault => exact fail offset fault s hs

theorem changeStore (offset : Nat) (f : Store → Except Fault Store) :
    Mirrors φ grows texts (changeStore offset f) (changeStore (φ offset) f) := by
  intro s hs
  have hstore : (s.behind texts).store = s.store := rfl
  unfold Run.changeStore
  rw [hstore]
  cases f s.store with
  | ok σ => exact ⟨⟨hs.trace, hs.haltAfter⟩, .inr rfl⟩
  | error fault => exact fail offset fault s hs

theorem newList (items : Array Value) :
    Mirrors φ grows texts (newList items) (newList items) :=
  fun _ hs => ⟨⟨hs.trace, hs.haltAfter⟩, .inr rfl⟩

theorem within (frame : Frame) {x y : Run α} (h : Mirrors φ grows texts x y) :
    Mirrors φ grows texts (within frame x) (within frame y) := by
  intro s hs
  obtain ⟨hquiet, hend⟩ := h { s with frame := frame } ⟨hs.trace, hs.haltAfter⟩
  refine ⟨⟨hquiet.trace, hquiet.haltAfter⟩, hend.imp id fun hy => ?_⟩
  have hinner : y { s.behind texts with frame := frame } = _ := hy
  unfold Run.within
  rw [hinner]
  rfl

theorem catchReturn {x y : Run Unit} (h : Mirrors φ grows texts x y) :
    Mirrors φ grows texts (catchReturn x) (catchReturn y) := by
  intro s hs
  have hbody := h s hs
  unfold Run.catchReturn
  cases hr : x s with
  | mk r after =>
    rw [hr] at hbody
    obtain ⟨hquiet, hlost | hy⟩ := hbody
    · obtain ⟨hgrows, name, offset, rfl⟩ := hlost
      exact ⟨hquiet, .inl ⟨hgrows, name, offset, rfl⟩⟩
    · rw [hy]
      cases r with
      | ok u => exact same hquiet _ rfl
      | error e =>
        cases e with
        | fault | returned | exhausted | waiting => exact same hquiet _ rfl

/-- What a value counts as when a condition is tested. -/
theorem toTruth (v : Value) :
    Mirrors φ grows texts (do return (← getState).store.toTruth v)
      (do return (← getState).store.toTruth v) :=
  fun s hs => same hs (.ok (s.store.toTruth v)) rfl

theorem sequential : Sequential fun x y => Mirrors φ grows texts x y :=
  ⟨pure, stop nofun, toTruth, bind⟩

/-! ### Statements and the trace -/

section Contexts

variable {c c' : Context} (hc : c.Extends φ grows c')
include hc

theorem heed (offset : Nat) : Mirrors φ grows texts (heed c offset) (heed c' (φ offset)) := by
  intro s hs
  have hhalted : (s.behind texts).halted = s.halted := rfl
  unfold Run.heed
  rw [hc.heedsHalt, hhalted]
  split
  · exact fail offset _ s hs
  · exact same hs (.ok ()) rfl

theorem enter (kind : NodeKind) (offset : Nat) :
    Mirrors φ grows texts (enter c kind offset) (enter c' kind (φ offset)) := by
  refine (heed hc offset).bind fun _ => ?_
  rw [hc.silent, hc.silent']
  exact pure ()

theorem noteCall (name : String) (args : List Value) :
    Mirrors φ grows texts (noteCall c name args) (noteCall c' name args) := by
  unfold Run.noteCall
  rw [hc.silent, hc.silent']
  exact pure ()

end Contexts

/-! ### Built-in functions -/

theorem readLine : Mirrors φ grows texts readLine readLine := by
  intro s hs
  have hworld : (s.behind texts).world = s.world := rfl
  unfold Run.readLine
  rw [hworld]
  cases hinput : s.world.input with
  | cons line rest => exact ⟨⟨hs.trace, hs.haltAfter⟩, .inr rfl⟩
  | nil =>
    cases s.world.inputOpen with
    | true => exact same hs _ rfl
    | false => exact same hs _ rfl

theorem knowing (path : String) {x y : Run α} (h : Mirrors φ grows texts x y) :
    Mirrors φ grows texts (knowing path x) (knowing path y) := by
  intro s hs
  have hworld : (s.behind texts).world = s.world := rfl
  unfold Run.knowing
  rw [hworld]
  cases s.world.knows path with
  | true => exact h s hs
  | false => exact same hs _ rfl

theorem readFile (offset : Nat) (path : String) :
    Mirrors φ grows texts (readFile offset path) (readFile (φ offset) path) := by
  refine knowing path fun s hs => ?_
  have hworld : (s.behind texts).world = s.world := rfl
  simp only [hworld]
  cases s.world.files.readText path with
  | ok cs => exact same hs (.ok _) rfl
  | error reason => exact fail offset _ s hs

theorem storeFile (place : List String) (text : String) :
    Mirrors φ grows texts (storeFile place text) (storeFile place text) :=
  fun _ hs => ⟨⟨hs.trace, hs.haltAfter⟩, .inr rfl⟩

theorem writeFile (offset : Nat) (path : String) (content : Value) :
    Mirrors φ grows texts (writeFile offset path content) (writeFile (φ offset) path content) := by
  refine knowing path fun s hs => ?_
  have hworld : (s.behind texts).world = s.world := rfl
  simp only [hworld]
  cases s.world.files.writable path with
  | error reason => exact fail offset _ s hs
  | ok place =>
    have hwrite : Mirrors φ grows texts
        (do
          Run.storeFile place ""
          let text ← Run.fromStore offset (·.toText content)
          Run.storeFile place text)
        (do
          Run.storeFile place ""
          let text ← Run.fromStore (φ offset) (·.toText content)
          Run.storeFile place text) :=
      (storeFile place "").bind fun _ => (fromStore offset _).bind fun text => storeFile place text
    exact hwrite s hs

theorem clock : Mirrors φ grows texts clock clock := fun s hs => same hs (.ok s.world.clock) rfl

theorem builtin (b : Builtin) (args : List Value) (offset : Nat) :
    Mirrors φ grows texts (builtin b args offset) (builtin b args (φ offset)) := by
  have htext : ∀ v : Value, Mirrors φ grows texts (Run.fromStore offset (·.toText v))
      (Run.fromStore (φ offset) (·.toText v)) := fun v => fromStore offset _
  unfold Run.builtin
  split
  · exact fromStore offset _
  · exact (fromStore offset _).bind fun items => newList _
  · exact (fromStore offset _).bind fun _ => pure _
  · exact (htext _).bind fun _ => pure _
  · exact fromStore offset _
  · exact (htext _).bind fun _ => (write _).bind fun _ => readLine.bind fun _ => pure _
  · exact clock.bind fun _ => pure _
  · exact (htext _).bind fun _ => clock.bind fun _ => pure _
  · exact (htext _).bind fun _ => (readFile offset _).bind fun _ => pure _
  · exact (htext _).bind fun _ => (writeFile offset _ _).bind fun _ => pure _
  · exact fail offset _

theorem checkCount (name : String) (expected got offset : Nat) :
    Mirrors φ grows texts (checkCount name expected got offset)
      (checkCount name expected got (φ offset)) := by
  unfold Run.checkCount
  split
  · exact pure ()
  · exact fail offset _

theorem callBuiltin (b : Builtin) (called : String) (args : List Value) (offset : Nat) :
    Mirrors φ grows texts (callBuiltin b called args offset)
      (callBuiltin b called args (φ offset)) :=
  (checkCount called _ _ offset).bind fun _ => builtin b args offset

end Mirrors

/-- Calls of a declared function mirror calls of the function moved. -/
def InvokesMirroring (φ : Nat → Nat) (grows : Prop) (texts : List String) (i i' : Invoke) : Prop :=
  ∀ d args, Mirrors φ grows texts (i d args) (i' (d.moved φ) args)

variable {c c' : Context} {i i' : Invoke}

theorem call_mirrors (hc : c.Extends φ grows c') (hi : InvokesMirroring φ grows texts i i')
    (name : String) (args : List Value) (offset : Nat) :
    Mirrors φ grows texts (call c i name args offset) (call c' i' name args (φ offset)) := by
  unfold call
  cases Builtin.find? name with
  | some b => exact .callBuiltin b name args offset
  | none =>
    cases hget : c.functions.get? (Text.lower name) with
    | some d =>
      simp only [hc.known _ d hget]
      exact (Mirrors.checkCount d.name _ _ offset).bind fun _ => hi d args
    | none =>
      rcases hc.unknown _ hget with hgrows | hget'
      · exact fun s hs => ⟨hs, .inl ⟨hgrows, name, offset, rfl⟩⟩
      · simp only [hget']
        exact .fail offset _

end Run

open Run

variable {φ : Nat → Nat} {grows : Prop} {texts : List String} {c c' : Context} {i i' : Invoke}

mutual

theorem Expr.eval_mirrors (hc : c.Extends φ grows c') (hi : InvokesMirroring φ grows texts i i') :
    (e : Expr) → Mirrors φ grows texts (e.eval c i) ((e.moved φ).eval c' i')
  | .number .. | .text .. | .truth .. => Mirrors.pure _
  | .name n o => Mirrors.lookup n o
  | .unary op x o => by
    rw [Expr.moved, Expr.eval, Expr.eval]
    exact (Expr.eval_mirrors hc hi x).bind fun _ => .fromStore o _
  | .binary op l r o => by
    rw [Expr.moved, Expr.eval, Expr.eval]
    exact (Expr.eval_mirrors hc hi l).bind fun _ => (Expr.eval_mirrors hc hi r).bind fun _ =>
      .fromStore o _
  | .call f args o => by
    rw [Expr.moved, Expr.eval, Expr.eval]
    exact (Expr.evalAll_mirrors hc hi args).bind fun vs => (Mirrors.noteCall hc f vs).bind fun _ =>
      call_mirrors hc hi f vs o
  | .index t i o => by
    rw [Expr.moved, Expr.eval, Expr.eval]
    exact (Expr.eval_mirrors hc hi t).bind fun _ => (Expr.eval_mirrors hc hi i).bind fun _ =>
      .fromStore o _
  | .list items _ => by
    rw [Expr.moved, Expr.eval, Expr.eval]
    exact (Expr.evalAll_mirrors hc hi items).bind fun _ => .newList _

theorem Expr.evalAll_mirrors (hc : c.Extends φ grows c')
    (hi : InvokesMirroring φ grows texts i i') : (es : List Expr) →
      Mirrors φ grows texts (Expr.evalAll c i es) (Expr.evalAll c' i' (Expr.movedAll φ es))
  | [] => Mirrors.pure _
  | e :: es => by
    rw [Expr.movedAll, Expr.evalAll, Expr.evalAll]
    exact (Expr.eval_mirrors hc hi e).bind fun _ => (Expr.evalAll_mirrors hc hi es).bind fun _ =>
      .pure _

end

theorem Target.assign_mirrors (hc : c.Extends φ grows c')
    (hi : InvokesMirroring φ grows texts i i') (t : Target) (value : Expr) :
    Mirrors φ grows texts (t.assign c i value) ((t.moved φ).assign c' i' (value.moved φ)) := by
  cases t with
  | name n o => exact (Expr.eval_mirrors hc hi value).bind fun v => .assign n v
  | element list index o =>
    exact (Mirrors.lookup list o).bind fun _ => (Expr.eval_mirrors hc hi index).bind fun _ =>
      (Expr.eval_mirrors hc hi value).bind fun _ => .changeStore o _

mutual

theorem Stmt.exec_mirrors (hc : c.Extends φ grows c') (hi : InvokesMirroring φ grows texts i i') :
    (s : Stmt) → Mirrors φ grows texts (s.exec c i) ((s.moved φ).exec c' i')
  | .letBe n v o => by
    rw [Stmt.moved, Stmt.exec, Stmt.exec]
    exact (Expr.eval_mirrors hc hi v).bind fun x => .assign n x
  | .setTo t v o => by
    rw [Stmt.moved, Stmt.exec, Stmt.exec]
    exact Target.assign_mirrors hc hi t v
  | .say v o => by
    rw [Stmt.moved, Stmt.exec, Stmt.exec]
    exact (Expr.eval_mirrors hc hi v).bind fun _ => (Mirrors.fromStore o _).bind fun _ => .write _
  | .ifThen e a b o => by
    rw [Stmt.moved, Stmt.exec, Stmt.exec]
    exact (Expr.eval_mirrors hc hi e).bind fun x => Mirrors.sequential.whether x
      (Stmt.execAll_mirrors hc hi a) (Stmt.execAll_mirrors hc hi b)
  | .whileDo e b o => by
    rw [Stmt.moved, Stmt.exec, Stmt.exec, hc.rounds]
    refine Mirrors.sequential.loop ?_ ?_ _
    · exact (Expr.eval_mirrors hc hi e).bind Mirrors.toTruth
    · exact (Mirrors.heed hc o).bind fun _ => Stmt.execAll_mirrors hc hi b
  | .repeatTimes e b o => by
    rw [Stmt.moved, Stmt.exec, Stmt.exec, hc.rounds]
    refine (Expr.eval_mirrors hc hi e).bind fun x => (Mirrors.fromStore o _).bind fun n => ?_
    cases n with
    | none => exact .pure _
    | some n =>
      refine Mirrors.sequential.timesWithin ?_ _ _
      exact (Mirrors.heed hc o).bind fun _ => Stmt.execAll_mirrors hc hi b
  | .forEach n e b o => by
    rw [Stmt.moved, Stmt.exec, Stmt.exec]
    refine (Expr.eval_mirrors hc hi e).bind fun x => (Mirrors.fromStore o _).bind fun vs => ?_
    exact Mirrors.sequential.forAll (fun v => (Mirrors.heed hc o).bind fun _ =>
      (Mirrors.assign n v).bind fun _ => Stmt.execAll_mirrors hc hi b) vs
  | .append v list o => by
    rw [Stmt.moved, Stmt.exec, Stmt.exec]
    exact (Expr.eval_mirrors hc hi v).bind fun _ => (Mirrors.lookup list o).bind fun _ =>
      .changeStore o _
  | .remove v list o => by
    rw [Stmt.moved, Stmt.exec, Stmt.exec]
    exact (Expr.eval_mirrors hc hi v).bind fun _ => (Mirrors.lookup list o).bind fun _ =>
      .changeStore o _
  | .giveBack v o => by
    rw [Stmt.moved, Stmt.exec, Stmt.exec]
    exact (Expr.eval_mirrors hc hi v).bind fun _ => .stop nofun
  | .evaluate v o => by
    rw [Stmt.moved, Stmt.exec, Stmt.exec]
    exact (Expr.eval_mirrors hc hi v).bind fun _ => .pure _

theorem Stmt.execAll_mirrors (hc : c.Extends φ grows c')
    (hi : InvokesMirroring φ grows texts i i') : (ss : List Stmt) →
      Mirrors φ grows texts (Stmt.execAll c i ss) (Stmt.execAll c' i' (Stmt.movedAll φ ss))
  | [] => Mirrors.pure _
  | s :: ss => by
    rw [Stmt.movedAll, Stmt.execAll, Stmt.execAll, Stmt.kind_moved, Stmt.offset_moved]
    exact (Mirrors.enter hc _ _).bind fun _ => (Stmt.exec_mirrors hc hi s).bind fun _ =>
      Stmt.execAll_mirrors hc hi ss

end

namespace Run

theorem invoke_mirrors (hc : c.Extends φ grows c') (texts : List String) (depth : Nat) :
    InvokesMirroring φ grows texts (invoke c depth) (invoke c' depth) := by
  induction depth with
  | zero => exact fun d args => .fail 0 _
  | succ depth ih =>
    intro d args
    exact .within _ (.catchReturn (Stmt.execAll_mirrors hc ih d.body))

/-- A program that is moved, in a context with the functions moved, mirrors the program. -/
theorem statements_mirrors (hc : c.Extends φ grows c') (texts : List String) (depth : Nat)
    (p : Program) :
    Mirrors φ grows texts (statements c depth p) (statements c' depth (p.moved φ)) :=
  Stmt.execAll_mirrors hc (invoke_mirrors hc texts depth) p.statements

end Run
end Parlance
