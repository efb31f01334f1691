import Parlance.Proofs.Binding.Tables
import Parlance.Proofs.Run.Tracing
import Parlance.Proofs.Spelling.Trees
/-!
# Runs of programs with names in lower case

Variables and functions are found under the lower case of their names, and nothing else is done with
a name but to report it. So a program does what it does with its names in lower case: it writes the
same, leaves the same behind and ends in the same way, but for the names in a fault and in the lines
of a trace (`Run.statements_respelled`).
-/
namespace Parlance
open Text

def Stop.folded : Stop → Stop
  | .fault f offset => .fault f.folded offset
  | .returned v => .returned v
  | .exhausted => .exhausted
  | .waiting need => .waiting need

theorem Stop.folded_eq_returned {e : Stop} {v : Value} :
    e.folded = .returned v ↔ e = .returned v := by
  cases e <;> simp [Stop.folded]

/-- The context with the names in its functions in lower case. -/
def Context.folded (c : Context) : Context := { c with functions := c.functions.folded }

theorem Fault.place_folded (fault : Fault) (offset : Nat) :
    fault.folded.place offset = fault.place offset := by
  cases fault <;> rfl

namespace Run

variable {α β : Type}

/-- Two answers are the same but for the names in a fault and for the trace. -/
def Matches (r q : Except Stop α × State) : Prop :=
  q.1.mapError Stop.folded = r.1.mapError Stop.folded ∧ ∃ trace, q.2 = r.2.tracing trace

/-- Two runs do the same but for the names in a fault and for the trace. -/
def Respelled (x y : Run α) : Prop := ∀ s trace, Matches (x s) (y (s.tracing trace))

theorem Matches.ok {r q : Except Stop α × State} (h : Matches r q) {a : α} (hr : r.1 = .ok a) :
    q.1 = .ok a := by
  have hsame := h.1
  rw [hr] at hsame
  cases hq : q.1 with
  | ok b =>
    rw [hq] at hsame
    exact hsame
  | error e =>
    rw [hq] at hsame
    cases hsame

theorem Matches.error {r q : Except Stop α × State} (h : Matches r q) {e : Stop}
    (hr : r.1 = .error e) : ∃ e', q.1 = .error e' ∧ e'.folded = e.folded := by
  have hsame := h.1
  rw [hr] at hsame
  cases hq : q.1 with
  | ok b =>
    rw [hq] at hsame
    cases hsame
  | error e' =>
    rw [hq] at hsame
    exact ⟨e', rfl, Except.error.inj hsame⟩

namespace Respelled

theorem onData {x : Run α} (hx : OnData x) : Respelled x x := by
  intro s trace
  rw [hx s, hx (s.tracing trace)]
  exact ⟨rfl, trace, rfl⟩

theorem bind {x y : Run α} {f g : α → Run β} (hx : Respelled x y)
    (hf : ∀ a, Respelled (f a) (g a)) : Respelled (x >>= f) (y >>= g) := by
  intro s trace
  have hfirst := hx s trace
  rw [bind_apply, bind_apply]
  rcases hr : x s with ⟨e | a, after⟩
  · rw [hr] at hfirst
    obtain ⟨e', he', hfold⟩ := hfirst.error rfl
    obtain ⟨trace', htrace⟩ := hfirst.2
    rcases hq : y (s.tracing trace) with ⟨q, after'⟩
    rw [hq] at he' htrace
    cases he'
    exact ⟨congrArg Except.error hfold, trace', htrace⟩
  · rw [hr] at hfirst
    have ha := hfirst.ok rfl
    obtain ⟨trace', htrace⟩ := hfirst.2
    rcases hq : y (s.tracing trace) with ⟨q, after'⟩
    rw [hq] at ha htrace
    cases ha
    cases htrace
    exact hf a after trace'

theorem within (frame : Frame) {x y : Run α} (h : Respelled x y) :
    Respelled (Run.within frame x) (Run.within frame y) := by
  intro s trace
  obtain ⟨hsame, trace', htrace⟩ := h { s with frame := frame } trace
  refine ⟨hsame, trace', ?_⟩
  exact congrArg (fun after : State => { after with frame := s.frame }) htrace

theorem catchReturn {x y : Run Unit} (h : Respelled x y) :
    Respelled (Run.catchReturn x) (Run.catchReturn y) := by
  intro s trace
  have hbody := h s trace
  unfold Run.catchReturn
  rcases hr : x s with ⟨e | a, after⟩
  · rw [hr] at hbody
    obtain ⟨e', he', hfold⟩ := hbody.error rfl
    obtain ⟨trace', htrace⟩ := hbody.2
    rcases hq : y (s.tracing trace) with ⟨q, after'⟩
    rw [hq] at he' htrace
    cases he'
    cases e with
    | returned v =>
      obtain rfl := Stop.folded_eq_returned.mp hfold
      exact ⟨rfl, trace', htrace⟩
    | fault | exhausted | waiting =>
      cases e' with
      | returned v => cases Stop.folded_eq_returned.mp hfold.symm
      | fault | exhausted | waiting => exact ⟨congrArg Except.error hfold, trace', htrace⟩
  · rw [hr] at hbody
    have ha := hbody.ok rfl
    obtain ⟨trace', htrace⟩ := hbody.2
    rcases hq : y (s.tracing trace) with ⟨q, after'⟩
    rw [hq] at ha htrace
    cases ha
    exact ⟨rfl, trace', htrace⟩

theorem sequential : Sequential (@Respelled) where
  pure a := onData (.pure a)
  exhausted := onData (.stop _)
  toTruth v := onData (.toTruth v)
  bind := bind

theorem write (text : String) : Respelled (Run.write text) (Run.write text) :=
  fun _ trace => ⟨rfl, trace, rfl⟩

theorem note (line line' : String) : Respelled (Run.note line) (Run.note line') :=
  fun _ trace => ⟨rfl, line' :: trace, rfl⟩

theorem fail {fault fault' : Fault} (h : fault'.folded = fault.folded) (offset : Nat) :
    Respelled (Run.fail offset fault : Run α) (Run.fail offset fault') := by
  intro s trace
  refine ⟨?_, trace, rfl⟩
  have hplace : fault'.place offset = fault.place offset := by
    rw [← fault'.place_folded, h, fault.place_folded]
  simp only [Run.fail, Run.stop, Except.mapError, Stop.folded, h, hplace]

theorem lookup (name : String) (offset : Nat) :
    Respelled (Run.lookup name offset) (Run.lookup (lower name) offset) := by
  intro s trace
  have hframe : (s.tracing trace).frame = s.frame := rfl
  simp only [Run.lookup, lower_lower, hframe]
  cases s.frame.get? (lower name) with
  | some v => exact ⟨rfl, trace, rfl⟩
  | none => exact fail (by simp [Fault.folded]) offset s trace

theorem assign (name : String) (v : Value) :
    Respelled (Run.assign name v) (Run.assign (lower name) v) := by
  have hsame : Run.assign (lower name) v = Run.assign name v := by
    simp only [Run.assign, lower_lower]
  rw [hsame]
  exact onData (.assign name v)

theorem checkCount (name : String) (expected got offset : Nat) :
    Respelled (Run.checkCount name expected got offset)
      (Run.checkCount (lower name) expected got offset) := by
  unfold Run.checkCount
  split
  · exact onData (.pure ())
  · exact fail (by simp [Fault.folded]) offset

theorem heed {c c' : Context} (h : c'.heedsHalt = c.heedsHalt) (offset : Nat) :
    Respelled (Run.heed c offset) (Run.heed c' offset) := by
  intro s trace
  have hhalted : (s.tracing trace).halted = s.halted := rfl
  unfold Run.heed
  rw [h, hhalted]
  split
  · exact fail rfl offset s trace
  · exact ⟨rfl, trace, rfl⟩

theorem enter {c c' : Context} (hh : c'.heedsHalt = c.heedsHalt) (hd : c'.debug = c.debug)
    (kind : NodeKind) (offset : Nat) :
    Respelled (Run.enter c kind offset) (Run.enter c' kind offset) := by
  refine (heed hh offset).bind fun _ => ?_
  rw [hd]
  cases c.debug with
  | true => exact note _ _
  | false => exact onData (.pure ())

theorem noteCall {c c' : Context} (hd : c'.debug = c.debug) (name name' : String)
    (args : List Value) : Respelled (Run.noteCall c name args) (Run.noteCall c' name' args) := by
  unfold Run.noteCall
  rw [hd]
  split
  · exact (onData (.fromStore _ _)).bind fun _ => note _ _
  · exact onData (.pure ())

end Respelled

/-- All that a program consists of but its names. -/
theorem congruence_respelled (c : Context) : Congruence (@Respelled) c c where
  functions := rfl
  rounds := rfl
  onData := .onData
  bind := .bind
  within := .within
  catchReturn := .catchReturn
  write := .write
  heed := .heed rfl
  enter := .enter rfl rfl
  noteCall name := .noteCall rfl name name

/-! ### Expressions and statements -/

/-- How functions are called under their names and under the names in lower case. -/
def InvokesRespelled (i i' : Invoke) : Prop := ∀ d args, Respelled (i d args) (i' d.folded args)

variable {c : Context} {i i' : Invoke}

theorem call_respelled (hi : InvokesRespelled i i') (name : String) (args : List Value)
    (offset : Nat) :
    Respelled (call c i name args offset) (call c.folded i' (lower name) args offset) := by
  have hfind : Builtin.find? (lower name) = Builtin.find? name :=
    Program.find?_congr (lower_lower name)
  unfold call
  rw [hfind, lower_lower, Context.folded, FunctionTable.get?_folded]
  cases Builtin.find? name with
  | some b =>
    exact (Respelled.checkCount name _ _ _).bind fun _ =>
      (congruence_respelled c).correspondence.builtin b args offset
  | none =>
    cases Table.get? (lower name) c.functions with
    | none => exact .fail (by simp [Fault.folded]) offset
    | some d =>
      have hcount : d.folded.parameters.length = d.parameters.length := List.length_map _
      simp only [Option.map_some, hcount]
      exact (Respelled.checkCount d.name _ _ _).bind fun _ => hi d args

theorem parameterFrame_folded (parameters : List String) (args : List Value) :
    parameterFrame (parameters.map lower) args = parameterFrame parameters args := by
  simp only [parameterFrame, List.zip_map_left, List.foldl_map, Prod.map_fst, Prod.map_snd,
    lower_lower, id]

end Run

section Syntax
open Run

variable {c : Context} {i i' : Invoke}

mutual

theorem Expr.eval_respelled (hi : InvokesRespelled i i') :
    (e : Expr) → Respelled (e.eval c i) (e.folded.eval c.folded i')
  | .number .. | .text .. | .truth .. => .onData (.pure _)
  | .name n o => .lookup n o
  | .unary _ x _ => (Expr.eval_respelled hi x).bind fun _ => .onData (.fromStore _ _)
  | .binary _ l r _ => (Expr.eval_respelled hi l).bind fun _ =>
      (Expr.eval_respelled hi r).bind fun _ => .onData (.fromStore _ _)
  | .call f args o => (Expr.evalAll_respelled hi args).bind fun vs =>
      (Respelled.noteCall rfl f (lower f) vs).bind fun _ => call_respelled hi f vs o
  | .index t j _ => (Expr.eval_respelled hi t).bind fun _ =>
      (Expr.eval_respelled hi j).bind fun _ => .onData (.fromStore _ _)
  | .list items _ => (Expr.evalAll_respelled hi items).bind fun _ => .onData (.newList _)

theorem Expr.evalAll_respelled (hi : InvokesRespelled i i') : (es : List Expr) →
    Respelled (Expr.evalAll c i es) (Expr.evalAll c.folded i' (Expr.foldedAll es))
  | [] => .onData (.pure [])
  | e :: es => (Expr.eval_respelled hi e).bind fun _ =>
      (Expr.evalAll_respelled hi es).bind fun _ => .onData (.pure _)

end

theorem Target.assign_respelled (hi : InvokesRespelled i i') (value : Expr) : (t : Target) →
    Respelled (t.assign c i value) (t.folded.assign c.folded i' value.folded)
  | .name n _ => (Expr.eval_respelled hi value).bind fun v => .assign n v
  | .element list j o => (Respelled.lookup list o).bind fun _ =>
      (Expr.eval_respelled hi j).bind fun _ => (Expr.eval_respelled hi value).bind fun _ =>
        .onData (.changeStore o _)

mutual

theorem Stmt.exec_respelled (hi : InvokesRespelled i i') :
    (s : Stmt) → Respelled (s.exec c i) (s.folded.exec c.folded i')
  | .letBe n v _ => (Expr.eval_respelled hi v).bind fun w => .assign n w
  | .setTo t v _ => Target.assign_respelled hi v t
  | .say v o => (Expr.eval_respelled hi v).bind fun _ =>
      (Respelled.onData (.fromStore o _)).bind fun _ => .write _
  | .ifThen e a b _ => (Expr.eval_respelled hi e).bind fun v =>
      Respelled.sequential.whether v (Stmt.execAll_respelled hi a)
        (Stmt.execAll_respelled hi b)
  | .whileDo e b o =>
    Respelled.sequential.loop
      ((Expr.eval_respelled hi e).bind fun v => .onData (.toTruth v))
      ((Respelled.heed rfl o).bind fun _ => Stmt.execAll_respelled hi b) _
  | .repeatTimes e b o => by
    refine (Expr.eval_respelled hi e).bind fun v => ?_
    refine (Respelled.onData (.fromStore o _)).bind fun n => ?_
    cases n with
    | none => exact .onData (.pure ())
    | some n =>
      exact Respelled.sequential.timesWithin
        ((Respelled.heed rfl o).bind fun _ => Stmt.execAll_respelled hi b) _ _
  | .forEach n e b o => by
    refine (Expr.eval_respelled hi e).bind fun v => ?_
    refine (Respelled.onData (.fromStore o _)).bind fun items => ?_
    exact Respelled.sequential.forAll (fun w => (Respelled.heed rfl o).bind fun _ =>
      (Respelled.assign n w).bind fun _ => Stmt.execAll_respelled hi b) items
  | .append v l o | .remove v l o => (Expr.eval_respelled hi v).bind fun _ =>
      (Respelled.lookup l o).bind fun _ => .onData (.changeStore o _)
  | .giveBack v _ => (Expr.eval_respelled hi v).bind fun w => .onData (.stop (.returned w))
  | .evaluate v _ => (Expr.eval_respelled hi v).bind fun _ => .onData (.pure ())

theorem Stmt.execAll_respelled (hi : InvokesRespelled i i') : (ss : List Stmt) →
    Respelled (Stmt.execAll c i ss) (Stmt.execAll c.folded i' (Stmt.foldedAll ss))
  | [] => .onData (.pure ())
  | s :: ss => by
    rw [Stmt.foldedAll, Stmt.execAll, Stmt.execAll, Stmt.kind_folded, Stmt.offset_folded]
    exact (Respelled.enter rfl rfl s.kind s.offset).bind fun _ =>
      (Stmt.exec_respelled hi s).bind fun _ => Stmt.execAll_respelled hi ss

end

end Syntax

namespace Run

theorem invoke_respelled (c : Context) (depth : Nat) :
    InvokesRespelled (invoke c depth) (invoke c.folded depth) := by
  induction depth with
  | zero => exact fun _ _ => .onData (.fail _ _)
  | succ depth ih =>
    intro d args
    have hframe : parameterFrame d.folded.parameters args = parameterFrame d.parameters args :=
      parameterFrame_folded d.parameters args
    rw [invoke, invoke, hframe]
    exact .within _ (.catchReturn (Stmt.execAll_respelled ih d.body))

/-- A program and the same one with its names in lower case do the same. -/
theorem statements_respelled (c : Context) (depth : Nat) (p : Program) :
    Respelled (statements c depth p) (statements c.folded depth p.folded) :=
  Stmt.execAll_respelled (invoke_respelled c depth) p.statements

end Run
end Parlance
