import Parlance.Proofs.Renaming.Trees
import Parlance.Proofs.Run.Pairs
/-!
# Runs of renamed programs

A run finds and binds variables in its frame and does nothing else with their names but to report
one that is not bound. A call looks only at its own parameters. So from frames that differ by a
faithful renaming a program and the renamed one do the same, and leave frames that differ by it
(`Run.statements_renamed`).
-/
namespace Parlance
open Text

namespace Run

variable {α β : Type} {names : List String} {ρ : String → String}

/-- The second run does what the first does, with new names for the variables. -/
def Renames (names : List String) (ρ : String → String) (x y : Run α) : Prop :=
  ∀ s frame', Frame.Renamed names ρ s.frame frame' →
    ∃ after, Frame.Renamed names ρ (x s).2.frame after ∧
      y { s with frame := frame' }
        = ((x s).1.mapError (Stop.renamed ρ), { (x s).2 with frame := after })

namespace Renames

theorem bind {x y : Run α} {f g : α → Run β} (hx : Renames names ρ x y)
    (hf : ∀ a, Renames names ρ (f a) (g a)) : Renames names ρ (x >>= f) (y >>= g) := by
  intro s frame' hframe
  obtain ⟨middle, hmiddle, hy⟩ := hx s frame' hframe
  rw [bind_apply, bind_apply, hy]
  rcases hr : x s with ⟨e | a, after⟩
  · rw [hr] at hmiddle
    exact ⟨middle, hmiddle, rfl⟩
  · rw [hr] at hmiddle
    exact hf a after middle hmiddle

/-- What neither reads nor changes the frame, and does not stop for the sake of a variable. -/
theorem aside {x : Run α}
    (h : ∀ frame s, x { s with frame := frame } = ((x s).1, { (x s).2 with frame := frame }))
    (hstop : ∀ s, (x s).1.mapError (Stop.renamed ρ) = (x s).1) : Renames names ρ x x := by
  intro s frame' hframe
  have hown : (x s).2.frame = s.frame :=
    congrArg (fun p : Except Stop α × State => p.2.frame) (h s.frame s)
  refine ⟨frame', hown ▸ hframe, ?_⟩
  rw [h, hstop]

theorem pure (a : α) : Renames names ρ (Pure.pure a : Run α) (Pure.pure a) :=
  aside (fun _ _ => rfl) fun _ => rfl

theorem change {f : State → State}
    (h : ∀ frame s, f { s with frame := frame } = { f s with frame := frame }) :
    Renames names ρ (Run.change f) (Run.change f) :=
  aside (fun frame s => congrArg (Prod.mk _) (h frame s)) fun _ => rfl

theorem stop {e : Stop} (h : e.renamed ρ = e) :
    Renames names ρ (Run.stop e : Run α) (Run.stop e) :=
  aside (fun _ _ => rfl) fun _ => congrArg Except.error h

theorem fail {fault : Fault} (h : fault.renamed ρ = fault) (offset : Nat) :
    Renames names ρ (Run.fail offset fault : Run α) (Run.fail offset fault) :=
  stop (congrArg (Stop.fault · (fault.place offset)) h)

theorem ofExcept {r : Except Fault α} (h : Computes r) (offset : Nat) :
    Renames names ρ (Run.ofExcept offset r) (Run.ofExcept offset r) := by
  cases r with
  | ok a => exact pure a
  | error fault => exact fail (fault.renamed_of_not_ofName ρ (h fault rfl)) offset

theorem fromStore {f : Store → Except Fault α} (h : ∀ store, Computes (f store)) (offset : Nat) :
    Renames names ρ (Run.fromStore offset f) (Run.fromStore offset f) :=
  fun s frame' hframe => ofExcept (h s.store) offset s frame' hframe

theorem changeStore {f : Store → Except Fault Store} (h : ∀ store, Computes (f store))
    (offset : Nat) : Renames names ρ (Run.changeStore offset f) (Run.changeStore offset f) := by
  intro s frame' hframe
  unfold Run.changeStore
  cases hr : f s.store with
  | ok store => exact ⟨frame', hframe, rfl⟩
  | error fault =>
    have hfault := fault.renamed_of_not_ofName ρ (h s.store fault hr)
    exact fail hfault offset s frame' hframe

theorem newList (items : Array Value) : Renames names ρ (Run.newList items) (Run.newList items) :=
  aside (fun _ _ => rfl) fun _ => rfl

theorem toTruth (v : Value) : Renames names ρ (do return (← getState).store.toTruth v)
    (do return (← getState).store.toTruth v) := aside (fun _ _ => rfl) fun _ => rfl

theorem sequential : Sequential (fun {_} x y => Renames names ρ x y) where
  pure := pure
  exhausted := stop rfl
  toTruth := toTruth
  bind := bind

theorem write (text : String) : Renames names ρ (Run.write text) (Run.write text) :=
  change fun _ _ => rfl

theorem note (line : String) : Renames names ρ (Run.note line) (Run.note line) :=
  change fun _ _ => rfl

/-- A call has a frame of its own, and when it is over the frame of the caller is back. -/
theorem within {frame frame' : Frame} (hown : Frame.Renamed names ρ frame frame') {x y : Run α}
    (h : Renames names ρ x y) : Renames names ρ (Run.within frame x) (Run.within frame' y) := by
  intro s outer houter
  obtain ⟨after, -, hy⟩ := h { s with frame := frame } frame' hown
  refine ⟨outer, houter, ?_⟩
  simp only [Run.within, hy]

theorem catchReturn {x y : Run Unit} (h : Renames names ρ x y) :
    Renames names ρ (Run.catchReturn x) (Run.catchReturn y) := by
  intro s frame' hframe
  obtain ⟨after, hafter, hy⟩ := h s frame' hframe
  refine ⟨after, (catchReturn_snd x s).symm ▸ hafter, ?_⟩
  unfold Run.catchReturn
  rw [hy]
  rcases x s with ⟨e | a, last⟩
  · cases e with
    | fault | returned | exhausted | waiting => rfl
  · rfl

/-! ### Variables -/

theorem lookup (hρ : Faithful names ρ) {name : String} (hname : name ∈ names) (offset : Nat) :
    Renames names ρ (Run.lookup name offset) (Run.lookup (ρ name) offset) := by
  intro s frame' hframe
  simp only [Run.lookup, hframe.get? hρ hname]
  cases s.frame.get? (lower name) with
  | some v => exact ⟨frame', hframe, rfl⟩
  | none => exact ⟨frame', hframe, rfl⟩

theorem assign (hρ : Faithful names ρ) {name : String} (hname : name ∈ names) (v : Value) :
    Renames names ρ (Run.assign name v) (Run.assign (ρ name) v) :=
  fun _ _ hframe => ⟨_, hframe.put hρ hname v, rfl⟩

/-! ### Statements and calls -/

theorem heed {c c' : Context} (h : c'.heedsHalt = c.heedsHalt) (offset : Nat) :
    Renames names ρ (Run.heed c offset) (Run.heed c' offset) := by
  intro s frame' hframe
  unfold Run.heed
  rw [h]
  cases c.heedsHalt && s.halted with
  | true => exact fail rfl offset s frame' hframe
  | false => exact ⟨frame', hframe, rfl⟩

theorem enter {c c' : Context} (hh : c'.heedsHalt = c.heedsHalt) (hd : c'.debug = c.debug)
    (kind : NodeKind) (offset : Nat) :
    Renames names ρ (Run.enter c kind offset) (Run.enter c' kind offset) := by
  refine (heed hh offset).bind fun _ => ?_
  rw [hd]
  cases c.debug with
  | true => exact note _
  | false => exact pure ()

theorem noteCall {c c' : Context} (hd : c'.debug = c.debug) (name : String) (args : List Value) :
    Renames names ρ (Run.noteCall c name args) (Run.noteCall c' name args) := by
  unfold Run.noteCall
  rw [hd]
  split
  · exact (fromStore (fun store => .textsOf store args) 0).bind fun _ => note _
  · exact pure ()

theorem checkCount (name : String) (expected got offset : Nat) :
    Renames names ρ (Run.checkCount name expected got offset)
      (Run.checkCount name expected got offset) := by
  unfold Run.checkCount
  split
  · exact pure ()
  · exact fail rfl offset

/-! ### Built-in functions -/

theorem readLine : Renames names ρ Run.readLine Run.readLine := by
  intro s frame' hframe
  unfold Run.readLine
  simp only
  cases s.world.input with
  | cons line rest => exact ⟨frame', hframe, rfl⟩
  | nil =>
    cases s.world.inputOpen with
    | true => exact ⟨frame', hframe, rfl⟩
    | false => exact ⟨frame', hframe, rfl⟩

theorem clock : Renames names ρ Run.clock Run.clock := aside (fun _ _ => rfl) fun _ => rfl

theorem knowing (path : String) {x : Run α} (h : Renames names ρ x x) :
    Renames names ρ (Run.knowing path x) (Run.knowing path x) := by
  intro s frame' hframe
  unfold Run.knowing
  simp only
  cases s.world.knows path with
  | true => exact h s frame' hframe
  | false => exact ⟨frame', hframe, rfl⟩

theorem readFile (offset : Nat) (path : String) :
    Renames names ρ (Run.readFile offset path) (Run.readFile offset path) := by
  refine knowing path fun s frame' hframe => ?_
  simp only
  cases s.world.files.readText path with
  | ok cs => exact ⟨frame', hframe, rfl⟩
  | error reason =>
    have hreason : (Fault.ofRead path reason).renamed ρ = .ofRead path reason := by
      cases reason <;> rfl
    exact fail hreason offset s frame' hframe

theorem storeFile (place : List String) (text : String) :
    Renames names ρ (Run.storeFile place text) (Run.storeFile place text) :=
  change fun _ _ => rfl

theorem writeFile (offset : Nat) (path : String) (content : Value) :
    Renames names ρ (Run.writeFile offset path content) (Run.writeFile offset path content) := by
  refine knowing path fun s frame' hframe => ?_
  simp only
  cases s.world.files.writable path with
  | ok place =>
    have hfill : Renames names ρ _ _ := (storeFile place "").bind fun _ =>
      (fromStore (fun store => .toText store content) offset).bind fun text => storeFile place text
    exact hfill s frame' hframe
  | error reason =>
    have hreason : (Fault.ofWrite path reason).renamed ρ = .ofWrite path reason := by
      cases reason <;> rfl
    exact fail hreason offset s frame' hframe

theorem builtin (b : Builtin) (args : List Value) (offset : Nat) :
    Renames names ρ (Run.builtin b args offset) (Run.builtin b args offset) := by
  have htext : ∀ v : Value, Renames names ρ (Run.fromStore offset (·.toText v))
      (Run.fromStore offset (·.toText v)) := fun v =>
    fromStore (fun store => .toText store v) offset
  unfold Run.builtin
  split
  · exact fromStore (fun store => .lengthOf store _) offset
  · exact (fromStore (fun store => .rangeOf store _ _) offset).bind fun items => newList _
  · exact (fromStore (fun store => .toNumber store _) offset).bind fun x => pure _
  · exact (htext _).bind fun text => pure _
  · exact fromStore (fun store => .ok _) offset
  · exact (htext _).bind fun text => (write text).bind fun _ => readLine.bind fun line => pure _
  · exact clock.bind fun m => pure _
  · exact (htext _).bind fun format => clock.bind fun m => pure _
  · exact (htext _).bind fun path => (readFile offset path).bind fun text => pure _
  · exact (htext _).bind fun path => (writeFile offset path _).bind fun _ => pure _
  · exact fail rfl offset

end Renames

/-! ### Expressions and statements -/

/-- Functions of the given variables are called with new names as with the old ones. -/
def InvokesRenamed (names : List String) (ρ : String → String) (i i' : Invoke) : Prop :=
  ∀ d args, NamesIn names d.nodes → Renames names ρ (i d args) (i' (d.renamed ρ) args)

end Run

/-- The context with new names for the variables of its functions. -/
def Context.renamed (ρ : String → String) (c : Context) : Context :=
  { c with functions := c.functions.renamed ρ }

section Syntax
open Run

/-- What two runs of a program have in common: a renaming that is faithful on the variables of the
functions, and functions that are called alike. -/
structure Renaming (names : List String) (ρ : String → String) (c : Context) (i i' : Invoke) :
    Prop where
  faithful : Faithful names ρ
  functions : c.functions.NamesIn names
  invokes : InvokesRenamed names ρ i i'

variable {names : List String} {ρ : String → String} {c : Context} {i i' : Invoke}

theorem Renaming.call (h : Renaming names ρ c i i') (name : String) (args : List Value)
    (offset : Nat) :
    Renames names ρ (call c i name args offset) (call (c.renamed ρ) i' name args offset) := by
  unfold Run.call
  rw [Context.renamed, FunctionTable.get?_renamed]
  cases Builtin.find? name with
  | some b => exact (Renames.checkCount name _ _ _).bind fun _ => .builtin b args offset
  | none =>
    cases hd : Table.get? (lower name) c.functions with
    | none => exact .fail rfl offset
    | some d =>
      simp only [Option.map_some, d.length_parameters_renamed]
      exact (Renames.checkCount d.name _ _ _).bind fun _ =>
        h.invokes d args (h.functions _ d hd)

mutual

theorem Expr.eval_renamed (h : Renaming names ρ c i i') : (e : Expr) → NamesIn names e.nodes →
    Renames names ρ (e.eval c i) ((e.renamed ρ).eval (c.renamed ρ) i')
  | .number .., _ | .text .., _ | .truth .., _ => .pure _
  | .name n o, hn => .lookup h.faithful (hn.cons.1 List.mem_cons_self) o
  | .unary op x o, hn => by
    rw [Expr.nodes] at hn
    rw [Expr.renamed, Expr.eval, Expr.eval]
    refine (Expr.eval_renamed h x hn.cons.2).bind fun v => ?_
    exact .fromStore (fun store => .applyUnary store op v) o
  | .binary op l r o, hn => by
    rw [Expr.nodes] at hn
    rw [Expr.renamed, Expr.eval, Expr.eval]
    have hparts := hn.cons.2.append
    refine (Expr.eval_renamed h l hparts.1).bind fun v => ?_
    refine (Expr.eval_renamed h r hparts.2).bind fun w => ?_
    exact .fromStore (fun store => .applyBinary store op v w) o
  | .call f args o, hn => by
    rw [Expr.nodes] at hn
    rw [Expr.renamed, Expr.eval, Expr.eval]
    refine (Expr.evalAll_renamed h args hn.cons.2).bind fun vs => ?_
    exact (Renames.noteCall rfl f vs).bind fun _ => h.call f vs o
  | .index t x o, hn => by
    rw [Expr.nodes] at hn
    rw [Expr.renamed, Expr.eval, Expr.eval]
    have hparts := hn.cons.2.append
    refine (Expr.eval_renamed h t hparts.1).bind fun v => ?_
    refine (Expr.eval_renamed h x hparts.2).bind fun w => ?_
    exact .fromStore (fun store => .getAt store v w) o
  | .list items _, hn => by
    rw [Expr.nodes] at hn
    rw [Expr.renamed, Expr.eval, Expr.eval]
    exact (Expr.evalAll_renamed h items hn.cons.2).bind fun _ => .newList _

theorem Expr.evalAll_renamed (h : Renaming names ρ c i i') : (es : List Expr) →
    NamesIn names (Expr.allNodes es) →
    Renames names ρ (Expr.evalAll c i es) (Expr.evalAll (c.renamed ρ) i' (Expr.renamedAll ρ es))
  | [], _ => .pure []
  | e :: es, hn => by
    rw [Expr.allNodes] at hn
    rw [Expr.renamedAll, Expr.evalAll, Expr.evalAll]
    refine (Expr.eval_renamed h e hn.append.1).bind fun _ => ?_
    exact (Expr.evalAll_renamed h es hn.append.2).bind fun _ => .pure _

end

theorem Target.assign_renamed (h : Renaming names ρ c i i') {t : Target} {value : Expr}
    (ht : NamesIn names t.nodes) (hv : NamesIn names value.nodes) :
    Renames names ρ (t.assign c i value)
      ((t.renamed ρ).assign (c.renamed ρ) i' (value.renamed ρ)) := by
  cases t with
  | name n o =>
    refine (Expr.eval_renamed h value hv).bind fun v => ?_
    exact .assign h.faithful (ht.cons.1 List.mem_cons_self) v
  | element list x o =>
    obtain ⟨hlist, hx⟩ := ht.cons.2.append
    have hname : list ∈ names := hlist.cons.1 List.mem_cons_self
    refine (Renames.lookup h.faithful hname o).bind fun owner => ?_
    refine (Expr.eval_renamed h x hx).bind fun index => ?_
    refine (Expr.eval_renamed h value hv).bind fun v => ?_
    exact .changeStore (fun store => .setAt store owner index v) o

mutual

theorem Stmt.exec_renamed (h : Renaming names ρ c i i') : (s : Stmt) → NamesIn names s.nodes →
    Renames names ρ (s.exec c i) ((s.renamed ρ).exec (c.renamed ρ) i')
  | .letBe n v _, hn => by
    rw [Stmt.nodes] at hn
    rw [Stmt.renamed, Stmt.exec, Stmt.exec]
    refine (Expr.eval_renamed h v hn.cons.2).bind fun w => ?_
    exact .assign h.faithful (hn.cons.1 List.mem_cons_self) w
  | .setTo t v _, hn => by
    rw [Stmt.nodes] at hn
    exact Target.assign_renamed h hn.cons.2.append.1 hn.cons.2.append.2
  | .say v o, hn => by
    rw [Stmt.nodes] at hn
    rw [Stmt.renamed, Stmt.exec, Stmt.exec]
    refine (Expr.eval_renamed h v hn.cons.2).bind fun w => ?_
    exact (Renames.fromStore (fun store => .toText store w) o).bind fun _ => .write _
  | .ifThen e a b _, hn => by
    rw [Stmt.nodes] at hn
    rw [Stmt.renamed, Stmt.exec, Stmt.exec]
    have hparts := hn.cons.2.append
    refine (Expr.eval_renamed h e hparts.1.append.1).bind fun v => ?_
    exact Renames.sequential.whether v (Stmt.execAll_renamed h a hparts.1.append.2)
      (Stmt.execAll_renamed h b hparts.2)
  | .whileDo e b o, hn => by
    rw [Stmt.nodes] at hn
    rw [Stmt.renamed, Stmt.exec, Stmt.exec]
    have hparts := hn.cons.2.append
    refine Renames.sequential.loop ?_ ?_ _
    · exact (Expr.eval_renamed h e hparts.1).bind fun v => .toTruth v
    · exact (Renames.heed rfl o).bind fun _ => Stmt.execAll_renamed h b hparts.2
  | .repeatTimes e b o, hn => by
    rw [Stmt.nodes] at hn
    rw [Stmt.renamed, Stmt.exec, Stmt.exec]
    have hparts := hn.cons.2.append
    refine (Expr.eval_renamed h e hparts.1).bind fun v => ?_
    refine (Renames.fromStore (fun store => .toInteger store v) o).bind fun n => ?_
    cases n with
    | none => exact .pure ()
    | some n =>
      refine Renames.sequential.timesWithin ?_ _ _
      exact (Renames.heed rfl o).bind fun _ => Stmt.execAll_renamed h b hparts.2
  | .forEach n e b o, hn => by
    rw [Stmt.nodes] at hn
    rw [Stmt.renamed, Stmt.exec, Stmt.exec]
    have hparts := hn.cons.2.append
    refine (Expr.eval_renamed h e hparts.1).bind fun v => ?_
    refine (Renames.fromStore (fun store => .items store v) o).bind fun items => ?_
    refine Renames.sequential.forAll (fun w => ?_) items
    refine (Renames.heed rfl o).bind fun _ => ?_
    refine (Renames.assign h.faithful (hn.cons.1 List.mem_cons_self) w).bind fun _ => ?_
    exact Stmt.execAll_renamed h b hparts.2
  | .append v l o, hn => by
    rw [Stmt.nodes] at hn
    rw [Stmt.renamed, Stmt.exec, Stmt.exec]
    refine (Expr.eval_renamed h v hn.cons.2).bind fun w => ?_
    refine (Renames.lookup h.faithful (hn.cons.1 List.mem_cons_self) o).bind fun target => ?_
    exact .changeStore (fun store => .append store target w) o
  | .remove v l o, hn => by
    rw [Stmt.nodes] at hn
    rw [Stmt.renamed, Stmt.exec, Stmt.exec]
    refine (Expr.eval_renamed h v hn.cons.2).bind fun w => ?_
    refine (Renames.lookup h.faithful (hn.cons.1 List.mem_cons_self) o).bind fun target => ?_
    exact .changeStore (fun store => .remove store target w) o
  | .giveBack v _, hn => (Expr.eval_renamed h v hn.cons.2).bind fun _ => .stop rfl
  | .evaluate v _, hn => (Expr.eval_renamed h v hn.cons.2).bind fun _ => .pure ()

theorem Stmt.execAll_renamed (h : Renaming names ρ c i i') : (ss : List Stmt) →
    NamesIn names (Stmt.allNodes ss) →
    Renames names ρ (Stmt.execAll c i ss) (Stmt.execAll (c.renamed ρ) i' (Stmt.renamedAll ρ ss))
  | [], _ => .pure ()
  | s :: ss, hn => by
    rw [Stmt.allNodes] at hn
    rw [Stmt.renamedAll, Stmt.execAll, Stmt.execAll, Stmt.kind_renamed, Stmt.offset_renamed]
    refine (Renames.enter rfl rfl s.kind s.offset).bind fun _ => ?_
    refine (Stmt.exec_renamed h s hn.append.1).bind fun _ => ?_
    exact Stmt.execAll_renamed h ss hn.append.2

end

end Syntax

namespace Run

variable {names : List String} {ρ : String → String} {c : Context}

/-- A function that names known variables is called alike at every depth. -/
theorem invoke_renamed (hρ : Faithful names ρ)
    (hf : c.functions.NamesIn names) (depth : Nat) :
    InvokesRenamed names ρ (invoke c depth) (invoke (c.renamed ρ) depth) := by
  induction depth with
  | zero => exact fun _ _ _ => .fail rfl 0
  | succ depth ih =>
    intro d args hd
    rw [Declaration.nodes] at hd
    have hframe := Frame.Renamed.parameterFrame hρ hd.cons.1 args
    exact .within hframe (.catchReturn (Stmt.execAll_renamed ⟨hρ, hf, ih⟩ d.body hd.cons.2))

/-- A program and the renamed one do the same from frames that differ by the renaming. -/
theorem statements_renamed (hρ : Faithful names ρ)
    (hf : c.functions.NamesIn names) (depth : Nat)
    {p : Program} (hp : NamesIn names (Stmt.allNodes p.statements)) :
    Renames names ρ (statements c depth p) (statements (c.renamed ρ) depth (p.renamed ρ)) :=
  Stmt.execAll_renamed ⟨hρ, hf, invoke_renamed hρ hf depth⟩ p.statements hp

end Run
end Parlance
