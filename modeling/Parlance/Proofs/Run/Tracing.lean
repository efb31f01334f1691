import Mathlib
import Parlance.Proofs.Run.Pairs
import Parlance.Proofs.Run.Sessions
/-!
# Tracing

A run that keeps a trace does what it would do without one (`Session.runSource_traced`), with one
exception: the trace of a call shows the arguments, and a list that contains itself cannot be shown.
There the traced run stops, and what it has written by then is a beginning of what the other run
writes (`Session.knot_breaks`).
-/
namespace Parlance

/-- Some value cannot be shown: a list in it can be reached from itself. -/
def Store.Knotted (store : Store) : Prop := ∃ v, store.display? v = none

/-- The state with another trace. -/
def State.tracing (s : State) (trace : List String) : State := { s with trace := trace }

namespace Run

variable {α β : Type}

/-- No trace is kept from the first state to the second one, and what was written stays written. -/
def Silence (s t : State) : Prop := t.trace = s.trace ∧ s.written <:+ t.written

theorem Silence.refl (s : State) : Silence s s := ⟨rfl, List.suffix_rfl⟩

theorem Silence.trans (s t u : State) (hst : Silence s t) (htu : Silence t u) : Silence s u :=
  ⟨htu.1.trans hst.1, hst.2.trans htu.2⟩

/-- The answer of a run that keeps a trace and that of the same run without one: the same, or the
first one stopped at something that cannot be shown. -/
def Traced (trace : List String) (r q : Except Stop α × State) : Prop :=
  q = (r.1, r.2.tracing trace) ∨
    r.1 = .error (.fault .tooDeep 0) ∧ r.2.store.Knotted ∧ r.2.written <:+ q.2.written

/-- The second run is silent; the first one does the same and may keep a trace. -/
def Traces (x y : Run α) : Prop :=
  Advances Silence y ∧ ∀ s trace, Traced trace (x s) (y (s.tracing trace))

namespace Traces

theorem onData {x : Run α} (hx : OnData x) : Traces x x := by
  constructor
  · intro s
    rw [hx s]
    exact Silence.refl s
  · intro s trace
    rw [hx s, hx (s.tracing trace)]
    exact .inl rfl

theorem bind {x y : Run α} {f g : α → Run β} (hx : Traces x y) (hf : ∀ a, Traces (f a) (g a)) :
    Traces (x >>= f) (y >>= g) := by
  have hg : ∀ a, Advances Silence (g a) := fun a => (hf a).1
  refine ⟨hx.1.bind Silence.trans hg, fun s trace => ?_⟩
  rcases hx.2 s trace with hsame | ⟨hstop, hknot, hwritten⟩
  · rw [bind_apply, bind_apply, hsame]
    rcases x s with ⟨e | a, after⟩
    · exact .inl rfl
    · exact (hf a).2 after trace
  · rw [bind_of_fault hstop]
    exact .inr ⟨rfl, hknot, hwritten.trans (Advances.second Silence.refl y hg _).2⟩

theorem within (frame : Frame) {x y : Run α} (h : Traces x y) :
    Traces (Run.within frame x) (Run.within frame y) := by
  refine ⟨fun s => h.1 { s with frame := frame }, fun s trace => ?_⟩
  rcases h.2 { s with frame := frame } trace with hsame | hstop
  · have hinner : y { s.tracing trace with frame := frame } = _ := hsame
    unfold Run.within
    rw [hinner]
    exact .inl rfl
  · exact .inr hstop

theorem catchReturn {x y : Run Unit} (h : Traces x y) :
    Traces (Run.catchReturn x) (Run.catchReturn y) := by
  constructor
  · intro s
    rw [catchReturn_snd]
    exact h.1 s
  · intro s trace
    rcases h.2 s trace with hsame | ⟨hstop, hknot, hwritten⟩
    · unfold Run.catchReturn
      rw [hsame]
      rcases x s with ⟨e | a, after⟩
      · cases e with
        | returned | fault | exhausted | waiting => exact .inl rfl
      · exact .inl rfl
    · rw [catchReturn_of_fault hstop]
      refine .inr ⟨rfl, hknot, ?_⟩
      rwa [catchReturn_snd]

theorem write (text : String) : Traces (Run.write text) (Run.write text) :=
  ⟨fun _ => ⟨rfl, List.suffix_cons _ _⟩, fun _ _ => .inl rfl⟩

theorem heed (c : Context) (offset : Nat) :
    Traces (Run.heed c offset) (Run.heed { c with debug := false } offset) := by
  constructor
  · intro s
    unfold Run.heed
    split
    · exact Silence.refl s
    · exact Silence.refl s
  · intro s trace
    have hhalted : (s.tracing trace).halted = s.halted := rfl
    unfold Run.heed
    rw [hhalted]
    split
    · exact .inl rfl
    · exact .inl rfl

theorem note (line : String) : Traces (Run.note line) (pure ()) :=
  ⟨Silence.refl, fun _ _ => .inl rfl⟩

theorem enter (c : Context) (kind : NodeKind) (offset : Nat) :
    Traces (Run.enter c kind offset) (Run.enter { c with debug := false } kind offset) := by
  apply (heed c offset).bind
  intro _
  cases c.debug with
  | true => exact note _
  | false => exact onData (.pure ())

end Traces

theorem textsOf_eq_error {store : Store} {fault : Fault} :
    {vs : List Value} → textsOf store vs = .error fault → fault = .tooDeep ∧ store.Knotted
  | v :: vs, h => by
    unfold textsOf at h
    cases hv : store.display? v with
    | none =>
      rw [Store.toText, hv] at h
      cases h
      exact ⟨rfl, v, hv⟩
    | some text =>
      rw [Store.toText, hv] at h
      cases hvs : textsOf store vs with
      | ok texts =>
        rw [hvs] at h
        cases h
      | error other =>
        rw [hvs] at h
        cases h
        exact textsOf_eq_error hvs

theorem Traces.noteCall (c : Context) (name : String) (args : List Value) :
    Traces (Run.noteCall c name args) (Run.noteCall { c with debug := false } name args) := by
  cases hd : c.debug with
  | false =>
    unfold Run.noteCall
    rw [hd]
    exact onData (.pure ())
  | true =>
    refine ⟨Silence.refl, fun s trace => ?_⟩
    unfold Run.noteCall
    simp only [hd, if_true]
    cases htexts : textsOf s.store args with
    | ok texts =>
      have hshown : Run.fromStore 0 (textsOf · args) s = (.ok texts, s) := by
        simp only [Run.fromStore, htexts]
        rfl
      rw [bind_apply, hshown]
      exact .inl rfl
    | error fault =>
      obtain ⟨rfl, hknot⟩ := textsOf_eq_error htexts
      have hstop : Run.fromStore 0 (textsOf · args) s
          = (.error (.fault .tooDeep 0), s) := by
        simp only [Run.fromStore, htexts]
        rfl
      rw [bind_apply, hstop]
      exact .inr ⟨rfl, hknot, List.suffix_rfl⟩

/-- A context with tracing and the same context without it. -/
theorem congruence_traces (c : Context) : Congruence (@Traces) c { c with debug := false } where
  functions := rfl
  rounds := rfl
  onData := .onData
  bind := .bind
  within := .within
  catchReturn := .catchReturn
  write := .write
  heed := .heed c
  enter := .enter c
  noteCall := .noteCall c

end Run

namespace Session

variable (s : Session) (o : RunOptions)

/-- The session that keeps a trace, or keeps none. -/
def debugging (debug : Bool) : Session := { s with debug := debug }

/-- The steps of a session that keeps a trace and of the same session without one: they differ in
the trace only, or the first program stopped at something that cannot be shown. -/
structure Alike (traced plain : Step) : Prop where
  quiet : plain.trace = []
  same : (traced.outcome = plain.outcome ∧ traced.written = plain.written ∧
      traced.session = plain.session.debugging true) ∨
    (traced.outcome = .failed (.run .tooDeep 0) ∧ traced.session.store.Knotted ∧
      traced.written <+: plain.written)

theorem Alike.of_failure (outcome : Outcome) (trace : List String) :
    Alike ⟨outcome, s.debugging true, [], trace⟩ ⟨outcome, s.debugging false, [], []⟩ :=
  ⟨rfl, .inl ⟨rfl, rfl, rfl⟩⟩

theorem stepOf_alike (f : FunctionTable) {r q : Except Stop Unit × State}
    (h : Run.Traced [] r q) (hq : q.2.trace = []) :
    Alike ((s.debugging true).stepOf o f r) ((s.debugging false).stepOf o f q) := by
  constructor
  · have htrace : ((s.debugging false).stepOf o f q).trace = [] ++ q.2.trace.reverse := rfl
    rw [htrace, hq]
    rfl
  · rcases h with rfl | ⟨hstop, hknot, hwritten⟩
    · exact .inl ⟨rfl, rfl, rfl⟩
    · refine .inr ⟨?_, hknot, ?_⟩
      · have houtcome : ((s.debugging true).stepOf o f r).outcome = outcomeOf o.timeout r.1 := rfl
        rw [houtcome, hstop]
        rfl
      · exact List.reverse_prefix.mpr hwritten

theorem run_alike (p : Program) :
    Alike ((s.debugging true).run o p) ((s.debugging false).run o p) := by
  cases ho : o.isEndless with
  | true =>
    unfold run
    rw [ho]
    exact .of_failure s _ _
  | false =>
    cases hb : p.bind s.functions with
    | error fault =>
      have hb' (debug : Bool) : p.bind (s.debugging debug).functions = .error fault := hb
      unfold run
      rw [ho, hb', hb']
      exact .of_failure s _ _
    | ok f =>
      have hb' (debug : Bool) : p.bind (s.debugging debug).functions = .ok f := hb
      have htraces := (Run.congruence_traces ((s.debugging true).context f o)).statements
        s.limits.calls p
      rw [run_eq_stepOf ho (hb' true), run_eq_stepOf ho (hb' false)]
      apply stepOf_alike
      · exact htraces.2 (s.state o.haltAfter) []
      · exact (htraces.1 (s.state o.haltAfter)).1

/-- A source is read, bound and run as it would be without a trace, and a run without a trace has
none. Only where a trace cannot show a list that contains itself, the run stops and reports too deep
a call; what it has written is a beginning of what the run without a trace writes. -/
theorem runSource_traced (source : List Char) :
    Alike ((s.debugging true).runSource o source) ((s.debugging false).runSource o source) := by
  unfold runSource
  cases h : Source.program s.limits.nesting source with
  | error failure =>
    have h' (debug : Bool) :
        Source.program (s.debugging debug).limits.nesting source = .error failure := h
    rw [h', h']
    exact .of_failure s _ _
  | ok p =>
    have h' (debug : Bool) : Source.program (s.debugging debug).limits.nesting source = .ok p := h
    rw [h', h']
    obtain ⟨hquiet, hsame⟩ := run_alike s o p
    exact ⟨hquiet, hsame⟩

/-- A list is put into itself, and then asked whether it is empty. -/
def knotSource : List Char := "let x be []. append x to x. say to_truth(x).".toList

def knot : Program :=
  ⟨[], [.letBe "x" (.list [] 9) 0, .append (.name "x" 20) "x" 13,
    .say (.call "to_truth" [.name "x" 41] 32) 28]⟩

/-- The answer is written, but not if a trace is kept. -/
theorem knot_breaks :
    let traced := (blank.debugging true).runSource .plain knotSource
    let plain := (blank.debugging false).runSource .plain knotSource
    plain.outcome = .done ∧ plain.written = ["true\n"] ∧
      traced.outcome = .failed (.run .tooDeep 0) ∧ traced.written = [] := by
  have hp : Source.program blank.limits.nesting knotSource = .ok knot := by cbv
  have hp' (debug : Bool) :
      Source.program (blank.debugging debug).limits.nesting knotSource = .ok knot := hp
  unfold runSource
  rw [hp', hp']
  exact ⟨rfl, rfl, rfl, rfl⟩

end Session
end Parlance
