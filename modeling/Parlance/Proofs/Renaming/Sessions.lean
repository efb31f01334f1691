import Mathlib.Data.List.Forall2
import Parlance.Proofs.Renaming.Binding
import Parlance.Proofs.Renaming.Runs
import Parlance.Proofs.Run.Sessions
/-!
# Variables carry no meaning

A program with new names for its variables, in a session with new names for those of its functions,
is refused for the same reason or does the same: it writes the same, changes the same lists, ends in
the same way, and leaves its variables under the new names in the same order
(`Session.run_renamed`). Nothing but the report of a variable tells the two apart. The same holds of
whole rows of programs (`Session.runAll_renamed`).
-/
namespace Parlance
open Text

/-- The sessions are the same but for the names of variables, in the functions and in the frame. -/
structure Session.Renamed (names : List String) (ρ : String → String) (s t : Session) : Prop where
  functions : t.functions = s.functions.renamed ρ
  store : t.store = s.store
  frame : Frame.Renamed names ρ s.frame t.frame
  world : t.world = s.world
  halted : t.halted = s.halted
  debug : t.debug = s.debug
  limits : t.limits = s.limits

/-- The steps are the same but for the names of variables. -/
structure Step.Renamed (names : List String) (ρ : String → String) (a b : Step) : Prop where
  outcome : b.outcome = a.outcome.renamed ρ
  written : b.written = a.written
  trace : b.trace = a.trace
  session : a.session.Renamed names ρ b.session

namespace Session

variable {names : List String} {ρ : String → String} {s t : Session} {o : RunOptions} {p : Program}
  {f : FunctionTable}

/-- The session with new names for the variables of its functions. -/
def renamed (ρ : String → String) (s : Session) : Session :=
  { s with functions := s.functions.renamed ρ }

theorem outcomeOf_renamed (timeout : Option Number) (r : Except Stop Unit) :
    outcomeOf timeout (r.mapError (Stop.renamed ρ)) = (outcomeOf timeout r).renamed ρ := by
  cases r with
  | ok _ => rfl
  | error e =>
    cases e with
    | fault | returned | waiting => rfl
    | exhausted =>
      cases timeout with
      | none => rfl
      | some seconds => rfl

/-- Bound programs that end alike make the same step. -/
theorem stepOf_renamed (hs : s.Renamed names ρ t) (o : RunOptions) (f : FunctionTable)
    {r q : Except Stop Unit × State} {after : Frame}
    (hafter : Frame.Renamed names ρ r.2.frame after)
    (hq : q = (r.1.mapError (Stop.renamed ρ), { r.2 with frame := after })) :
    (s.stepOf o f r).Renamed names ρ (t.stepOf o (f.renamed ρ) q) := by
  subst hq
  have hcount : boundNote (f.renamed ρ) = boundNote f := by
    rw [boundNote, boundNote, FunctionTable.renamed, List.length_map]
  refine ⟨outcomeOf_renamed _ _, rfl, ?_, ⟨rfl, rfl, hafter, rfl, rfl, hs.debug, hs.limits⟩⟩
  simp only [stepOf, hs.debug, hcount]

/-- A program and the renamed one, in sessions that differ by the renaming. -/
theorem run_renames (hρ : Faithful names ρ) (hs : s.Renamed names ρ t)
    (hf : s.functions.NamesIn names) (hp : NamesIn names p.nodes) (o : RunOptions) :
    (s.run o p).Renamed names ρ (t.run o (p.renamed ρ)) := by
  have hbind := Program.bind_renamed hρ hp s.functions
  rw [← hs.functions] at hbind
  cases ho : o.isEndless with
  | true =>
    unfold run
    rw [ho]
    exact ⟨rfl, rfl, rfl, hs⟩
  | false =>
    cases hb : p.bind s.functions with
    | error fault =>
      rw [hb] at hbind
      unfold run
      rw [ho, hb, hbind]
      exact ⟨rfl, rfl, rfl, hs⟩
    | ok f =>
      rw [hb] at hbind
      rw [run_eq_stepOf ho hb, run_eq_stepOf ho hbind]
      have hbound : f.NamesIn names := Program.namesIn_bind hb hp hf
      have hcontext : t.context (f.renamed ρ) o = (s.context f o).renamed ρ := by
        simp only [context, Context.renamed, hs.debug, hs.limits]
      have hstate : t.state o.haltAfter = { s.state o.haltAfter with frame := t.frame } := by
        simp only [state, hs.store, hs.world, hs.halted]
      obtain ⟨after, hafter, hrun⟩ := Run.statements_renamed (c := s.context f o) hρ hbound
        s.limits.calls (Program.namesIn_statements hp) (s.state o.haltAfter) t.frame hs.frame
      rw [hcontext, hstate, hs.limits, hrun]
      exact stepOf_renamed hs o f hafter rfl

/-- The functions that a step leaves name the variables of the program and of the functions known
before. -/
theorem run_namesIn (hf : s.functions.NamesIn names) (hp : NamesIn names p.nodes) (o : RunOptions) :
    (s.run o p).session.functions.NamesIn names := by
  by_cases h : s.Accepts (o, p)
  · obtain ⟨ho, f, hb⟩ := h
    rw [(run_of_bind ho hb).1]
    exact Program.namesIn_bind hb hp hf
  · rw [run_of_not_accepts h]
    exact hf

/-- Rows of programs in sessions that differ by a renaming leave sessions that differ by it. -/
theorem runAll_renamed (hρ : Faithful names ρ) (hs : s.Renamed names ρ t)
    (hf : s.functions.NamesIn names) {steps : List (RunOptions × Program)}
    (hsteps : ∀ step ∈ steps, NamesIn names step.2.nodes) :
    (s.runAll steps).Renamed names ρ
      (t.runAll (steps.map fun step => (step.1, step.2.renamed ρ))) := by
  induction steps generalizing s t with
  | nil => exact hs
  | cons step steps ih =>
    obtain ⟨hp, hsteps⟩ := List.forall_mem_cons.mp hsteps
    exact ih (run_renames hρ hs hf hp step.1).session (run_namesIn hf hp step.1) hsteps

/-- A program that starts without variables, and the same program with new names for its variables
and for those of the functions it may call: two names become the same, whatever the letter case, if
and only if they were the same. Both are refused for the same reason or do the same, and the
variables that they leave stand under the old names and the new ones in the same order. A failure is
of the same kind and at the same place. -/
theorem run_renamed (hframe : s.frame = [])
    (hρ : Faithful (p.variables ++ s.functions.variables) ρ) (o : RunOptions) :
    (s.run o p).Renamed (p.variables ++ s.functions.variables) ρ
        ((s.renamed ρ).run o (p.renamed ρ)) ∧
      ∀ failure, (s.run o p).outcome = .failed failure →
        ((s.renamed ρ).run o (p.renamed ρ)).outcome = .failed (failure.renamed ρ) ∧
          (failure.renamed ρ).diagnostic.kind.label = failure.diagnostic.kind.label ∧
          (failure.renamed ρ).diagnostic.offset = failure.diagnostic.offset ∧
          (failure.unbound? = none → failure.renamed ρ = failure) := by
  have hs : s.Renamed (p.variables ++ s.functions.variables) ρ (s.renamed ρ) := by
    refine ⟨rfl, rfl, ?_, rfl, rfl, rfl, rfl⟩
    have hempty : (s.renamed ρ).frame = [] := hframe
    rw [hframe, hempty]
    exact .nil
  have hstep := run_renames hρ hs (.of_variables (List.subset_append_right _ _))
    (.of_flatMap (List.subset_append_left _ _)) o
  refine ⟨hstep, fun failure hfailure => ⟨?_, failure.diagnostic_renamed ρ⟩⟩
  rw [hstep.outcome, hfailure]
  rfl

/-- A function that gives its parameter back. -/
def handBack : Declaration := ⟨"echo", ["X"], [.giveBack (.name "x" 20) 13], 0⟩

/-- Binds a variable to what the function gives back, says it, and fails at an unknown name. -/
def echoing : Program :=
  ⟨[], [.letBe "total" (.call "echo" [.text "two" 18] 13) 0, .say (.name "Total" 26) 22,
    .say (.name "y" 37) 33]⟩

/-- The parameter and the variable change their names with each other. -/
def swapping : String → String
  | "x" | "X" => "total"
  | "total" | "Total" => "x"
  | name => name ++ "_"

/-- The variable is left under the name that the parameter had, and the unknown name is reported as
it is now. -/
theorem echoing_swapped :
    let s := { blank with functions := [("echo", handBack)] }
    let step := (s.renamed swapping).run .plain (echoing.renamed swapping)
    Faithful (echoing.variables ++ s.functions.variables) swapping ∧ step.written = ["two\n"] ∧
      step.outcome = .failed (.run (.undefined "y_") 37) ∧
      step.session.frame = [("x", .text "two")] := by
  intro s step
  have hfaithful : Faithful (echoing.variables ++ s.functions.variables) swapping := by decide
  obtain ⟨hstep, hfailure⟩ := run_renamed (s := s) (p := echoing) rfl hfaithful .plain
  refine ⟨hfaithful, hstep.written.trans rfl, (hfailure _ rfl).1, ?_⟩
  have hframe : Frame.Renamed _ _ [("total", .text "two")] step.session.frame := hstep.session.frame
  obtain ⟨entry, rest, ⟨hv, n, hn, htotal, hkey⟩, hrest, hcons⟩ :=
    List.forall₂_cons_left_iff.mp hframe
  have hnew : ∀ n ∈ echoing.variables ++ s.functions.variables, "total" = lower n →
      lower (swapping n) = "x" := by decide
  have hentry : entry = ("x", .text "two") := Prod.ext (hkey.trans (hnew n hn htotal)) hv
  rw [hcons, List.forall₂_nil_left_iff.mp hrest, hentry]

end Session
end Parlance
