import Parlance.Proofs.Failures.Sessions
import Parlance.Proofs.Spelling.Binding
import Parlance.Proofs.Spelling.Parsers
import Parlance.Proofs.Spelling.Reports
import Parlance.Proofs.Spelling.Runs
import Parlance.Proofs.Spelling.Texts
/-!
# Letter case in sessions

Two sources that differ in the case of letters outside of string tokens are two spellings of one
program. In sessions that differ in the spelling of their functions only, they fail at the same
stage, with the same kind of failure at the same place, or do the same when they run, and the
sessions still differ in the spelling of their functions only (`Session.runSource_recased`). So whole
rows of sources do the same (`Session.runSources_recased`).
-/
namespace Parlance
open Text

/-- How a program ended, with the names in a failure in lower case. -/
def Outcome.folded : Outcome → Outcome
  | .failed failure => .failed failure.folded
  | .done => .done
  | .exhausted => .exhausted
  | .waiting need => .waiting need

/-- The sessions are the same but for the spelling of names in their functions. -/
structure Session.Respelled (s t : Session) : Prop where
  functions : t.functions.folded = s.functions.folded
  store : t.store = s.store
  frame : t.frame = s.frame
  world : t.world = s.world
  halted : t.halted = s.halted
  debug : t.debug = s.debug
  limits : t.limits = s.limits

/-- The steps are the same but for the spelling of names: in the report of a failure, in functions
and in the trace. -/
structure Step.Respelled (a b : Step) : Prop where
  outcome : b.outcome.folded = a.outcome.folded
  written : b.written = a.written
  session : a.session.Respelled b.session

/-! ### Programs -/

namespace Session

variable {s t : Session} {o : RunOptions} {p q : Program}

theorem Respelled.refl (s : Session) : s.Respelled s := ⟨rfl, rfl, rfl, rfl, rfl, rfl, rfl⟩

theorem Respelled.keys (h : s.Respelled t) : t.functions.keys = s.functions.keys := by
  rw [← t.functions.keys_folded, h.functions, s.functions.keys_folded]

/-- The session with the names in its functions in lower case. -/
def folded (s : Session) : Session := { s with functions := s.functions.folded }

theorem Respelled.folded_eq (h : s.Respelled t) : t.folded = s.folded := by
  obtain ⟨hfunctions, hstore, hframe, hworld, hhalted, hdebug, hlimits⟩ := h
  simp only [folded, hfunctions, hstore, hframe, hworld, hhalted, hdebug, hlimits]

theorem respelled_of_folded_eq (h : t.folded = s.folded) : s.Respelled t := by
  obtain ⟨functions, store, frame, world, halted, debug, limits⟩ := s
  obtain ⟨functions', store', frame', world', halted', debug', limits'⟩ := t
  simp only [folded, mk.injEq] at h
  obtain ⟨hfunctions, rfl, rfl, rfl, rfl, rfl, rfl⟩ := h
  exact ⟨hfunctions, rfl, rfl, rfl, rfl, rfl, rfl⟩

theorem outcomeOf_folded {timeout : Option Number} {r r' : Except Stop Unit}
    (h : r'.mapError Stop.folded = r.mapError Stop.folded) :
    (outcomeOf timeout r').folded = (outcomeOf timeout r).folded := by
  have hfolded : ∀ r : Except Stop Unit,
      (outcomeOf timeout r).folded = (outcomeOf timeout (r.mapError Stop.folded)).folded := by
    intro r
    cases r with
    | ok _ => rfl
    | error e =>
      cases e with
      | fault fault offset =>
        exact congrArg (fun f => Outcome.failed (.run f offset)) fault.folded_folded.symm
      | returned | waiting => rfl
      | exhausted => rfl
  rw [hfolded r', h, ← hfolded r]

/-- A program and the same one with its names in lower case, in the session with the names in lower
case. -/
theorem run_folded (s : Session) (o : RunOptions) (p : Program) :
    (s.folded.run o p.folded).outcome.folded = (s.run o p).outcome.folded ∧
      (s.folded.run o p.folded).written = (s.run o p).written ∧
      (s.folded.run o p.folded).session = (s.run o p).session.folded := by
  cases ho : o.isEndless with
  | true =>
    unfold run
    rw [ho]
    exact ⟨rfl, rfl, rfl⟩
  | false =>
    have hbind : p.folded.bind s.folded.functions
        = BindingFault.told FunctionTable.folded (p.bind s.functions) := p.bind_folded s.functions
    cases hb : p.bind s.functions with
    | error fault =>
      rw [hb] at hbind
      unfold run
      rw [ho, hbind, hb]
      refine ⟨?_, rfl, rfl⟩
      exact congrArg (fun f => Outcome.failed (.binding (f, fault.2))) fault.1.folded_folded
    | ok f =>
      rw [hb] at hbind
      rw [run_eq_stepOf ho hbind, run_eq_stepOf ho hb]
      obtain ⟨hstop, trace, hstate⟩ := Run.statements_respelled (s.context f o) s.limits.calls p
        (s.state o.haltAfter) []
      refine ⟨outcomeOf_folded hstop, ?_, ?_⟩
      · have hwritten := congrArg (fun final : State => final.written.reverse) hstate
        exact hwritten
      · have hsession := congrArg (s.folded.afterRun f.folded) hstate
        exact hsession

theorem run_respelled (hs : s.Respelled t) (hp : q.folded = p.folded) :
    (s.run o p).Respelled (t.run o q) := by
  obtain ⟨houtcome, hwritten, hsession⟩ := run_folded s o p
  obtain ⟨houtcome', hwritten', hsession'⟩ := run_folded t o q
  rw [hs.folded_eq, hp] at houtcome' hwritten' hsession'
  refine ⟨houtcome'.symm.trans houtcome, hwritten'.symm.trans hwritten, ?_⟩
  exact respelled_of_folded_eq (hsession'.symm.trans hsession)

end Session

/-! ### Sources -/

/-- Two sources that differ in the case of letters are spellings of one program, or both cannot be
read, for the same reason. -/
theorem program_recased {source other : List Char} (h : Recases source other) (nesting : Nat) :
    (∃ p q, Source.program nesting source = .ok p ∧ Source.program nesting other = .ok q ∧
      q.folded = p.folded) ∨
    ∃ failure failure', Source.program nesting source = .error failure ∧
      Source.program nesting other = .error failure' ∧ failure'.folded = failure.folded := by
  rcases tokens_recased h with ⟨fault, hsource, hother⟩ | ⟨ts, us, hsource, hother, hfolded⟩
  · refine .inr ⟨.lex fault, .lex fault, ?_, ?_, rfl⟩
    · rw [Source.program, hsource]
      rfl
    · rw [Source.program, hother]
      rfl
  · rw [Source.program_of_tokens hsource, Source.program_of_tokens hother, h.length_eq]
    have hparse := Parse.parse_folded nesting us
    rw [hfolded, Parse.parse_folded nesting ts] at hparse
    cases hp : Program.parse nesting ts with
    | ok p =>
      rw [hp] at hparse
      cases hq : Program.parse nesting us with
      | ok q =>
        rw [hq] at hparse
        exact .inl ⟨p, q, rfl, rfl, (Except.ok.inj hparse).symm⟩
      | error fault =>
        rw [hq] at hparse
        cases hparse
    | error fault =>
      rw [hp] at hparse
      cases hq : Program.parse nesting us with
      | ok q =>
        rw [hq] at hparse
        cases hparse
      | error fault' =>
        rw [hq] at hparse
        refine .inr ⟨_, _, rfl, rfl, ?_⟩
        exact congrArg (Failure.parse · source.length) (Except.error.inj hparse).symm

namespace Session

variable {s t : Session}

/-- Two spellings of a source in sessions that differ in the spelling of functions. -/
theorem runSource_respelled {source other : List Char} (h : Recases source other)
    (hs : s.Respelled t) (o : RunOptions) :
    (s.runSource o source).Respelled (t.runSource o other) := by
  rcases program_recased h s.limits.nesting with
    ⟨p, q, hp, hq, hfolded⟩ | ⟨failure, failure', hf, hf', hfolded⟩
  · rw [← hs.limits] at hq
    obtain ⟨trace, hfirst⟩ := runSource_of_program hp o
    obtain ⟨trace', hsecond⟩ := runSource_of_program hq o
    obtain ⟨houtcome, hwritten, hsession⟩ := run_respelled (o := o) hs hfolded
    rw [hfirst, hsecond]
    exact ⟨houtcome, hwritten, hsession⟩
  · rw [← hs.limits] at hf'
    obtain ⟨trace, hfirst⟩ := runSource_of_failure hf o
    obtain ⟨trace', hsecond⟩ := runSource_of_failure hf' o
    rw [hfirst, hsecond]
    exact ⟨congrArg Outcome.failed hfolded, rfl, hs⟩

/-- Whole rows of sources, each in two spellings and with the same options. -/
theorem runSources_recased {steps steps' : List (RunOptions × List Char)}
    (h : List.Forall₂ (fun step step' => step'.1 = step.1 ∧ Recases step.2 step'.2) steps steps')
    (hs : s.Respelled t) : (s.runSources steps).Respelled (t.runSources steps') := by
  induction h generalizing s t with
  | nil => exact hs
  | @cons step step' steps steps' hstep _ ih =>
    rw [runSources, runSources, List.foldl_cons, List.foldl_cons, hstep.1]
    exact ih (runSource_respelled hstep.2 hs step.1).session

/-- Sources that differ in the case of letters outside of string tokens, in sessions that differ in
the spelling of functions: both steps end in the same way and write the same, and leave sessions
that differ in the spelling of functions. The functions have the same keys in the same order, and
failures have the same report but for the case of letters. -/
theorem runSource_recased {source other : List Char} (h : Recases source other)
    (hs : s.Respelled t) (o : RunOptions) :
    (s.runSource o source).Respelled (t.runSource o other) ∧
      (t.runSource o other).session.functions.keys
        = (s.runSource o source).session.functions.keys ∧
      ∀ f g, (s.runSource o source).outcome = .failed f →
        (t.runSource o other).outcome = .failed g → g.diagnostic.folded = f.diagnostic.folded := by
  have hstep := runSource_respelled h hs o
  refine ⟨hstep, hstep.session.keys, fun f g hf hg => ?_⟩
  have hfolded := hstep.outcome
  rw [hf, hg] at hfolded
  rw [← g.diagnostic_folded, Outcome.failed.inj hfolded, f.diagnostic_folded]

/-- A source in two spellings, and the program of the first. -/
def quietSource : List Char := "to F(): say \"Ab\". end. f(). say Z.".toList

def loudSource : List Char := "TO f(): SAY \"Ab\". END. F(). Say z.".toList

def quiet : Program :=
  ⟨[⟨"F", [], [.say (.text "Ab" 12) 8], 0⟩],
    [.evaluate (.call "f" [] 23) 23, .say (.name "Z" 32) 28]⟩

/-- The function is found and the literal is kept; then both fail at the unknown name. -/
theorem loud_stops :
    Recases quietSource loudSource ∧
      (blank.runSource .plain loudSource).written = ["Ab\n"] ∧
      (blank.runSource .plain loudSource).outcome.folded
        = .failed (.run (.undefined "z") 32) ∧
      (blank.runSource .plain loudSource).session.functions.keys = ["f"] := by
  have hliterals : literalOrigins .code (Canonical.ofSource quietSource).marks
      = [12, 13, 14, 15] := by cbv
  have hrecases : Recases quietSource loudSource := by
    refine ⟨by decide, fun offset hoffset => ?_⟩
    have hkept : ∀ i ∈ [12, 13, 14, 15], loudSource[i]? = quietSource[i]? := by decide
    exact hkept offset (hliterals ▸ literal_origins hoffset)
  have hquiet : Source.program blank.limits.nesting quietSource = .ok quiet := by cbv
  obtain ⟨trace, hstep⟩ := runSource_of_program (s := blank) hquiet .plain
  obtain ⟨⟨houtcome, hwritten, -⟩, hkeys, -⟩ := runSource_recased hrecases (.refl blank) .plain
  rw [hstep] at houtcome hwritten hkeys
  exact ⟨hrecases, hwritten.trans rfl, houtcome.trans rfl, hkeys.trans rfl⟩

end Session
end Parlance
