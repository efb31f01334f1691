import Parlance.Proofs.Run.Halting
import Parlance.Proofs.Run.Sessions
import Parlance.Proofs.Timeouts.Abandoned
import Parlance.Proofs.Timeouts.Runs
/-!
# Time limits in sessions

A time limit that can be waited for and does not pass makes no difference: the step of the session
is the same as without it, and so is what the caller gets from a host. One that passes leaves the
flag of the session as it was, and the flags of other runs (`Session.run_within_limit`). A limit
that is too long to be waited for breaks the run down (`Session.endless_breaks`).
-/
namespace Parlance

theorem RunOptions.rounds_le (o : RunOptions) (limits : Limits) :
    o.rounds limits ≤ limits.rounds := by
  unfold rounds
  split
  · exact Nat.le_refl _
  · split
    · exact Nat.min_le_right _ _
    · exact Nat.le_refl _

namespace Session

variable {s : Session} {p : Program} {f : FunctionTable} {seconds : Number} {n : Option Nat}

/-! ### Limits that do not pass -/

/-- A program that is not stopped for want of rounds ends alike with a time limit and without. -/
theorem outcomeOf_limited {r : Except Stop Unit} (hr : r ≠ .error .exhausted) :
    outcomeOf (some seconds) r = outcomeOf none r := by
  rcases r with e | _
  · cases e with
    | exhausted => exact absurd rfl hr
    | fault | returned | waiting => rfl
  · rfl

/-- A run whose time limit does not pass has rounds enough. -/
theorem not_exhausted {r : Except Stop Unit × State}
    (h : (s.stepOf ⟨some seconds, n⟩ f r).outcome ≠ .failed (.run (.timedOut seconds.dump) 0)) :
    r.1 ≠ .error .exhausted := by
  intro hr
  apply h
  rw [stepOf, hr]
  rfl

/-- With a time limit that does not pass, and a flag that is not set, a step is what it is without
the limit. -/
theorem run_limited (ho : (RunOptions.mk (some seconds) n).isEndless = false)
    (hend : (s.run ⟨some seconds, n⟩ p).outcome ≠ .failed (.run (.timedOut seconds.dump) 0))
    (hflag : (s.run ⟨some seconds, n⟩ p).session.halted = false) :
    s.run ⟨some seconds, n⟩ p = s.run ⟨none, n⟩ p := by
  cases hb : p.bind s.functions with
  | error fault =>
    unfold run
    rw [ho, hb]
    rfl
  | ok f =>
    have hnone : (RunOptions.mk none n).isEndless = false := rfl
    rw [run_eq_stepOf ho hb] at hend hflag ⊢
    rw [run_eq_stepOf hnone hb]
    have hrounds := not_exhausted hend
    have hrepeats : Run.Repeats
        (Run.statements (s.context f ⟨some seconds, n⟩) s.limits.calls p)
        (Run.statements (s.context f ⟨none, n⟩) s.limits.calls p) := by
      refine Run.statements_repeats ?_ ?_ ?_ ?_ _ _
      · rfl
      · rfl
      · rfl
      · exact RunOptions.rounds_le ⟨some seconds, n⟩ s.limits
    have hsame := hrepeats.same (s.state n) hrounds hflag
    dsimp only
    rw [hsame]
    simp only [stepOf, outcomeOf_limited hrounds]

/-- Without a count of writes nothing that a run does sets the flag of its session. -/
theorem halted_run (timeout : Option Number) :
    (s.run ⟨timeout, none⟩ p).session.halted = s.halted := by
  cases ho : (RunOptions.mk timeout none).isEndless with
  | true =>
    unfold run
    rw [ho]
    rfl
  | false =>
    cases hb : p.bind s.functions with
    | error fault =>
      unfold run
      rw [ho, hb]
      rfl
    | ok f =>
      rw [run_eq_stepOf ho hb]
      have honward := ((Run.congruence_cuts 0 (s.context f ⟨timeout, none⟩)).statements
        s.limits.calls p).1 (s.state none)
      exact honward.halted rfl

/-- A run with a time limit is given up before it makes more rounds than any run may make. -/
theorem outcome_limited_ne_exhausted : (s.run ⟨some seconds, n⟩ p).outcome ≠ .exhausted := by
  have houtcome : ∀ r, outcomeOf (some seconds) r ≠ .exhausted := by
    rintro (e | _)
    · cases e <;> exact nofun
    · exact nofun
  unfold run
  split
  · exact nofun
  · split
    · exact nofun
    · exact houtcome _

end Session

/-! ### What the caller gets from a host -/

/-- How the statements of a program ended, if the machine has come to their end. -/
def Machine.Config.result? (C : Config) : Option (Except Stop Unit × State) :=
  match C.tasks, C.focus with
  | [], .result _ => some (.ok (), C.state)
  | [], .stopped e => some (.error e, C.state)
  | _, _ => none

theorem Machine.Config.result?_ended (depth : Nat) (r : Except Stop Unit × State) :
    (ended depth r).result? = some r := by
  rcases r with ⟨e | _, s⟩
  · rfl
  · rfl

/-- The step of a session that a run at its end makes, given the functions afterwards. -/
def Stage.step? (s : Session) (f : FunctionTable) : Stage → Option Step
  | .due .. => none
  | .running C => C.result?.map (s.stepOf .plain f)
  | .refused fault => some ⟨.failed (.binding fault), { s with functions := f }, [], []⟩

namespace Host

/-- The step of a session that the first run of a host makes, if it is at its end. -/
def step? (s : Session) (h : Host) : Option Step := do
  let stage ← h.stage? 0
  let caller ← h.cells[0]?
  stage.step? s caller.functions

/-- A host with one run, of a program that is bound to the functions `f`. -/
def alone (caller f : FunctionTable) (limited : Bool) (stage : Stage) : Host :=
  if limited then ⟨[⟨caller, false⟩, ⟨f, false⟩], [⟨⟨1, true, false⟩, stage⟩]⟩
  else ⟨[⟨f, false⟩], [⟨⟨0, false, false⟩, stage⟩]⟩

variable {debug limited : Bool} {depth k : Nat} {caller f : FunctionTable}

/-- With its first move a run binds its program, and is before the first statement. -/
theorem after_start {p : Program} {σ : State} (hb : p.bind caller = .ok f)
    (hhalted : σ.halted = false) (hcount : σ.haltAfter = none) :
    (fresh caller false).after debug depth [.start p σ limited, .go 0 id]
      = alone caller f limited (.running (.start depth p σ)) := by
  have hstate : { σ with halted := false, haltAfter := none } = σ := by rw [← hhalted, ← hcount]
  cases limited <;>
    simp [after, apply, start, fresh, go, goOn, alone, hb, hstate, putFunctions, putStage,
      State.withData, State.data]

/-- Alone in a host the machine makes the steps that it makes without one. -/
theorem after_alone {C C' : Machine.Config} {seen : List Machine.Event}
    (h : Machine.Runs ⟨f, debug, true, 0⟩ k C seen C') :
    (alone caller f limited (.running C)).after debug depth (List.replicate k (.go 0 id))
      = alone caller f limited (.running C') := by
  induction h with
  | here => rfl
  | @step k C middle last seen seen' first _ ih =>
    have hgo : (alone caller f limited (.running C)).apply debug depth (.go 0 id)
        = alone caller f limited (.running middle) := by
      have hfirst : Machine.step (context debug ⟨f, false⟩) C = some (seen, middle) := first
      cases limited <;>
        simp [apply, go, goOn, alone, hfirst, putStage, State.withData, State.data]
    rw [List.replicate_succ, after, List.foldl_cons, hgo]
    exact ih

/-- The caller takes over the functions of the run. -/
theorem step?_collect_alone (s : Session) (stage : Stage) :
    ((alone caller f limited stage).collect 0).step? s = stage.step? s f := by
  cases limited <;> rfl

end Host

namespace Session

variable {s : Session} {p : Program}

/-- The moves of a caller who runs a program, with a time limit or without, and takes its result
after the run has gone on for `k` times. -/
def hosting (s : Session) (p : Program) (limited : Bool) (k : Nat) : List Move :=
  .start p (s.state none) limited :: List.replicate k (.go 0 id) ++ [.collect 0]

/-- A host runs a program to the end to which the session runs it. -/
theorem hosted (hs : s.halted = false) (hend : (s.run .plain p).outcome ≠ .exhausted)
    (limited : Bool) : ∃ k, ((Host.fresh s.functions s.halted).after s.debug s.limits.calls
      (s.hosting p limited k)).step? s = some (s.run .plain p) := by
  have hplain : RunOptions.plain.isEndless = false := rfl
  cases hb : p.bind s.functions with
  | error fault =>
    refine ⟨1, ?_⟩
    have hrun : s.run .plain p = ⟨.failed (.binding fault), s, [], []⟩ := by
      unfold run
      rw [hplain, hb]
      rfl
    rw [hrun]
    cases limited <;>
      simp [hosting, Host.after, Host.apply, Host.start, Host.fresh, Host.go, Host.goOn, hb,
        Host.putStage, Host.collect, Host.putFunctions, Host.step?, Host.stage?, Stage.step?]
  | ok f =>
    rw [run_eq_stepOf hplain hb] at hend ⊢
    obtain ⟨r, hr⟩ : ∃ r, r = Run.statements (s.context f .plain) s.limits.calls p
        (s.state none) := ⟨_, rfl⟩
    have hrounds : r.1 ≠ .error .exhausted := by
      intro h
      rw [hr] at h
      exact hend (congrArg (outcomeOf none) h)
    have hreach : Machine.Reaches ⟨f, s.debug, true, 0⟩ (.start s.limits.calls p (s.state none))
        (.ended s.limits.calls r) :=
      (Machine.statements_iff _ _ _ _ hrounds _).mp ⟨s.limits.rounds, hr.symm⟩
    obtain ⟨k, seen, hruns⟩ := hreach
    refine ⟨k + 1, ?_⟩
    have hmoves : (Host.fresh s.functions s.halted).after s.debug s.limits.calls
        (s.hosting p limited (k + 1)) = (Host.alone s.functions f limited
          (.running (.ended s.limits.calls r))).collect 0 := by
      rw [hs, ← Host.after_alone hruns, ← Host.after_start hb hs rfl]
      simp only [hosting, Host.after, List.replicate_succ, List.foldl_append, List.foldl_cons,
        List.foldl_nil, List.cons_append]
      rfl
    rw [hmoves, Host.step?_collect_alone, Stage.step?, Machine.Config.result?_ended, hr]
    rfl

/-- A time limit that can be waited for. If it does not pass, and the session is not told to stop,
the step is that of a run without it; and a host in which nothing else happens makes this step,
whether it runs the program with a time limit, on a copy of the caller's context, or without. A
program sets no flag, whether its limit passes or not. In a host in which runs are started, go on,
end and are given up in any order, the flags tell which limits have passed, and the caller's flag
whether it was told to stop from outside. -/
theorem run_within_limit (s : Session) (p : Program) {seconds : Number} {n : Option Nat}
    (ho : (RunOptions.mk (some seconds) n).isEndless = false) :
    let step := s.run ⟨some seconds, n⟩ p
    (step.outcome ≠ .failed (.run (.timedOut seconds.dump) 0) → step.session.halted = false →
      step = s.run ⟨none, n⟩ p ∧
        (n = none → ∀ limited, ∃ k, ((Host.fresh s.functions s.halted).after s.debug s.limits.calls
          (s.hosting p limited k)).step? s = some step)) ∧
      (n = none → step.session.halted = s.halted) ∧
      ∀ moves, ((Host.fresh s.functions s.halted).after s.debug s.limits.calls moves).Truthful
        s.debug s.limits.calls (s.halted || moves.any Move.halts) := by
  dsimp only
  refine ⟨fun hend hflag => ?_, ?_, Host.after_truthful _ _ _ _⟩
  · have hsame := run_limited ho hend hflag
    refine ⟨hsame, ?_⟩
    rintro rfl limited
    have hunset : s.halted = false := by rw [← hflag, halted_run]
    have hplain : s.run ⟨some seconds, none⟩ p = s.run .plain p := hsame
    have hlimit : (s.run .plain p).outcome ≠ .exhausted := by
      rw [← hplain]
      exact outcome_limited_ne_exhausted
    rw [hplain]
    exact hosted hunset hlimit limited
  · rintro rfl
    exact halted_run (some seconds)

/-- A text is written twice. -/
def twice : Program := ⟨[], [.repeatTimes (.number (.ofNat 2) 7) [.say (.text "tick" 20) 16] 0]⟩

/-- A limit of five seconds does not pass, and makes no difference. -/
theorem twice_within_limit :
    let step := blank.run ⟨some (.ofNat 5), none⟩ twice
    step.outcome = .done ∧ step.written = ["tick\n", "tick\n"] ∧ step = blank.run .plain twice := by
  have hshort : (RunOptions.mk (some (.ofNat 5)) none).isEndless = false := by decide +kernel
  have h := run_within_limit blank twice hshort
  have hend : (blank.run ⟨some (.ofNat 5), none⟩ twice).outcome = .done := by decide +kernel
  refine ⟨hend, by decide +kernel, (h.1 ?_ ?_).1⟩
  · rw [hend]
    exact nofun
  · exact h.2.1 rfl

/-- A program that is done at once. -/
def brief : Program := ⟨[], [.evaluate (.truth true 0) 0]⟩

/-- Ten thousand million seconds are too long to be waited for: the run breaks down, although its
program is done long before, and the limit has not passed. -/
theorem endless_breaks :
    let step := blank.run ⟨some (.ofNat 10000000000), none⟩ brief
    let free := blank.run .plain brief
    free.outcome = .done ∧ step.session.halted = false ∧
      step.outcome ≠ .failed (.run (.timedOut (Number.ofNat 10000000000).dump) 0) ∧
      step.outcome = .failed (.run (.breakdown .timeLimit) 0) ∧ step ≠ free := by
  have hstep : (blank.run ⟨some (.ofNat 10000000000), none⟩ brief).outcome
      = .failed (.run (.breakdown .timeLimit) 0) := by decide +kernel
  have hfree : (blank.run .plain brief).outcome = .done := by decide +kernel
  refine ⟨hfree, halted_run _, ?_, hstep, fun h => ?_⟩
  · rw [hstep]
    exact nofun
  · rw [← h, hstep] at hfree
    cases hfree

end Session
end Parlance
