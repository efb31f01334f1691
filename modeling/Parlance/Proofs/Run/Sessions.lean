import Mathlib.Data.List.Induction
import Parlance.Proofs.Run.Bound
import Parlance.Session
/-!
# Function tables of sessions

A session starts with a closed table. The table stays closed through a session exactly if every
program that is bound suits the functions known before it (`closed_iff_suits_all`): a function that
is declared anew must take as many arguments as the older bodies that stay pass to it. The binder
does not check this (`narrowing_breaks`).
-/
namespace Parlance
namespace Session

variable {s : Session} {o : RunOptions} {p : Program} {f : FunctionTable}

/-- The session after some programs. -/
def runAll (s : Session) (steps : List (RunOptions × Program)) : Session :=
  steps.foldl (fun s step => (s.run step.1 step.2).session) s

/-- The program is bound and its statements are executed. -/
def Accepts (s : Session) (step : RunOptions × Program) : Prop :=
  step.1.isEndless = false ∧ ∃ f, step.2.bind s.functions = .ok f

theorem runAll_concat (steps : List (RunOptions × Program)) (step : RunOptions × Program) :
    s.runAll (steps ++ [step]) = ((s.runAll steps).run step.1 step.2).session := by
  simp [runAll]

theorem run_of_bind (ho : o.isEndless = false) (h : p.bind s.functions = .ok f) :
    (s.run o p).session.functions = f ∧
      (s.run o p).outcome = outcomeOf o.timeout
        (Run.statements (s.context f o) s.limits.calls p (s.state o.haltAfter)).1 := by
  unfold run
  rw [ho, h]
  exact ⟨rfl, rfl⟩

/-- What the end of its statements makes of a program that is bound. -/
def stepOf (s : Session) (o : RunOptions) (f : FunctionTable) (r : Except Stop Unit × State) : Step :=
  { outcome := outcomeOf o.timeout r.1
    session := s.afterRun f r.2
    written := r.2.written.reverse
    trace := (if s.debug then [boundNote f] else []) ++ r.2.trace.reverse }

theorem run_eq_stepOf (ho : o.isEndless = false) (h : p.bind s.functions = .ok f) :
    s.run o p = s.stepOf o f
      (Run.statements (s.context f o) s.limits.calls p (s.state o.haltAfter)) := by
  unfold run
  rw [ho, h]
  rfl

/-- A program that is not accepted leaves the session as it was. -/
theorem run_of_not_accepts (h : ¬ s.Accepts (o, p)) : (s.run o p).session = s := by
  unfold run
  cases ho : o.isEndless with
  | true => rfl
  | false =>
    cases hb : p.bind s.functions with
    | error fault => rfl
    | ok f => exact absurd ⟨ho, f, hb⟩ h

/-- A run that ends in a closed table does not fail for a fault of binding. -/
theorem run_outcome_of_closed (h : (s.run o p).session.functions.Closed) {fault : Fault}
    {offset : Nat} (hr : (s.run o p).outcome = .failed (.run fault offset)) :
    ¬ fault.OfBinding := by
  cases ho : o.isEndless with
  | true =>
    unfold run at hr
    rw [ho] at hr
    cases hr
    exact nofun
  | false =>
    cases hb : p.bind s.functions with
    | error e =>
      unfold run at hr
      rw [ho, hb] at hr
      cases hr
    | ok f =>
      obtain ⟨hf, hout⟩ := run_of_bind ho hb
      rw [hf] at h
      rw [hout] at hr
      have hstatements := (Program.bind_eq_ok.mp hb).2.2
      have hsafe := Run.statements_safe (c := s.context f o) h hstatements s.limits.calls
        (s.state o.haltAfter)
      cases hend : (Run.statements (s.context f o) s.limits.calls p (s.state o.haltAfter)).1 with
      | ok u =>
        rw [hend] at hr
        cases hr
      | error e =>
        have hsafe := hsafe e hend
        rw [hend] at hr
        cases e with
        | fault e place =>
          cases hr
          exact hsafe
        | returned v => cases hr
        | waiting need => cases hr
        | exhausted =>
          simp only [outcomeOf] at hr
          split at hr
          · cases hr
            exact nofun
          · cases hr

/-- One program keeps the table closed exactly if it is not accepted or suits the table. -/
theorem run_closed_iff (hs : s.functions.Closed) :
    (s.run o p).session.functions.Closed ↔ (s.Accepts (o, p) → p.Suits s.functions) := by
  by_cases ha : s.Accepts (o, p)
  · obtain ⟨ho, f, hb⟩ := ha
    rw [(run_of_bind ho hb).1, Program.closed_iff_suits hs hb]
    exact ⟨fun h _ => h, fun h => h ⟨ho, f, hb⟩⟩
  · rw [run_of_not_accepts ha]
    exact ⟨fun _ h => absurd h ha, fun _ => hs⟩

/-- The table is closed after every program of a session exactly if every program that is accepted
suits the table it finds; and then no program fails for an unknown function or a wrong number of
arguments. -/
theorem closed_iff_suits_all (world : World) (debug : Bool) (limits : Limits)
    (steps : List (RunOptions × Program)) :
    ((∀ done, done <+: steps → ((start world debug limits).runAll done).functions.Closed) ↔
      ∀ done step, done ++ [step] <+: steps → ((start world debug limits).runAll done).Accepts step →
        step.2.Suits ((start world debug limits).runAll done).functions) ∧
    ((∀ done, done <+: steps → ((start world debug limits).runAll done).functions.Closed) →
      ∀ done step, done ++ [step] <+: steps → ∀ fault offset,
        (((start world debug limits).runAll done).run step.1 step.2).outcome
            = .failed (.run fault offset) → ¬ fault.OfBinding) := by
  refine ⟨⟨?_, ?_⟩, ?_⟩
  · intro h done step hpre
    have hbefore := h done ((List.prefix_append done [step]).trans hpre)
    have hafter := h (done ++ [step]) hpre
    rw [runAll_concat, run_closed_iff hbefore] at hafter
    exact hafter
  · intro h done
    -- from the last program backwards: the table before it is closed by the hypothesis
    induction done using List.reverseRecOn with
    | nil =>
      intro _ key d hd
      cases hd
    | append_singleton done step ih =>
      intro hpre
      have hbefore := ih ((List.prefix_append done [step]).trans hpre)
      rw [runAll_concat, run_closed_iff hbefore]
      exact h done step hpre
  · intro h done step hpre fault offset hr
    have hafter := h (done ++ [step]) hpre
    rw [runAll_concat] at hafter
    exact run_outcome_of_closed hafter hr

/-- A session before its first program. -/
def blank : Session := start (.complete ⟨2000, 1, 1, 0, 0, 0, 0⟩ [] .empty) false ⟨10, 10, 10, 10⟩

/-- A function `f` without parameters, a function `g` that calls it, then another `f` with one. -/
def narrowing : List (RunOptions × Program) :=
  let one := Expr.number (.ofNat 1) 0
  [(.plain, ⟨[⟨"f", [], [.giveBack one 0], 0⟩, ⟨"g", [], [.giveBack (.call "f" [] 0) 0], 0⟩], []⟩),
    (.plain, ⟨[⟨"f", ["x"], [.giveBack (.name "x" 0) 0], 0⟩], []⟩)]

/-- Both programs are accepted, the table is not closed afterwards, and a call of `g` fails. -/
theorem narrowing_breaks :
    let s := start (.complete ⟨2000, 1, 1, 0, 0, 0, 0⟩ [] .empty) false ⟨10, 10, 10, 10⟩
    s.Accepts narrowing[0] ∧ (s.runAll [narrowing[0]]).Accepts narrowing[1] ∧
      ¬ (s.runAll narrowing).functions.Closed ∧
      ((s.runAll narrowing).run .plain ⟨[], [.say (.call "g" [] 4) 0]⟩).outcome
        = .failed (.run (.argumentCount "f" 1 0) 0) := by
  refine ⟨⟨rfl, _, rfl⟩, ⟨rfl, _, rfl⟩, fun h => ?_, rfl⟩
  have hcall := h "g" _ rfl ⟨"f", 0⟩ (by decide)
  cases hcall

end Session
end Parlance
