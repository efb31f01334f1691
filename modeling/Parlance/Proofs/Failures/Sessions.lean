import Parlance.Proofs.Failures.Places
import Parlance.Proofs.Failures.Stopping
import Parlance.Proofs.Joining.Sessions
/-!
# The place of a failure

A failure is reported against the source of the step that fails. It stands at a node of the step's
own program, and so inside its source, or at a node of a function that an earlier step has declared
and to which calls of the step lead (`failure_place`). There the offset belongs to another source,
and nothing in the session remembers to which one (`borrowed_place`).
-/
namespace Parlance
namespace Session

variable {s : Session} {o : RunOptions} {p : Program} {source : List Char}

/-- The session after some sources. -/
def runSources (s : Session) (steps : List (RunOptions × List Char)) : Session :=
  steps.foldl (fun s step => (s.runSource step.1 step.2).session) s

theorem runSources_concat (steps : List (RunOptions × List Char))
    (step : RunOptions × List Char) :
    s.runSources (steps ++ [step]) = ((s.runSources steps).runSource step.1 step.2).session := by
  simp [runSources]

/-- A source that is read is run as its program, but for the trace. -/
theorem runSource_of_program (h : Source.program s.limits.nesting source = .ok p)
    (o : RunOptions) : ∃ trace, s.runSource o source = { s.run o p with trace := trace } := by
  rw [runSource, h]
  exact ⟨_, rfl⟩

theorem runSource_of_failure {failure : Failure}
    (h : Source.program s.limits.nesting source = .error failure) (o : RunOptions) :
    ∃ trace, s.runSource o source = ⟨.failed failure, s, [], trace⟩ := by
  rw [runSource, h]
  exact ⟨_, rfl⟩

/-- No source changes how the session runs its programs. -/
theorem runSource_limits : (s.runSource o source).session.limits = s.limits := by
  cases h : Source.program s.limits.nesting source with
  | error failure =>
    obtain ⟨trace, hstep⟩ := runSource_of_failure h o
    rw [hstep]
  | ok p =>
    obtain ⟨trace, hstep⟩ := runSource_of_program h o
    rw [hstep]
    exact (run_settings s o p).2

theorem runSources_limits (steps : List (RunOptions × List Char)) :
    (s.runSources steps).limits = s.limits := by
  induction steps using List.reverseRecOn with
  | nil => rfl
  | append_singleton steps step ih => rw [runSources_concat, runSource_limits, ih]

/-- A function that the session knows after a source was known before or is declared in it. -/
theorem known_of_runSource {key : String} {d : Declaration}
    (h : (s.runSource o source).session.functions.get? key = some d) :
    s.functions.get? key = some d ∨
      ∃ p, Source.program s.limits.nesting source = .ok p ∧ d ∈ p.functions := by
  cases hread : Source.program s.limits.nesting source with
  | error failure =>
    obtain ⟨trace, hstep⟩ := runSource_of_failure hread o
    rw [hstep] at h
    exact .inl h
  | ok p =>
    obtain ⟨trace, hstep⟩ := runSource_of_program hread o
    rw [hstep] at h
    by_cases haccepts : s.Accepts (o, p)
    · obtain ⟨ho, f, hf⟩ := haccepts
      rw [(run_of_bind ho hf).1, Program.get?_bind hf, Option.or_eq_some_iff] at h
      rcases h with hown | ⟨-, hold⟩
      · exact .inr ⟨p, rfl, (Binding.declared?_mem hown).1⟩
      · exact .inl hold
    · rw [run_of_not_accepts haccepts] at h
      exact .inl h

/-- The function is declared in one of the sources. -/
def DeclaredIn (nesting : Nat) (steps : List (RunOptions × List Char)) (d : Declaration) : Prop :=
  ∃ step ∈ steps, ∃ p, Source.program nesting step.2 = .ok p ∧ d ∈ p.functions

/-- Every function that a session knows is declared in one of its sources. -/
theorem known_declaredIn (world : World) (debug : Bool) (limits : Limits)
    (steps : List (RunOptions × List Char)) {key : String} {d : Declaration}
    (h : ((start world debug limits).runSources steps).functions.get? key = some d) :
    DeclaredIn limits.nesting steps d := by
  induction steps using List.reverseRecOn with
  | nil => cases h
  | append_singleton steps step ih =>
    rw [runSources_concat] at h
    rcases known_of_runSource h with hold | ⟨p, hread, hd⟩
    · obtain ⟨other, hmem, hother⟩ := ih hold
      exact ⟨other, List.mem_append_left _ hmem, hother⟩
    · rw [runSources_limits] at hread
      exact ⟨step, List.mem_concat_self, p, hread, hd⟩

end Session

theorem placed_of_body {p : Program} {d : Declaration} (hd : d ∈ p.functions) {offset : Nat}
    (h : Placed (Stmt.allNodes d.body) offset) : Placed p.nodes offset := by
  obtain ⟨n, hn, hoffset⟩ := h
  refine ⟨n, List.mem_cons_of_mem _ (List.mem_append_left _ ?_), hoffset⟩
  exact List.mem_flatMap.mpr ⟨d, hd, List.mem_cons_of_mem _ hn⟩

namespace Session

variable {s : Session} {o : RunOptions} {p : Program} {source : List Char}

/-- The place is in a function that the program does not declare but to which its calls lead. -/
structure Borrowed (known : FunctionTable) (p : Program) (d : Declaration) (offset : Nat) :
    Prop where
  reached : ∃ f key, p.bind known = .ok f ∧ f.Reached (Stmt.callsAll p.statements) key ∧
    Binding.declared? key p.functions = none ∧ known.get? key = some d
  placed : Placed (Stmt.allNodes d.body) offset

/-- What ends in a fault has met this fault, unless its time was over. -/
theorem fault_of_outcome {timeout : Option Number} {r : Except Stop Unit} {fault : Fault}
    {offset : Nat} (h : outcomeOf timeout r = .failed (.run fault offset)) (hnode : fault.OfNode) :
    r = .error (.fault fault offset) := by
  cases r with
  | ok _ => cases h
  | error e =>
    cases e with
    | fault => cases h; rfl
    | returned | waiting => cases h
    | exhausted =>
      cases timeout with
      | none => cases h
      | some => cases h; cases hnode

/-- A program that fails at a node fails at one of its own or in a function that it borrows. -/
theorem run_failure_place {fault : Fault} {offset : Nat}
    (h : (s.run o p).outcome = .failed (.run fault offset)) (hnode : fault.OfNode) :
    Placed p.nodes offset ∨ ∃ d, Borrowed s.functions p d offset := by
  by_cases haccepts : s.Accepts (o, p)
  · obtain ⟨ho, f, hf⟩ := haccepts
    rw [(run_of_bind ho hf).2] at h
    have hplace : f.PlacedIn p offset :=
      Run.statements_stops (s.context f o) s.limits.calls p _ _ (fault_of_outcome h hnode) hnode
    rcases hplace with ⟨n, hn, hoffset⟩ | ⟨key, d, hreached, hd, hbody⟩
    · exact .inl ⟨n, List.mem_cons_of_mem _ (List.mem_append_right _ hn), hoffset⟩
    · rw [Program.get?_bind hf, Option.or_eq_some_iff] at hd
      rcases hd with hown | ⟨hnone, hold⟩
      · exact .inl (placed_of_body (Binding.declared?_mem hown).1 hbody)
      · exact .inr ⟨d, ⟨f, key, hf, hreached, hnone, hold⟩, hbody⟩
  · exfalso
    unfold run at h
    cases ho : o.isEndless with
    | true =>
      rw [ho] at h
      cases h
      cases hnode
    | false =>
      rw [ho] at h
      cases hb : p.bind s.functions with
      | error fault =>
        rw [hb] at h
        cases h
      | ok f => exact haccepts ⟨ho, f, hb⟩

/-- A step that is read and fails at a node fails at a node of its own program, inside its source,
or in a function that it borrows from the source of an earlier step. -/
theorem failure_place {world : World} {debug : Bool} {limits : Limits}
    {steps : List (RunOptions × List Char)} {o : RunOptions} {source : List Char} {fault : Fault}
    {offset : Nat}
    (h : (((start world debug limits).runSources steps).runSource o source).outcome
      = .failed (.run fault offset)) (hnode : fault.OfNode) :
    ∃ p, Source.program limits.nesting source = .ok p ∧
      ((Placed p.nodes offset ∧ offset < source.length) ∨
        ∃ d, Borrowed ((start world debug limits).runSources steps).functions p d offset ∧
          DeclaredIn limits.nesting steps d) := by
  have hlimits : ((start world debug limits).runSources steps).limits = limits :=
    runSources_limits steps
  cases hread : Source.program limits.nesting source with
  | error failure =>
    rw [← hlimits] at hread
    obtain ⟨trace, hstep⟩ := runSource_of_failure hread o
    rw [hstep] at h
    cases h
    exact absurd hread (Source.program_ne_run fault offset)
  | ok p =>
    refine ⟨p, rfl, ?_⟩
    rw [← hlimits] at hread
    obtain ⟨trace, hstep⟩ := runSource_of_program hread o
    rw [hstep] at h
    rcases run_failure_place h hnode with hown | ⟨d, hborrowed⟩
    · obtain ⟨n, hn, hoffset⟩ := hown
      exact .inl ⟨⟨n, hn, hoffset⟩, Source.node_inside hread hn hoffset⟩
    · obtain ⟨⟨f, key, hf, hreached, hnone, hold⟩, hbody⟩ := hborrowed
      exact .inr ⟨d, ⟨⟨f, key, hf, hreached, hnone, hold⟩, hbody⟩,
        known_declaredIn world debug limits steps hold⟩

/-- A source that declares a function, one that passes it a name that is not bound, and their
programs. -/
def nopSource : List Char := "to f(x): end.".toList

def nop : Program := ⟨[⟨"f", ["x"], [], 0⟩], []⟩

def unboundSource : List Char := "f(y).".toList

def unbound : Program := ⟨[], [.evaluate (.call "f" [.name "y" 2] 0) 0]⟩

/-- The second step fails at the argument, which is a node of its own program. -/
theorem argument_place :
    ((blank.runSources [(.plain, nopSource)]).runSource .plain unboundSource).outcome
        = .failed (.run (.undefined "y") 2) ∧
      ∃ p, Source.program blank.limits.nesting unboundSource = .ok p ∧ Placed p.nodes 2 ∧
        2 < unboundSource.length := by
  have hnop : Source.program blank.limits.nesting nopSource = .ok nop := by cbv
  have hunbound : Source.program blank.limits.nesting unboundSource = .ok unbound := by cbv
  have hfails : ((blank.runSources [(.plain, nopSource)]).runSource .plain unboundSource).outcome
      = .failed (.run (.undefined "y") 2) := by
    have hfirst : blank.runSources [(.plain, nopSource)] = (blank.run .plain nop).session := by
      obtain ⟨trace, hstep⟩ := runSource_of_program (s := blank) hnop .plain
      show (blank.runSource .plain nopSource).session = _
      rw [hstep]
    obtain ⟨trace, hstep⟩ := runSource_of_program (s := (blank.run .plain nop).session) hunbound
      .plain
    rw [hfirst, hstep]
    rfl
  refine ⟨hfails, ?_⟩
  obtain ⟨p, hread, ⟨hplaced, hinside⟩ | ⟨d, hborrowed, step, hstep, q, hq, hd⟩⟩ :=
    failure_place hfails trivial
  · exact ⟨p, hread, hplaced, hinside⟩
  · -- the body of the function has no nodes
    obtain rfl := List.mem_singleton.mp hstep
    obtain rfl := Except.ok.inj (hnop.symm.trans hq)
    obtain rfl := List.mem_singleton.mp hd
    obtain ⟨n, hn, -⟩ := hborrowed.placed
    cases hn

/-- A source that declares a function which fails, one that calls it, and their programs. -/
def faultySource : List Char := "to f(): say x. end.".toList

def faulty : Program := ⟨[⟨"f", [], [.say (.name "x" 12) 8], 0⟩], []⟩

def callSource : List Char := "f().".toList

def call : Program := ⟨[], [.evaluate (.call "f" [] 0) 0]⟩

/-- The place of the failure is in the first source, the failure is one of the second, which is
shorter. -/
theorem borrowed_place :
    ((blank.runSources [(.plain, faultySource)]).runSource .plain callSource).outcome
        = .failed (.run (.undefined "x") 12) ∧
      Source.program blank.limits.nesting callSource = .ok call ∧ ¬ Placed call.nodes 12 ∧
      callSource.length = 4 := by
  have hfaulty : Source.program blank.limits.nesting faultySource = .ok faulty := by cbv
  have hcall : Source.program blank.limits.nesting callSource = .ok call := by cbv
  refine ⟨?_, hcall, ?_, rfl⟩
  · have hfirst : blank.runSources [(.plain, faultySource)]
        = (blank.run .plain faulty).session := by
      obtain ⟨trace, hstep⟩ := runSource_of_program (s := blank) hfaulty .plain
      show (blank.runSource .plain faultySource).session = _
      rw [hstep]
    obtain ⟨trace, hstep⟩ := runSource_of_program (s := (blank.run .plain faulty).session) hcall
      .plain
    rw [hfirst, hstep]
    rfl
  · rintro ⟨n, hn, hoffset⟩
    have hall : call.nodes.all (fun n => n.offset? != some 12) = true := rfl
    simpa [hoffset] using List.all_eq_true.mp hall n hn

end Session
end Parlance
