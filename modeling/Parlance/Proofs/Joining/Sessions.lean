import Parlance.Proofs.Joining.Mirrors
import Parlance.Proofs.Joining.Tables
import Parlance.Proofs.Joining.Texts
import Parlance.Proofs.Run.Keeping
import Parlance.Proofs.Run.Sessions
/-!
# Sources one after another and as one

A session that runs two sources one after another does what it does with the two as one source, a
line break between them (`runSource_joined`). What differs is offsets: in the functions of the
second source, and in its failures, unless these come from functions that were known before. Where
a failure comes from is told by a run in which marks stand for offsets (`Session.failsItself`).
-/
namespace Parlance
open Run

/-! ### Sessions and their steps, moved -/

def Outcome.moved (φ : Nat → Nat) : Outcome → Outcome
  | .failed (.run fault offset) => .failed (.run fault (fault.movedTo φ offset))
  | outcome => outcome

/-- The failure is reported at the mark 1. -/
def Outcome.isMarked : Outcome → Bool
  | .failed (.run _ mark) => mark == 1
  | _ => false

/-- A failure that belongs to a node and is the same when moved stands where nothing moves. -/
theorem Outcome.offset_of_moved {φ : Nat → Nat} {fault : Fault} {offset : Nat}
    (hnode : ∀ φ n, fault.movedTo φ n = φ n)
    (h : failed (.run fault offset) = (failed (.run fault offset)).moved φ) : φ offset = offset := by
  simp only [moved, hnode, failed.injEq, Failure.run.injEq, true_and] at h
  exact h.symm

/-- What a session knows, moved. -/
def Session.moved (φ : Nat → Nat) (s : Session) : Session :=
  { s with functions := s.functions.moved φ }

def Step.moved (φ : Nat → Nat) (t : Step) : Step :=
  { t with outcome := t.outcome.moved φ, session := t.session.moved φ }

theorem Stop.moved_id (e : Stop) : e.moved id = e := by
  cases e with
  | fault f offset =>
    have hoffset : f.movedTo id offset = offset := by cases f <;> rfl
    rw [Stop.moved, hoffset]
  | returned | exhausted | waiting => rfl

theorem mapError_moved_id {α : Type} (r : Except Stop α) : r.mapError (Stop.moved id) = r := by
  cases r with
  | ok a => rfl
  | error e => exact congrArg Except.error (Stop.moved_id e)

theorem Stmt.execAll_append (c : Context) (i : Invoke) (ss us : List Stmt) :
    Stmt.execAll c i (ss ++ us) = (do
      Stmt.execAll c i ss
      Stmt.execAll c i us) := by
  induction ss with
  | nil => rfl
  | cons t ss ih =>
    funext s
    rw [List.cons_append, Stmt.execAll, Stmt.execAll, ih]
    simp only [bind_apply]
    cases Run.enter c t.kind t.offset s with
    | mk r after =>
      cases r with
      | error e => rfl
      | ok u =>
        simp only
        cases t.exec c i after with
        | mk r after =>
          cases r with
          | error e => rfl
          | ok u => rfl

theorem State.behind_nil (s : State) : s.behind [] = s := by simp [State.behind]

namespace Session

variable {s : Session} {f g : FunctionTable} {p q : Program} {φ ψ : Nat → Nat}

theorem moved_id (s : Session) : s.moved id = s := by simp [moved, FunctionTable.moved_id]

theorem outcomeOf_moved (r : Except Stop Unit) :
    outcomeOf none (r.mapError (Stop.moved φ)) = (outcomeOf none r).moved φ := by
  cases r with
  | ok u => rfl
  | error e =>
    cases e with
    | fault | returned | exhausted | waiting => rfl

theorem quiet_state (s : Session) : (s.state none).Quiet := ⟨rfl, rfl⟩

/-- A program that is bound runs as follows. -/
theorem run_plain (h : p.bind s.functions = .ok f) :
    s.run .plain p =
      let (r, final) := Run.statements (s.context f .plain) s.limits.calls p (s.state none)
      { outcome := outcomeOf none r
        session := s.afterRun f final
        written := final.written.reverse
        trace := (if s.debug then [boundNote f] else []) ++ final.trace.reverse } := by
  have hend : RunOptions.plain.isEndless = false := rfl
  rw [run, hend, h]
  rfl

theorem extends_moved (hd : s.debug = false) (φ : Nat → Nat) (f : FunctionTable) :
    (s.context f .plain).Extends φ False ((s.moved φ).context (f.moved φ) .plain) where
  silent := hd
  silent' := hd
  heedsHalt := rfl
  rounds := rfl
  known key d h := by
    have hget : Table.get? key f = some d := h
    have hmoved : Table.get? key (f.moved φ) = some (d.moved φ) := by
      rw [FunctionTable.get?_moved, hget]
      rfl
    exact hmoved
  unknown key h := by
    have hget : Table.get? key f = none := h
    have hmoved : Table.get? key (f.moved φ) = none := by
      rw [FunctionTable.get?_moved, hget]
      rfl
    exact .inr hmoved

/-- A program that is moved, in a session whose functions are moved, runs as before and reports
moved offsets. -/
theorem run_moved (hd : s.debug = false) (hb : p.bind s.functions = .ok f)
    (hm : (p.moved φ).bind (s.moved φ).functions = .ok (f.moved φ)) :
    (s.moved φ).run .plain (p.moved φ) = (s.run .plain p).moved φ := by
  obtain ⟨_, hlost | hrun⟩ := statements_mirrors (extends_moved hd φ f) [] s.limits.calls p
    (s.state none) s.quiet_state
  · exact hlost.1.elim
  · rw [State.behind_nil, State.behind_nil] at hrun
    have hrun' : Run.statements ((s.moved φ).context (f.moved φ) .plain) (s.moved φ).limits.calls
        (p.moved φ) ((s.moved φ).state none) = _ := hrun
    rw [run_plain hb, run_plain hm, hrun']
    have hdebug : (s.moved φ).debug = s.debug := rfl
    simp only [outcomeOf_moved, hdebug, hd]
    rfl

/-! ### Where a failure comes from -/

/-- The functions of the session are moved by one function and the program by another one. -/
theorem bind_moved_after (hb : p.bind s.functions = .ok f)
    (hfresh : s.functions.Lacks p.functions) (φ ψ : Nat → Nat) :
    (p.moved ψ).bind (s.moved φ).functions
      = .ok (s.functions.moved φ ++ entries (p.moved ψ).functions) := by
  have hfresh' : FunctionTable.Lacks (s.functions.moved φ) p.functions := by
    intro d hd
    rw [FunctionTable.keys_moved]
    exact hfresh d hd
  refine Program.bind_after hb hfresh hfresh' ψ fun name n h => ?_
  rwa [Binding.arity?_moved]

/-- Offsets that are moved apart and then together. -/
theorem run_moved_moved (hd : s.debug = false) (hb : p.bind s.functions = .ok f)
    (hfresh : s.functions.Lacks p.functions) (φ ψ χ : Nat → Nat) :
    (s.moved (χ ∘ φ)).run .plain (p.moved (χ ∘ ψ))
      = ((s.moved φ).run .plain (p.moved ψ)).moved χ := by
  have hsession : s.moved (χ ∘ φ) = (s.moved φ).moved χ := by
    simp only [moved, FunctionTable.moved_moved]
  have hbound := bind_moved_after hb hfresh φ ψ
  have hbound' := bind_moved_after hb hfresh (χ ∘ φ) (χ ∘ ψ)
  have htable : s.functions.moved (χ ∘ φ) ++ entries (p.moved (χ ∘ ψ)).functions
      = FunctionTable.moved χ (s.functions.moved φ ++ entries (p.moved ψ).functions) := by
    rw [FunctionTable.moved_append, FunctionTable.moved_moved, ← entries_moved]
    simp only [Program.moved, List.map_map, Function.comp_def, Declaration.moved_moved]
  rw [htable, hsession, ← Program.moved_moved] at hbound'
  have hd' : (s.moved φ).debug = false := hd
  rw [hsession, ← Program.moved_moved, run_moved hd' hbound hbound']

/-- Moves the half of an even offset by one function and that of an odd one by another one. -/
def byParity (φ ψ : Nat → Nat) (n : Nat) : Nat := if n % 2 = 0 then φ (n / 2) else ψ (n / 2)

theorem byParity_even (φ ψ : Nat → Nat) : byParity φ ψ ∘ (2 * ·) = φ := by
  funext n
  simp [byParity]

theorem byParity_odd (φ ψ : Nat → Nat) : byParity φ ψ ∘ (2 * · + 1) = ψ := by
  funext n
  have hhalf : (2 * n + 1) / 2 = n := by omega
  simp [byParity, Nat.add_mod, hhalf]

/-- The run of a program whose offsets are odd, while those of the functions known before are
even. -/
def runTold (s : Session) (p : Program) : Step := (s.moved (2 * ·)).run .plain (p.moved (2 * · + 1))

/-- All runs with other offsets come from the one in which the offsets can be told apart. -/
theorem run_eq_moved_runTold (hd : s.debug = false) (hb : p.bind s.functions = .ok f)
    (hfresh : s.functions.Lacks p.functions) (φ ψ : Nat → Nat) :
    (s.moved φ).run .plain (p.moved ψ) = (s.runTold p).moved (byParity φ ψ) := by
  have htold := run_moved_moved hd hb hfresh (2 * ·) (2 * · + 1) (byParity φ ψ)
  rwa [byParity_even, byParity_odd] at htold

/-- The failure of a program, if it comes to one, comes from its own text and not from a function
known before: with marks in place of offsets, 1 in the program and 0 in the functions known before,
it is reported at 1. -/
def failsItself (s : Session) (p : Program) : Bool :=
  ((s.moved fun _ => 0).run .plain (p.moved fun _ => 1)).outcome.isMarked

/-- Whether an offset is even or odd can be read off its mark. -/
theorem moved_byParity (o : Outcome) (φ ψ : Nat → Nat) :
    o.moved (byParity φ ψ) = (o.moved (byParity id id)).moved
      (if (o.moved (byParity (fun _ => 0) fun _ => 1)).isMarked then ψ else φ) := by
  cases o with
  | done | exhausted | waiting need => rfl
  | failed failure =>
    cases failure with
    | lex | parse | binding => rfl
    | run fault n =>
      simp only [Outcome.moved, Outcome.isMarked]
      rcases fault.movedTo_cases with hstays | hmoves
      · simp only [hstays]
      · simp only [hmoves, byParity]
        by_cases heven : n % 2 = 0
        · simp [heven]
        · simp [heven]

/-- A failure of the program itself moves with the program, any other one with the functions that
were known before. -/
theorem run_moved_outcome (hd : s.debug = false) (hb : p.bind s.functions = .ok f)
    (hfresh : s.functions.Lacks p.functions) (φ ψ : Nat → Nat) :
    ((s.moved φ).run .plain (p.moved ψ)).outcome
      = (s.run .plain p).outcome.moved (if s.failsItself p then ψ else φ) := by
  have htold := run_eq_moved_runTold hd hb hfresh
  have hrun := htold id id
  rw [moved_id, Program.moved_id] at hrun
  rw [htold φ ψ, hrun, failsItself, htold (fun _ => 0) fun _ => 1]
  exact moved_byParity (s.runTold p).outcome φ ψ

/-- The offset of a failure that belongs to a node is one of the program or one of the functions
known before: whatever moves none of these does not move it. -/
theorem failure_offset (hd : s.debug = false) (hb : p.bind s.functions = .ok f)
    (hfresh : s.functions.Lacks p.functions) {fault : Fault} {offset : Nat}
    (h : (s.run .plain p).outcome = .failed (.run fault offset))
    (hnode : ∀ χ n, fault.movedTo χ n = χ n) :
    if s.failsItself p then ∀ χ, p.moved χ = p → χ offset = offset
    else ∀ χ, s.moved χ = s → χ offset = offset := by
  split
  case isTrue hself =>
    intro χ hχ
    have hrun := run_moved_outcome hd hb hfresh id χ
    rw [moved_id, hχ, if_pos hself, h] at hrun
    exact Outcome.offset_of_moved hnode hrun
  case isFalse hself =>
    intro χ hχ
    have hrun := run_moved_outcome hd hb hfresh χ id
    rw [hχ, Program.moved_id, if_neg hself, h] at hrun
    exact Outcome.offset_of_moved hnode hrun

/-- The run of a program in a session, moved apart, does the same and differs in the offsets of the
failure and in those of the functions it leaves. -/
theorem run_moved_apart (hd : s.debug = false) (hb : p.bind s.functions = .ok f)
    (hfresh : s.functions.Lacks p.functions) (φ ψ : Nat → Nat) :
    (s.moved φ).run .plain (p.moved ψ) =
      { s.run .plain p with
        outcome := (s.run .plain p).outcome.moved (if s.failsItself p then ψ else φ)
        session :=
          { (s.run .plain p).session with
            functions := s.functions.moved φ ++ entries (p.moved ψ).functions } } := by
  have houtcome := run_moved_outcome hd hb hfresh φ ψ
  have htable := (run_of_bind (o := .plain) rfl (bind_moved_after hb hfresh φ ψ)).1
  have htold := run_eq_moved_runTold hd hb hfresh
  have hrun := htold id id
  rw [moved_id, Program.moved_id] at hrun
  rw [← houtcome, ← htable, hrun, htold φ ψ]
  rfl

/-! ### Two programs in one -/

/-- A program that is bound and done has come to its end. -/
theorem ok_of_done (hb : p.bind s.functions = .ok f) (hdone : (s.run .plain p).outcome = .done) :
    (Run.statements (s.context f .plain) s.limits.calls p (s.state none)).1 = .ok () := by
  rw [run_plain hb] at hdone
  have hpasses := (Binding.checkBlock_eq_ok _).mp (Program.bind_eq_ok.mp hb).2.2
  have hkeeps : Keeps (.onStops True True) false (fun _ => True)
      (Run.statements (s.context f .plain) s.limits.calls p) :=
    Stmt.execAll_keeps trivial (invoke_keeps trivial _) p.statements hpasses.2
  have hend := (hkeeps (s.state none) (Pact.onStops_holds fun h => absurd trivial h)).2
  cases hr : (Run.statements (s.context f .plain) s.limits.calls p (s.state none)).1 with
  | ok u => rfl
  | error e =>
    rw [hr] at hend
    simp only [hr] at hdone
    cases e with
    | returned v => cases hend.1
    | fault | exhausted | waiting => cases hdone

theorem extends_append (hd : s.debug = false) (f g : FunctionTable) :
    (s.context f .plain).Extends id True (s.context (f ++ g) .plain) where
  silent := hd
  silent' := hd
  heedsHalt := rfl
  rounds := rfl
  known key d h := by
    have hget : Table.get? key f = some d := h
    have happend : Table.get? key (f ++ g) = some (d.moved id) := by
      rw [Table.get?_append, hget, Declaration.moved_id]
      rfl
    exact happend
  unknown _ _ := .inl trivial

theorem extends_self (hd : s.debug = false) (f : FunctionTable) :
    (s.context f .plain).Extends id False (s.context f .plain) where
  silent := hd
  silent' := hd
  heedsHalt := rfl
  rounds := rfl
  known key d h := by rw [h, Declaration.moved_id]
  unknown _ h := .inr h

theorem statements_append (c : Context) (depth : Nat) (p q : Program) :
    Run.statements c depth (p ++ q) = (do
      Run.statements c depth p
      Run.statements c depth q) := Stmt.execAll_append c (invoke c depth) p.statements q.statements

/-- The state that a quiet run leaves is the one in which the next program of the session starts,
with the texts written so far. -/
theorem state_behind {final : State} (h : final.Quiet) :
    ((s.afterRun f final).state none).behind final.written = final := by
  obtain ⟨htrace, hhalt⟩ := h
  cases final
  simp only at htrace hhalt
  subst htrace hhalt
  rfl

/-- A program that is done and then another one, which declares new names only, do what the one
program with both of them does. -/
theorem run_append (hd : s.debug = false) (hb : p.bind s.functions = .ok f)
    (hdone : (s.run .plain p).outcome = .done) (hq : q.bind f = .ok g)
    (hfresh : f.Lacks q.functions) :
    s.run .plain (p ++ q) =
      { (s.run .plain p).session.run .plain q with
        written := (s.run .plain p).written
          ++ ((s.run .plain p).session.run .plain q).written } := by
  have hok := ok_of_done hb hdone
  have hboth := Program.bind_append hb hq hfresh
  obtain rfl := Program.bind_eq_append hq hfresh
  -- the first program meets the functions of the second one, and does not need them
  obtain ⟨hquiet, hgrown⟩ := statements_mirrors (extends_append hd f (entries q.functions)) []
    s.limits.calls p (s.state none) s.quiet_state
  rw [run_plain hb, run_plain hboth, statements_append, bind_apply]
  cases hrun : Run.statements (s.context f .plain) s.limits.calls p (s.state none) with
  | mk r final =>
    rw [hrun] at hok hquiet hgrown
    obtain rfl : r = .ok () := hok
    rcases hgrown with ⟨_, _, _, hlost⟩ | hgrown
    · cases hlost
    · rw [Program.moved_id, State.behind_nil, State.behind_nil, mapError_moved_id] at hgrown
      -- the second program starts with the texts that the first one has written
      obtain ⟨hquiet', hlost | hsecond⟩ :=
        statements_mirrors (extends_self hd (f ++ entries q.functions)) final.written s.limits.calls
          q ((s.afterRun f final).state none) (quiet_state _)
      · exact hlost.1.elim
      · rw [state_behind hquiet, mapError_moved_id, Program.moved_id] at hsecond
        rw [hgrown]
        have hq' : q.bind (s.afterRun f final).functions = .ok (f ++ entries q.functions) := hq
        have hdebug : (s.afterRun f final).debug = false := hd
        have hjoined : Run.statements (s.context (f ++ entries q.functions) .plain) s.limits.calls q
            final = _ := hsecond
        rw [run_plain hq']
        simp only [hd, hdebug, hjoined]
        have hcontext : (s.afterRun f final).context (f ++ entries q.functions) .plain
            = s.context (f ++ entries q.functions) .plain := rfl
        have hlimits : (s.afterRun f final).limits = s.limits := rfl
        rw [hcontext, hlimits]
        generalize Run.statements (s.context (f ++ entries q.functions) .plain) s.limits.calls q
          ((s.afterRun f final).state none) = last
        simp only [afterRun, State.behind, List.reverse_append]

/-- No run changes how the session runs its programs. -/
theorem run_settings (s : Session) (o : RunOptions) (p : Program) :
    (s.run o p).session.debug = s.debug ∧ (s.run o p).session.limits = s.limits := by
  unfold run
  split
  · exact ⟨rfl, rfl⟩
  · split
    · exact ⟨rfl, rfl⟩
    · exact ⟨rfl, rfl⟩

/-- A program that is done has been bound. -/
theorem exists_bind_of_done (hdone : (s.run .plain p).outcome = .done) :
    ∃ f, p.bind s.functions = .ok f := by
  cases hb : p.bind s.functions with
  | ok f => exact ⟨f, rfl⟩
  | error fault =>
    have hend : RunOptions.plain.isEndless = false := rfl
    rw [run, hend, hb] at hdone
    cases hdone

/-- A program that is done and then another one, which declares new names only, do what the one
program with both does in which the second one has been moved. -/
theorem run_append_moved (hd : s.debug = false) (hdone : (s.run .plain p).outcome = .done)
    (hq : (s.run .plain p).session.Accepts (.plain, q))
    (hfresh : (s.run .plain p).session.functions.Lacks q.functions) (φ : Nat → Nat) :
    let first := s.run .plain p
    let second := first.session.run .plain q
    s.run .plain (p ++ q.moved φ) =
      { outcome := second.outcome.moved (if first.session.failsItself q then φ else id)
        session :=
          { second.session with
            functions := first.session.functions ++ entries (q.moved φ).functions }
        written := first.written ++ second.written
        trace := second.trace } := by
  intro first second
  obtain ⟨f, hb⟩ := exists_bind_of_done hdone
  obtain ⟨-, g, hbound⟩ := hq
  have htable : first.session.functions = f := (run_of_bind (o := .plain) rfl hb).1
  have hd' : first.session.debug = false := (run_settings s .plain p).1.trans hd
  have hapart := run_moved_apart hd' hbound hfresh id φ
  have hmoved := bind_moved_after hbound hfresh id φ
  rw [moved_id, FunctionTable.moved_id] at hapart
  rw [moved_id, FunctionTable.moved_id, htable] at hmoved
  rw [run_append hd hb hdone hmoved (htable ▸ hfresh.moved φ), hapart]

/-- A source that is a program is run as this program. -/
theorem runSource_program (hd : s.debug = false) {source : List Char}
    (h : Source.program s.limits.nesting source = .ok p) (o : RunOptions) :
    s.runSource o source = s.run o p := by
  simp [runSource, h, hd]

/-- Two sources one after another and as one. The first one has no comments and is done; the second
one is bound after it and declares new names only. As one they write the same and leave the same
variables, lists and functions, except for the offsets in the functions of the second one, and they
end in the same way, except for the offset of a failure that comes from the text of the second
one. -/
theorem runSource_joined (hd : s.debug = false) {a b : List Char} (ha : Unremarked .code a)
    (hp : Source.program s.limits.nesting a = .ok p)
    (hq : Source.program s.limits.nesting b = .ok q)
    (hdone : (s.runSource .plain a).outcome = .done)
    (hbound : (s.runSource .plain a).session.Accepts (.plain, q))
    (hfresh : (s.runSource .plain a).session.functions.Lacks q.functions) :
    let first := s.runSource .plain a
    let second := first.session.runSource .plain b
    let joined := s.runSource .plain (a ++ '\n' :: b)
    let behind (offset : Nat) : Nat := offset + (a.length + 1)
    joined.written = first.written ++ second.written ∧
      second.session.functions = first.session.functions ++ entries q.functions ∧
      joined.session =
        { second.session with
          functions := first.session.functions ++ entries (q.moved behind).functions } ∧
      joined.outcome
        = second.outcome.moved (if first.session.failsItself q then behind else id) := by
  intro first second joined behind
  have hfirst : first = s.run .plain p := runSource_program hd hp .plain
  obtain ⟨hdebug, hlimits⟩ := run_settings s .plain p
  rw [← hfirst] at hdebug hlimits
  have hsecond : second = first.session.run .plain q :=
    runSource_program (hdebug.trans hd) (hlimits ▸ hq) .plain
  have hjoined : joined = s.run .plain (p ++ q.moved behind) :=
    runSource_program hd (program_joined ha hp hq) .plain
  change first.outcome = .done at hdone
  change first.session.Accepts (.plain, q) at hbound
  change first.session.functions.Lacks q.functions at hfresh
  have htogether := run_append_moved hd (hfirst ▸ hdone) (hfirst ▸ hbound) (hfirst ▸ hfresh) behind
  simp only [← hfirst, ← hsecond, ← hjoined] at htogether
  obtain ⟨-, g, hg⟩ := hbound
  have htable : second.session.functions = g := hsecond ▸ (run_of_bind (o := .plain) rfl hg).1
  rw [htogether, htable]
  exact ⟨rfl, Program.bind_eq_append hg hfresh, rfl, rfl⟩

/-- A source with a number sign in a literal, and its program. -/
def echoSource : List Char := "to f(x): end. say \"#\".".toList

def echo : Program := ⟨[⟨"f", ["x"], [], 0⟩], [.say (.text "#" 18) 14]⟩

/-- A source that calls a function of the other one with one of its own that fails, and its
program. -/
def straySource : List Char := "to g(): say y. end. f(g()).".toList

def stray : Program :=
  ⟨[⟨"g", [], [.say (.name "y" 12) 8], 0⟩], [.evaluate (.call "f" [.call "g" [] 22] 20) 20]⟩

/-- The failure stands at 12 in the second source, which begins at 23 in both. -/
theorem stray_joined :
    let joined := blank.runSource .plain (echoSource ++ '\n' :: straySource)
    joined.written = ["#\n"] ∧ joined.session.functions.keys = ["f", "g"] ∧
      joined.outcome = .failed (.run (.undefined "y") 35) := by
  have hp : Source.program blank.limits.nesting echoSource = .ok echo := by cbv
  have hq : Source.program blank.limits.nesting straySource = .ok stray := by cbv
  have hfirst : blank.runSource .plain echoSource = blank.run .plain echo :=
    runSource_program rfl hp .plain
  have hsecond : (blank.run .plain echo).session.runSource .plain straySource
      = (blank.run .plain echo).session.run .plain stray :=
    runSource_program (s := (blank.run .plain echo).session) rfl hq .plain
  have hfresh : (blank.run .plain echo).session.functions.Lacks stray.functions := by
    intro d hd
    obtain rfl := List.mem_singleton.mp hd
    decide
  have hjoined := runSource_joined (s := blank) rfl (by decide) hp hq (by rw [hfirst]; rfl)
    (by rw [hfirst]; exact ⟨rfl, _, rfl⟩) (by rw [hfirst]; exact hfresh)
  obtain ⟨hwritten, _, hsession, houtcome⟩ := hjoined
  rw [hfirst, hsecond] at hwritten hsession houtcome
  have htexts : (blank.run .plain echo).written = ["#\n"] := rfl
  have hmute : ((blank.run .plain echo).session.run .plain stray).written = [] := rfl
  refine ⟨by rw [hwritten, htexts, hmute]; rfl, ?_, ?_⟩
  · rw [hsession]
    rfl
  · rw [houtcome]
    rfl

end Session
end Parlance
