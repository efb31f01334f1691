import Parlance.Proofs.Steps.Evaluator
/-!
# Halted runs stop

A machine that has been told to stop, wherever it is, makes a bounded number of steps more, and what
it still does is on its agenda (`halted_ends`): the expressions in progress, one more test for each
`while` whose body is being executed, and what the statements that have begun do with their values.
It begins no statement and no round of a loop.
-/
namespace Parlance
open Run

mutual

/-- What there is to be seen while an expression is evaluated, from its operands outward. -/
def Expr.agenda : Expr → List Machine.Event
  | .number x o => [.evaluates (.number x o)]
  | .text s o => [.evaluates (.text s o)]
  | .truth b o => [.evaluates (.truth b o)]
  | .name n o => [.evaluates (.name n o)]
  | .unary op x o => x.agenda ++ [.evaluates (.unary op x o)]
  | .binary op l r o => l.agenda ++ r.agenda ++ [.evaluates (.binary op l r o)]
  | .call f args o => Expr.agendaAll args ++ [.evaluates (.call f args o)]
  | .index t i o => t.agenda ++ i.agenda ++ [.evaluates (.index t i o)]
  | .list items o => Expr.agendaAll items ++ [.evaluates (.list items o)]

@[simp]
def Expr.agendaAll : List Expr → List Machine.Event
  | [] => []
  | e :: es => e.agenda ++ Expr.agendaAll es

end

theorem Expr.agenda_eq (e : Expr) :
    e.agenda = Expr.agendaAll e.operands ++ [.evaluates e] := by
  cases e with
  | number | text | truth | name => rfl
  | unary | call | list => simp [agenda, agendaAll, operands]
  | binary | index => simp [agenda, agendaAll, operands]

theorem Expr.agendaAll_eq_flatMap (es : List Expr) : Expr.agendaAll es = es.flatMap Expr.agenda := by
  induction es with
  | nil => rfl
  | cons e es ih => rw [agendaAll, ih, List.flatMap_cons]

namespace Machine

/-! ### What is still to be done -/

def Job.event : Job → Event
  | .expr e => .evaluates e
  | .stmt s => .acts s

/-- What is still to be done at a focus, other than statements and rounds that have not begun. -/
def Focus.agenda : Focus → List Event
  | .gather job _ due => Expr.agendaAll due ++ [job.event]
  | .begun s => Expr.agendaAll s.parts ++ [.acts s]
  | .bind s _ => [.binds s]
  | .result _ | .block _ | .rounds .. | .stopped _ => []

/-- What is still to be done of a task, other than statements and rounds that have not begun. A
`while` whose body is being executed tests its condition once more. -/
def Task.agenda : Task → List Event
  | .gather job _ due => Expr.agendaAll due ++ [job.event]
  | .rounds s .tested => Expr.agendaAll s.parts ++ [.acts s]
  | .rounds .. | .block _ | .call .. => []

def Config.agenda (C : Config) : List Event := C.focus.agenda ++ C.tasks.flatMap Task.agenda

/-- A bound on the steps that remain at a focus once the machine is told to stop. -/
@[simp]
def Focus.work : Focus → Nat
  | .gather _ _ due => 5 * (Expr.agendaAll due).length + 3
  | .begun s => 5 * (Expr.agendaAll s.parts).length + 4
  | .bind .. => 2
  | .block _ | .rounds .. => 1
  | .result _ | .stopped _ => 0

@[simp]
def Task.work : Task → Nat
  | .gather _ _ due => 5 * (Expr.agendaAll due).length + 4
  | .rounds s _ => 5 * (Expr.agendaAll s.parts).length + 5
  | .block _ => 2
  | .call .. => 1

def Task.workAll : List Task → Nat
  | [] => 0
  | T :: K => T.work + workAll K

/-- A bound on the steps that the machine makes once it is told to stop. -/
def Config.work (C : Config) : Nat := C.focus.work + Task.workAll C.tasks

/-- The machine as it is when it is told to stop. -/
def Config.told (C : Config) : Config := { C with state := { C.state with halted := true } }

/-! ### A halted machine stays halted -/

variable {α : Type} {c : Context} {C C' : Config} {seen : List Event}

/-- A run that has been told to stop has been told afterwards. -/
def Told (s t : State) : Prop := s.halted = true → t.halted = true

theorem Told.trans (s t u : State) (hst : Told s t) (htu : Told t u) : Told s u :=
  fun h => htu (hst h)

theorem onData_told {x : Run α} (hx : OnData x) : Advances Told x := by
  intro s h
  rw [hx s]
  exact h

theorem heed_told (c : Context) (offset : Nat) : Advances Told (heed c offset) := by
  intro s h
  unfold heed
  split
  · exact h
  · exact h

theorem note_told (line : String) : Advances Told (note line) := fun _ => id

theorem congruence_told (c : Context) : Congruence (fun x _ => Advances Told x) c c where
  functions := rfl
  rounds := rfl
  onData := onData_told
  bind hx hf := hx.bind Told.trans hf
  within frame x y hx s h := hx { s with frame := frame } h
  catchReturn {x y} hx s := by
    rw [catchReturn_snd]
    exact hx s
  write text s h := by
    simp only [write, change, State.afterWrite, h, Bool.true_or]
  heed := heed_told c
  enter kind offset := by
    apply (heed_told c offset).bind Told.trans
    intro _
    split
    · exact note_told _
    · exact onData_told (.pure ())
  noteCall name args := by
    unfold noteCall
    split
    · exact (onData_told (.fromStore _ _)).bind Told.trans fun _ => note_told _
    · exact onData_told (.pure ())

theorem answer_told (c : Context) (e : Expr) (vs : List Value) : Advances Told (e.answer c vs) := by
  have h := congruence_told c
  have hdata {α : Type} {x : Run α} {g : α → Upshot} (hx : OnData x) :
      Advances Told (x >>= fun a => pure (g a)) := onData_told (hx.bind fun _ => .pure _)
  unfold Expr.answer
  split
  · exact onData_told (.pure _)
  · exact onData_told (.pure _)
  · exact onData_told (.pure _)
  · exact hdata (.lookup _ _)
  · exact hdata (.fromStore _ _)
  · exact hdata (.fromStore _ _)
  · apply (h.noteCall _ _).bind Told.trans
    intro _
    unfold answerCall callBuiltin
    split
    · apply Advances.bind Told.trans ((onData_told (.checkCount _ _ _ _)).bind Told.trans fun _ =>
        h.correspondence.builtin _ _ _)
      exact fun _ => onData_told (.pure _)
    · split
      · exact onData_told (.fail _ _)
      · exact onData_told ((OnData.checkCount _ _ _ _).bind fun _ => .pure _)
  · exact hdata (.fromStore _ _)
  · exact hdata (.newList _)
  · exact onData_told (.pure _)

theorem act_told (s : Stmt) (vs : List Value) : Advances Told (s.act vs) := by
  have hwrite : ∀ text, Advances Told (write text) := (congruence_told ⟨[], false, false, 0⟩).write
  unfold Stmt.act
  split
  · exact onData_told ((OnData.assign _ _).bind fun _ => .pure _)
  · exact onData_told ((OnData.assign _ _).bind fun _ => .pure _)
  · exact onData_told ((OnData.changeStore _ _).bind fun _ => .pure _)
  · apply (onData_told (.fromStore _ _)).bind Told.trans
    exact fun text => (hwrite _).bind Told.trans fun _ => onData_told (.pure _)
  · exact fun σ h => h
  · exact fun σ h => h
  · refine onData_told ((OnData.fromStore _ _).bind fun n => ?_)
    cases n with
    | none => exact .pure _
    | some n => exact .pure _
  · exact onData_told ((OnData.fromStore _ _).bind fun _ => .pure _)
  · exact onData_told ((OnData.lookup _ _).bind fun _ => (OnData.changeStore _ _).bind fun _ =>
      .pure _)
  · exact onData_told ((OnData.lookup _ _).bind fun _ => (OnData.changeStore _ _).bind fun _ =>
      .pure _)
  · exact onData_told (.stop _)
  · exact onData_told (.pure _)

theorem owner_told (s : Stmt) : Advances Told s.owner := by
  unfold Stmt.owner
  split
  · exact onData_told ((OnData.lookup _ _).bind fun _ => .pure _)
  · exact onData_told (.pure _)

/-! ### One step of a halted machine -/

/-- A step of a halted machine: what it does was on the agenda, and less remains to be done. -/
structure Spends (C : Config) (seen : List Event) (C' : Config) : Prop where
  halted : C'.state.halted = true
  agenda : List.Sublist (seen ++ C'.agenda) C.agenda
  work : C'.work < C.work

namespace Spends

variable {F G : Focus} {T : Task} {K : List Task} {k k' : Nat} {s s' : State}

theorem same (hs : s'.halted = true) (ha : List.Sublist (seen ++ G.agenda) F.agenda)
    (hw : G.work < F.work) : Spends ⟨F, K, k, s⟩ seen ⟨G, K, k', s'⟩ where
  halted := hs
  agenda := by
    simp only [Config.agenda, ← List.append_assoc]
    exact ha.append (.refl _)
  work := Nat.add_lt_add_right hw _

theorem push (hs : s'.halted = true)
    (ha : List.Sublist (seen ++ (G.agenda ++ T.agenda)) F.agenda)
    (hw : G.work + T.work < F.work) : Spends ⟨F, K, k, s⟩ seen ⟨G, T :: K, k', s'⟩ where
  halted := hs
  agenda := by
    have h := ha.append (.refl (K.flatMap Task.agenda))
    simpa only [Config.agenda, List.flatMap_cons, List.append_assoc] using h
  work := by
    simp only [Config.work, Task.workAll]
    omega

theorem pop (hs : s'.halted = true) (ha : List.Sublist G.agenda (F.agenda ++ T.agenda))
    (hw : G.work < F.work + T.work) : Spends ⟨F, T :: K, k, s⟩ [] ⟨G, K, k', s'⟩ where
  halted := hs
  agenda := by
    have h := ha.append (.refl (K.flatMap Task.agenda))
    simpa only [Config.agenda, List.flatMap_cons, List.append_assoc, List.nil_append] using h
  work := by
    simp only [Config.work, Task.workAll]
    omega

/-- A step that performs a part of a run. -/
theorem perform {x : Run α} {next : α → Config → Config} (hx : Advances Told x)
    (hs : s.halted = true) (ha : List.Sublist seen F.agenda) (hw : 0 < F.work)
    (hnext : ∀ a s', s'.halted = true →
      Spends ⟨F, K, k, s⟩ seen (next a ⟨F, K, k, s'⟩)) :
    Spends ⟨F, K, k, s⟩ seen (Config.perform ⟨F, K, k, s⟩ x next) := by
  have hafter := hx s hs
  unfold Config.perform
  rcases hr : x s with ⟨e | a, s'⟩
  · rw [hr] at hafter
    exact same (G := .stopped e) hafter (by simpa [Focus.agenda] using ha) hw
  · rw [hr] at hafter
    exact hnext a s' hafter

end Spends

theorem heed_of_halted (hc : c.heedsHalt = true) {s : State} (hs : s.halted = true) (offset : Nat) :
    heed c offset s = (.error (.fault .halted offset), s) := by
  unfold heed
  rw [hc, hs]
  rfl

theorem enter_of_halted (hc : c.heedsHalt = true) {s : State} (hs : s.halted = true)
    (kind : NodeKind) (offset : Nat) :
    enter c kind offset s = (.error (.fault .halted offset), s) := by
  unfold enter
  rw [bind_apply, heed_of_halted hc hs]

theorem step_spends (hc : c.heedsHalt = true) (hs : C.state.halted = true)
    (h : step c C = some (seen, C')) : Spends C seen C' := by
  obtain ⟨F, K, k, s⟩ := C
  change s.halted = true at hs
  cases F with
  | gather job known due =>
    cases due with
    | cons e due =>
      cases h
      apply Spends.push hs
      · simp [Focus.agenda, Task.agenda, Expr.agendaAll, Expr.agenda_eq, Job.event]
      · simp only [Focus.work, Task.work, Expr.agendaAll, Expr.agenda_eq e, List.length_append,
          List.length_singleton]
        omega
    | nil =>
      cases job with
      | expr e =>
        cases h
        apply Spends.perform (answer_told c e known) hs (.refl _) (by simp)
        rintro (v | ⟨d, args⟩) s' hs'
        · exact .same hs' (.refl _) (by simp)
        · cases k with
          | zero => exact .same hs' (.refl _) (by simp)
          | succ k => exact .push hs' (.refl _) (by simp)
      | stmt t =>
        cases h
        apply Spends.perform (act_told t known) hs (.refl _) (by simp)
        rintro (_ | ss | l) s' hs'
        · exact .same hs' (.refl _) (by simp)
        · exact .same hs' (.refl _) (by simp)
        · exact .same hs' (.refl _) (by simp)
  | block due =>
    cases due with
    | nil =>
      cases h
      exact .same hs (.refl _) (by simp)
    | cons t due =>
      simp only [step, Config.seen, Config.perform, enter_of_halted hc hs] at h
      cases h
      exact .same hs (.refl _) (by simp)
  | begun t =>
    cases h
    apply Spends.perform (owner_told t) hs (List.nil_sublist _) (by simp)
    intro known s' hs'
    exact .same hs' (.refl _) (Nat.lt_succ_self _)
  | rounds t l =>
    cases hl : l.next with
    | none =>
      simp only [step, hl] at h
      cases h
      exact .same hs (.refl _) (by simp)
    | some round =>
      simp only [step, hl, Config.seen, Config.perform, heed_of_halted hc hs] at h
      cases h
      exact .same hs (.refl _) (by simp)
  | bind t v =>
    cases h
    apply Spends.perform (onData_told (.assign _ _)) hs (.refl _) (by simp)
    intro _ s' hs'
    exact .same hs' (.refl _) (by simp)
  | result v =>
    cases K with
    | nil => cases h
    | cons T K =>
      cases h
      cases T with
      | gather job known due => exact .pop hs (.refl _) (by simp)
      | block due => exact .pop hs (.refl _) (by simp)
      | rounds t l =>
        cases l with
        | tested => exact .pop hs (.refl _) (by simp)
        | times | items => exact .pop hs (.refl _) (by simp)
      | call frame calls => exact .pop hs (.refl _) (by simp)
  | stopped e =>
    cases K with
    | nil => cases h
    | cons T K =>
      cases h
      cases T with
      | gather | block | rounds =>
        exact .pop hs (List.nil_sublist _) (by simp)
      | call frame calls =>
        cases e with
        | returned | fault | exhausted | waiting => exact .pop hs (.refl _) (by simp)

/-- A halted machine comes to its end within a bound, and does nothing that is not on its agenda. -/
theorem halted_ends (hc : c.heedsHalt = true) (hs : C.state.halted = true) :
    ∃ n seen C', n ≤ C.work ∧ Runs c n C seen C' ∧ step c C' = none ∧
      List.Sublist seen C.agenda := by
  induction hw : C.work using Nat.strong_induction_on generalizing C with
  | _ w ih =>
    cases hstep : step c C with
    | none => exact ⟨0, [], C, Nat.zero_le w, .here C, hstep, List.nil_sublist _⟩
    | some next =>
      obtain ⟨seen, C'⟩ := next
      obtain ⟨hhalted, hagenda, hwork⟩ := step_spends hc hs hstep
      obtain ⟨n, seen', C'', hn, hruns, hend, hseen⟩ := ih C'.work (hw ▸ hwork) hhalted rfl
      refine ⟨n + 1, seen ++ seen', C'', by omega, .step hstep hruns, hend, ?_⟩
      exact ((List.Sublist.refl seen).append hseen).trans hagenda

/-! ### What has begun -/

def Job.statements : Job → List Stmt
  | .expr _ => []
  | .stmt s => [s]

/-- The statements that have begun and are not done, each once for each time it was begun. -/
def Focus.statements : Focus → List Stmt
  | .gather job _ _ => job.statements
  | .begun s | .rounds s _ | .bind s _ => [s]
  | .result _ | .block _ | .stopped _ => []

def Task.statements : Task → List Stmt
  | .gather job _ _ => job.statements
  | .rounds s _ => [s]
  | .block _ | .call .. => []

def Config.underway (C : Config) : List Stmt :=
  C.focus.statements ++ C.tasks.flatMap Task.statements

/-- What is underway after a step was underway or has begun with the step, and a variable is bound
in a round that has begun with it. -/
structure Begins (C : Config) (seen : List Event) (C' : Config) : Prop where
  underway : ∀ s ∈ C'.underway, s ∈ C.underway ∨ .begins s ∈ seen
  bind : ∀ s v, C'.focus = .bind s v → .round s ∈ seen

theorem Begins.of_focus {F G : Focus} {K L : List Task} {k k' : Nat} {σ σ' : State}
    (h : ∀ s ∈ G.statements ++ L.flatMap Task.statements,
      s ∈ F.statements ++ K.flatMap Task.statements ∨ .begins s ∈ seen)
    (hbind : ∀ s v, G ≠ .bind s v) : Begins ⟨F, K, k, σ⟩ seen ⟨G, L, k', σ'⟩ :=
  ⟨h, fun s v hG => absurd hG (hbind s v)⟩

theorem Begins.perform {F : Focus} {K : List Task} {k : Nat} {σ : State} {x : Run α}
    {next : α → Config → Config}
    (hnext : ∀ a σ', x σ = (.ok a, σ') → Begins ⟨F, K, k, σ⟩ seen (next a ⟨F, K, k, σ'⟩)) :
    Begins ⟨F, K, k, σ⟩ seen (Config.perform ⟨F, K, k, σ⟩ x next) := by
  unfold Config.perform
  rcases hr : x σ with ⟨e | a, σ'⟩
  · apply Begins.of_focus
    · exact fun s hs => .inl (List.mem_append_right _ hs)
    · simp
  · exact hnext a σ' hr

theorem seen_of_ok {x : Run Unit} {event : Event} {σ' : State}
    (h : x C.state = (.ok (), σ')) : C.seen x event = [event] := by
  simp only [Config.seen, h]

theorem step_begins (h : step c C = some (seen, C')) : Begins C seen C' := by
  obtain ⟨F, K, k, σ⟩ := C
  cases F with
  | gather job known due =>
    cases due with
    | cons e due =>
      cases h
      apply Begins.of_focus
      · simp +contextual [Focus.statements, Task.statements, Job.statements]
      · simp
    | nil =>
      cases job with
      | expr e =>
        cases h
        apply Begins.perform
        rintro (v | ⟨d, args⟩) σ' _
        · exact .of_focus (by simp +contextual [Focus.statements]) (by simp)
        · cases k with
          | zero => exact .of_focus (by simp +contextual [Focus.statements]) (by simp)
          | succ k =>
            exact .of_focus (by simp +contextual [Focus.statements, Task.statements]) (by simp)
      | stmt t =>
        cases h
        apply Begins.perform
        rintro (_ | ss | l) σ' _
        · exact .of_focus (by simp +contextual [Focus.statements]) (by simp)
        · exact .of_focus (by simp +contextual [Focus.statements]) (by simp)
        · exact .of_focus (by simp +contextual [Focus.statements, Job.statements]) (by simp)
  | block due =>
    cases due with
    | nil =>
      cases h
      exact .of_focus (by simp +contextual [Focus.statements]) (by simp)
    | cons t due =>
      cases h
      apply Begins.perform
      intro _ σ' hok
      rw [seen_of_ok hok]
      exact .of_focus (by simp +contextual [Focus.statements, Task.statements]) (by simp)
  | begun t =>
    cases h
    apply Begins.perform
    intro known σ' _
    exact .of_focus (by simp +contextual [Focus.statements, Job.statements]) (by simp)
  | rounds t l =>
    cases hl : l.next with
    | none =>
      simp only [step, hl] at h
      cases h
      exact .of_focus (by simp +contextual [Focus.statements]) (by simp)
    | some round =>
      simp only [step, hl] at h
      cases h
      apply Begins.perform
      intro _ σ' hok
      rw [seen_of_ok hok]
      obtain ⟨v | v, l'⟩ := round
      · exact .of_focus (by simp +contextual [Focus.statements, Task.statements]) (by simp)
      · constructor
        · simp +contextual [Config.within, Config.underway, Focus.statements, Task.statements]
        · rintro s w ⟨⟩
          exact List.mem_cons_self
  | bind t v =>
    cases h
    apply Begins.perform
    intro _ σ' _
    exact .of_focus (by simp +contextual [Focus.statements]) (by simp)
  | result v =>
    cases K with
    | nil => cases h
    | cons T K =>
      cases h
      cases T with
      | gather job known due =>
        exact .of_focus (by simp +contextual [Focus.statements, Task.statements]) (by simp)
      | block due =>
        exact .of_focus (by simp +contextual [Focus.statements, Task.statements]) (by simp)
      | rounds t l =>
        cases l with
        | tested | times | items =>
          exact .of_focus (by simp +contextual [Focus.statements, Task.statements]) (by simp)
      | call frame calls =>
        exact .of_focus (by simp +contextual [Focus.statements, Task.statements]) (by simp)
  | stopped e =>
    cases K with
    | nil => cases h
    | cons T K =>
      cases h
      cases T with
      | gather | block | rounds =>
        exact .of_focus (by simp +contextual [Focus.statements]) (by simp)
      | call frame calls =>
        cases e with
        | returned | fault | exhausted | waiting =>
          exact .of_focus (by simp +contextual [Focus.statements, Task.statements]) (by simp)

/-- Whatever is underway at some point of a program was seen to begin. -/
theorem runs_begins {n depth : Nat} {p : Program} {σ : State}
    (h : Runs c n (.start depth p σ) seen C) :
    (∀ s ∈ C.underway, .begins s ∈ seen) ∧ ∀ s v, C.focus = .bind s v → .round s ∈ seen := by
  have hall : ∀ {n : Nat} {A B : Config} {seen : List Event}, Runs c n A seen B →
      ∀ before, (∀ s ∈ A.underway, .begins s ∈ before) →
        (∀ s v, A.focus = .bind s v → .round s ∈ before) →
        (∀ s ∈ B.underway, .begins s ∈ before ++ seen) ∧
          ∀ s v, B.focus = .bind s v → .round s ∈ before ++ seen := by
    intro n A B seen hruns
    induction hruns with
    | here =>
      intro before hbegun hbind
      simpa using ⟨hbegun, hbind⟩
    | step first _ ih =>
      intro before hbegun hbind
      obtain ⟨hunderway, hround⟩ := step_begins first
      rw [← List.append_assoc]
      apply ih
      · intro s hs
        rcases hunderway s hs with hs | hs
        · exact List.mem_append_left _ (hbegun s hs)
        · exact List.mem_append_right _ hs
      · exact fun s v hs => List.mem_append_right _ (hround s v hs)
  exact hall h [] (by simp [Config.start, Config.underway, Focus.statements]) (by simp [Config.start])

/-! ### What is on the agenda -/

/-- The statement that tests its condition. -/
def Event.test? : Event → Option Stmt
  | .acts s => if s.isWhile then some s else none
  | _ => none

/-- The `while` statements that are active, each once for each time it was begun. -/
def Config.whiles (C : Config) : List Stmt := C.underway.filter Stmt.isWhile

/-- To evaluate an expression is to evaluate expressions, and nothing else. -/
theorem exists_of_mem_agenda (e : Expr) : ∀ event ∈ e.agenda, ∃ x, event = .evaluates x := by
  induction e using Expr.operands_induction with
  | h e ih =>
    intro event hevent
    rw [Expr.agenda_eq, Expr.agendaAll_eq_flatMap] at hevent
    rcases List.mem_append.mp hevent with hevent | hevent
    · obtain ⟨x, hx, hevent⟩ := List.mem_flatMap.mp hevent
      exact ih x hx event hevent
    · exact ⟨e, List.mem_singleton.mp hevent⟩

theorem exists_of_mem_agendaAll {es : List Expr} :
    ∀ event ∈ Expr.agendaAll es, ∃ x, event = .evaluates x := by
  intro event hevent
  rw [Expr.agendaAll_eq_flatMap] at hevent
  obtain ⟨x, _, hevent⟩ := List.mem_flatMap.mp hevent
  exact exists_of_mem_agenda x event hevent

/-- What is on the agenda is the evaluation of expressions, what the statements that are underway do
with their values, and the binding of a variable that is just due. -/
theorem Config.mem_agenda {event : Event} (h : event ∈ C.agenda) :
    (∃ e, event = .evaluates e) ∨ (∃ s ∈ C.underway, event = .acts s) ∨
      ∃ s v, event = .binds s ∧ C.focus = .bind s v := by
  obtain ⟨F, K, k, σ⟩ := C
  have hgather : ∀ (job : Job) {due : List Expr}, event ∈ Expr.agendaAll due ++ [job.event] →
      (∃ e, event = .evaluates e) ∨ ∃ s ∈ job.statements, event = .acts s := by
    intro job due h
    rcases List.mem_append.mp h with h | h
    · exact .inl (exists_of_mem_agendaAll event h)
    · rw [List.mem_singleton] at h
      cases job with
      | expr e => exact .inl ⟨e, h⟩
      | stmt s => exact .inr ⟨s, List.mem_cons_self, h⟩
  rcases List.mem_append.mp h with h | h
  · cases F with
    | gather job known due =>
      refine (hgather job h).imp id fun ⟨s, hs, hevent⟩ => .inl ⟨s, ?_, hevent⟩
      exact List.mem_append_left _ hs
    | begun t =>
      refine (hgather (.stmt t) h).imp id fun ⟨s, hs, hevent⟩ => .inl ⟨s, ?_, hevent⟩
      exact List.mem_append_left _ hs
    | bind s v => exact .inr (.inr ⟨s, v, List.mem_singleton.mp h, rfl⟩)
    | result | block | rounds | stopped => cases h
  · obtain ⟨T, hT, h⟩ := List.mem_flatMap.mp h
    have hunder : ∀ s ∈ T.statements, s ∈ (Config.mk F K k σ).underway := fun s hs =>
      List.mem_append_right _ (List.mem_flatMap.mpr ⟨T, hT, hs⟩)
    cases T with
    | gather job known due =>
      exact (hgather job h).imp id fun ⟨s, hs, hevent⟩ => .inl ⟨s, hunder s hs, hevent⟩
    | rounds t l =>
      cases l with
      | tested =>
        exact (hgather (.stmt t) h).imp id fun ⟨s, hs, hevent⟩ =>
          .inl ⟨s, hunder s hs, hevent⟩
      | times | items => cases h
    | block | call => cases h

/-- Each active `while` is on the agenda with one test at most. -/
theorem Config.tests_agenda (C : Config) :
    List.Sublist (C.agenda.filterMap Event.test?) C.whiles := by
  have hgather : ∀ (job : Job) (due : List Expr),
      (Expr.agendaAll due ++ [job.event]).filterMap Event.test?
        = job.statements.filter Stmt.isWhile := by
    intro job due
    have hdue : (Expr.agendaAll due).filterMap Event.test? = [] := by
      rw [List.filterMap_eq_nil_iff]
      intro event hevent
      obtain ⟨x, rfl⟩ := exists_of_mem_agendaAll event hevent
      rfl
    rw [List.filterMap_append, hdue, List.nil_append]
    cases job with
    | expr e => rfl
    | stmt s => cases hs : s.isWhile <;> simp [Job.event, Job.statements, Event.test?, hs]
  have hfocus : List.Sublist (C.focus.agenda.filterMap Event.test?)
      (C.focus.statements.filter Stmt.isWhile) := by
    cases C.focus with
    | gather job known due => exact (hgather job due) ▸ .refl _
    | begun t => exact (hgather (.stmt t) t.parts) ▸ .refl _
    | bind | result | block | rounds | stopped => exact List.nil_sublist _
  have htask : ∀ T : Task, List.Sublist (T.agenda.filterMap Event.test?)
      (T.statements.filter Stmt.isWhile) := by
    intro T
    cases T with
    | gather job known due => exact (hgather job due) ▸ .refl _
    | rounds t l =>
      cases l with
      | tested => exact (hgather (.stmt t) t.parts) ▸ .refl _
      | times | items => exact List.nil_sublist _
    | block | call => exact List.nil_sublist _
  simp only [Config.agenda, Config.whiles, Config.underway, List.filterMap_append,
    List.filter_append]
  apply hfocus.append
  induction C.tasks with
  | nil => exact .refl _
  | cons T K ih =>
    simp only [List.flatMap_cons, List.filterMap_append, List.filter_append]
    exact (htask T).append ih

/-! ### Programs that are told to stop -/

/-- What remains of a run that is told to stop at some point: it was on the agenda there, nothing
begins, and what is still done was begun before. -/
structure Remains (C : Config) (before rest : List Event) : Prop where
  agenda : List.Sublist rest C.agenda
  begins : ∀ s, .begins s ∉ rest
  round : ∀ s, .round s ∉ rest
  acts : ∀ s, .acts s ∈ rest → .begins s ∈ before
  binds : ∀ s, .binds s ∈ rest → .round s ∈ before
  tests : List.Sublist (rest.filterMap Event.test?) C.whiles

theorem Remains.of_agenda {before rest : List Event}
    (hbefore : ∀ s ∈ C.underway, .begins s ∈ before)
    (hbind : ∀ s v, C.focus = .bind s v → .round s ∈ before)
    (h : List.Sublist rest C.agenda) : Remains C before rest := by
  have hmem : ∀ event ∈ rest, (∃ e, event = .evaluates e) ∨ (∃ s ∈ C.underway, event = .acts s) ∨
      ∃ s v, event = .binds s ∧ C.focus = .bind s v := fun event hevent =>
    Config.mem_agenda (h.subset hevent)
  refine ⟨h, ?_, ?_, ?_, ?_, (h.filterMap _).trans C.tests_agenda⟩
  · intro s hs
    rcases hmem _ hs with ⟨_, ⟨⟩⟩ | ⟨_, _, ⟨⟩⟩ | ⟨_, _, ⟨⟩, _⟩
  · intro s hs
    rcases hmem _ hs with ⟨_, ⟨⟩⟩ | ⟨_, _, ⟨⟩⟩ | ⟨_, _, ⟨⟩, _⟩
  · intro s hs
    rcases hmem _ hs with ⟨_, ⟨⟩⟩ | ⟨_, hunder, ⟨⟩⟩ | ⟨_, _, ⟨⟩, _⟩
    exact hbefore s hunder
  · intro s hs
    rcases hmem _ hs with ⟨_, ⟨⟩⟩ | ⟨_, _, ⟨⟩⟩ | ⟨_, v, ⟨⟩, hfocus⟩
    exact hbind s v hfocus

/-- The machine does what the evaluator does; and from wherever it is told to stop it comes to its end
within a bound, and finishes what has begun but begins nothing. -/
theorem told_ends (hc : c.heedsHalt = true) (depth : Nat) (p : Program) (σ : State) :
    (∀ r σ', r ≠ .error .exhausted →
      ((∃ rounds, statements (c.rounded rounds) depth p σ = (r, σ')) ↔
        Reaches c (.start depth p σ) (.ended depth (r, σ')))) ∧
    ∀ n before C, Runs c n (.start depth p σ) before C →
      ∃ m rest C', m ≤ C.work ∧ Runs c m C.told rest C' ∧ step c C' = none ∧
        Remains C before rest := by
  refine ⟨fun r σ' hr => statements_iff c depth p σ hr σ', ?_⟩
  intro n before C hruns
  obtain ⟨hbefore, hbind⟩ := runs_begins hruns
  obtain ⟨m, rest, C', hm, hrest, hend, hagenda⟩ := halted_ends (C := C.told) hc rfl
  exact ⟨m, rest, C', hm, hrest, hend, .of_agenda hbefore hbind hagenda⟩

/-- A loop that does nothing and never ends. -/
def idle : Stmt := .whileDo (.truth true 6) [] 0

/-- The machine in the body of the loop. -/
def idling : Config :=
  ⟨.block [], [.rounds idle .tested, .block []], 1,
    ⟨.empty, [], .complete ⟨2000, 1, 1, 0, 0, 0, 0⟩ [] .empty, false, none, [], []⟩⟩

/-- After seven steps it is in the body; told to stop there, it tests the condition once more and
makes at most thirteen steps. -/
theorem idle_ends :
    let c : Context := ⟨[], false, true, 0⟩
    c.heedsHalt = true ∧
      Runs c 7 (.start 1 ⟨[], [idle]⟩ idling.state)
        [.begins idle, .evaluates (.truth true 6), .acts idle, .round idle] idling ∧
      ∃ m rest C', m ≤ 13 ∧ Runs c m idling.told rest C' ∧ step c C' = none ∧
        List.Sublist rest [.evaluates (.truth true 6), .acts idle] := by
  intro c
  have hsteps : Runs c 7 (.start 1 ⟨[], [idle]⟩ idling.state)
      ([.begins idle] ++ ([] ++ ([] ++ ([.evaluates (.truth true 6)] ++ ([] ++ ([.acts idle] ++
        [.round idle])))))) idling :=
    .step rfl (.step rfl (.step rfl (.step rfl (.step rfl (.step rfl (.one rfl))))))
  have hruns : Runs c 7 (.start 1 ⟨[], [idle]⟩ idling.state)
      [.begins idle, .evaluates (.truth true 6), .acts idle, .round idle] idling := hsteps
  obtain ⟨m, rest, C', hm, hrest, hend, hremains⟩ :=
    (told_ends (c := c) rfl 1 ⟨[], [idle]⟩ idling.state).2 7 _ idling hruns
  exact ⟨rfl, hruns, m, rest, C', hm, hrest, hend, hremains.agenda⟩

end Machine
end Parlance
