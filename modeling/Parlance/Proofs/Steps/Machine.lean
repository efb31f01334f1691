import Parlance.Proofs.Run.Pairs
/-!
# Runs in single steps

A run as a machine that makes one step after another: what is in progress stands on a stack of
tasks, from the expression whose operands are being evaluated out to the statements of the program.
Between any two steps the run can be looked at, or told to stop. That the machine does what the
evaluator does is in `Parlance.Proofs.Steps.Evaluator`.
-/
namespace Parlance

/-! ### Expressions and statements in parts -/

/-- The expressions whose values an expression is computed from, in the order of evaluation. -/
def Expr.operands : Expr → List Expr
  | .number .. | .text .. | .truth .. | .name .. => []
  | .unary _ x _ => [x]
  | .binary _ l r _ => [l, r]
  | .call _ args _ => args
  | .index t i _ => [t, i]
  | .list items _ => items

mutual

/-- What holds of an expression if it holds of its operands holds of all expressions. -/
theorem Expr.operands_induction {P : Expr → Prop} (h : ∀ e, (∀ x ∈ e.operands, P x) → P e) :
    (e : Expr) → P e
  | .number .. | .text .. | .truth .. | .name .. => h _ nofun
  | .unary _ x _ => h _ (List.forall_mem_singleton.mpr (Expr.operands_induction h x))
  | .binary _ l r _ => by
    refine h _ (List.forall_mem_cons.mpr ⟨Expr.operands_induction h l, ?_⟩)
    exact List.forall_mem_singleton.mpr (Expr.operands_induction h r)
  | .call _ args _ => h _ (Expr.operands_induction_all h args)
  | .index t i _ => by
    refine h _ (List.forall_mem_cons.mpr ⟨Expr.operands_induction h t, ?_⟩)
    exact List.forall_mem_singleton.mpr (Expr.operands_induction h i)
  | .list items _ => h _ (Expr.operands_induction_all h items)

theorem Expr.operands_induction_all {P : Expr → Prop} (h : ∀ e, (∀ x ∈ e.operands, P x) → P e) :
    (es : List Expr) → ∀ e ∈ es, P e
  | [] => nofun
  | e :: es =>
    List.forall_mem_cons.mpr ⟨Expr.operands_induction h e, Expr.operands_induction_all h es⟩

end

/-- What an expression comes to once its operands are known. -/
inductive Upshot
  | value (v : Value)
  /-- a declared function is to be called -/
  | call (d : Declaration) (args : List Value)

/-- What a loop has before it. -/
inductive Rounds
  /-- rounds as long as a condition holds, which has just been tested -/
  | tested
  | times (n : Nat)
  /-- a round for each of the values -/
  | items (vs : List Value)

/-- What remains to be done of a statement that has done what it does with its values. -/
inductive Next
  | done
  | block (ss : List Stmt)
  | rounds (l : Rounds)

/-- The value to which a round binds the variable of the loop, if it has one, and the rounds after
it; nothing if no round is left. -/
def Rounds.next : Rounds → Option (Option Value × Rounds)
  | tested => some (none, tested)
  | times 0 | items [] => none
  | times (n + 1) => some (none, times n)
  | items (v :: vs) => some (some v, items vs)

namespace Run

/-- A call of a function by name, up to where the body of a declared function would begin. -/
def answerCall (c : Context) (name : String) (args : List Value) (offset : Nat) : Run Upshot :=
  match Builtin.find? name with
  | some b => return .value (← callBuiltin b name args offset)
  | none =>
    match c.functions.get? (Text.lower name) with
    | none => fail offset (.unknownFunction name)
    | some d => do
      checkCount d.name d.parameters.length args.length offset
      return .call d args

end Run

open Run

/-- What an expression does with the values of its operands. -/
def Expr.answer (c : Context) : Expr → List Value → Run Upshot
  | .number x _, [] => return .value (.number x)
  | .text s _, [] => return .value (.text s)
  | .truth b _, [] => return .value (.truth b)
  | .name n o, [] => return .value (← lookup n o)
  | .unary op _ o, [v] => return .value (← fromStore o (·.applyUnary op v))
  | .binary op _ _ o, [x, y] => return .value (← fromStore o (·.applyBinary op x y))
  | .call f _ o, vs => do
    noteCall c f vs
    answerCall c f vs o
  | .index _ _ o, [v, w] => return .value (← fromStore o (·.getAt v w))
  | .list _ _, vs => return .value (← newList vs.toArray)
  | _, _ => return .value .nothing

namespace Stmt

/-- The expressions that a statement evaluates when it begins; a `while` evaluates its condition
again after each round. -/
def parts : Stmt → List Expr
  | letBe _ value _ | setTo (.name ..) value _ | say value _ | append value _ _ | remove value _ _
  | giveBack value _ | evaluate value _ => [value]
  | setTo (.element _ index _) value _ => [index, value]
  | ifThen condition _ _ _ | whileDo condition _ _ => [condition]
  | repeatTimes count _ _ => [count]
  | forEach _ source _ _ => [source]

/-- The value that a statement looks up before it evaluates anything: the list of which it replaces
an element. -/
def owner : Stmt → Run (List Value)
  | setTo (.element list _ o) _ _ => return [← lookup list o]
  | _ => return []

/-- What a statement does with the list it has looked up and the values of its parts. -/
def act : Stmt → List Value → Run Next
  | letBe n _ _, [v] | setTo (.name n _) _ _, [v] => do
    assign n v
    return .done
  | setTo (.element _ _ o) _ _, [list, i, v] => do
    changeStore o (·.setAt list i v)
    return .done
  | say _ o, [v] => do
    let text ← fromStore o (·.toText v)
    write (text ++ "\n")
    return .done
  | ifThen _ a b _, [v] => return .block (if (← getState).store.toTruth v then a else b)
  | whileDo _ _ _, [v] => return if (← getState).store.toTruth v then .rounds .tested else .done
  | repeatTimes _ _ o, [v] => do
    match ← fromStore o (·.toInteger v) with
    | none => return .done
    | some n => return .rounds (.times n.toNat)
  | forEach _ _ _ o, [v] => return .rounds (.items (← fromStore o (·.items v)))
  | append _ list o, [v] => do
    let target ← lookup list o
    changeStore o (·.append target v)
    return .done
  | remove _ list o, [v] => do
    let target ← lookup list o
    changeStore o (·.remove target v)
    return .done
  | giveBack _ _, [v] => stop (.returned v)
  | _, _ => return .done

/-- The body of a loop. -/
def body : Stmt → List Stmt
  | whileDo _ body _ | repeatTimes _ body _ | forEach _ _ body _ => body
  | _ => []

/-- The variable of a loop. -/
def item : Stmt → String
  | forEach item _ _ _ => item
  | _ => ""

def isWhile : Stmt → Bool
  | whileDo .. => true
  | _ => false

/-- The blocks of a statement. -/
def blocks : Stmt → List (List Stmt)
  | ifThen _ a b _ => [a, b]
  | s => [s.body]

mutual

/-- What holds of a statement if it holds of the statements in its blocks holds of all. -/
theorem blocks_induction {P : Stmt → Prop} (h : ∀ s, (∀ ss ∈ blocks s, ∀ t ∈ ss, P t) → P s) :
    (s : Stmt) → P s
  | letBe .. | setTo .. | say .. | append .. | remove .. | giveBack .. | evaluate .. =>
    h _ (List.forall_mem_singleton.mpr nofun)
  | whileDo _ body _ | repeatTimes _ body _ | forEach _ _ body _ =>
    h _ (List.forall_mem_singleton.mpr (blocks_induction_all h body))
  | ifThen _ a b _ => by
    refine h _ (List.forall_mem_cons.mpr ⟨blocks_induction_all h a, ?_⟩)
    exact List.forall_mem_singleton.mpr (blocks_induction_all h b)

theorem blocks_induction_all {P : Stmt → Prop} (h : ∀ s, (∀ ss ∈ blocks s, ∀ t ∈ ss, P t) → P s) :
    (ss : List Stmt) → ∀ t ∈ ss, P t
  | [] => nofun
  | s :: ss => List.forall_mem_cons.mpr ⟨blocks_induction h s, blocks_induction_all h ss⟩

end

end Stmt

namespace Machine

/-- What values are gathered for. -/
inductive Job
  | expr (e : Expr)
  | stmt (s : Stmt)

/-- What is in progress outside of what the machine is at, the inmost first. -/
inductive Task
  /-- a value is being evaluated, after those that are known and before those that are due -/
  | gather (job : Job) (known : List Value) (due : List Expr)
  /-- a statement is being executed, before those that are due -/
  | block (due : List Stmt)
  /-- a round of a loop is being made -/
  | rounds (s : Stmt) (l : Rounds)
  /-- the body of a function is being executed; the frame and the number of calls before it -/
  | call (frame : Frame) (calls : Nat)

/-- What the machine is at. -/
inductive Focus
  | gather (job : Job) (known : List Value) (due : List Expr)
  /-- an expression has its value, or a statement or a block is done -/
  | result (v : Value)
  | block (due : List Stmt)
  /-- the statement has begun -/
  | begun (s : Stmt)
  /-- a round of the loop may be due -/
  | rounds (s : Stmt) (l : Rounds)
  /-- a round of the loop has begun, and its variable is to be bound -/
  | bind (s : Stmt) (v : Value)
  | stopped (e : Stop)

/-- The machine between two steps; `calls` more calls may be inside one another. -/
structure Config where
  focus : Focus
  tasks : List Task
  calls : Nat
  state : State

/-- What a step can be seen to do. -/
inductive Event
  | begins (s : Stmt)
  /-- the loop begins a round -/
  | round (s : Stmt)
  /-- the expression is computed from its operands -/
  | evaluates (e : Expr)
  /-- the statement does what it does with its values: it binds, stores, appends, removes or writes,
  gives back a value, or tests a condition -/
  | acts (s : Stmt)
  /-- the loop binds its variable -/
  | binds (s : Stmt)

namespace Config

variable {α : Type}

/-- A part of a run as one step; the machine goes on with the result, or it is stopped. -/
def perform (C : Config) (x : Run α) (next : α → Config → Config) : Config :=
  match x C.state with
  | (.ok a, s) => next a { C with state := s }
  | (.error e, s) => { C with focus := .stopped e, state := s }

/-- What is seen of a part of a run if it does not stop. -/
def seen (C : Config) (x : Run Unit) (event : Event) : List Event :=
  match (x C.state).1 with
  | .ok () => [event]
  | .error _ => []

/-- The machine with the answer of an expression. -/
def answered : Upshot → Config → Config
  | .value v, C => { C with focus := .result v }
  | .call d args, C =>
    match C.calls with
    | 0 => { C with focus := .stopped (.fault .tooDeep 0) }
    | calls + 1 =>
      { focus := .block d.body
        tasks := .call C.state.frame (calls + 1) :: C.tasks
        calls := calls
        state := { C.state with frame := parameterFrame d.parameters args } }

/-- The machine after a statement has done what it does with its values. -/
def acted (s : Stmt) : Next → Config → Config
  | .done, C => { C with focus := .result .nothing }
  | .block ss, C => { C with focus := .block ss }
  | .rounds l, C => { C with focus := .rounds s l }

/-- The machine in a round of a loop that has begun. -/
def within (s : Stmt) : Option Value × Rounds → Config → Config
  | (none, l), C => { C with focus := .block s.body, tasks := .rounds s l :: C.tasks }
  | (some v, l), C => { C with focus := .bind s v, tasks := .rounds s l :: C.tasks }

/-- The machine takes up a task with a result. A function whose body is done gives back nothing. -/
def resume (C : Config) (v : Value) : Task → Config
  | .gather job known due => { C with focus := .gather job (known ++ [v]) due }
  | .block due => { C with focus := .block due }
  | .rounds s .tested => { C with focus := .begun s }
  | .rounds s l => { C with focus := .rounds s l }
  | .call frame calls =>
    { C with focus := .result .nothing, calls := calls, state := { C.state with frame := frame } }

/-- The machine gives up a task. A call ends with the value that its body gives back. -/
def unwind (C : Config) (e : Stop) : Task → Config
  | .call frame calls =>
    { C with
      focus := match e with
        | .returned v => .result v
        | e => .stopped e
      calls := calls
      state := { C.state with frame := frame } }
  | _ => C

end Config

/-- One step, and what is seen of it; a machine without tasks has none if it has a result or is
stopped. -/
def step (c : Context) (C : Config) : Option (List Event × Config) :=
  match C.focus with
  | .gather job known (e :: due) =>
    some ([], { C with
      focus := .gather (.expr e) [] e.operands
      tasks := .gather job known due :: C.tasks })
  | .gather (.expr e) known [] =>
    some ([.evaluates e], C.perform (e.answer c known) Config.answered)
  | .gather (.stmt s) known [] => some ([.acts s], C.perform (s.act known) (Config.acted s))
  | .block [] => some ([], { C with focus := .result .nothing })
  | .block (s :: due) =>
    some (C.seen (enter c s.kind s.offset) (.begins s),
      C.perform (enter c s.kind s.offset) fun _ C =>
        { C with focus := .begun s, tasks := .block due :: C.tasks })
  | .begun s =>
    some ([], C.perform s.owner fun known C => { C with focus := .gather (.stmt s) known s.parts })
  | .rounds s l =>
    match l.next with
    | none => some ([], { C with focus := .result .nothing })
    | some round =>
      some (C.seen (heed c s.offset) (.round s),
        C.perform (heed c s.offset) fun _ => Config.within s round)
  | .bind s v =>
    some ([.binds s], C.perform (assign s.item v) fun _ C => { C with focus := .block s.body })
  | .result v =>
    match C.tasks with
    | [] => none
    | t :: tasks => some ([], { C with tasks := tasks }.resume v t)
  | .stopped e =>
    match C.tasks with
    | [] => none
    | t :: tasks => some ([], { C with tasks := tasks }.unwind e t)

/-- So many steps, and what is seen of them. -/
inductive Runs (c : Context) : Nat → Config → List Event → Config → Prop
  | here (C : Config) : Runs c 0 C [] C
  | step {n : Nat} {C C' C'' : Config} {seen seen' : List Event} (first : step c C = some (seen, C'))
      (rest : Runs c n C' seen' C'') : Runs c (n + 1) C (seen ++ seen') C''

namespace Runs

variable {c : Context} {m n : Nat} {C C' C'' : Config} {seen seen' : List Event}

theorem one (h : Machine.step c C = some (seen, C')) : Runs c 1 C seen C' := by
  have hone := step h (here C')
  rwa [List.append_nil] at hone

theorem trans (h : Runs c m C seen C') (h' : Runs c n C' seen' C'') :
    Runs c (n + m) C (seen ++ seen') C'' := by
  induction h with
  | here => exact h'
  | step first _ ih =>
    rw [List.append_assoc]
    exact step first (ih h')

/-- The machine is deterministic: a run that has ended is as long as any run from the same start can
be, and the only one of its length. -/
theorem of_ended (h : Runs c m C seen C') (hend : Machine.step c C' = none)
    (h' : Runs c n C seen' C'') : n ≤ m ∧ (Machine.step c C'' = none → C'' = C') := by
  induction h generalizing n seen' C'' with
  | here =>
    cases h' with
    | here => exact ⟨Nat.le_refl 0, fun _ => rfl⟩
    | step first => rw [hend] at first; cases first
  | step first _ ih =>
    cases h' with
    | here => exact ⟨Nat.zero_le _, fun h => by rw [h] at first; cases first⟩
    | step first' rest' =>
      rw [first] at first'
      cases first'
      obtain ⟨hle, heq⟩ := ih hend rest'
      exact ⟨Nat.succ_le_succ hle, heq⟩

end Runs
end Machine
end Parlance
