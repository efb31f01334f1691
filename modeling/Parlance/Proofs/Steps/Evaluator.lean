import Parlance.Proofs.Run.Ends
import Parlance.Proofs.Steps.Machine
/-!
# The machine and the evaluator

The machine that makes single steps ends a program as the evaluator does, in the same state, and
goes on for ever if loops of the evaluator run out of rounds however many they may make
(`statements_iff`). The evaluator is taken apart at the places where the machine makes a step
(`Expr.eval_eq`, `Stmt.begin`); from each place the machine comes to where the evaluator comes to, or
makes at least as many steps as a loop may make rounds (`Follows`).
-/
namespace Parlance

namespace Run

variable {α β : Type}

instance : LawfulMonad Run := by
  refine LawfulMonad.mk' Run ?_ ?_ ?_
  · intro α x
    funext s
    change (x >>= pure) s = x s
    rw [bind_apply]
    rcases x s with ⟨e | a, after⟩
    · rfl
    · rfl
  · intro α β a f
    rfl
  · intro α β γ x f g
    funext s
    simp only [bind_apply]
    rcases x s with ⟨e | a, after⟩
    · rfl
    · rfl

/-- If the run gives a result, it is such a one. -/
def Gives (good : α → Prop) (x : Run α) : Prop := ∀ s a s', x s = (.ok a, s') → good a

namespace Gives

variable {good : β → Prop}

theorem pure {b : β} (h : good b) : Gives good (Pure.pure b) := by
  rintro s _ s' ⟨⟩
  exact h

theorem stop (e : Stop) : Gives good (Run.stop e) := nofun

theorem bind {x : Run α} {f : α → Run β} (hf : ∀ a, Gives good (f a)) : Gives good (x >>= f) := by
  intro s b s' h
  rw [bind_apply] at h
  rcases hx : x s with ⟨e | a, after⟩
  · rw [hx] at h
    cases h
  · rw [hx] at h
    exact hf a after b s' h

end Gives

end Run

open Run

/-! ### The evaluator, taken apart -/

variable {c : Context} {i : Invoke}

/-- The value of an answer; a declared function is called. -/
def Upshot.complete (i : Invoke) : Upshot → Run Value
  | .value v => pure v
  | .call d args => i d args

theorem call_eq_answerCall (name : String) (args : List Value) (offset : Nat) :
    call c i name args offset = (do
      let a ← answerCall c name args offset
      a.complete i) := by
  unfold call answerCall
  cases Builtin.find? name with
  | some b => simp only [bind_assoc, pure_bind, Upshot.complete, bind_pure]
  | none =>
    cases c.functions.get? (Text.lower name) with
    | none => rfl
    | some d => simp only [bind_assoc, pure_bind, Upshot.complete]

/-- An expression is evaluated operands first. -/
theorem Expr.eval_eq (e : Expr) :
    e.eval c i = (do
      let vs ← Expr.evalAll c i e.operands
      let a ← e.answer c vs
      a.complete i) := by
  cases e with
  | number | text | truth | name | unary | binary | index | list =>
    simp only [Expr.eval, operands, Expr.evalAll, answer, bind_assoc, pure_bind, Upshot.complete,
      bind_pure]
  | call f args o =>
    simp only [Expr.eval, operands, answer, bind_assoc, call_eq_answerCall]

namespace Stmt

/-- One round of a loop. -/
def round (c : Context) (i : Invoke) (s : Stmt) : Option Value → Run Unit
  | none => do
    heed c s.offset
    Stmt.execAll c i s.body
  | some v => do
    heed c s.offset
    assign s.item v
    Stmt.execAll c i s.body

/-- What remains of a statement; `again` is what a loop does after a round with a test. -/
def finish (c : Context) (i : Invoke) (s : Stmt) (again : Run Unit) : Next → Run Unit
  | .done => pure ()
  | .block ss => Stmt.execAll c i ss
  | .rounds .tested => do
    s.round c i none
    again
  | .rounds (.times n) => timesWithin (s.round c i none) c.rounds n
  | .rounds (.items vs) => forAll (fun v => s.round c i (some v)) vs

/-- A statement from its beginning; `again` is what a loop does after a round with a test. -/
def start (c : Context) (i : Invoke) (s : Stmt) (again : Run Unit) : Run Unit := do
  let known ← s.owner
  let vs ← Expr.evalAll c i s.parts
  let next ← s.act (known ++ vs)
  s.finish c i again next

theorem exec_eq_start (again : Run Unit) (s : Stmt) (h : s.isWhile = false) :
    s.exec c i = s.start c i again := by
  cases s with
  | letBe | say | append | remove | evaluate =>
    simp only [exec, start, owner, parts, act, finish, Expr.evalAll, bind_assoc, pure_bind,
      List.nil_append, bind_pure_unit]
  | giveBack value o =>
    simp only [exec, start, owner, parts, act, Expr.evalAll, bind_assoc, pure_bind,
      List.nil_append]
    rfl
  | forEach item source body o =>
    simp only [exec, start, owner, parts, act, finish, Expr.evalAll, bind_assoc, pure_bind,
      List.nil_append, round]
    rfl
  | setTo t value o =>
    cases t with
    | name | element =>
      simp only [exec, Target.assign, start, owner, parts, act, finish, Expr.evalAll, bind_assoc,
        pure_bind, List.nil_append, List.cons_append, bind_pure_unit]
  | ifThen condition a b o =>
    simp only [exec, start, owner, parts, act, finish, Expr.evalAll, bind_assoc, pure_bind,
      List.nil_append, apply_ite (Stmt.execAll c i)]
  | whileDo => cases h
  | repeatTimes count body o =>
    simp only [exec, start, owner, parts, act, Expr.evalAll, bind_assoc, pure_bind,
      List.nil_append]
    apply congrArg (count.eval c i >>= ·)
    funext v
    apply congrArg (fromStore o (·.toInteger v) >>= ·)
    funext n
    cases n with
    | none => rfl
    | some n => rfl

/-- A test of a `while`, and a round if it holds. -/
theorem loop_succ (condition : Expr) (body : List Stmt) (o n : Nat) :
    loop (do
        let v ← condition.eval c i
        return (← getState).store.toTruth v)
      (do
        heed c o
        Stmt.execAll c i body) (n + 1)
      = (whileDo condition body o).start c i
        (loop (do
            let v ← condition.eval c i
            return (← getState).store.toTruth v)
          (do
            heed c o
            Stmt.execAll c i body) n) := by
  simp only [loop, start, owner, parts, act, Expr.evalAll, bind_assoc, pure_bind, List.nil_append]
  apply congrArg (condition.eval c i >>= ·)
  funext v
  apply congrArg (getState >>= ·)
  funext s
  cases s.store.toTruth v with
  | true =>
    simp only [if_true, finish, round, bind_assoc]
    rfl
  | false => rfl

/-- What may remain of a statement: a block of it, or the rounds of a loop; only a `while` makes
them after tests. -/
def Leaves (s : Stmt) : Next → Prop
  | .block ss => ss ∈ s.blocks
  | .rounds .tested => s.isWhile = true
  | _ => True

theorem act_gives (s : Stmt) (vs : List Value) : Gives s.Leaves (s.act vs) := by
  unfold act
  split
  · exact .bind fun _ => .pure trivial
  · exact .bind fun _ => .pure trivial
  · exact .bind fun _ => .pure trivial
  · exact .bind fun text => .bind fun _ => .pure trivial
  · refine .bind fun σ => .pure ?_
    split
    · exact List.mem_cons_self
    · exact List.mem_cons_of_mem _ List.mem_cons_self
  · refine .bind fun σ => .pure ?_
    split
    · rfl
    · trivial
  · refine .bind fun n => ?_
    cases n with
    | none => exact .pure trivial
    | some n => exact .pure trivial
  · exact .bind fun items => .pure trivial
  · exact .bind fun target => .bind fun _ => .pure trivial
  · exact .bind fun target => .bind fun _ => .pure trivial
  · exact .stop _
  · exact .pure trivial

theorem body_mem_blocks {s : Stmt} (h : s.body ≠ []) : s.body ∈ s.blocks := by
  cases s with
  | whileDo | repeatTimes | forEach => exact List.mem_cons_self
  | _ => exact absurd rfl h

end Stmt

namespace Machine

variable {α β : Type} {b d k : Nat} {C C' : Config} {F : Focus} {K : List Task} {T : Task}

/-! ### Where the machine comes to -/

def Reaches (c : Context) (C C' : Config) : Prop := ∃ n seen, Runs c n C seen C'

/-- The machine makes at least so many steps. -/
def Lasts (c : Context) (n : Nat) (C : Config) : Prop := ∃ m seen C', n ≤ m ∧ Runs c m C seen C'

theorem Reaches.refl (C : Config) : Reaches c C C := ⟨0, [], .here C⟩

theorem Reaches.step {seen : List Event} (h : Machine.step c C = some (seen, C')) :
    Reaches c C C' := ⟨1, seen, .one h⟩

theorem Reaches.trans {C'' : Config} (h : Reaches c C C') (h' : Reaches c C' C'') :
    Reaches c C C'' := by
  obtain ⟨m, seen, hm⟩ := h
  obtain ⟨n, seen', hn⟩ := h'
  exact ⟨n + m, seen ++ seen', hm.trans hn⟩

theorem Lasts.mono (h : Lasts c d C) (hle : b ≤ d) : Lasts c b C := by
  obtain ⟨m, seen, C', hm, hruns⟩ := h
  exact ⟨m, seen, C', hle.trans hm, hruns⟩

theorem Lasts.after (h : Lasts c d C') (hreach : Reaches c C C') : Lasts c d C := by
  obtain ⟨m, seen, C'', hm, hruns⟩ := h
  obtain ⟨n, seen', hn⟩ := hreach
  exact ⟨m + n, seen' ++ seen, C'', by omega, hn.trans hruns⟩

theorem Lasts.step {seen : List Event} (hstep : Machine.step c C = some (seen, C'))
    (h : Lasts c d C') : Lasts c (d + 1) C := by
  obtain ⟨m, seen', C'', hm, hruns⟩ := h
  exact ⟨m + 1, seen ++ seen', C'', by omega, .step hstep hruns⟩

/-- The machine comes with the tasks `K`, and `k` calls left, to the answer of a part of a run. A part
that runs out of rounds may also be one that lasts for `b` steps. -/
def Ends (c : Context) (b : Nat) (C : Config) (K : List Task) (k : Nat) (goal : α → Focus) :
    Except Stop α × State → Prop
  | (.ok a, s) => Reaches c C ⟨goal a, K, k, s⟩
  | (.error e, s) => Reaches c C ⟨.stopped e, K, k, s⟩ ∨ e = .exhausted ∧ Lasts c b C

/-- From a focus the machine does what a part of a run does. -/
def Follows (c : Context) (b : Nat) (F : Focus) (K : List Task) (k : Nat) (x : Run α)
    (goal : α → Focus) : Prop :=
  ∀ s, Ends c b ⟨F, K, k, s⟩ K k goal (x s)

namespace Ends

variable {goal : α → Focus} {r : Except Stop α × State}

theorem mono (h : Ends c d C K k goal r) (hle : b ≤ d) : Ends c b C K k goal r := by
  rcases r with ⟨e | a, s⟩
  · exact h.imp id (And.imp id fun h => h.mono hle)
  · exact h

theorem after (hreach : Reaches c C C') (h : Ends c d C' K k goal r) : Ends c d C K k goal r := by
  rcases r with ⟨e | a, s⟩
  · exact h.imp hreach.trans (And.imp id fun h => h.after hreach)
  · exact hreach.trans h

theorem step {seen : List Event} (hstep : Machine.step c C = some (seen, C'))
    (h : Ends c d C' K k goal r) : Ends c (d + 1) C K k goal r := by
  rcases r with ⟨e | a, s⟩
  · exact h.imp (Reaches.step hstep).trans (And.imp id fun h => h.step hstep)
  · exact (Reaches.step hstep).trans h

/-- A step that performs a part of a run, and what comes after it. -/
theorem perform {s : State} {x : Run α} {next : α → Config → Config} {seen : List Event}
    {f : α → Run β} {goal : β → Focus}
    (hstep : Machine.step c ⟨F, K, k, s⟩ = some (seen, Config.perform ⟨F, K, k, s⟩ x next))
    (hnext : ∀ a s', x s = (.ok a, s') → Ends c b (next a ⟨F, K, k, s'⟩) K k goal (f a s')) :
    Ends c b ⟨F, K, k, s⟩ K k goal ((x >>= f) s) := by
  unfold Config.perform at hstep
  rw [bind_apply]
  rcases hx : x s with ⟨e | a, s'⟩
  · simp only [hx] at hstep
    exact .inl (.step hstep)
  · simp only [hx] at hstep
    exact after (.step hstep) (hnext a s' hx)

/-- A part of a run under a task, and what comes after it. When the task is taken up again the
machine makes a step, which may count. -/
theorem under {s : State} {x : Run α} (value : α → Value) {f : α → Run β} {goal : β → Focus}
    (hcall : ∀ C e, Config.unwind C e T = C) (hle : b ≤ d + 1)
    (hx : Ends c b ⟨F, T :: K, k, s⟩ (T :: K) k (fun a => .result (value a)) (x s))
    (hf : ∀ a s', Ends c d (Config.resume ⟨.result (value a), K, k, s'⟩ (value a) T) K k goal
      (f a s')) :
    Ends c b ⟨F, T :: K, k, s⟩ K k goal ((x >>= f) s) := by
  rw [bind_apply]
  rcases hr : x s with ⟨e | a, s'⟩
  · rw [hr] at hx
    have hstep : Machine.step c ⟨.stopped e, T :: K, k, s'⟩
        = some ([], Config.unwind ⟨.stopped e, K, k, s'⟩ e T) := rfl
    rw [hcall] at hstep
    exact hx.imp (fun hreach => hreach.trans (.step hstep)) id
  · rw [hr] at hx
    have hstep : Machine.step c ⟨.result (value a), T :: K, k, s'⟩
        = some ([], Config.resume ⟨.result (value a), K, k, s'⟩ (value a) T) := rfl
    exact after hx (((hf a s').step hstep).mono hle)

end Ends

/-! ### Expressions -/

/-- Values are gathered one after another, for what is then done with them. -/
theorem gather_follows {job : Job} (fin : List Value → Run α) {goal : α → Focus}
    (hfin : ∀ vs, Follows c b (.gather job vs []) K k (fin vs) goal) {due : List Expr}
    (hdue : ∀ e ∈ due, ∀ K, Follows c b (.gather (.expr e) [] e.operands) K k (e.eval c i) .result)
    (known : List Value) :
    Follows c b (.gather job known due) K k (do
      let vs ← Expr.evalAll c i due
      fin (known ++ vs)) goal := by
  induction due generalizing known with
  | nil =>
    simp only [Expr.evalAll, pure_bind, List.append_nil]
    exact hfin known
  | cons e due ih =>
    intro s
    obtain ⟨he, hdue⟩ := List.forall_mem_cons.mp hdue
    simp only [Expr.evalAll, bind_assoc, pure_bind]
    have hstep : Machine.step c ⟨.gather job known (e :: due), K, k, s⟩
      = some ([], ⟨.gather (.expr e) [] e.operands, .gather job known due :: K, k, s⟩) := rfl
    refine Ends.after (.step hstep) (Ends.under id (fun _ _ => rfl) (Nat.le_succ b)
      (he _ s) ?_)
    intro v s'
    have hrest := ih hdue (known ++ [v]) s'
    simp only [List.append_assoc, List.singleton_append] at hrest
    exact hrest

/-- Where the machine comes from the answer of an expression. -/
def Invokes (c : Context) (b k : Nat) (i : Invoke) : Prop :=
  ∀ d args F K s, Ends c b (Config.answered (.call d args) ⟨F, K, k, s⟩) K k .result (i d args s)

theorem eval_follows (hi : Invokes c b k i) (e : Expr) (K : List Task) :
    Follows c b (.gather (.expr e) [] e.operands) K k (e.eval c i) .result := by
  induction e using Expr.operands_induction generalizing K with
  | h e ih =>
    have hfin : ∀ vs, Follows c b (.gather (.expr e) vs []) K k (do
        let a ← e.answer c vs
        a.complete i) .result := by
      intro vs s
      apply Ends.perform rfl
      rintro (v | ⟨d, args⟩) s' _
      · exact .refl _
      · exact hi d args _ K s'
    rw [Expr.eval_eq]
    exact gather_follows _ hfin ih []

/-! ### Statements -/

/-- A statement or a block has no value of its own. -/
abbrev nothing : Unit → Focus := fun _ => .result .nothing

/-- A round of a loop, and what comes after it; the round itself counts as a step. -/
theorem round_ends {s : Stmt} {v : Option Value} {l l' : Rounds} {y : Run β} {goal : β → Focus}
    {σ : State} (hl : l.next = some (v, l')) (hle : b ≤ d + 1)
    (hbody : Follows c b (.block s.body) (.rounds s l' :: K) k (Stmt.execAll c i s.body) nothing)
    (hrest : ∀ σ', Ends c d (Config.resume ⟨.result .nothing, K, k, σ'⟩ .nothing (.rounds s l')) K k
      goal (y σ')) :
    Ends c b ⟨.rounds s l, K, k, σ⟩ K k goal ((do
      s.round c i v
      y) σ) := by
  have hstep : Machine.step c ⟨.rounds s l, K, k, σ⟩
      = some (Config.seen ⟨.rounds s l, K, k, σ⟩ (heed c s.offset) (.round s),
        Config.perform ⟨.rounds s l, K, k, σ⟩ (heed c s.offset) fun _ => Config.within s (v, l')) := by
    simp only [Machine.step, hl]
  have hafter : ∀ {G : Focus} {x : Run Unit}, Follows c b G (.rounds s l' :: K) k x nothing →
      ∀ σ', Ends c b ⟨G, .rounds s l' :: K, k, σ'⟩ K k goal ((do
        x
        y) σ') := fun hx σ' =>
    Ends.under (fun _ => .nothing) (fun _ _ => rfl) hle (hx σ') fun _ => hrest
  cases v with
  | none =>
    simp only [Stmt.round, bind_assoc]
    exact Ends.perform hstep fun _ σ' _ => hafter hbody σ'
  | some v =>
    have hbind : Follows c b (.bind s v) (.rounds s l' :: K) k (do
        assign s.item v
        Stmt.execAll c i s.body) nothing :=
      fun σ' => Ends.perform rfl fun _ σ'' _ => hbody σ''
    have hbound := hafter hbind
    simp only [Stmt.round, bind_assoc] at hbound ⊢
    exact Ends.perform hstep fun _ σ' _ => hbound σ'

section Rounds

variable {s : Stmt} (hb : b ≤ c.rounds)
  (hbody : ∀ K, Follows c c.rounds (.block s.body) K k (Stmt.execAll c i s.body) nothing)
include hb hbody

/-- A loop that makes a number of rounds, and what comes after it. Each round counts as a step. -/
theorem times_follows {y : Run Unit} {r : Nat} (n : Nat)
    (hrest : Follows c d (.rounds s (.times r)) K k y nothing) (hle : b ≤ n + d) :
    Follows c b (.rounds s (.times (n + r))) K k (do
      times (s.round c i none) n
      y) nothing := by
  induction n generalizing b with
  | zero =>
    intro σ
    rw [Nat.zero_add] at hle ⊢
    exact (hrest σ).mono hle
  | succ n ih =>
    intro σ
    have hnext : (Rounds.times (n + 1 + r)).next = some (none, .times (n + r)) := by
      rw [Nat.add_right_comm]
      rfl
    have hpred : b ≤ b - 1 + 1 := by omega
    simp only [times, bind_assoc]
    apply round_ends hnext hpred (fun σ => (hbody _ σ).mono hb)
    exact ih (by omega) (by omega)

theorem timesWithin_follows (n : Nat) :
    Follows c b (.rounds s (.times n)) K k (timesWithin (s.round c i none) c.rounds n) nothing := by
  unfold timesWithin
  rcases Nat.lt_or_ge c.rounds n with hlt | hge
  · obtain ⟨r, rfl⟩ := Nat.exists_eq_add_of_lt hlt
    have hmin : min (c.rounds + r + 1) c.rounds = c.rounds := by omega
    rw [hmin, if_pos hlt]
    apply times_follows hb hbody c.rounds (d := 0) (r := r + 1) ?_ hb
    exact fun σ => .inr ⟨rfl, 0, [], _, Nat.le_refl 0, .here _⟩
  · rw [Nat.min_eq_left hge, if_neg (by omega)]
    apply times_follows hb hbody n (d := b) (r := 0) ?_ (Nat.le_add_left b n)
    exact fun σ => Reaches.step rfl

theorem forAll_follows (vs : List Value) :
    Follows c b (.rounds s (.items vs)) K k (forAll (fun v => s.round c i (some v)) vs)
      nothing := by
  induction vs with
  | nil => exact fun σ => Reaches.step rfl
  | cons v vs ih =>
    intro σ
    exact round_ends rfl (Nat.le_succ b) (fun σ => (hbody _ σ).mono hb) ih

end Rounds

/-- A block, if its statements are followed. -/
theorem execAll_follows_of {ss : List Stmt}
    (h : ∀ s ∈ ss, ∀ K, Follows c c.rounds (.begun s) K k (s.exec c i) nothing) (K : List Task) :
    Follows c c.rounds (.block ss) K k (Stmt.execAll c i ss) nothing := by
  induction ss with
  | nil => exact fun σ => Reaches.step rfl
  | cons s ss ih =>
    intro σ
    obtain ⟨hs, hss⟩ := List.forall_mem_cons.mp h
    have hrest : Follows c c.rounds (.begun s) (.block ss :: K) k (s.exec c i) nothing := hs _
    apply Ends.perform rfl
    intro _ σ' _
    exact Ends.under (fun _ => .nothing) (fun _ _ => rfl) (Nat.le_succ _) (hrest σ') fun _ => ih hss

section Statements

variable (hi : Invokes c c.rounds k i)
include hi

/-- A statement from its beginning, if its blocks and what comes after a round with a test are
followed. -/
theorem start_follows {s : Stmt} {again : Run Unit} (hb : b ≤ c.rounds)
    (hblocks : ∀ ss ∈ s.blocks, ∀ K,
      Follows c c.rounds (.block ss) K k (Stmt.execAll c i ss) nothing)
    (hagain : s.isWhile = true → Follows c d (.begun s) K k again nothing) (hle : b ≤ d + 1) :
    Follows c b (.begun s) K k (s.start c i again) nothing := by
  have hbody : ∀ K, Follows c c.rounds (.block s.body) K k (Stmt.execAll c i s.body) nothing := by
    intro K
    by_cases h : s.body = []
    · rw [h]
      exact fun σ => Reaches.step rfl
    · exact hblocks _ (Stmt.body_mem_blocks h) K
  have hfinish : ∀ next G σ, s.Leaves next →
      Ends c b (Config.acted s next ⟨G, K, k, σ⟩) K k nothing (s.finish c i again next σ) := by
    intro next G σ hnext
    cases next with
    | done => exact .refl _
    | block ss => exact (hblocks ss hnext K σ).mono hb
    | rounds l =>
      cases l with
      | tested =>
        exact round_ends rfl hle (fun σ => (hbody _ σ).mono hb) (hagain hnext)
      | times n => exact timesWithin_follows hb hbody n σ
      | items vs => exact forAll_follows hb hbody vs σ
  intro σ
  apply Ends.perform rfl
  intro known σ' _
  apply gather_follows fun vs => s.act vs >>= s.finish c i again
  · intro vs σ''
    apply Ends.perform rfl
    intro next τ hact
    exact hfinish next _ τ (Stmt.act_gives s vs _ _ _ hact)
  · exact fun e _ K => fun σ => (eval_follows hi e K σ).mono hb

theorem loop_follows {condition : Expr} {body : List Stmt} {o : Nat}
    (hbody : ∀ K, Follows c c.rounds (.block body) K k (Stmt.execAll c i body) nothing)
    (n : Nat) (hn : n ≤ c.rounds) :
    Follows c n (.begun (.whileDo condition body o)) K k
      (loop (do
          let v ← condition.eval c i
          return (← getState).store.toTruth v)
        (do
          heed c o
          Stmt.execAll c i body) n) nothing := by
  induction n with
  | zero => exact fun σ => .inr ⟨rfl, 0, [], _, Nat.le_refl 0, .here _⟩
  | succ n ih =>
    rw [Stmt.loop_succ]
    apply start_follows hi hn
    · exact List.forall_mem_singleton.mpr hbody
    · exact fun _ => ih (by omega)
    · exact Nat.le_refl _

theorem exec_follows (s : Stmt) (K : List Task) :
    Follows c c.rounds (.begun s) K k (s.exec c i) nothing := by
  induction s using Stmt.blocks_induction generalizing K with
  | h s ih =>
    have hblocks : ∀ ss ∈ s.blocks, ∀ K,
        Follows c c.rounds (.block ss) K k (Stmt.execAll c i ss) nothing :=
      fun ss hss K => execAll_follows_of (ih ss hss) K
    cases hw : s.isWhile with
    | false =>
      rw [Stmt.exec_eq_start (pure ()) s hw]
      apply start_follows hi (Nat.le_refl _) hblocks (d := c.rounds) _ (Nat.le_succ _)
      rw [hw]
      exact nofun
    | true =>
      cases s with
      | whileDo condition body o =>
        exact loop_follows hi (hblocks body List.mem_cons_self) c.rounds (Nat.le_refl _)
      | _ => cases hw

theorem execAll_follows (ss : List Stmt) (K : List Task) :
    Follows c c.rounds (.block ss) K k (Stmt.execAll c i ss) nothing :=
  execAll_follows_of (fun s _ => exec_follows hi s) K

end Statements

/-! ### Calls and programs -/

theorem invoke_follows (c : Context) (depth : Nat) : Invokes c c.rounds depth (invoke c depth) := by
  induction depth with
  | zero => exact fun d args F K s => .inl (.refl _)
  | succ depth ih =>
    intro d args F K s
    have hbody := execAll_follows ih d.body (.call s.frame (depth + 1) :: K)
      { s with frame := parameterFrame d.parameters args }
    simp only [invoke, within, catchReturn]
    rcases hr : Stmt.execAll c (invoke c depth) d.body
      { s with frame := parameterFrame d.parameters args } with ⟨e | u, after⟩
    · rw [hr] at hbody
      cases e with
      | returned v =>
        rcases hbody with hreach | ⟨hexhausted, _⟩
        · exact hreach.trans (Reaches.step rfl)
        · cases hexhausted
      | fault | exhausted | waiting =>
        exact hbody.imp (fun hreach => hreach.trans (Reaches.step rfl)) id
    · rw [hr] at hbody
      exact hbody.trans (Reaches.step rfl)

/-- The machine before the first statement of a program. -/
def Config.start (depth : Nat) (p : Program) (s : State) : Config :=
  ⟨.block p.statements, [], depth, s⟩

/-- The machine after a program. -/
def Config.ended (depth : Nat) : Except Stop Unit × State → Config
  | (.ok (), s) => ⟨.result .nothing, [], depth, s⟩
  | (.error e, s) => ⟨.stopped e, [], depth, s⟩

theorem step_ended (depth : Nat) (r : Except Stop Unit × State) :
    step c (Config.ended depth r) = none := by
  rcases r with ⟨e | u, s⟩
  · rfl
  · rfl

theorem Config.ended_injective (depth : Nat) : Function.Injective (Config.ended depth) := by
  rintro ⟨e | u, s⟩ ⟨e' | u', s'⟩ h
  · cases h
    rfl
  · cases h
  · cases h
  · cases h
    rfl

/-- The machine does not count rounds. -/
theorem Runs.rounded {rounds n : Nat} {seen : List Event}
    (h : Runs (c.rounded rounds) n C seen C') : Runs c n C seen C' := by
  induction h with
  | here => exact .here _
  | step first _ ih =>
    have hfirst : Machine.step c _ = _ := first
    exact .step hfirst ih

theorem Reaches.rounded {rounds : Nat} (h : Reaches (c.rounded rounds) C C') : Reaches c C C' := by
  obtain ⟨n, seen, hruns⟩ := h
  exact ⟨n, seen, hruns.rounded⟩

/-- The evaluator ends a program, given that its loops may make rounds enough, exactly if the machine
does; and they end it in the same way and in the same state. -/
theorem statements_iff (c : Context) (depth : Nat) (p : Program) (s : State) {r : Except Stop Unit}
    (hr : r ≠ .error .exhausted) (s' : State) :
    (∃ rounds, statements (c.rounded rounds) depth p s = (r, s')) ↔
      Reaches c (.start depth p s) (.ended depth (r, s')) := by
  have hends : ∀ rounds, Ends (c.rounded rounds) rounds (.start depth p s) [] depth nothing
      (statements (c.rounded rounds) depth p s) := fun rounds =>
    execAll_follows (invoke_follows (c.rounded rounds) depth) p.statements [] s
  constructor
  · rintro ⟨rounds, hstatements⟩
    have hend := hends rounds
    rw [hstatements] at hend
    rcases r with e | u
    · rcases hend with hreach | ⟨rfl, _⟩
      · exact hreach.rounded
      · exact absurd rfl hr
    · exact hend.rounded
  · rintro ⟨n, seen, hruns⟩
    -- loops that may make more rounds than the machine makes steps do not run out of them
    have hend := hends (n + 1)
    refine ⟨n + 1, ?_⟩
    have hsame : ∀ q, Reaches (c.rounded (n + 1)) (.start depth p s) (.ended depth q) →
        q = (r, s') := by
      intro q hq
      obtain ⟨m, seen', hruns'⟩ := hq.rounded
      exact Config.ended_injective depth
        ((hruns.of_ended (step_ended depth _) hruns').2 (step_ended depth q))
    rcases hq : statements (c.rounded (n + 1)) depth p s with ⟨e | u, after⟩
    · rw [hq] at hend
      rcases hend with hreach | ⟨rfl, m, seen', C', hm, hlong⟩
      · exact hsame (.error e, after) hreach
      · have hle := (hruns.of_ended (step_ended depth _) hlong.rounded).1
        omega
    · rw [hq] at hend
      exact hsame (.ok (), after) hend

end Machine
end Parlance
