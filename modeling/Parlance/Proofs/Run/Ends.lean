import Mathlib.Data.Set.Finite.Basic
import Mathlib.Logic.Relation
import Mathlib.Order.Filter.AtTopBot.Prod
import Mathlib.Order.Filter.Finite
import Parlance.Proofs.Binding.Tables
import Parlance.Proofs.Run.Keeping
/-!
# Programs that end

A program without `while` whose functions do not call one another in a circle ends, with a fault if
not as it should: the rounds that its loops may make and the depth that its calls may have stop
mattering (`Program.ends`). What `repeat` and `for each` go through is fixed before the first round,
so it is enough that a body ends from every state.
-/
namespace Parlance

mutual

/-- A `while` stands in the statement. -/
def Stmt.whiles : Stmt → Bool
  | .whileDo .. => true
  | .ifThen _ a b _ => Stmt.whilesAny a || Stmt.whilesAny b
  | .repeatTimes _ b _ | .forEach _ _ b _ => Stmt.whilesAny b
  | .letBe .. | .setTo .. | .say .. | .append .. | .remove .. | .giveBack .. | .evaluate .. => false

def Stmt.whilesAny : List Stmt → Bool
  | [] => false
  | s :: ss => s.whiles || Stmt.whilesAny ss

end

/-! ### The graph of calls -/

namespace FunctionTable

variable {f : FunctionTable}

/-- A name is one of the function that a table has under a key. -/
structure Names (f : FunctionTable) (name key : String) (d : Declaration) : Prop where
  declared : Builtin.find? name = none
  lower : Text.lower name = key
  entry : f.get? key = some d

/-- One of the calls is of the function under a key. -/
def Leads (f : FunctionTable) (sites : List CallSite) (key : String) : Prop :=
  ∃ site ∈ sites, ∃ d, f.Names site.name key d

/-- The function under one key calls the function under another. -/
def CallsTo (f : FunctionTable) (key other : String) : Prop :=
  ∃ d, f.get? key = some d ∧ f.Leads (Stmt.callsAll d.body) other

/-- The calls lead to the function under a key, at once or through other functions. -/
def Reached (f : FunctionTable) (sites : List CallSite) (key : String) : Prop :=
  ∃ first, f.Leads sites first ∧ Relation.ReflTransGen f.CallsTo first key

/-- The functions that the calls lead to do not call one another in a circle. -/
def Acyclic (f : FunctionTable) (sites : List CallSite) : Prop :=
  ∀ key, f.Reached sites key → ¬ Relation.TransGen f.CallsTo key key

theorem Reached.next {sites : List CallSite} {key other : String} (h : f.Reached sites key)
    (hc : f.CallsTo key other) : f.Reached sites other := by
  obtain ⟨first, hfirst, hpath⟩ := h
  exact ⟨first, hfirst, hpath.tail hc⟩

theorem Reached.mem_keys {sites : List CallSite} {key : String} (h : f.Reached sites key) :
    key ∈ f.keys := by
  obtain ⟨first, ⟨site, _, d, hd⟩, hpath⟩ := h
  rcases Relation.ReflTransGen.cases_tail hpath with rfl | ⟨_, _, _, _, site, _, d, hd⟩
  · exact Table.mem_keys_of_get? hd.entry
  · exact Table.mem_keys_of_get? hd.entry

/-- What holds of a function if it holds of those that it calls holds of all that are reached. -/
@[elab_as_elim]
theorem Acyclic.induction {sites : List CallSite} (ha : f.Acyclic sites) {p : String → Prop}
    (step : ∀ key, f.Reached sites key → (∀ other, f.CallsTo key other → p other) → p key)
    {key : String} (h : f.Reached sites key) : p key := by
  let Key := { key : String // f.Reached sites key }
  have hfinite : Finite Key :=
    ((List.finite_toSet f.keys).subset fun key (hk : f.Reached sites key) => hk.mem_keys).to_subtype
  let r : Key → Key → Prop := fun a b => Relation.TransGen f.CallsTo b.1 a.1
  have htrans : IsTrans Key r := ⟨fun _ _ _ hab hbc => hbc.trans hab⟩
  have hirrefl : Std.Irrefl r := ⟨fun a => ha a.1 a.2⟩
  have hwf : WellFounded r := Finite.wellFounded_of_trans_of_irrefl r
  have hall : ∀ k : Key, p k.1 := by
    intro k
    induction k using hwf.induction with
    | _ k ih => exact step k.1 k.2 fun other hc => ih ⟨other, k.2.next hc⟩ (.single hc)
  exact hall ⟨key, h⟩

end FunctionTable

/-! ### Runs that settle -/

/-- The context in which loops may make so many rounds. -/
def Context.rounded (c : Context) (rounds : Nat) : Context := { c with rounds := rounds }

open Filter

namespace Run

/-- The runs with large indices are all the same from any one state, and do not run out of
rounds. -/
def Settles {ι α : Type} (l : Filter ι) (x : ι → Run α) : Prop :=
  ∀ s, ∃ r, (∀ᶠ i in l, x i s = r) ∧ r.1 ≠ .error .exhausted

namespace Settles

variable {ι α β : Type} {l : Filter ι}

theorem congr {x y : ι → Run α} (h : Settles l x) (hxy : ∀ᶠ i in l, x i = y i) : Settles l y := by
  intro s
  obtain ⟨r, hr, hne⟩ := h s
  refine ⟨r, ?_, hne⟩
  filter_upwards [hr, hxy] with i hi heq
  rw [← heq, hi]

theorem of_ne {x : Run α} (h : ∀ s, (x s).1 ≠ .error .exhausted) : Settles l fun _ => x :=
  fun s => ⟨x s, .of_forall fun _ => rfl, h s⟩

/-- What has no loop in it settles. -/
theorem steady {x : Run α} {good : α → Prop} (h : Keeps (.onStops True False) false good x) :
    Settles l fun _ => x := by
  refine of_ne fun s hexhausted => ?_
  have hend := (h s (Pact.onStops_holds fun hn => absurd trivial hn)).2
  rw [hexhausted] at hend
  exact hend

theorem pure (a : α) : Settles l fun _ => (Pure.pure a : Run α) := of_ne fun _ => nofun

theorem fail (offset : Nat) (fault : Fault) : Settles l fun _ => (Run.fail offset fault : Run α) :=
  of_ne fun _ => nofun

theorem returned (v : Value) : Settles l fun _ => (stop (.returned v) : Run α) :=
  of_ne fun _ => nofun

theorem bind {x : ι → Run α} {f : ι → α → Run β} (hx : Settles l x)
    (hf : ∀ a, Settles l fun i => f i a) : Settles l fun i => x i >>= f i := by
  intro s
  obtain ⟨⟨r, mid⟩, hr, hne⟩ := hx s
  cases r with
  | error e =>
    refine ⟨(.error e, mid), ?_, fun h => hne (congrArg _ (Except.error.inj h))⟩
    filter_upwards [hr] with i hi
    rw [Run.bind_apply, hi]
  | ok a =>
    obtain ⟨q, hq, hqne⟩ := hf a mid
    refine ⟨q, ?_, hqne⟩
    filter_upwards [hr, hq] with i hi hfi
    rw [Run.bind_apply, hi]
    exact hfi

theorem within {x : ι → Run α} (h : Settles l x) (frame : Frame) :
    Settles l fun i => within frame (x i) := by
  intro s
  obtain ⟨r, hr, hne⟩ := h { s with frame := frame }
  refine ⟨(r.1, { r.2 with frame := s.frame }), ?_, hne⟩
  filter_upwards [hr] with i hi
  rw [Run.within, hi]

theorem catchReturn {x : ι → Run Unit} (h : Settles l x) :
    Settles l fun i => catchReturn (x i) := by
  intro s
  obtain ⟨r, hr, hne⟩ := h s
  refine ⟨Run.catchReturn (fun _ => r) s, ?_, ?_⟩
  · filter_upwards [hr] with i hi
    simp only [Run.catchReturn, hi]
  · obtain ⟨r, after⟩ := r
    cases r with
    | ok u => nofun
    | error e =>
      cases e with
      | exhausted => exact absurd rfl hne
      | fault | returned | waiting => nofun

theorem times {body : ι → Run Unit} (h : Settles l body) (n : Nat) :
    Settles l fun i => times (body i) n := by
  induction n with
  | zero => exact pure ()
  | succ n ih => exact h.bind fun _ => ih

/-- A number of rounds that is fixed before the first one is allowed sooner or later. -/
theorem timesWithin {body : ι → Run Unit} (h : Settles l body) {rounds : ι → Nat}
    (hr : Tendsto rounds l atTop) (n : Nat) :
    Settles l fun i => timesWithin (body i) (rounds i) n := by
  have hall : Settles l fun i => Run.times (body i) n >>= fun _ => Pure.pure () :=
    (times h n).bind fun _ => pure ()
  refine hall.congr ?_
  filter_upwards [hr.eventually_ge_atTop n] with i hi
  rw [Run.timesWithin, Nat.min_eq_left hi, if_neg (Nat.not_lt_of_le hi)]

theorem forAll {body : ι → Value → Run Unit} (h : ∀ v, Settles l fun i => body i v)
    (vs : List Value) : Settles l fun i => forAll (body i) vs := by
  induction vs with
  | nil => exact pure ()
  | cons v vs ih => exact (h v).bind fun _ => ih

end Settles

/-- The calls of the function of a name settle. -/
def Answers {ι : Type} (l : Filter ι) (f : FunctionTable) (invoke : ι → Invoke) (name : String) :
    Prop :=
  ∀ key d, f.Names name key d → ∀ args, Settles l fun i => invoke i d args

variable {ι : Type} {l : Filter ι} {c : Context} {rounds : ι → Nat} {invoke : ι → Invoke}

theorem call_settles {name : String} {args : List Value}
    (h : Answers l c.functions invoke name) (offset : Nat) :
    Settles l fun i => call (c.rounded (rounds i)) (invoke i) name args offset := by
  cases hb : Builtin.find? name with
  | some b =>
    simp only [call, hb]
    exact .steady (.callBuiltin b name args offset)
  | none =>
    have hf : ∀ i, (c.rounded (rounds i)).functions = c.functions := fun _ => rfl
    cases hd : c.functions.get? (Text.lower name) with
    | none =>
      simp only [call, hb, hf, hd]
      exact .fail offset _
    | some d =>
      simp only [call, hb, hf, hd]
      exact (Settles.steady (.checkCount _ _ _ offset)).bind fun _ => h _ d ⟨hb, rfl, hd⟩ args

end Run

open Binding Run

variable {ι : Type} {l : Filter ι} {c : Context} {rounds : ι → Nat} {invoke : ι → Invoke}

mutual

theorem Expr.eval_settles :
    (e : Expr) → (∀ call ∈ e.calls, Answers l c.functions invoke call.name) →
      Settles l fun i => e.eval (c.rounded (rounds i)) (invoke i)
  | .number .., _ | .text .., _ | .truth .., _ => Settles.pure _
  | .name n o, _ => .steady (.lookup n o)
  | .unary op x o, h => by
    rw [Expr.calls] at h
    simp only [Expr.eval]
    exact (Expr.eval_settles x h).bind fun v => .steady (.fromStore fun _ _ => .any _)
  | .binary op a b o, h => by
    rw [Expr.calls, List.forall_mem_append] at h
    simp only [Expr.eval]
    refine (Expr.eval_settles a h.1).bind fun x => (Expr.eval_settles b h.2).bind fun y => ?_
    exact .steady (.fromStore fun _ _ => .any _)
  | .call f args o, h => by
    rw [Expr.calls, List.forall_mem_cons] at h
    simp only [Expr.eval]
    refine (Expr.evalAll_settles args h.2).bind fun vs => ?_
    exact (Settles.steady (.noteCall c f vs)).bind fun _ => call_settles h.1 o
  | .index t i o, h => by
    rw [Expr.calls, List.forall_mem_append] at h
    simp only [Expr.eval]
    refine (Expr.eval_settles t h.1).bind fun x => (Expr.eval_settles i h.2).bind fun y => ?_
    exact .steady (.fromStore fun _ _ => .any _)
  | .list items _, h => by
    rw [Expr.calls] at h
    simp only [Expr.eval]
    exact (Expr.evalAll_settles items h).bind fun vs => .steady (.newList fun v _ => trivial)

theorem Expr.evalAll_settles :
    (es : List Expr) → (∀ call ∈ Expr.callsAll es, Answers l c.functions invoke call.name) →
      Settles l fun i => Expr.evalAll (c.rounded (rounds i)) (invoke i) es
  | [], _ => Settles.pure _
  | e :: es, h => by
    rw [Expr.callsAll, List.forall_mem_append] at h
    simp only [Expr.evalAll]
    exact (Expr.eval_settles e h.1).bind fun v => (Expr.evalAll_settles es h.2).bind fun vs =>
      .pure _

end

theorem Target.assign_settles {t : Target} {value : Expr}
    (ht : ∀ call ∈ t.calls, Answers l c.functions invoke call.name)
    (hv : ∀ call ∈ value.calls, Answers l c.functions invoke call.name) :
    Settles l fun i => t.assign (c.rounded (rounds i)) (invoke i) value := by
  cases t with
  | name n o => exact (Expr.eval_settles value hv).bind fun v => .steady (.assign n trivial)
  | element list i o =>
    refine (Settles.steady (.lookup list o)).bind fun owner => ?_
    refine (Expr.eval_settles i ht).bind fun index => (Expr.eval_settles value hv).bind fun v => ?_
    exact .steady (.changeStore fun _ _ => .any _)

mutual

/-- A statement without a `while` settles if the calls in it do. -/
theorem Stmt.exec_settles (hr : Tendsto rounds l atTop) :
    (s : Stmt) → s.whiles = false → (∀ call ∈ s.calls, Answers l c.functions invoke call.name) →
      Settles l fun i => s.exec (c.rounded (rounds i)) (invoke i)
  | .letBe n v o, _, h => by
    rw [Stmt.calls] at h
    simp only [Stmt.exec]
    exact (Expr.eval_settles v h).bind fun x => .steady (.assign n trivial)
  | .setTo t v o, _, h => by
    rw [Stmt.calls, List.forall_mem_append] at h
    simp only [Stmt.exec]
    exact Target.assign_settles h.1 h.2
  | .say v o, _, h => by
    rw [Stmt.calls] at h
    simp only [Stmt.exec]
    refine (Expr.eval_settles v h).bind fun x => ?_
    exact (Settles.steady (.fromStore fun _ _ => .any _)).bind fun _ => .steady (.write _)
  | .ifThen e a b o, hw, h => by
    rw [Stmt.calls, List.forall_mem_append, List.forall_mem_append] at h
    rw [Stmt.whiles, Bool.or_eq_false_iff] at hw
    simp only [Stmt.exec]
    refine (Expr.eval_settles e h.1).bind fun x => (Settles.steady .getState).bind fun s => ?_
    split
    · exact Stmt.execAll_settles hr a hw.1 h.2.1
    · exact Stmt.execAll_settles hr b hw.2 h.2.2
  | .whileDo .., hw, _ => by cases hw
  | .repeatTimes e b o, hw, h => by
    rw [Stmt.calls, List.forall_mem_append] at h
    rw [Stmt.whiles] at hw
    simp only [Stmt.exec]
    refine (Expr.eval_settles e h.1).bind fun x => ?_
    refine (Settles.steady (.fromStore fun _ _ => .any _)).bind fun n => ?_
    cases n with
    | none => exact .pure ()
    | some n =>
      have hbody := (Settles.steady (.heed c o)).bind fun _ => Stmt.execAll_settles hr b hw h.2
      exact hbody.timesWithin hr _
  | .forEach n e b o, hw, h => by
    rw [Stmt.calls, List.forall_mem_append] at h
    rw [Stmt.whiles] at hw
    simp only [Stmt.exec]
    refine (Expr.eval_settles e h.1).bind fun x => ?_
    refine (Settles.steady (.fromStore fun _ _ => .any _)).bind fun vs => ?_
    refine Settles.forAll (fun v => ?_) vs
    refine (Settles.steady (.heed c o)).bind fun _ => ?_
    exact (Settles.steady (.assign n trivial)).bind fun _ => Stmt.execAll_settles hr b hw h.2
  | .append v list o, _, h => by
    rw [Stmt.calls] at h
    simp only [Stmt.exec]
    refine (Expr.eval_settles v h).bind fun x => (Settles.steady (.lookup list o)).bind fun t => ?_
    exact .steady (.changeStore fun _ _ => .any _)
  | .remove v list o, _, h => by
    rw [Stmt.calls] at h
    simp only [Stmt.exec]
    refine (Expr.eval_settles v h).bind fun x => (Settles.steady (.lookup list o)).bind fun t => ?_
    exact .steady (.changeStore fun _ _ => .any _)
  | .giveBack v o, _, h => by
    rw [Stmt.calls] at h
    simp only [Stmt.exec]
    exact (Expr.eval_settles v h).bind fun x => .returned x
  | .evaluate v o, _, h => by
    rw [Stmt.calls] at h
    simp only [Stmt.exec]
    exact (Expr.eval_settles v h).bind fun x => .pure ()

theorem Stmt.execAll_settles (hr : Tendsto rounds l atTop) :
    (ss : List Stmt) → Stmt.whilesAny ss = false →
      (∀ call ∈ Stmt.callsAll ss, Answers l c.functions invoke call.name) →
      Settles l fun i => Stmt.execAll (c.rounded (rounds i)) (invoke i) ss
  | [], _, _ => Settles.pure _
  | s :: ss, hw, h => by
    rw [Stmt.callsAll, List.forall_mem_append] at h
    rw [Stmt.whilesAny, Bool.or_eq_false_iff] at hw
    simp only [Stmt.execAll]
    refine (Settles.steady (.enter c _ _)).bind fun _ => ?_
    exact (Stmt.exec_settles hr s hw.1 h.1).bind fun _ => Stmt.execAll_settles hr ss hw.2 h.2

end

namespace Run

theorem body_settles (hr : Tendsto rounds l atTop) {d : Declaration}
    (hw : Stmt.whilesAny d.body = false)
    (h : ∀ call ∈ Stmt.callsAll d.body, Answers l c.functions invoke call.name) (args : List Value) :
    Settles l fun i => Run.within (parameterFrame d.parameters args)
      (Run.catchReturn (Stmt.execAll (c.rounded (rounds i)) (invoke i) d.body)) :=
  (Stmt.execAll_settles hr d.body hw h).catchReturn.within _

/-- No `while` stands in the functions that the calls lead to. -/
def LoopFree (f : FunctionTable) (sites : List CallSite) : Prop :=
  ∀ key d, f.Reached sites key → f.get? key = some d → Stmt.whilesAny d.body = false

variable {sites : List CallSite}

/-- Calls within a fixed depth settle. -/
theorem invoke_settles (hr : Tendsto rounds l atTop) (hw : LoopFree c.functions sites)
    (depth : Nat) {key : String} {d : Declaration} (hkey : c.functions.Reached sites key)
    (hd : c.functions.get? key = some d) (args : List Value) :
    Settles l fun i => Run.invoke (c.rounded (rounds i)) depth d args := by
  induction depth generalizing key d args with
  | zero => exact .fail 0 .tooDeep
  | succ depth ih =>
    refine body_settles hr (hw key d hkey hd) (fun call hcall other e hother args => ?_) args
    exact ih (hkey.next ⟨d, hd, call, hcall, e, hother⟩) hother.entry args

/-- Where no functions call one another in a circle, calls settle as the depth grows. -/
theorem invoke_settles_atTop (hr : Tendsto rounds l atTop) (hw : LoopFree c.functions sites)
    (ha : c.functions.Acyclic sites) {key : String} (hkey : c.functions.Reached sites key) :
    ∀ d, c.functions.get? key = some d → ∀ depth : ι → Nat, Tendsto depth l atTop →
      ∀ args, Settles l fun i => Run.invoke (c.rounded (rounds i)) (depth i) d args := by
  refine ha.induction (fun key hkey ih => ?_) hkey
  intro d hd depth hdepth args
  -- the calls in the body run at depths that are one smaller, and these grow as well
  have hanswers : ∀ call ∈ Stmt.callsAll d.body, Answers l c.functions
      (fun i => Run.invoke (c.rounded (rounds i)) (depth i - 1)) call.name :=
    fun call hcall other e hother args => ih other ⟨d, hd, call, hcall, e, hother⟩ e hother.entry _
      ((tendsto_sub_atTop_nat 1).comp hdepth) args
  refine (body_settles hr (hw key d hkey hd) hanswers args).congr ?_
  filter_upwards [hdepth.eventually_ge_atTop 1] with i hi
  obtain ⟨n, hn⟩ := Nat.exists_eq_add_of_le' hi
  simp only [hn, Nat.add_sub_cancel, Run.invoke]

/-- A program without `return` that knows its world and does not run out of rounds ends or fails. -/
theorem statements_ends {p : Program} (hp : Stmt.returnsAny p.statements = true → false = true)
    {depth : Nat} {s : State} (hw : s.world.IsComplete)
    (hne : (statements c depth p s).1 ≠ .error .exhausted) :
    (statements c depth p s).1 = .ok () ∨
      ∃ fault offset, (statements c depth p s).1 = .error (.fault fault offset) := by
  have hkeeps : Keeps (.onStops False True) false (fun _ => True) (statements c depth p) :=
    Stmt.execAll_keeps trivial (invoke_keeps trivial depth) p.statements hp
  have hend := (hkeeps s (Pact.onStops_holds fun _ => hw)).2
  cases hr : (statements c depth p s).1 with
  | ok u => exact .inl rfl
  | error e =>
    rw [hr] at hend hne
    cases e with
    | fault fault offset => exact .inr ⟨fault, offset, rfl⟩
    | returned v => cases hend.1
    | exhausted => exact absurd rfl hne
    | waiting need => exact hend.elim

variable {p : Program}

theorem statements_settles (hloop : Stmt.whilesAny p.statements = false)
    (hw : LoopFree c.functions (Stmt.callsAll p.statements)) (depth : Nat) :
    Settles atTop fun rounds => statements (c.rounded rounds) depth p := by
  refine Stmt.execAll_settles tendsto_id p.statements hloop fun call hcall key d hd args => ?_
  exact invoke_settles tendsto_id hw depth ⟨key, ⟨call, hcall, d, hd⟩, .refl⟩ hd.entry args

theorem statements_settles_atTop (hloop : Stmt.whilesAny p.statements = false)
    (hw : LoopFree c.functions (Stmt.callsAll p.statements))
    (ha : c.functions.Acyclic (Stmt.callsAll p.statements)) :
    Settles (atTop ×ˢ atTop) fun i : Nat × Nat => statements (c.rounded i.1) i.2 p := by
  refine Stmt.execAll_settles tendsto_fst p.statements hloop fun call hcall key d hd args => ?_
  exact invoke_settles_atTop tendsto_fst hw ha ⟨key, ⟨call, hcall, d, hd⟩, .refl⟩ d hd.entry _
    tendsto_snd args

end Run

/-- A program without `while`, also in the functions that it leads to, and whose functions do not
call one another in a circle, ends or fails in every state. Beyond some bound the rounds that a loop
may make do not matter, and from some limit on neither does the depth of calls. -/
theorem Program.ends {known f : FunctionTable} {p : Program} (hp : p.bind known = .ok f)
    (hloop : Stmt.whilesAny p.statements = false) (hw : LoopFree f (Stmt.callsAll p.statements))
    (ha : f.Acyclic (Stmt.callsAll p.statements)) (c : Context) (hc : c.functions = f) (s : State)
    (hs : s.world.IsComplete) :
    ∃ (bound limit : Nat) (outcome : Nat → Except Stop Unit × State),
      (∀ rounds ≥ bound, ∀ depth,
        Run.statements (c.rounded rounds) depth p s = outcome depth) ∧
      (∀ depth, (outcome depth).1 = .ok () ∨
        ∃ fault offset, (outcome depth).1 = .error (.fault fault offset)) ∧
      ∀ depth ≥ limit, outcome depth = outcome limit := by
  subst hc
  obtain ⟨r, hr, hne⟩ := statements_settles_atTop hloop hw ha s
  rw [prod_atTop_atTop_eq] at hr
  obtain ⟨⟨enough, limit⟩, hlarge⟩ := eventually_atTop.mp hr
  -- the depths below the limit settle one by one, and there are finitely many of them
  choose low hlow hlowne using fun depth => statements_settles hloop hw depth s
  have hsmall : ∀ᶠ rounds in atTop, ∀ depth < limit,
      Run.statements (c.rounded rounds) depth p s = low depth :=
    (eventually_all_finite (Set.finite_lt_nat limit)).mpr fun depth _ => hlow depth
  obtain ⟨bound, hbound⟩ := eventually_atTop.mp (hsmall.and (eventually_ge_atTop enough))
  have hrun : ∀ rounds ≥ bound, ∀ depth, Run.statements (c.rounded rounds) depth p s
      = if depth < limit then low depth else r := by
    intro rounds hrounds depth
    split
    · next hlt => exact (hbound rounds hrounds).1 depth hlt
    · next hge => exact hlarge (rounds, depth) ⟨(hbound rounds hrounds).2, Nat.le_of_not_lt hge⟩
  refine ⟨bound, limit, _, hrun, fun depth => ?_, fun depth hdepth => ?_⟩
  · rw [← hrun bound (Nat.le_refl _) depth]
    refine statements_ends ((checkBlock_eq_ok _).mp (bind_eq_ok.mp hp).2.2).2 hs ?_
    rw [hrun bound (Nat.le_refl _) depth]
    split
    · exact hlowne depth
    · exact hne
  · rw [if_neg (Nat.not_lt_of_le hdepth), if_neg (Nat.lt_irrefl _)]

/-- Each call adds to the list what a loop finds in it when the loop begins. -/
def doubling : Program :=
  ⟨[⟨"double", ["xs"],
      [.forEach "x" (.name "xs" 20) [.append (.name "x" 30) "xs" 25] 15], 0⟩],
    [.letBe "xs" (.list [.truth true 50] 49) 40,
      .repeatTimes (.number (.ofNat 3) 65) [.evaluate (.call "Double" [.name "xs" 80] 75) 75] 60]⟩

theorem doubling_ends :
    doubling.bind [] = .ok (doubling.functions.map fun d => (d.name, d)) ∧
      ∃ (bound limit : Nat) (outcome : Nat → Except Stop Unit × State),
        (∀ rounds ≥ bound, ∀ depth,
          Run.statements ⟨doubling.functions.map fun d => (d.name, d), false, true, rounds⟩ depth
            doubling ⟨.empty, [], .complete ⟨2024, 1, 31, 0, 0, 0, 0⟩ [] .empty, false, none, [], []⟩
            = outcome depth) ∧
        (∀ depth, (outcome depth).1 = .ok () ∨
          ∃ fault offset, (outcome depth).1 = .error (.fault fault offset)) ∧
        ∀ depth ≥ limit, outcome depth = outcome limit := by
  have hbind : doubling.bind [] = .ok (doubling.functions.map fun d => (d.name, d)) := rfl
  have hget : ∀ key d, Table.get? key (doubling.functions.map fun d => (d.name, d)) = some d →
      d ∈ doubling.functions := by
    intro key d hd
    simp only [doubling, List.map_cons, List.map_nil, Table.get?] at hd ⊢
    split at hd
    · cases hd
      exact List.mem_cons_self
    · cases hd
  have hfree : LoopFree (doubling.functions.map fun d => (d.name, d))
      (Stmt.callsAll doubling.statements) := by
    intro key d _ hd
    obtain rfl := List.mem_singleton.mp (hget key d hd)
    rfl
  have hacyclic : FunctionTable.Acyclic (doubling.functions.map fun d => (d.name, d))
      (Stmt.callsAll doubling.statements) := by
    intro key _ hcycle
    obtain ⟨other, ⟨d, hd, site, hsite, _⟩, _⟩ := Relation.TransGen.head'_iff.mp hcycle
    obtain rfl := List.mem_singleton.mp (hget key d hd)
    cases hsite
  exact ⟨hbind, Program.ends hbind rfl hfree hacyclic ⟨_, false, true, 0⟩ rfl _ ⟨rfl, rfl⟩⟩

end Parlance
