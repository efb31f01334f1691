import Parlance.Proofs.Binding.Calls
import Parlance.Proofs.Run.Computing
import Parlance.Syntax.Node
/-!
# What runs may stop for

A run is confined to some stops if it comes to no others. What runs are put together from keeps this
up, so a statement is confined if what its own nodes stop for is allowed and its calls are confined
(`Stmt.exec_confined`).
-/
namespace Parlance
namespace Run

/-- The run comes to allowed stops only. -/
def Confined {α : Type} (allowed : Stop → Prop) (x : Run α) : Prop :=
  ∀ s e, (x s).1 = .error e → allowed e

/-- What nodes at some of the places stop for is allowed, calls and `return` apart. -/
structure Permits (places : Nat → Prop) (allowed : Stop → Prop) : Prop where
  node : ∀ {offset fault}, places offset → ¬ fault.OfBinding →
    allowed (.fault fault (fault.place offset))
  /-- the trace of a call shows the arguments -/
  shown : ∀ {store vs fault}, textsOf store vs = .error fault →
    allowed (.fault fault (fault.place 0))
  exhausted : allowed .exhausted
  waiting : ∀ need, allowed (.waiting need)

namespace Confined

variable {α β : Type} {allowed inner : Stop → Prop} {places : Nat → Prop} {offset : Nat}

theorem mono {x : Run α} (h : Confined inner x) (hsub : ∀ e, inner e → allowed e) :
    Confined allowed x := fun s e he => hsub e (h s e he)

theorem pure (a : α) : Confined allowed (Pure.pure a : Run α) := by
  intro s e he
  cases he

/-- What follows a part of a run may use what the part yields. -/
theorem bind_of {x : Run α} {f : α → Run β} (hx : Confined allowed x)
    (hf : ∀ s a after, x s = (.ok a, after) → Confined allowed (f a)) :
    Confined allowed (x >>= f) := by
  intro s e he
  rw [Run.bind_apply] at he
  cases hr : x s with
  | mk r after =>
    rw [hr] at he
    cases r with
    | ok a => exact hf s a after hr after e he
    | error e' =>
      cases he
      exact hx s e (by rw [hr])

theorem bind {x : Run α} {f : α → Run β} (hx : Confined allowed x)
    (hf : ∀ a, Confined allowed (f a)) : Confined allowed (x >>= f) :=
  hx.bind_of fun _ a _ _ => hf a

theorem stop {e : Stop} (h : allowed e) : Confined allowed (Run.stop e : Run α) := by
  rintro _ _ ⟨⟩
  exact h

theorem getState : Confined allowed getState := by
  intro s e he
  cases he

theorem change (f : State → State) : Confined allowed (change f) := by
  intro s e he
  cases he

theorem newList (items : Array Value) : Confined allowed (newList items) := by
  intro s e he
  cases he

theorem clock : Confined allowed clock := by
  intro s e he
  cases he

theorem within {frame : Frame} {body : Run α} (h : Confined allowed body) :
    Confined allowed (within frame body) := fun _ e he => h _ e he

/-- The body of a call may also give a value back, the call itself does not. -/
theorem catchReturn {body : Run Unit} (h : Confined inner body)
    (hsub : ∀ e, inner e → (∀ v, e ≠ .returned v) → allowed e) :
    Confined allowed (catchReturn body) := by
  intro s e he
  unfold Run.catchReturn at he
  cases hr : body s with
  | mk r after =>
    rw [hr] at he
    cases r with
    | ok u => cases he
    | error e' =>
      have hinner := h s e' (by rw [hr])
      cases e' with
      | returned v => cases he
      | fault | exhausted | waiting =>
        cases he
        exact hsub _ hinner (by rintro v ⟨⟩)

/-- What comes after a check of the number of arguments may use that the number is right. -/
theorem checked {name : String} {expected got : Nat} {x : Run α}
    (hwrong : got ≠ expected → allowed (.fault (.argumentCount name expected got) offset))
    (hx : got = expected → Confined allowed x) :
    Confined allowed (do
      checkCount name expected got offset
      x) := by
  unfold checkCount
  split
  · next h => exact (pure ()).bind fun _ => hx h
  · next h => exact (stop (hwrong h)).bind_of fun s a after hstop => nomatch hstop

/-! ### Parts that stop at a node -/

section Covered

variable (hp : Permits places allowed)
include hp

theorem fail (h : places offset) {fault : Fault} (hf : ¬ fault.OfBinding) :
    Confined allowed (Run.fail offset fault : Run α) := stop (hp.node h hf)

theorem fromStore (h : places offset) {f : Store → Except Fault α} (hf : ∀ σ, Computes (f σ)) :
    Confined allowed (fromStore offset f) := by
  intro s e he
  unfold Run.fromStore at he
  cases hr : f s.store with
  | ok a =>
    rw [hr] at he
    cases he
  | error fault =>
    rw [hr] at he
    exact fail hp h (fun hfault => hf _ fault hr hfault.ofName) s e he

theorem changeStore (h : places offset) {f : Store → Except Fault Store}
    (hf : ∀ σ, Computes (f σ)) : Confined allowed (changeStore offset f) := by
  intro s e he
  unfold Run.changeStore at he
  cases hr : f s.store with
  | ok σ =>
    rw [hr] at he
    cases he
  | error fault =>
    rw [hr] at he
    exact fail hp h (fun hfault => hf _ fault hr hfault.ofName) s e he

theorem lookup (h : places offset) (name : String) : Confined allowed (lookup name offset) := by
  intro s e he
  unfold Run.lookup at he
  split at he
  · cases he
  · have hname : ¬ (Fault.undefined name).OfBinding := nofun
    exact fail hp h hname s e he

theorem heed (h : places offset) (c : Context) : Confined allowed (heed c offset) := by
  intro s e he
  unfold Run.heed at he
  split at he
  · have hhalted : ¬ Fault.halted.OfBinding := nofun
    exact fail hp h hhalted s e he
  · cases he

theorem enter (h : places offset) (c : Context) (kind : NodeKind) :
    Confined allowed (enter c kind offset) := by
  refine (heed hp h c).bind fun _ => ?_
  split
  · exact change _
  · exact pure ()

theorem noteCall (c : Context) (name : String) (args : List Value) :
    Confined allowed (noteCall c name args) := by
  unfold Run.noteCall
  split
  · have htexts : Confined allowed (Run.fromStore 0 (textsOf · args)) := by
      intro s e he
      simp only [Run.fromStore] at he
      cases hr : textsOf s.store args with
      | ok texts =>
        rw [hr] at he
        cases he
      | error fault =>
        rw [hr] at he
        cases he
        exact hp.shown hr
    exact htexts.bind fun _ => change _
  · exact pure ()

/-! ### Loops -/

theorem loop {test : Run Bool} {body : Run Unit} (ht : Confined allowed test)
    (hb : Confined allowed body) (rounds : Nat) : Confined allowed (loop test body rounds) := by
  induction rounds with
  | zero => exact stop hp.exhausted
  | succ rounds ih =>
    refine ht.bind fun b => ?_
    cases b with
    | true => exact hb.bind fun _ => ih
    | false => exact pure ()

omit hp in
theorem times {body : Run Unit} (h : Confined allowed body) (n : Nat) :
    Confined allowed (times body n) := by
  induction n with
  | zero => exact pure ()
  | succ n ih => exact h.bind fun _ => ih

theorem timesWithin {body : Run Unit} (h : Confined allowed body) (rounds n : Nat) :
    Confined allowed (timesWithin body rounds n) := by
  refine (times h _).bind fun _ => ?_
  split
  · exact stop hp.exhausted
  · exact pure ()

omit hp in
theorem forAll {body : Value → Run Unit} (h : ∀ v, Confined allowed (body v)) (vs : List Value) :
    Confined allowed (forAll body vs) := by
  induction vs with
  | nil => exact pure ()
  | cons v vs ih => exact (h v).bind fun _ => ih

/-! ### Built-in functions -/

theorem readLine : Confined allowed readLine := by
  intro s e he
  unfold Run.readLine at he
  split at he
  · cases he
  · split at he
    · cases he
      exact hp.waiting _
    · cases he

theorem knowing {path : String} {body : Run α} (h : Confined allowed body) :
    Confined allowed (knowing path body) := by
  intro s e he
  unfold Run.knowing at he
  split at he
  · exact h s e he
  · cases he
    exact hp.waiting _

theorem readFile (h : places offset) (path : String) :
    Confined allowed (readFile offset path) := by
  refine knowing hp fun s e he => ?_
  split at he
  · cases he
  · next reason _ =>
    have hread : ¬ (Fault.ofRead path reason).OfBinding := by cases reason <;> exact nofun
    exact fail hp h hread s e he

theorem writeFile (h : places offset) (path : String) (content : Value) :
    Confined allowed (writeFile offset path content) := by
  refine knowing hp fun s e he => ?_
  split at he
  · next reason _ =>
    have hwrite : ¬ (Fault.ofWrite path reason).OfBinding := by cases reason <;> exact nofun
    exact fail hp h hwrite s e he
  · next place _ =>
    have hwrite : Confined allowed (do
        storeFile place ""
        let text ← Run.fromStore offset (·.toText content)
        storeFile place text) :=
      (change _).bind fun _ => (fromStore hp h fun σ => .toText σ content).bind fun _ => change _
    exact hwrite s e he

/-- With the right number of arguments a built-in function stops for other reasons only. -/
theorem builtin {b : Builtin} {args : List Value} (hargs : args.length = b.arity)
    (h : places offset) : Confined allowed (builtin b args offset) := by
  have htext : ∀ v : Value, Confined allowed (Run.fromStore offset (·.toText v)) :=
    fun v => fromStore hp h fun σ => .toText σ v
  cases b with
  | length =>
    obtain ⟨v, rfl⟩ := List.length_eq_one_iff.mp hargs
    exact fromStore hp h fun σ => .lengthOf σ v
  | range =>
    obtain ⟨first, last, rfl⟩ := List.length_eq_two.mp hargs
    exact (fromStore hp h fun σ => .rangeOf σ first last).bind fun _ => newList _
  | toNumber =>
    obtain ⟨v, rfl⟩ := List.length_eq_one_iff.mp hargs
    exact (fromStore hp h fun σ => .toNumber σ v).bind fun _ => pure _
  | toText =>
    obtain ⟨v, rfl⟩ := List.length_eq_one_iff.mp hargs
    exact (htext v).bind fun _ => pure _
  | toTruth =>
    obtain ⟨v, rfl⟩ := List.length_eq_one_iff.mp hargs
    exact fromStore hp h fun σ => .ok _
  | ask =>
    obtain ⟨v, rfl⟩ := List.length_eq_one_iff.mp hargs
    exact (htext v).bind fun _ => (change _).bind fun _ => (readLine hp).bind fun _ => pure _
  | now =>
    obtain rfl := List.length_eq_zero_iff.mp hargs
    exact clock.bind fun _ => pure _
  | formatNow =>
    obtain ⟨v, rfl⟩ := List.length_eq_one_iff.mp hargs
    exact (htext v).bind fun _ => clock.bind fun _ => pure _
  | readText =>
    obtain ⟨v, rfl⟩ := List.length_eq_one_iff.mp hargs
    exact (htext v).bind fun _ => (readFile hp h _).bind fun _ => pure _
  | writeText =>
    obtain ⟨v, content, rfl⟩ := List.length_eq_two.mp hargs
    exact (htext v).bind fun _ => (writeFile hp h _ content).bind fun _ => pure _

end Covered
end Confined

/-- The calls at the sites, with as many arguments as there, are confined at all of the places. -/
def CallsConfined (allowed : Stop → Prop) (places : Nat → Prop) (c : Context) (i : Invoke)
    (sites : List CallSite) : Prop :=
  ∀ site ∈ sites, ∀ args : List Value, args.length = site.count → ∀ offset, places offset →
    Confined allowed (call c i site.name args offset)

section

variable {allowed : Stop → Prop} {places : Nat → Prop} {c : Context} {i : Invoke}

theorem CallsConfined.append {as bs : List CallSite}
    (h : CallsConfined allowed places c i (as ++ bs)) :
    CallsConfined allowed places c i as ∧ CallsConfined allowed places c i bs :=
  List.forall_mem_append.mp h

end
end Run

open Run

/-- The nodes stand at some of the places. -/
def NodesAt (places : Nat → Prop) (nodes : List Node) : Prop :=
  ∀ n ∈ nodes, ∀ offset ∈ n.offset?, places offset

section Syntax

variable {allowed : Stop → Prop} {places : Nat → Prop} {c : Context} {i : Invoke}

theorem NodesAt.cons {n : Node} {nodes : List Node} (h : NodesAt places (n :: nodes)) :
    (∀ offset ∈ n.offset?, places offset) ∧ NodesAt places nodes := List.forall_mem_cons.mp h

theorem NodesAt.append {ns ms : List Node} (h : NodesAt places (ns ++ ms)) :
    NodesAt places ns ∧ NodesAt places ms := List.forall_mem_append.mp h

theorem Expr.evalAll_length {es : List Expr} {s after : State} {vs : List Value}
    (h : Expr.evalAll c i es s = (.ok vs, after)) : vs.length = es.length := by
  induction es generalizing s vs with
  | nil =>
    cases h
    rfl
  | cons e es ih =>
    rw [Expr.evalAll, Run.bind_apply] at h
    cases hv : e.eval c i s with
    | mk r mid =>
      rw [hv] at h
      cases r with
      | error stop => cases h
      | ok v =>
        simp only [Run.bind_apply] at h
        cases hs : Expr.evalAll c i es mid with
        | mk r mid' =>
          rw [hs] at h
          cases r with
          | error stop => cases h
          | ok ws =>
            cases h
            rw [List.length_cons, List.length_cons, ih hs]

mutual

theorem Expr.eval_confined (hp : Permits places allowed) :
    (e : Expr) → NodesAt places e.nodes → CallsConfined allowed places c i e.calls →
      Confined allowed (e.eval c i)
  | .number .., _, _ | .text .., _, _ | .truth .., _, _ => .pure _
  | .name n o, h, _ => .lookup hp (h.cons.1 o rfl) n
  | .unary op x o, h, hi => by
    rw [Expr.nodes] at h
    rw [Expr.eval]
    refine (Expr.eval_confined hp x h.cons.2 hi).bind fun v => ?_
    exact .fromStore hp (h.cons.1 o rfl) fun σ => .applyUnary σ op v
  | .binary op l r o, h, hi => by
    rw [Expr.nodes] at h
    rw [Expr.calls] at hi
    rw [Expr.eval]
    have hparts := h.cons.2.append
    refine (Expr.eval_confined hp l hparts.1 hi.append.1).bind fun x => ?_
    refine (Expr.eval_confined hp r hparts.2 hi.append.2).bind fun y => ?_
    exact .fromStore hp (h.cons.1 o rfl) fun σ => .applyBinary σ op x y
  | .call f args o, h, hi => by
    rw [Expr.nodes] at h
    rw [Expr.calls, CallsConfined, List.forall_mem_cons] at hi
    rw [Expr.eval]
    refine (Expr.evalAll_confined hp args h.cons.2 hi.2).bind_of fun s vs after hvs => ?_
    refine (Confined.noteCall hp c f vs).bind fun _ => ?_
    exact hi.1 vs (Expr.evalAll_length hvs) o (h.cons.1 o rfl)
  | .index t x o, h, hi => by
    rw [Expr.nodes] at h
    rw [Expr.calls] at hi
    rw [Expr.eval]
    have hparts := h.cons.2.append
    refine (Expr.eval_confined hp t hparts.1 hi.append.1).bind fun v => ?_
    refine (Expr.eval_confined hp x hparts.2 hi.append.2).bind fun w => ?_
    exact .fromStore hp (h.cons.1 o rfl) fun σ => .getAt σ v w
  | .list items _, h, hi => by
    rw [Expr.nodes] at h
    rw [Expr.eval]
    exact (Expr.evalAll_confined hp items h.cons.2 hi).bind fun _ => .newList _

theorem Expr.evalAll_confined (hp : Permits places allowed) :
    (es : List Expr) → NodesAt places (Expr.allNodes es) →
      CallsConfined allowed places c i (Expr.callsAll es) →
        Confined allowed (Expr.evalAll c i es)
  | [], _, _ => .pure _
  | e :: es, h, hi => by
    rw [Expr.allNodes] at h
    rw [Expr.callsAll] at hi
    rw [Expr.evalAll]
    refine (Expr.eval_confined hp e h.append.1 hi.append.1).bind fun _ => ?_
    exact (Expr.evalAll_confined hp es h.append.2 hi.append.2).bind fun _ => .pure _

end

theorem Target.assign_confined (hp : Permits places allowed) {t : Target} {value : Expr}
    (ht : NodesAt places t.nodes) (hv : NodesAt places value.nodes)
    (hit : CallsConfined allowed places c i t.calls)
    (hiv : CallsConfined allowed places c i value.calls) :
    Confined allowed (t.assign c i value) := by
  cases t with
  | name n o => exact (Expr.eval_confined hp value hv hiv).bind fun _ => .change _
  | element list x o =>
    have hnodes := ht.cons
    refine (Confined.lookup hp (hnodes.1 o rfl) list).bind fun owner => ?_
    refine (Expr.eval_confined hp x hnodes.2.append.2 hit).bind fun index => ?_
    refine (Expr.eval_confined hp value hv hiv).bind fun v => ?_
    exact .changeStore hp (hnodes.1 o rfl) fun σ => .setAt σ owner index v

mutual

/-- A statement without a `return` gives nothing back. -/
theorem Stmt.exec_confined (hp : Permits places allowed) :
    (s : Stmt) → NodesAt places s.nodes → CallsConfined allowed places c i s.calls →
      (s.returns = true → ∀ v, allowed (.returned v)) → Confined allowed (s.exec c i)
  | .letBe n v o, h, hi, _ => (Expr.eval_confined hp v h.cons.2 hi).bind fun _ => .change _
  | .setTo t v o, h, hi, _ => by
    rw [Stmt.nodes] at h
    rw [Stmt.calls] at hi
    have hparts := h.cons.2.append
    exact Target.assign_confined hp hparts.1 hparts.2 hi.append.1 hi.append.2
  | .say v o, h, hi, _ => by
    rw [Stmt.nodes] at h
    rw [Stmt.exec]
    refine (Expr.eval_confined hp v h.cons.2 hi).bind fun x => ?_
    exact (Confined.fromStore hp (h.cons.1 o rfl) fun σ => .toText σ x).bind fun _ => .change _
  | .ifThen e a b o, h, hi, hr => by
    rw [Stmt.nodes] at h
    rw [Stmt.calls] at hi
    rw [Stmt.returns, Bool.or_eq_true] at hr
    rw [Stmt.exec]
    have hparts := h.cons.2.append
    have hcalls := hi.append.2.append
    refine (Expr.eval_confined hp e hparts.1.append.1 hi.append.1).bind fun _ => ?_
    refine Confined.getState.bind fun _ => ?_
    split
    · exact Stmt.execAll_confined hp a hparts.1.append.2 hcalls.1 fun ha => hr (.inl ha)
    · exact Stmt.execAll_confined hp b hparts.2 hcalls.2 fun hb => hr (.inr hb)
  | .whileDo e b o, h, hi, hr => by
    rw [Stmt.nodes] at h
    rw [Stmt.calls] at hi
    rw [Stmt.exec]
    have hparts := h.cons.2.append
    refine .loop hp ?_ ?_ _
    · exact (Expr.eval_confined hp e hparts.1 hi.append.1).bind fun _ =>
        Confined.getState.bind fun _ => .pure _
    · exact (Confined.heed hp (h.cons.1 o rfl) c).bind fun _ =>
        Stmt.execAll_confined hp b hparts.2 hi.append.2 hr
  | .repeatTimes e b o, h, hi, hr => by
    rw [Stmt.nodes] at h
    rw [Stmt.calls] at hi
    rw [Stmt.exec]
    have hparts := h.cons.2.append
    refine (Expr.eval_confined hp e hparts.1 hi.append.1).bind fun x => ?_
    refine (Confined.fromStore hp (h.cons.1 o rfl) fun σ => .toInteger σ x).bind fun n => ?_
    cases n with
    | none => exact .pure ()
    | some n =>
      refine .timesWithin hp ?_ _ _
      exact (Confined.heed hp (h.cons.1 o rfl) c).bind fun _ =>
        Stmt.execAll_confined hp b hparts.2 hi.append.2 hr
  | .forEach n e b o, h, hi, hr => by
    rw [Stmt.nodes] at h
    rw [Stmt.calls] at hi
    rw [Stmt.exec]
    have hparts := h.cons.2.append
    refine (Expr.eval_confined hp e hparts.1 hi.append.1).bind fun x => ?_
    refine (Confined.fromStore hp (h.cons.1 o rfl) fun σ => .items σ x).bind fun vs => ?_
    refine .forAll (fun _ => ?_) vs
    refine (Confined.heed hp (h.cons.1 o rfl) c).bind fun _ => (Confined.change _).bind fun _ => ?_
    exact Stmt.execAll_confined hp b hparts.2 hi.append.2 hr
  | .append v l o, h, hi, _ => by
    rw [Stmt.nodes] at h
    rw [Stmt.exec]
    refine (Expr.eval_confined hp v h.cons.2 hi).bind fun x => ?_
    refine (Confined.lookup hp (h.cons.1 o rfl) l).bind fun target => ?_
    exact .changeStore hp (h.cons.1 o rfl) fun σ => .append σ target x
  | .remove v l o, h, hi, _ => by
    rw [Stmt.nodes] at h
    rw [Stmt.exec]
    refine (Expr.eval_confined hp v h.cons.2 hi).bind fun x => ?_
    refine (Confined.lookup hp (h.cons.1 o rfl) l).bind fun target => ?_
    exact .changeStore hp (h.cons.1 o rfl) fun σ => .remove σ target x
  | .giveBack v o, h, hi, hr =>
    (Expr.eval_confined hp v h.cons.2 hi).bind fun x => .stop (hr rfl x)
  | .evaluate v o, h, hi, _ => (Expr.eval_confined hp v h.cons.2 hi).bind fun _ => .pure ()

theorem Stmt.execAll_confined (hp : Permits places allowed) :
    (ss : List Stmt) → NodesAt places (Stmt.allNodes ss) →
      CallsConfined allowed places c i (Stmt.callsAll ss) →
        (Stmt.returnsAny ss = true → ∀ v, allowed (.returned v)) →
          Confined allowed (Stmt.execAll c i ss)
  | [], _, _, _ => .pure ()
  | s :: ss, h, hi, hr => by
    rw [Stmt.allNodes] at h
    rw [Stmt.callsAll] at hi
    rw [Stmt.returnsAny, Bool.or_eq_true] at hr
    rw [Stmt.execAll]
    have hplace : places s.offset := by
      cases s <;> exact h.append.1.cons.1 _ rfl
    refine (Confined.enter hp hplace c s.kind).bind fun _ => ?_
    refine (Stmt.exec_confined hp s h.append.1 hi.append.1 fun hs => hr (.inl hs)).bind fun _ => ?_
    exact Stmt.execAll_confined hp ss h.append.2 hi.append.2 fun hss => hr (.inr hss)

end

end Syntax
end Parlance
