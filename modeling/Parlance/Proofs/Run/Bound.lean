import Parlance.Proofs.Binding.Tables
import Parlance.Proofs.Run.Confined
/-!
# Runs of bound programs

A run is safe if it stops for no fault of binding, and, outside the body of a function, for no
`return`. Statements whose calls resolve run safely if the calls of declared functions are safe
(`execAll_safe`). In a closed table these are, by induction on the depth of calls (`invoke_safe`). So
a program that is bound to a table runs safely with it (`bind_sound`).
-/
namespace Parlance
open Binding

/-- The stops that a safe run may come to, inside the body of a function or outside. -/
def Stop.Safe (inside : Bool) : Stop → Prop
  | .fault f _ => ¬ f.OfBinding
  | .returned _ => inside = true
  | .exhausted | .waiting _ => True

variable {c : Context} {invoke : Invoke} {inside : Bool}

theorem Stop.Safe.mono {e : Stop} (h : e.Safe false) : e.Safe inside := by
  cases e with
  | returned v => cases h
  | fault | exhausted | waiting => exact h

namespace Run

def Safe {α : Type} (inside : Bool) (x : Run α) : Prop :=
  ∀ s e, (x s).1 = .error e → e.Safe inside

/-- Nodes stop for no fault of binding, wherever they stand. -/
theorem permits_safe : Permits (fun _ => True) (Stop.Safe inside) where
  node _ hfault := hfault
  shown h hfault := Computes.textsOf _ _ _ h hfault.ofName
  exhausted := trivial
  waiting _ := trivial

/-- All calls of declared functions are safe. -/
def Invokes (c : Context) (invoke : Invoke) : Prop :=
  ∀ key d, c.functions.get? key = some d → ∀ args, Safe false (invoke d args)

/-- A call that resolves is safe. -/
theorem call_safe (hi : Invokes c invoke) {name : String} {args : List Value}
    (h : Resolves c.functions ⟨name, args.length⟩) (offset : Nat) :
    Safe false (call c invoke name args offset) := by
  unfold call
  unfold Resolves arity? at h
  cases hb : Builtin.find? name with
  | some b =>
    rw [hb] at h
    have hcount : args.length = b.arity := (Option.some.inj h).symm
    exact Confined.checked (absurd hcount) fun _ => .builtin permits_safe hcount trivial
  | none =>
    rw [hb] at h
    cases hd : c.functions.get? (Text.lower name) with
    | none =>
      rw [hd] at h
      cases h
    | some d =>
      rw [hd] at h
      have hcount : args.length = d.parameters.length := (Option.some.inj h).symm
      exact Confined.checked (absurd hcount) fun _ => hi _ d hd args

theorem execAll_safe (hi : Invokes c invoke) {ss : List Stmt}
    (h : Passes c.functions inside (Stmt.callsAll ss) (Stmt.returnsAny ss)) :
    Safe inside (Stmt.execAll c invoke ss) := by
  refine Stmt.execAll_confined permits_safe ss (fun _ _ _ _ => trivial) ?_ fun hr _ => h.2 hr
  intro site hsite args hcount offset _
  have hresolves : Resolves c.functions ⟨site.name, args.length⟩ := hcount ▸ h.1 site hsite
  exact Confined.mono (call_safe hi hresolves offset) fun _ => Stop.Safe.mono

/-- In a closed table calls are safe, however deep. -/
theorem invoke_safe (hc : c.functions.Closed) (depth : Nat) : Invokes c (Run.invoke c depth) := by
  -- the body of a call runs at a smaller depth, and it passes because the table is closed
  induction depth with
  | zero =>
    intro key d _ args
    exact Confined.fail permits_safe trivial nofun
  | succ depth ih =>
    intro key d hd args
    have hbody : Passes c.functions true (Stmt.callsAll d.body) (Stmt.returnsAny d.body) :=
      ⟨hc key d hd, fun _ => rfl⟩
    refine Confined.within (Confined.catchReturn (execAll_safe ih hbody) fun e he hne => ?_)
    cases e with
    | returned v => exact absurd rfl (hne v)
    | fault | exhausted | waiting => exact he

theorem statements_safe (hc : c.functions.Closed) {p : Program}
    (hp : checkBlock c.functions false p.statements = .ok ()) (depth : Nat) :
    Safe false (statements c depth p) :=
  execAll_safe (invoke_safe hc depth) ((checkBlock_eq_ok _).mp hp)

/-- A call ends with the value that its body gives back, and with the frame that it started in. -/
theorem invoke_of_returned {d : Declaration} {args : List Value} {depth : Nat} {s after : State}
    {v : Value}
    (h : Stmt.execAll c (Run.invoke c depth) d.body
      { s with frame := parameterFrame d.parameters args } = (.error (.returned v), after)) :
    Run.invoke c (depth + 1) d args s = (.ok v, { after with frame := s.frame }) := by
  simp only [Run.invoke, within, catchReturn, h]

end Run

open Run

/-- A program that is bound, with a table whose bodies pass the checks, never stops for an unknown
function, a wrong number of arguments or a `return`: a `return` ends the call whose body it is in. A
program that is bound to an empty table gets such a table. -/
theorem Program.bind_sound {known f : FunctionTable} {p : Program} (hp : p.bind known = .ok f) :
    (known = [] → f.Checked) ∧
      (f.Checked → ∀ c : Context, c.functions = f → ∀ (depth : Nat) (s : State),
        (∀ name offset,
          (Run.statements c depth p s).1 ≠ .error (.fault (.unknownFunction name) offset)) ∧
        (∀ name expected got offset,
          (Run.statements c depth p s).1 ≠
            .error (.fault (.argumentCount name expected got) offset)) ∧
        (∀ v, (Run.statements c depth p s).1 ≠ .error (.returned v)) ∧
        ∀ key d, f.get? key = some d → ∀ args v,
          (Run.invoke c depth d args s).1 ≠ .error (.returned v) ∧
          ∀ after, Stmt.execAll c (Run.invoke c depth) d.body
              { s with frame := parameterFrame d.parameters args } = (.error (.returned v), after) →
            Run.invoke c (depth + 1) d args s = (.ok v, { after with frame := s.frame })) := by
  constructor
  · rintro rfl
    exact FunctionTable.closed_iff_checked.mp (Program.closed_of_bind_nil hp)
  · rintro hf c rfl depth s
    have hc := FunctionTable.closed_iff_checked.mpr hf
    have hsafe := statements_safe hc (Program.bind_eq_ok.mp hp).2.2 depth s
    refine ⟨?_, ?_, ?_, ?_⟩
    · exact fun name offset h => hsafe _ h trivial
    · exact fun name expected got offset h => hsafe _ h trivial
    · exact fun v h => Bool.false_ne_true (hsafe _ h)
    · intro key d hd args v
      have hcall := invoke_safe hc depth key d hd args s
      exact ⟨fun h => Bool.false_ne_true (hcall _ h), fun after => Run.invoke_of_returned⟩

/-- A function that calls itself, and a call of it in another letter case. -/
def countdown : Program :=
  ⟨[⟨"down", ["n"],
      [.ifThen (.name "n" 20)
        [.giveBack (.call "Down"
          [.binary .subtract (.name "n" 35) (.number (.ofNat 1) 39) 35] 30) 23] [] 14], 0⟩],
    [.say (.call "DOWN" [.number (.ofNat 3) 60] 55) 51]⟩

theorem countdown_sound :
    countdown.bind [] = .ok (countdown.functions.map fun d => (d.name, d)) ∧
      ∀ (depth : Nat) (s : State) (v : Value),
        (Run.statements ⟨countdown.functions.map fun d => (d.name, d), false, true, 100⟩ depth
          countdown s).1 ≠ .error (.returned v) :=
  have h : countdown.bind [] = .ok (countdown.functions.map fun d => (d.name, d)) := rfl
  have hsound := Program.bind_sound h
  ⟨h, fun depth s => (hsound.2 (hsound.1 rfl) _ rfl depth s).2.2.1⟩

end Parlance
