import Parlance.Proofs.Binding.Calls
/-!
# Function tables

A table is closed if all calls in the bodies of its functions resolve. A program that is bound to an
empty table leaves a closed one. One that is bound to a closed table leaves a closed one exactly if
its declarations suit the calls in the bodies that it keeps (`closed_iff_suits`).
-/
namespace Parlance

namespace Binding

/-- The declaration of a name, in any letter case. -/
def declared? (key : String) (ds : List Declaration) : Option Declaration :=
  ds.find? fun d => Text.lower d.name == key

theorem declared?_eq_none {key : String} {ds : List Declaration} :
    declared? key ds = none ↔ ∀ d ∈ ds, Text.lower d.name ≠ key := by
  simp [declared?]

theorem declared?_mem {key : String} {ds : List Declaration} {d : Declaration}
    (h : declared? key ds = some d) : d ∈ ds ∧ Text.lower d.name = key := by
  have hkey := List.find?_some h
  exact ⟨List.mem_of_find?_eq_some h, by simpa using hkey⟩

theorem declare_cons_eq_ok {declared : List String} {table f : FunctionTable} {d : Declaration}
    {ds : List Declaration} (h : declare declared table (d :: ds) = .ok f) :
    Builtin.find? d.name = none ∧ Text.lower d.name ∉ declared ∧
      declare (Text.lower d.name :: declared) (table.put (Text.lower d.name) d) ds = .ok f := by
  simp only [declare] at h
  split at h
  · cases h
  · next hb =>
    split at h
    · cases h
    · next hd =>
      split at h
      · cases h
      · exact ⟨by simpa using hb, hd, h⟩

theorem declare_fresh {declared : List String} {table f : FunctionTable} {ds : List Declaration}
    (h : declare declared table ds = .ok f) : ∀ d ∈ ds, Text.lower d.name ∉ declared := by
  induction ds generalizing declared table with
  | nil => simp
  | cons d ds ih =>
    obtain ⟨_, hd, h⟩ := declare_cons_eq_ok h
    intro e he
    rcases List.mem_cons.mp he with rfl | he
    · exact hd
    · have hmem := ih h e he
      simp only [List.mem_cons, not_or] at hmem
      exact hmem.2

theorem declare_find? {declared : List String} {table f : FunctionTable} {ds : List Declaration}
    (h : declare declared table ds = .ok f) : ∀ d ∈ ds, Builtin.find? d.name = none := by
  induction ds generalizing declared table with
  | nil => simp
  | cons d ds ih =>
    obtain ⟨hb, _, h⟩ := declare_cons_eq_ok h
    intro e he
    rcases List.mem_cons.mp he with rfl | he
    · exact hb
    · exact ih h e he

theorem declared?_of_mem {declared : List String} {table f : FunctionTable}
    {ds : List Declaration} (h : declare declared table ds = .ok f) {e : Declaration}
    (he : e ∈ ds) : declared? (Text.lower e.name) ds = some e := by
  induction ds generalizing declared table with
  | nil => cases he
  | cons d ds ih =>
    obtain ⟨_, _, h⟩ := declare_cons_eq_ok h
    rcases List.mem_cons.mp he with rfl | he
    · simp [declared?]
    · have hfresh := declare_fresh h e he
      simp only [List.mem_cons, not_or] at hfresh
      have hne : ¬ Text.lower d.name = Text.lower e.name := Ne.symm hfresh.1
      have htail := ih h he
      unfold declared? at htail ⊢
      rw [List.find?_cons_of_neg (by simpa using hne), htail]

/-- A name means its declaration if there is one, and else what it meant before. -/
theorem declare_get? {declared : List String} {table f : FunctionTable} {ds : List Declaration}
    (h : declare declared table ds = .ok f) (key : String) :
    f.get? key = (declared? key ds).or (table.get? key) := by
  induction ds generalizing declared table with
  | nil =>
    cases h
    rfl
  | cons d ds ih =>
    obtain ⟨_, _, h⟩ := declare_cons_eq_ok h
    rw [ih h, Table.get?_put]
    by_cases hkey : Text.lower d.name = key
    · have hnone : declared? key ds = none := by
        refine declared?_eq_none.mpr fun e he heq => ?_
        have hfresh := declare_fresh h e he
        simp [heq, hkey] at hfresh
      have hcons : declared? key (d :: ds) = some d := by simp [declared?, hkey]
      simp [hnone, hcons, hkey]
    · have hcons : declared? key (d :: ds) = declared? key ds := by simp [declared?, hkey]
      simp [hcons, hkey]

theorem checkBodies_eq_ok {table : FunctionTable} {ds : List Declaration} :
    checkBodies table ds = .ok () ↔ ∀ d ∈ ds, checkBlock table true d.body = .ok () := by
  induction ds with
  | nil => simp [checkBodies]
  | cons d ds ih => rw [checkBodies, andThen_eq_ok, ih, List.forall_mem_cons]

end Binding

open Binding

/-- All calls in the bodies of the functions resolve. -/
def FunctionTable.Closed (f : FunctionTable) : Prop :=
  ∀ key d, f.get? key = some d → ∀ c ∈ Stmt.callsAll d.body, Resolves f c

/-- The bodies of the functions pass the checks. -/
def FunctionTable.Checked (f : FunctionTable) : Prop :=
  ∀ key d, f.get? key = some d → checkBlock f true d.body = .ok ()

theorem FunctionTable.closed_iff_checked {f : FunctionTable} : f.Closed ↔ f.Checked := by
  simp [Closed, Checked, checkBlock_eq_ok, Passes]

namespace Program

variable {known f : FunctionTable} {p : Program}

theorem bind_eq_ok :
    p.bind known = .ok f ↔ declare [] known p.functions = .ok f ∧
      (∀ d ∈ p.functions, checkBlock f true d.body = .ok ()) ∧
      checkBlock f false p.statements = .ok () := by
  simp only [bind, except_bind_eq_ok, ← checkBodies_eq_ok]
  constructor
  · rintro ⟨g, hd, _, hb, _, hs, h⟩
    cases h
    exact ⟨hd, hb, hs⟩
  · rintro ⟨hd, hb, hs⟩
    exact ⟨f, hd, (), hb, (), hs, rfl⟩

/-- The declarations of a program take as many arguments as the bodies that it keeps pass. -/
def Suits (known : FunctionTable) (p : Program) : Prop :=
  ∀ key d, known.get? key = some d → (∀ e ∈ p.functions, Text.lower e.name ≠ key) →
    ∀ c ∈ Stmt.callsAll d.body, ∀ e ∈ p.functions, Text.lower e.name = Text.lower c.name →
      e.parameters.length = c.count

theorem get?_bind (h : p.bind known = .ok f) (key : String) :
    f.get? key = (declared? key p.functions).or (known.get? key) :=
  declare_get? (bind_eq_ok.mp h).1 key

theorem find?_declared (h : p.bind known = .ok f) {d : Declaration} (hd : d ∈ p.functions) :
    Builtin.find? d.name = none := declare_find? (bind_eq_ok.mp h).1 d hd

theorem find?_congr {a b : String} (h : Text.lower a = Text.lower b) :
    Builtin.find? a = Builtin.find? b := by simp [Builtin.find?, h]

/-- How many arguments a declared name takes after the program is bound. -/
theorem arity?_declared (h : p.bind known = .ok f) {e : Declaration} {name : String}
    (he : declared? (Text.lower name) p.functions = some e) :
    arity? f name = some e.parameters.length := by
  obtain ⟨hmem, hkey⟩ := declared?_mem he
  have hfind : Builtin.find? name = none := find?_congr hkey ▸ find?_declared h hmem
  simp [arity?, hfind, get?_bind h, he]

/-- A name that the program does not declare takes as many arguments as before. -/
theorem arity?_kept (h : p.bind known = .ok f) {name : String}
    (hn : declared? (Text.lower name) p.functions = none) :
    arity? f name = arity? known name := by
  unfold arity?
  rw [get?_bind h, hn, Option.none_or]

theorem body_resolves (h : p.bind known = .ok f) {d : Declaration} (hd : d ∈ p.functions) :
    ∀ c ∈ Stmt.callsAll d.body, Resolves f c :=
  (checkBlock_eq_ok d.body).mp ((bind_eq_ok.mp h).2.1 d hd) |>.1

theorem closed_of_bind_nil (h : p.bind [] = .ok f) : f.Closed := by
  intro key d hd
  rw [get?_bind h] at hd
  cases hkey : declared? key p.functions with
  | none =>
    rw [hkey] at hd
    cases hd
  | some e =>
    rw [hkey] at hd
    cases hd
    exact body_resolves h (declared?_mem hkey).1

theorem closed_iff_suits (hk : known.Closed) (h : p.bind known = .ok f) :
    f.Closed ↔ p.Suits known := by
  constructor
  · intro hf key d hd hkept c hc e he hname
    have hnone : declared? key p.functions = none := declared?_eq_none.mpr hkept
    have hget : f.get? key = some d := by rw [get?_bind h, hnone, Option.none_or, hd]
    have hres : arity? f c.name = some c.count := hf key d hget c hc
    have hdecl : declared? (Text.lower c.name) p.functions = some e :=
      hname ▸ declared?_of_mem (bind_eq_ok.mp h).1 he
    rw [arity?_declared h hdecl, Option.some.injEq] at hres
    exact hres
  · intro hs key d hd c hc
    rw [get?_bind h] at hd
    cases hkey : declared? key p.functions with
    | some e =>
      rw [hkey] at hd
      cases hd
      exact body_resolves h (declared?_mem hkey).1 c hc
    | none =>
      rw [hkey, Option.none_or] at hd
      have hres : arity? known c.name = some c.count := hk key d hd c hc
      show arity? f c.name = some c.count
      cases hdecl : declared? (Text.lower c.name) p.functions with
      | none => rw [arity?_kept h hdecl, hres]
      | some e =>
        obtain ⟨he, hname⟩ := declared?_mem hdecl
        have hcount := hs key d hd (declared?_eq_none.mp hkey) c hc e he hname
        rw [arity?_declared h hdecl, hcount]

end Program
end Parlance
