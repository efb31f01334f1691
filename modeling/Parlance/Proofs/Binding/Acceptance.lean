import Parlance.Syntax.Node
import Parlance.Proofs.Binding.Tables
import Parlance.Proofs.Run.Sessions
/-!
# What the binder accepts

The binder meets the calls of a tree exactly where the nodes of the tree have them, in the same
order (`Stmt.callsAll_eq`), and the `return`s likewise (`Stmt.returnsAny_eq`). So it accepts the
well-bound programs and no others, and what it leaves is the table of functions known before with
the program's own in it (`bind_eq_ok_iff`).
-/
namespace Parlance

namespace Node

/-- The call that a node is. -/
def callSite? : Node → Option CallSite
  | expr (.call f args _) => some ⟨f, args.length⟩
  | _ => none

/-- The node is a `return`. -/
def givesBack (n : Node) : Bool := n.kind == .giveBack

theorem callSite?_eq_some {n : Node} {c : CallSite} :
    n.callSite? = some c ↔ ∃ args o, n = .expr (.call c.name args o) ∧ args.length = c.count := by
  constructor
  · intro h
    unfold callSite? at h
    split at h
    · next f args o =>
      cases h
      exact ⟨args, o, rfl, rfl⟩
    · cases h
  · rintro ⟨args, o, rfl, hcount⟩
    simp [callSite?, hcount]

theorem kind_call (f : String) (args : List Expr) (o : Nat) :
    (expr (.call f args o)).kind = .call := rfl

end Node

mutual

theorem Expr.calls_eq : (e : Expr) → e.calls = e.nodes.filterMap Node.callSite?
  | .unary _ x _ => calls_eq x
  | .binary _ l r _ => by
    rw [calls, calls_eq l, calls_eq r, ← List.filterMap_append]
    rfl
  | .call _ args _ => by
    rw [calls, callsAll_eq args]
    rfl
  | .index t i _ => by
    rw [calls, calls_eq t, calls_eq i, ← List.filterMap_append]
    rfl
  | .list items _ => callsAll_eq items
  | .number .. | .text .. | .truth .. | .name .. => rfl

theorem Expr.callsAll_eq : (es : List Expr) → callsAll es = (allNodes es).filterMap Node.callSite?
  | [] => rfl
  | e :: es => by rw [callsAll, allNodes, List.filterMap_append, calls_eq e, callsAll_eq es]

end

theorem Target.calls_eq (t : Target) : t.calls = t.nodes.filterMap Node.callSite? := by
  cases t with
  | name => rfl
  | element _ i _ => exact i.calls_eq

mutual

theorem Stmt.calls_eq : (s : Stmt) → s.calls = s.nodes.filterMap Node.callSite?
  | .letBe _ v _ | .say v _ | .append v _ _ | .remove v _ _ | .evaluate v _ | .giveBack v _ =>
    v.calls_eq
  | .setTo t v _ => by
    rw [calls, Target.calls_eq, Expr.calls_eq, ← List.filterMap_append]
    rfl
  | .ifThen c a b _ => by
    rw [calls, Expr.calls_eq, callsAll_eq a, callsAll_eq b, ← List.filterMap_append,
      ← List.filterMap_append, ← List.append_assoc]
    rfl
  | .whileDo c b _ | .repeatTimes c b _ | .forEach _ c b _ => by
    rw [calls, Expr.calls_eq, callsAll_eq b, ← List.filterMap_append]
    rfl

theorem Stmt.callsAll_eq : (ss : List Stmt) → callsAll ss = (allNodes ss).filterMap Node.callSite?
  | [] => rfl
  | s :: ss => by rw [callsAll, allNodes, List.filterMap_append, calls_eq s, callsAll_eq ss]

end

mutual

theorem Expr.nodes_givesBack : (e : Expr) → e.nodes.any Node.givesBack = false
  | .unary _ x _ => by simpa [nodes, Node.givesBack, Node.kind, kind] using nodes_givesBack x
  | .binary _ l r _ => by
    have hl := nodes_givesBack l
    have hr := nodes_givesBack r
    simp_all [nodes, Node.givesBack, Node.kind, kind]
  | .call _ args _ => by
    simpa [nodes, Node.givesBack, Node.kind, kind] using allNodes_givesBack args
  | .index t i _ => by
    have ht := nodes_givesBack t
    have hi := nodes_givesBack i
    simp_all [nodes, Node.givesBack, Node.kind, kind]
  | .list items _ => by
    simpa [nodes, Node.givesBack, Node.kind, kind] using allNodes_givesBack items
  | .number .. | .text .. | .truth .. | .name .. => rfl

theorem Expr.allNodes_givesBack : (es : List Expr) → (allNodes es).any Node.givesBack = false
  | [] => rfl
  | e :: es => by
    rw [allNodes, List.any_append, nodes_givesBack e, allNodes_givesBack es, Bool.false_or]

end

mutual

theorem Stmt.returns_eq : (s : Stmt) → s.returns = s.nodes.any Node.givesBack
  | .giveBack .. => rfl
  | .letBe .. | .say .. | .append .. | .remove .. | .evaluate .. => by
    rw [returns, nodes, List.any_cons, Expr.nodes_givesBack]
    rfl
  | .setTo t v _ => by
    rw [returns, nodes, List.any_cons, List.any_append, Target.nodes, Expr.nodes_givesBack,
      Expr.nodes_givesBack]
    rfl
  | .ifThen c a b _ => by
    rw [returns, nodes, List.any_cons, List.any_append, List.any_append, Expr.nodes_givesBack,
      returnsAny_eq a, returnsAny_eq b]
    rfl
  | .whileDo c b _ | .repeatTimes c b _ | .forEach _ c b _ => by
    rw [returns, nodes, List.any_cons, List.any_append, Expr.nodes_givesBack, returnsAny_eq b]
    rfl

theorem Stmt.returnsAny_eq : (ss : List Stmt) → returnsAny ss = (allNodes ss).any Node.givesBack
  | [] => rfl
  | s :: ss => by rw [returnsAny, allNodes, List.any_append, returns_eq s, returnsAny_eq ss]

end

/-- The calls of a program: those in the bodies of its functions and those of its statements. -/
def Program.calls (p : Program) : List CallSite :=
  p.functions.flatMap (fun d => Stmt.callsAll d.body) ++ Stmt.callsAll p.statements

theorem Program.calls_eq (p : Program) : p.calls = p.nodes.filterMap Node.callSite? := by
  have hbody (d : Declaration) : Stmt.callsAll d.body = d.nodes.filterMap Node.callSite? :=
    Stmt.callsAll_eq d.body
  simp only [calls, hbody, Stmt.callsAll_eq, ← List.filterMap_flatMap, ← List.filterMap_append]
  rfl

theorem Program.mem_calls {p : Program} {c : CallSite} :
    c ∈ p.calls ↔ ∃ args o, .expr (.call c.name args o) ∈ p.find .call ∧ args.length = c.count := by
  rw [calls_eq, List.mem_filterMap]
  constructor
  · rintro ⟨n, hn, hc⟩
    obtain ⟨args, o, rfl, hcount⟩ := Node.callSite?_eq_some.mp hc
    exact ⟨args, o, by simpa [find, Node.kind_call] using hn, hcount⟩
  · rintro ⟨args, o, hn, hcount⟩
    exact ⟨_, (List.mem_filter.mp hn).1, Node.callSite?_eq_some.mpr ⟨args, o, rfl, hcount⟩⟩

/-- A table with declarations entered into it, one after another. -/
def FunctionTable.overridden (f : FunctionTable) (ds : List Declaration) : FunctionTable :=
  ds.foldl (fun table d => table.put (Text.lower d.name) d) f

namespace Builtin

theorem find?_eq_none {called : String} :
    find? called = none ↔ ∀ b : Builtin, b.name ≠ Text.lower called := by
  simp [find?, mem_all]

theorem name_injective {a b : Builtin} (h : a.name = b.name) : a = b := by
  revert h
  cases a <;> cases b <;> decide

theorem find?_eq_some {called : String} {b : Builtin} :
    find? called = some b ↔ b.name = Text.lower called := by
  constructor
  · intro h
    simpa using List.find?_some h
  · intro h
    cases hfind : find? called with
    | none => exact absurd h (find?_eq_none.mp hfind b)
    | some a =>
      have ha : a.name = Text.lower called := by simpa using List.find?_some hfind
      rw [name_injective (ha.trans h.symm)]

end Builtin

/-- Functions that may be declared together: none has the name of a built-in one, no two share a
name, and none repeats a parameter, in any letter case. -/
structure Declarable (ds : List Declaration) : Prop where
  unshadowing : ∀ d ∈ ds, ∀ b : Builtin, b.name ≠ Text.lower d.name
  distinct : (ds.map fun d => Text.lower d.name).Nodup
  parameters : ∀ d ∈ ds, (d.parameters.map Text.lower).Nodup

/-- A function takes so many arguments: the built-in one of the name or, if there is none, the one
of the table. -/
def Takes (f : FunctionTable) (name : String) (count : Nat) : Prop :=
  (∃ b : Builtin, b.name = Text.lower name ∧ b.arity = count) ∨
    (∀ b : Builtin, b.name ≠ Text.lower name) ∧
      ∃ d, f.get? (Text.lower name) = some d ∧ d.parameters.length = count

/-- The functions may be declared together, the calls among the program's nodes pass as many
arguments as the functions take, and no statement outside a function holds a `return`. -/
structure Program.WellBound (known : FunctionTable) (p : Program) : Prop where
  declarable : Declarable p.functions
  calls : ∀ f args o, .expr (.call f args o) ∈ p.find .call →
    Takes (known.overridden p.functions) f args.length
  returns : ∀ n ∈ Stmt.allNodes p.statements, n.kind ≠ .giveBack

namespace Binding

theorem resolves_iff_takes {f : FunctionTable} {c : CallSite} :
    Resolves f c ↔ Takes f c.name c.count := by
  unfold Resolves Takes arity?
  cases hfind : Builtin.find? c.name with
  | none =>
    have hnone := Builtin.find?_eq_none.mp hfind
    simp [hnone, Option.map_eq_some_iff]
  | some b =>
    have hb := Builtin.find?_eq_some.mp hfind
    simp only [Option.some.injEq]
    constructor
    · exact fun h => .inl ⟨b, hb, h⟩
    · rintro (⟨a, ha, h⟩ | ⟨hnone, -⟩)
      · rwa [Builtin.name_injective (ha.trans hb.symm)] at h
      · exact absurd hb (hnone b)

theorem repeated?_eq_none {seen ns : List String} :
    repeated? seen ns = none ↔
      (ns.map Text.lower).Nodup ∧ ∀ n ∈ ns, Text.lower n ∉ seen := by
  induction ns generalizing seen with
  | nil => simp [repeated?]
  | cons n ns ih =>
    by_cases h : Text.lower n ∈ seen
    · simp [repeated?, h]
    · simp only [repeated?, h, if_false, ih, List.map_cons, List.nodup_cons, List.mem_map,
        List.mem_cons, forall_eq_or_imp]
      grind

theorem declarable_nil : Declarable [] := ⟨by simp, by simp, by simp⟩

theorem declarable_cons {d : Declaration} {ds : List Declaration} :
    Declarable (d :: ds) ↔
      (Builtin.find? d.name = none ∧ (d.parameters.map Text.lower).Nodup ∧
        ∀ e ∈ ds, Text.lower e.name ≠ Text.lower d.name) ∧ Declarable ds := by
  constructor
  · rintro ⟨hun, hdist, hpar⟩
    rw [List.map_cons, List.nodup_cons] at hdist
    have hne : ∀ e ∈ ds, Text.lower e.name ≠ Text.lower d.name := fun e he h =>
      hdist.1 (h ▸ List.mem_map_of_mem he)
    rw [List.forall_mem_cons] at hun hpar
    exact ⟨⟨Builtin.find?_eq_none.mpr hun.1, hpar.1, hne⟩, hun.2, hdist.2, hpar.2⟩
  · rintro ⟨⟨hfind, hpar, hne⟩, hds⟩
    refine ⟨?_, ?_, ?_⟩
    · exact List.forall_mem_cons.mpr ⟨Builtin.find?_eq_none.mp hfind, hds.unshadowing⟩
    · rw [List.map_cons, List.nodup_cons]
      refine ⟨fun hmem => ?_, hds.distinct⟩
      obtain ⟨e, he, h⟩ := List.mem_map.mp hmem
      exact hne e he h
    · exact List.forall_mem_cons.mpr ⟨hpar, hds.parameters⟩

/-- Declarations are entered, one after another, if they may be declared together and none has a
name that the program has declared before. -/
theorem declare_eq_ok {declared : List String} {table f : FunctionTable} {ds : List Declaration} :
    declare declared table ds = .ok f ↔
      (Declarable ds ∧ ∀ d ∈ ds, Text.lower d.name ∉ declared) ∧ f = table.overridden ds := by
  induction ds generalizing declared table with
  | nil => simp [declare, FunctionTable.overridden, declarable_nil, eq_comm]
  | cons d ds ih =>
    rw [declarable_cons]
    constructor
    · intro h
      obtain ⟨hfind, hfresh, hrest⟩ := declare_cons_eq_ok h
      obtain ⟨⟨hds, hall⟩, hf⟩ := ih.mp hrest
      simp only [List.mem_cons, not_or] at hall
      have hpar : repeated? [] d.parameters = none := by
        simp only [declare, hfind, hfresh] at h
        grind
      exact ⟨⟨⟨⟨hfind, (repeated?_eq_none.mp hpar).1, fun e he => (hall e he).1⟩, hds⟩,
        List.forall_mem_cons.mpr ⟨hfresh, fun e he => (hall e he).2⟩⟩, hf⟩
    · rintro ⟨⟨⟨⟨hfind, hpar, hne⟩, hds⟩, hall⟩, hf⟩
      rw [List.forall_mem_cons] at hall
      have hnone : repeated? [] d.parameters = none := repeated?_eq_none.mpr ⟨hpar, by simp⟩
      have hfresh : ∀ e ∈ ds, Text.lower e.name ∉ Text.lower d.name :: declared := fun e he =>
        List.not_mem_cons_of_ne_of_not_mem (hne e he) (hall.2 e he)
      have hrest := ih.mpr ⟨⟨hds, hfresh⟩, hf⟩
      simpa [declare, hfind, hall.1, hnone] using hrest

end Binding

open Binding

/-- Keys that are known keep their places, and the new ones follow as they are declared. -/
theorem FunctionTable.keys_overridden (f : FunctionTable) {ds : List Declaration}
    (h : (ds.map fun d => Text.lower d.name).Nodup) :
    Table.keys (f.overridden ds) =
      Table.keys f ++ (ds.map fun d => Text.lower d.name).filter (· ∉ Table.keys f) := by
  induction ds generalizing f with
  | nil => simp [overridden]
  | cons d ds ih =>
    rw [List.map_cons, List.nodup_cons] at h
    have hput := Table.keys_put (Text.lower d.name) d f
    show Table.keys (FunctionTable.overridden (Table.put (Text.lower d.name) d f) ds) = _
    rw [ih _ h.2, hput]
    by_cases hmem : Text.lower d.name ∈ Table.keys f
    · simp [hmem]
    · have hsame : (ds.map fun d => Text.lower d.name).filter
          (· ∉ Table.keys f ++ [Text.lower d.name]) =
          (ds.map fun d => Text.lower d.name).filter (· ∉ Table.keys f) := by
        refine List.filter_congr fun key hkey => ?_
        have hne : key ≠ Text.lower d.name := fun heq => h.1 (heq ▸ hkey)
        simp [hne]
      rw [if_neg hmem, hsame, List.map_cons, List.filter_cons_of_pos (by simpa using hmem),
        List.append_assoc]
      rfl

namespace Program

variable {known f : FunctionTable} {p : Program}

theorem calls_resolve_iff :
    (∀ c ∈ p.calls, Resolves f c) ↔
      ∀ name args o, .expr (.call name args o) ∈ p.find .call → Takes f name args.length := by
  constructor
  · intro h name args o hnode
    exact resolves_iff_takes.mp (h ⟨name, args.length⟩ (mem_calls.mpr ⟨args, o, hnode, rfl⟩))
  · intro h c hc
    obtain ⟨args, o, hnode, hcount⟩ := mem_calls.mp hc
    exact resolves_iff_takes.mpr (hcount ▸ h c.name args o hnode)

theorem bind_eq_ok_iff :
    p.bind known = .ok f ↔ p.WellBound known ∧ f = known.overridden p.functions := by
  have hreturns : (Stmt.returnsAny p.statements = true → false = true) ↔
      ∀ n ∈ Stmt.allNodes p.statements, n.kind ≠ .giveBack := by
    simp [Stmt.returnsAny_eq, Node.givesBack]
  have hchecks : (∀ d ∈ p.functions, checkBlock f true d.body = .ok ()) ∧
      checkBlock f false p.statements = .ok () ↔
      (∀ c ∈ p.calls, Resolves f c) ∧ ∀ n ∈ Stmt.allNodes p.statements, n.kind ≠ .giveBack := by
    simp only [checkBlock_eq_ok, Passes, calls, List.forall_mem_append, List.forall_mem_flatMap,
      hreturns, and_assoc, implies_true, and_true]
  rw [bind_eq_ok, hchecks, calls_resolve_iff, declare_eq_ok]
  constructor
  · rintro ⟨⟨⟨hdecl, -⟩, rfl⟩, hcalls, hreturns⟩
    exact ⟨⟨hdecl, hcalls, hreturns⟩, rfl⟩
  · rintro ⟨⟨hdecl, hcalls, hreturns⟩, rfl⟩
    exact ⟨⟨⟨hdecl, by simp⟩, rfl⟩, hcalls, hreturns⟩

instance : Decidable (p.WellBound known) :=
  decidable_of_iff ((p.bind known).toBool = true) (by
    cases h : p.bind known with
    | ok f => simpa [Except.toBool] using (bind_eq_ok_iff.mp h).1
    | error e =>
      refine ⟨nofun, fun hp => ?_⟩
      rw [bind_eq_ok_iff.mpr ⟨hp, rfl⟩] at h
      cases h)

end Program

namespace Session

/-- A declared function, called with one argument too few in the index of a target. -/
def miscalled : Program :=
  ⟨[⟨"Half", ["x"], [.giveBack (.name "x" 0) 0], 0⟩],
    [.letBe "l" (.list [] 0) 0,
      .repeatTimes (.number (.ofNat 1) 0)
        [.setTo (.element "l" (.call "half" [] 0) 0) (.truth true 0) 0] 0]⟩

end Session
end Parlance
