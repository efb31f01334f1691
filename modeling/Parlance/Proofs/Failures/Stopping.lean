import Parlance.Proofs.Run.Confined
import Parlance.Proofs.Run.Ends
import Parlance.Proofs.Run.Tracing
/-!
# Where runs stop

Every fault that belongs to a node is reported at a node of what is being run: of the statements, or
of the body of a function that their calls lead to (`statements_stops`). Statements stop at places of
their own if the calls in them do (`execAll_stops`), and nothing else can bring in a place.
-/
namespace Parlance

/-- The fault is reported at the node where it arises. -/
def Fault.OfNode : Fault → Prop
  | .tooDeep | .breakdown _ | .timedOut _ => False
  | _ => True

/-- A fault that is reported at a node is reported at one of the places. -/
def Stop.At (places : Nat → Prop) : Stop → Prop
  | .fault f offset => f.OfNode → places offset
  | .returned _ | .exhausted | .waiting _ => True

/-- The offsets of the nodes. -/
def Placed (nodes : List Node) (offset : Nat) : Prop := ∃ n ∈ nodes, n.offset? = some offset

theorem Fault.OfNode.place_eq {fault : Fault} (h : fault.OfNode) (offset : Nat) :
    fault.place offset = offset := by
  cases fault with
  | tooDeep | breakdown | timedOut => cases h
  | undefined | notList | outOfRange | argumentCount | unknownFunction | unboundedRange | readFailed
  | writeFailed | halted => rfl

namespace Run

/-- The run stops at some of the places only. -/
def Stops {α : Type} (places : Nat → Prop) (x : Run α) : Prop :=
  ∀ s e, (x s).1 = .error e → e.At places

/-- Nodes stop where they stand, and the trace of a call fails at no node. -/
theorem permits_at (places : Nat → Prop) : Permits places (Stop.At places) where
  node h _ hnode := (hnode.place_eq _).symm ▸ h
  shown h hnode := by
    obtain ⟨rfl, -⟩ := textsOf_eq_error h
    cases hnode
  exhausted := trivial
  waiting _ := trivial

/-- The functions that the calls are of stop at some of the places only. -/
def InvokesAt (places : Nat → Prop) (c : Context) (i : Invoke) (sites : List CallSite) : Prop :=
  ∀ site ∈ sites, ∀ key d, c.functions.Names site.name key d → ∀ args, Stops places (i d args)

variable {places : Nat → Prop} {c : Context} {i : Invoke}

theorem call_stops {sites : List CallSite} (hi : InvokesAt places c i sites) {site : CallSite}
    (hsite : site ∈ sites) {args : List Value} {offset : Nat} (h : places offset) :
    Stops places (call c i site.name args offset) := by
  unfold call
  cases hb : Builtin.find? site.name with
  | some b => exact Confined.checked (fun _ _ => h) fun hcount => .builtin (permits_at _) hcount h
  | none =>
    cases hd : c.functions.get? (Text.lower site.name) with
    | none => exact Confined.stop fun _ => h
    | some d => exact Confined.checked (fun _ _ => h) fun _ => hi site hsite _ d ⟨hb, rfl, hd⟩ args

/-- Statements stop at their nodes or in the functions that they call. -/
theorem execAll_stops {ss : List Stmt} (h : NodesAt places (Stmt.allNodes ss))
    (hi : InvokesAt places c i (Stmt.callsAll ss)) : Stops places (Stmt.execAll c i ss) := by
  refine Stmt.execAll_confined (permits_at places) ss h ?_ fun _ _ => trivial
  intro site hsite args _ offset hplace
  exact call_stops hi hsite hplace

end Run

/-! ### Calls inside one another -/

/-- The offsets of the nodes of a program's statements, and of the bodies of the functions that its
calls lead to. -/
def FunctionTable.PlacedIn (f : FunctionTable) (p : Program) (offset : Nat) : Prop :=
  Placed (Stmt.allNodes p.statements) offset ∨
    ∃ key d, f.Reached (Stmt.callsAll p.statements) key ∧ f.get? key = some d ∧
      Placed (Stmt.allNodes d.body) offset

theorem placed_nodesAt {nodes : List Node} {places : Nat → Prop}
    (h : ∀ offset, Placed nodes offset → places offset) : NodesAt places nodes :=
  fun n hn offset hoffset => h offset ⟨n, hn, hoffset⟩

namespace Run

theorem invoke_stops (c : Context) (p : Program) (depth : Nat) {key : String} {d : Declaration}
    (hkey : c.functions.Reached (Stmt.callsAll p.statements) key)
    (hd : c.functions.get? key = some d) (args : List Value) :
    Stops (c.functions.PlacedIn p) (invoke c depth d args) := by
  induction depth generalizing key d args with
  | zero => exact Confined.stop nofun
  | succ depth ih =>
    refine Confined.within (Confined.catchReturn (execAll_stops ?_ ?_) fun _ he _ => he)
    · exact placed_nodesAt fun offset h => .inr ⟨key, d, hkey, hd, h⟩
    · intro site hsite other e he args
      exact ih (hkey.next ⟨d, hd, site, hsite, e, he⟩) he.entry args

/-- The statements of a program stop at nodes of their own or of functions that their calls lead
to. -/
theorem statements_stops (c : Context) (depth : Nat) (p : Program) :
    Stops (c.functions.PlacedIn p) (statements c depth p) := by
  refine execAll_stops (placed_nodesAt fun _ h => .inl h) ?_
  intro site hsite key d hd args
  exact invoke_stops c p depth ⟨key, ⟨site, hsite, d, hd⟩, .refl⟩ hd.entry args

end Run
end Parlance
