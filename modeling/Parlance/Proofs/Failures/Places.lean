import Parlance.Proofs.Joining.Programs
import Parlance.Proofs.Lexing.Origins
import Parlance.Syntax.Node
/-!
# Where nodes stand

Every node of a program is at the offset of one of the program's tokens (`Program.node_at_token`):
tokens at other offsets give the same nodes at other offsets, so an offset of a node that were none
of a token could be moved away from where it is. Hence a node of a program that is read from a
source is inside this source (`Source.node_inside`).
-/
namespace Parlance

/-- The node at another offset, with all nodes in it. -/
def Node.moved (φ : Nat → Nat) : Node → Node
  | .expr e => .expr (e.moved φ)
  | .stmt s => .stmt (s.moved φ)
  | .declaration d => .declaration (d.moved φ)
  | .program p => .program (p.moved φ)

theorem Node.offset?_moved (φ : Nat → Nat) (n : Node) : (n.moved φ).offset? = n.offset?.map φ := by
  cases n with
  | expr e => simp [Node.moved, Node.offset?]
  | stmt s => simp [Node.moved, Node.offset?]
  | declaration d => rfl
  | program p => rfl

section Moved

variable (φ : Nat → Nat)

mutual

theorem Expr.nodes_moved : (e : Expr) → (e.moved φ).nodes = e.nodes.map (Node.moved φ)
  | .number .. | .text .. | .truth .. | .name .. => rfl
  | .unary _ x _ => by
    simp only [Expr.moved, Expr.nodes, Expr.nodes_moved x, List.map_cons, Node.moved]
  | .binary _ l r _ => by
    simp only [Expr.moved, Expr.nodes, Expr.nodes_moved l, Expr.nodes_moved r, List.map_cons,
      List.map_append, Node.moved]
  | .call _ args _ => by
    simp only [Expr.moved, Expr.nodes, Expr.allNodes_moved args, List.map_cons, Node.moved]
  | .index t i _ => by
    simp only [Expr.moved, Expr.nodes, Expr.nodes_moved t, Expr.nodes_moved i, List.map_cons,
      List.map_append, Node.moved]
  | .list items _ => by
    simp only [Expr.moved, Expr.nodes, Expr.allNodes_moved items, List.map_cons, Node.moved]

theorem Expr.allNodes_moved : (es : List Expr) →
    Expr.allNodes (Expr.movedAll φ es) = (Expr.allNodes es).map (Node.moved φ)
  | [] => rfl
  | e :: es => by
    simp only [Expr.movedAll, Expr.allNodes, Expr.nodes_moved e, Expr.allNodes_moved es,
      List.map_append]

end

theorem Target.nodes_moved (t : Target) : (t.moved φ).nodes = t.nodes.map (Node.moved φ) := by
  rw [Target.nodes, Target.moved_toExpr, Expr.nodes_moved, Target.nodes]

mutual

theorem Stmt.nodes_moved : (s : Stmt) → (s.moved φ).nodes = s.nodes.map (Node.moved φ)
  | .letBe _ v _ | .say v _ | .append v _ _ | .remove v _ _ | .giveBack v _ | .evaluate v _ => by
    simp only [Stmt.moved, Stmt.nodes, Expr.nodes_moved φ v, List.map_cons, Node.moved]
  | .setTo t v _ => by
    simp only [Stmt.moved, Stmt.nodes, Target.nodes_moved φ t, Expr.nodes_moved φ v, List.map_cons,
      List.map_append, Node.moved]
  | .ifThen c a b _ => by
    simp only [Stmt.moved, Stmt.nodes, Expr.nodes_moved φ c, Stmt.allNodes_moved a,
      Stmt.allNodes_moved b, List.map_cons, List.map_append, Node.moved]
  | .whileDo c b _ | .repeatTimes c b _ | .forEach _ c b _ => by
    simp only [Stmt.moved, Stmt.nodes, Expr.nodes_moved φ c, Stmt.allNodes_moved b, List.map_cons,
      List.map_append, Node.moved]

theorem Stmt.allNodes_moved : (ss : List Stmt) →
    Stmt.allNodes (Stmt.movedAll φ ss) = (Stmt.allNodes ss).map (Node.moved φ)
  | [] => rfl
  | s :: ss => by
    simp only [Stmt.movedAll, Stmt.allNodes, Stmt.nodes_moved s, Stmt.allNodes_moved ss,
      List.map_append]

end

theorem Declaration.nodes_moved (d : Declaration) :
    (d.moved φ).nodes = d.nodes.map (Node.moved φ) := by
  simp only [Declaration.nodes, Declaration.moved, Stmt.allNodes_moved, List.map_cons, Node.moved]

theorem Program.nodes_moved (p : Program) : (p.moved φ).nodes = p.nodes.map (Node.moved φ) := by
  simp only [Program.nodes, Program.moved, Stmt.allNodes_moved, List.map_cons, List.map_append,
    List.flatMap_map, List.map_flatMap, Declaration.nodes_moved, Node.moved]

end Moved

variable {limit : Nat} {ts : List Token} {p : Program}

/-- The program of the tokens at other offsets. -/
theorem Program.parse_moved (h : Program.parse limit ts = .ok p) (φ : Nat → Nat) :
    Program.parse limit (ts.map (Token.moved φ)) = .ok (p.moved φ) := by
  have hnone : Program.parse limit [] = .ok ⟨[], []⟩ := rfl
  exact Parse.parse_append hnone h φ

/-- Every node of a program is at the offset of a token. -/
theorem Program.node_at_token (h : Program.parse limit ts = .ok p) {n : Node} (hn : n ∈ p.nodes)
    {offset : Nat} (ho : n.offset? = some offset) : ∃ t ∈ ts, t.offset = offset := by
  by_contra hnone
  push Not at hnone
  -- moves what stands at the offset, which no token does
  let φ : Nat → Nat := fun o => if o = offset then offset + 1 else o
  have htokens : ts.map (Token.moved φ) = ts := by
    conv_rhs => rw [← List.map_id ts]
    exact List.map_congr_left fun t ht => by simp [Token.moved, φ, hnone t ht]
  have hmoved := Program.parse_moved h φ
  rw [htokens, h] at hmoved
  have hsame : p.nodes = p.nodes.map (Node.moved φ) :=
    (congrArg Program.nodes (Except.ok.inj hmoved)).trans (Program.nodes_moved φ p)
  have hoffsets : p.nodes.map Node.offset? = p.nodes.map fun m => m.offset?.map φ := by
    conv_lhs => rw [hsame, List.map_map]
    exact List.map_congr_left fun m _ => m.offset?_moved φ
  have hkept := List.map_inj_left.mp hoffsets n hn
  simp [ho, φ] at hkept

/-- A token of a source is inside it. -/
theorem Source.offset_lt {source : List Char} (h : Source.tokens source = .ok ts) {t : Token}
    (ht : t ∈ ts) : t.offset < source.length := by
  obtain ⟨xs, hdivides, rfl⟩ := divides_of_scanAll (Source.tokens_eq_ok.mp h)
  obtain ⟨before, x, behind, hin⟩ := hdivides.standsIn ht
  exact ((laid_ofSource source).faithful hin).1

/-- A node of a program that is read from a source is inside the source. -/
theorem Source.node_inside {source : List Char} (h : Source.program limit source = .ok p)
    {n : Node} (hn : n ∈ p.nodes) {offset : Nat} (ho : n.offset? = some offset) :
    offset < source.length := by
  obtain ⟨ts, htokens, hparse⟩ := Source.exists_tokens h
  obtain ⟨t, ht, rfl⟩ := Program.node_at_token hparse hn ho
  exact Source.offset_lt htokens ht

/-- The program of a source is that of its tokens. -/
theorem Source.program_of_tokens {source : List Char} (h : Source.tokens source = .ok ts)
    (limit : Nat) : Source.program limit source = match Program.parse limit ts with
      | .ok p => .ok p
      | .error fault => .error (.parse fault source.length) := by
  rw [Source.program, h]
  rfl

/-- No run is behind the failure to read a source. -/
theorem Source.program_ne_run {source : List Char} (fault : Fault) (offset : Nat) :
    Source.program limit source ≠ .error (.run fault offset) := by
  intro h
  cases htokens : Source.tokens source with
  | error failure =>
    rw [Source.program, htokens] at h
    cases h
    unfold Source.tokens at htokens
    split at htokens <;> cases htokens
  | ok ts =>
    rw [Source.program_of_tokens htokens] at h
    cases hparse : Program.parse limit ts with
    | error refusal =>
      rw [hparse] at h
      cases h
    | ok p =>
      rw [hparse] at h
      cases h

end Parlance
