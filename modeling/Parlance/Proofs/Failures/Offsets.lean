import Parlance.Proofs.Failures.Places
import Parlance.Proofs.Lexing.OriginMap
/-!
# Offsets of the front end

What the front end answers is at tokens of the source. Every node of a program is at a token, and no
node is in front of the one that it is a part of (`Ordered`): tokens stand in the order of their
offsets, and a rule of the grammar gives a node the offset of its first token, or that of its left
operand. A source that is refused is refused at a character or a phrase, at a token or the end, or at
a node (`Source.offsets_at_tokens`).
-/
namespace Parlance
open Parse Grammar

/-- A node and the nodes in it. -/
def Node.nodes : Node → List Node
  | expr e => e.nodes
  | stmt s => s.nodes
  | declaration d => d.nodes
  | program p => p.nodes

/-- Tokens in the order of their offsets. -/
def Rising (ts : List Token) : Prop := ts.Pairwise fun t u => t.offset < u.offset

/-- Nodes at the offsets of tokens, and none in front of a node that it is in. -/
structure Ordered (ts : List Token) (ns : List Node) : Prop where
  placed : ∀ n ∈ ns, ∀ o, n.offset? = some o → ∃ t ∈ ts, t.offset = o
  inside : ∀ n ∈ ns, ∀ m ∈ n.nodes, ∀ o k, n.offset? = some o → m.offset? = some k → o ≤ k

/-- From tokens in order the nodes of a tree are ordered. -/
def InOrder {α : Type} (nodes : α → List Node) : Rule α := fun ts a =>
  Rising ts → Ordered ts (nodes a)

theorem Expr.mem_nodes (e : Expr) : .expr e ∈ e.nodes := by cases e <;> exact List.mem_cons_self

theorem Expr.allNodes_eq_flatMap (es : List Expr) : allNodes es = es.flatMap nodes := by
  induction es with
  | nil => rfl
  | cons e es ih => rw [allNodes, ih, List.flatMap_cons]

theorem Stmt.allNodes_eq_flatMap (ss : List Stmt) : allNodes ss = ss.flatMap nodes := by
  induction ss with
  | nil => rfl
  | cons s ss ih => rw [allNodes, ih, List.flatMap_cons]

section Ordered

variable {ts us : List Token} {ns ms : List Node} {n : Node} {t : Token} {o : Nat}

theorem Rising.head_le (h : Rising (t :: ts)) {u : Token} (hu : u ∈ t :: ts) :
    t.offset ≤ u.offset := by
  rcases List.mem_cons.mp hu with rfl | hu
  · exact Nat.le_refl _
  · exact Nat.le_of_lt ((List.pairwise_cons.mp h).1 u hu)

namespace Ordered

theorem nil (ts : List Token) : Ordered ts [] := ⟨nofun, nofun⟩

theorem mono (h : Ordered ts ns) (hs : ts ⊆ us) : Ordered us ns := by
  refine ⟨fun n hn o ho => ?_, h.inside⟩
  obtain ⟨t, ht, hto⟩ := h.placed n hn o ho
  exact ⟨t, hs ht, hto⟩

theorem append (h : Ordered ts ns) (h' : Ordered ts ms) : Ordered ts (ns ++ ms) := by
  constructor
  · intro n hn
    rcases List.mem_append.mp hn with hn | hn
    · exact h.placed n hn
    · exact h'.placed n hn
  · intro n hn
    rcases List.mem_append.mp hn with hn | hn
    · exact h.inside n hn
    · exact h'.inside n hn

theorem sub (h : Ordered ts ns) (hs : ms ⊆ ns) : Ordered ts ms :=
  ⟨fun n hn => h.placed n (hs hn), fun n hn => h.inside n (hs hn)⟩

/-- A node over others, at a token that is behind none of them. -/
theorem root (h : Ordered ts ns) (hnodes : n.nodes = n :: ns) (ho : n.offset? = some o)
    (htoken : ∃ t ∈ ts, t.offset = o)
    (hfirst : ∀ m ∈ ns, ∀ k, m.offset? = some k → o ≤ k) : Ordered ts (n :: ns) := by
  constructor
  · rintro m hm k hk
    rcases List.mem_cons.mp hm with rfl | hm
    · rw [ho, Option.some.injEq] at hk
      rwa [← hk]
    · exact h.placed m hm k hk
  · intro m hm x hx i k hi hk
    rcases List.mem_cons.mp hm with rfl | hm
    · rw [ho, Option.some.injEq] at hi
      subst hi
      rw [hnodes] at hx
      rcases List.mem_cons.mp hx with rfl | hx
      · rw [ho, Option.some.injEq] at hk
        exact Nat.le_of_eq hk
      · exact hfirst x hx k hk
    · exact h.inside m hm x hx i k hi hk

/-- A node at the first token. -/
theorem headed (h : Ordered (t :: ts) ns) (hts : Rising (t :: ts)) (hnodes : n.nodes = n :: ns)
    (ho : n.offset? = some t.offset) : Ordered (t :: ts) (n :: ns) := by
  refine h.root hnodes ho ⟨t, List.mem_cons_self, rfl⟩ fun m hm k hk => ?_
  obtain ⟨u, hu, rfl⟩ := h.placed m hm k hk
  exact hts.head_le hu

/-- A node at the place of its left operand. -/
theorem joined {l : Expr} (hts : Rising (ts ++ us)) (hl : Ordered ts l.nodes)
    (hr : Ordered us ns) (hnodes : n.nodes = n :: (l.nodes ++ ns))
    (ho : n.offset? = some l.offset) : Ordered (ts ++ us) (n :: (l.nodes ++ ns)) := by
  obtain ⟨t, ht, htl⟩ := hl.placed _ l.mem_nodes _ rfl
  have hleft := hl.mono (List.subset_append_left ts us)
  have hright := hr.mono (List.subset_append_right ts us)
  refine (hleft.append hright).root hnodes ho ⟨t, List.mem_append_left us ht, htl⟩ ?_
  intro m hm k hk
  rcases List.mem_append.mp hm with hm | hm
  · exact hl.inside _ l.mem_nodes m hm _ _ rfl hk
  · obtain ⟨u, hu, rfl⟩ := hr.placed m hm k hk
    rw [← htl]
    exact Nat.le_of_lt ((List.pairwise_append.mp hts).2.2 t ht u hu)

end Ordered

end Ordered

/-! ### Rules of the grammar -/

namespace Grammar

section Lists

variable {α : Type} {nodes : α → List Node} {item : Rule α} {ts : List Token} {as : List α}

/-- What is kept of tokens is kept of a part of them. -/
theorem inOrder_part {a : α} (h : InOrder nodes ts a) {us : List Token} (hs : ts.Sublist us)
    (hus : Rising us) : Ordered us (nodes a) :=
  (h (List.Pairwise.sublist hs hus)).mono hs.subset

theorem many_inOrder (h : Many item ts as) (hitem : ∀ ts a, item ts a → InOrder nodes ts a) :
    InOrder (List.flatMap nodes) ts as := by
  induction h with
  | nil => exact fun _ => .nil []
  | @cons ts rest a as ha _ ih =>
    intro hrising
    rw [List.flatMap_cons]
    exact (inOrder_part (hitem _ _ ha) (List.sublist_append_left ts rest) hrising).append
      (inOrder_part ih (List.sublist_append_right ts rest) hrising)

theorem items_inOrder (h : Items item ts as) (hitem : ∀ ts a, item ts a → InOrder nodes ts a) :
    InOrder (List.flatMap nodes) ts as := by
  cases h with
  | none => exact fun _ => .nil []
  | @some ts rest a as ha hrest =>
    have hfurther : ∀ ts a, Further item ts a → InOrder nodes ts a := by
      rintro _ _ ⟨_, ha⟩ hrising
      exact inOrder_part (hitem _ _ ha) (List.sublist_cons_self _ _) hrising
    intro hrising
    rw [List.flatMap_cons]
    exact (inOrder_part (hitem _ _ ha) (List.sublist_append_left ts rest) hrising).append
      (inOrder_part (many_inOrder hrest hfurther) (List.sublist_append_right ts rest) hrising)

end Lists

variable {ts : List Token}

theorem level_inOrder {n : Nat} {e : Expr} (h : Level (InOrder Expr.nodes) n ts e) :
    InOrder Expr.nodes ts e := by
  induction h with
  | operand h => exact h
  | tighter _ _ ih => exact ih
  | @binary n op t ls rs l r _ _ _ _ ihl ihr =>
    intro hrising
    have hl := List.Pairwise.sublist (List.sublist_append_left ls (t :: rs)) hrising
    have hr := List.Pairwise.sublist (List.sublist_append_right ls (t :: rs)) hrising
    exact .joined hrising (ihl hl) (inOrder_part ihr (List.sublist_cons_self t rs) hr) rfl rfl

theorem primary_inOrder {e : Expr} (h : Primary (Level (InOrder Expr.nodes) 1) ts e) :
    InOrder Expr.nodes ts e := by
  intro hrising
  cases h with
  | number | text | yes | no | name => exact (Ordered.nil _).headed hrising rfl rfl
  | call _ _ hargs _ =>
    have hparts := items_inOrder hargs fun _ _ => level_inOrder
    rw [← funext Expr.allNodes_eq_flatMap] at hparts
    exact (inOrder_part hparts (by grind) hrising).headed hrising rfl rfl
  | list _ hitems _ =>
    have hparts := items_inOrder hitems fun _ _ => level_inOrder
    rw [← funext Expr.allNodes_eq_flatMap] at hparts
    exact (inOrder_part hparts (by grind) hrising).headed hrising rfl rfl
  | parens _ he _ => exact inOrder_part (level_inOrder he) (by grind) hrising

theorem indexed_inOrder {e : Expr} (h : Indexed (Level (InOrder Expr.nodes) 1) ts e) :
    InOrder Expr.nodes ts e := by
  induction h with
  | primary h => exact primary_inOrder h
  | @index ts is e i o c _ _ hi _ ih =>
    intro hrising
    rw [List.append_assoc] at hrising ⊢
    have hleft := List.Pairwise.sublist (List.sublist_append_left ts _) hrising
    have hright := List.Pairwise.sublist (List.sublist_append_right ts _) hrising
    exact .joined hrising (ih hleft) (inOrder_part (level_inOrder hi) (by grind) hright) rfl rfl

theorem expression_inOrder {e : Expr} (h : Expression ts e) : InOrder Expr.nodes ts e := by
  refine level_inOrder (level_mono (fun ts e ho => ?_) h)
  refine operand_induction (P := InOrder Expr.nodes) (fun _ hx hrising => ?_) indexed_inOrder ho
  exact (inOrder_part hx (List.sublist_cons_self _ _) hrising).headed hrising rfl rfl

theorem assignable_inOrder {g : Target} (h : Assignable ts g) : InOrder Target.nodes ts g := by
  intro hrising
  cases h with
  | name => exact (Ordered.nil _).headed hrising rfl rfl
  | @element t o c ts i _ _ hi _ =>
    have hname : Ordered (t :: o :: ts ++ [c]) [.expr (.name t.text t.offset)] :=
      (Ordered.nil _).headed hrising rfl rfl
    have hpart : ts.Sublist (t :: o :: ts ++ [c]) := by grind
    have hindex := inOrder_part (expression_inOrder hi) hpart hrising
    exact (hname.append hindex).headed hrising rfl rfl

theorem block_inOrder {S : Rule Stmt} {ss : List Stmt} (h : Many S ts ss)
    (hS : ∀ ts s, S ts s → InOrder Stmt.nodes ts s) : InOrder Stmt.allNodes ts ss := by
  rw [funext Stmt.allNodes_eq_flatMap]
  exact many_inOrder h hS

theorem otherwise_inOrder {ss : List Stmt} (h : Otherwise (InOrder Stmt.nodes) ts ss) :
    InOrder Stmt.allNodes ts ss := by
  cases h with
  | absent => exact fun _ => .nil []
  | present _ _ hb =>
    intro hrising
    exact inOrder_part (block_inOrder hb fun _ _ => id) (by grind) hrising

/-- An increase or decrease has two nodes at its keyword, one in the other. -/
theorem adjusted_inOrder {k : Token} {us : List Token} {op : BinaryOp} {g : Target} {v : Expr}
    (hrising : Rising (k :: us)) (hg : Ordered (k :: us) g.nodes)
    (hv : Ordered (k :: us) v.nodes) : Ordered (k :: us)
      (Stmt.nodes (.setTo g (.binary op g.toExpr v k.offset) k.offset)) := by
  have hvalue : Ordered (k :: us) (Expr.nodes (.binary op g.toExpr v k.offset)) :=
    (hg.append hv).headed hrising rfl rfl
  exact (hg.append hvalue).headed hrising rfl rfl

theorem opened_inOrder {k : Keyword} {s : Stmt} (h : Opened (InOrder Stmt.nodes) k ts s) :
    InOrder Stmt.nodes ts s := by
  intro hrising
  cases h with
  | letBe _ _ _ hv _ | say _ hv _ | append _ hv _ _ _ | remove _ hv _ _ _ | giveBack _ hv _ =>
    exact (inOrder_part (expression_inOrder hv) (by grind) hrising).headed hrising rfl rfl
  | setTo _ hg _ hv _ =>
    have htarget := inOrder_part (assignable_inOrder hg) (by grind) hrising
    have hvalue := inOrder_part (expression_inOrder hv) (by grind) hrising
    exact (htarget.append hvalue).headed hrising rfl rfl
  | increase _ hg _ hv _ | decrease _ hg _ hv _ =>
    have htarget := inOrder_part (assignable_inOrder hg) (by grind) hrising
    have hamount := inOrder_part (expression_inOrder hv) (by grind) hrising
    exact adjusted_inOrder hrising htarget hamount
  | ifThen _ hc _ _ _ ha hb _ =>
    have hcondition := inOrder_part (expression_inOrder hc) (by grind) hrising
    have hthen := inOrder_part (block_inOrder ha fun _ _ => id) (by grind) hrising
    have helse := inOrder_part (otherwise_inOrder hb) (by grind) hrising
    exact ((hcondition.append hthen).append helse).headed hrising rfl rfl
  | whileDo _ hc _ _ _ hb _ | repeatTimes _ hc _ _ hb _ | forEach _ _ _ _ hc _ hb _ =>
    have hhead := inOrder_part (expression_inOrder hc) (by grind) hrising
    have hbody := inOrder_part (block_inOrder hb fun _ _ => id) (by grind) hrising
    exact (hhead.append hbody).headed hrising rfl rfl

theorem statement_inOrder {s : Stmt} (h : Statement ts s) : InOrder Stmt.nodes ts s := by
  refine statement_induction (P := InOrder Stmt.nodes) opened_inOrder (fun hv _ hrising => ?_) h
  exact (inOrder_part (expression_inOrder hv) (by grind) hrising).headed hrising rfl rfl

theorem function_inOrder {d : Declaration} (h : Function ts d) : InOrder Declaration.nodes ts d := by
  intro hrising
  cases h with
  | intro _ _ _ _ _ _ hb _ _ =>
    have hbody := inOrder_part (block_inOrder hb fun _ _ => statement_inOrder) (by grind) hrising
    exact hbody.headed hrising rfl rfl

/-- The program itself has no offset. -/
theorem source_inOrder {p : Program} (h : Grammar.Source ts p) : InOrder Program.nodes ts p := by
  have hparts : InOrder (fun p : Program =>
      p.functions.flatMap Declaration.nodes ++ Stmt.allNodes p.statements) ts p := by
    induction h with
    | nil => exact fun _ => .nil []
    | @function ts rest d p hd _ ih =>
      intro hrising
      have hfirst := inOrder_part (function_inOrder hd) (List.sublist_append_left ts rest) hrising
      have hlater := inOrder_part ih (List.sublist_append_right ts rest) hrising
      refine (hfirst.append hlater).sub fun n hn => ?_
      simp only [List.flatMap_cons, List.mem_append] at hn ⊢
      tauto
    | @statement ts rest s p hs _ ih =>
      intro hrising
      have hfirst := inOrder_part (statement_inOrder hs) (List.sublist_append_left ts rest) hrising
      have hlater := inOrder_part ih (List.sublist_append_right ts rest) hrising
      refine (hfirst.append hlater).sub fun n hn => ?_
      simp only [Stmt.allNodes, List.mem_append] at hn ⊢
      tauto
  intro hrising
  have hordered := hparts hrising
  constructor
  · intro n hn o ho
    rcases List.mem_cons.mp hn with rfl | hn
    · cases ho
    · exact hordered.placed n hn o ho
  · intro n hn m hm o k ho hk
    rcases List.mem_cons.mp hn with rfl | hn
    · cases ho
    · exact hordered.inside n hn m hm o k ho hk

end Grammar

/-! ### Trees that are read -/

section Read

variable {limit : Nat} {ts : List Token}

/-- A limit that is too small for the grammar to tell can be raised. -/
theorem Program.ordered {p : Program} (h : Program.parse limit ts = .ok p) (hts : Rising ts) :
    Ordered ts p.nodes := by
  have hlarger := parse_of_le (Nat.le_add_right limit (ts.length + 1)) h
  exact source_inOrder (source_of_parse (by omega) hlarger) hts

theorem Expr.ordered {e : Expr} (h : Expr.parse limit ts = .ok e) (hts : Rising ts) :
    Ordered ts e.nodes := by
  obtain ⟨⟨e', rest⟩, hread, h⟩ := except_bind_eq_ok.mp h
  cases rest with
  | cons t rest => cases h
  | nil =>
    cases h
    have hle := Nat.le_add_right limit (ts.length + 1)
    have hcarries : Carries id [] (Expr.moved id) (expression limit)
        (expression (limit + (ts.length + 1))) := expression_carries hle
    have hlarger := (hcarries ts e [] hread).2 (.inr rfl)
    rw [placed_id, List.append_nil, Expr.moved_id] at hlarger
    obtain ⟨xs, rfl, hrule, -⟩ := (expression_reads _).sound (by omega) hlarger
    rw [placed_id, List.append_nil, List.append_nil] at *
    exact expression_inOrder hrule hts

end Read

/-! ### Binding -/

namespace Binding

variable {α β : Type} {ns ms : List Node} {table : FunctionTable}

/-- A check that fails does so at one of the nodes. -/
def FailsAt (ns : List Node) (check : Check α) : Prop := ∀ fault o, check = .error (fault, o) →
  ∃ n ∈ ns, n.offset? = some o

namespace FailsAt

theorem ok (a : α) : FailsAt ns (.ok a) := nofun

theorem mono {check : Check α} (h : FailsAt ns check) (hs : ns ⊆ ms) : FailsAt ms check := by
  intro fault o hfails
  obtain ⟨n, hn, ho⟩ := h fault o hfails
  exact ⟨n, hs hn, ho⟩

theorem bind {check : Check α} {f : α → Check β} (h : FailsAt ns check)
    (hf : ∀ a, FailsAt ns (f a)) : FailsAt ns (check >>= f) := by
  intro fault o hfails
  cases check with
  | ok a => exact hf a fault o hfails
  | error e =>
    cases hfails
    exact h fault o rfl

end FailsAt

theorem checkCall_fails (name : String) (args : List Expr) (o : Nat) (ms : List Node) :
    FailsAt (.expr (.call name args o) :: ms) (checkCall table name args.length o) := by
  intro fault k hfails
  refine ⟨_, List.mem_cons_self, ?_⟩
  unfold checkCall at hfails
  split at hfails
  · cases hfails
    rfl
  · split at hfails
    · cases hfails
    · cases hfails
      rfl

mutual

theorem checkExpr_fails : (e : Expr) → FailsAt e.nodes (checkExpr table e)
  | .unary _ x _ => (checkExpr_fails x).mono (List.subset_cons_self _ _)
  | .binary _ l r _ => by
    refine ((checkExpr_fails l).mono ?_).bind fun _ => (checkExpr_fails r).mono ?_
    all_goals simp [Expr.nodes]
  | .call f args o =>
    (checkCall_fails f args o _).bind fun _ =>
      (checkExprs_fails args).mono (List.subset_cons_self _ _)
  | .index t i _ => by
    refine ((checkExpr_fails t).mono ?_).bind fun _ => (checkExpr_fails i).mono ?_
    all_goals simp [Expr.nodes]
  | .list items _ => (checkExprs_fails items).mono (List.subset_cons_self _ _)
  | .number .. | .text .. | .truth .. | .name .. => .ok ()

theorem checkExprs_fails : (es : List Expr) → FailsAt (Expr.allNodes es) (checkExprs table es)
  | [] => .ok ()
  | e :: es =>
    ((checkExpr_fails e).mono (List.subset_append_left _ _)).bind fun _ =>
      (checkExprs_fails es).mono (List.subset_append_right _ _)

end

theorem checkTarget_fails (t : Target) : FailsAt t.nodes (checkTarget table t) := by
  cases t with
  | name => exact .ok ()
  | element list i o =>
    refine (checkExpr_fails i).mono ?_
    simp [Target.nodes, Target.toExpr, Expr.nodes]

mutual

theorem checkStmt_fails (inFunction : Bool) : (s : Stmt) →
    FailsAt s.nodes (checkStmt table inFunction s)
  | .letBe _ v _ | .say v _ | .append v _ _ | .remove v _ _ | .evaluate v _ =>
    (checkExpr_fails v).mono (List.subset_cons_self _ _)
  | .setTo t v _ => by
    refine ((checkTarget_fails t).mono ?_).bind fun _ => (checkExpr_fails v).mono ?_
    all_goals simp [Stmt.nodes]
  | .ifThen c a b _ => by
    refine ((checkExpr_fails c).mono ?_).bind fun _ =>
      ((checkBlock_fails inFunction a).mono ?_).bind fun _ =>
        (checkBlock_fails inFunction b).mono ?_
    all_goals
      intro n hn
      simp [Stmt.nodes, hn]
  | .whileDo c b _ | .repeatTimes c b _ | .forEach _ c b _ => by
    refine ((checkExpr_fails c).mono ?_).bind fun _ => (checkBlock_fails inFunction b).mono ?_
    all_goals simp [Stmt.nodes]
  | .giveBack v o => by
    intro fault k hfails
    rw [checkStmt] at hfails
    split at hfails
    · exact (checkExpr_fails v).mono (List.subset_cons_self _ _) fault k hfails
    · cases hfails
      exact ⟨_, List.mem_cons_self, rfl⟩

theorem checkBlock_fails (inFunction : Bool) : (ss : List Stmt) →
    FailsAt (Stmt.allNodes ss) (checkBlock table inFunction ss)
  | [] => .ok ()
  | s :: ss =>
    ((checkStmt_fails inFunction s).mono (List.subset_append_left _ _)).bind fun _ =>
      (checkBlock_fails inFunction ss).mono (List.subset_append_right _ _)

end

theorem declare_fails (declared : List String) (ds : List Declaration) :
    FailsAt (ds.flatMap Declaration.nodes) (declare declared table ds) := by
  induction ds generalizing declared table with
  | nil => exact .ok table
  | cons d ds ih =>
    have hown : ∀ fault, FailsAt ((d :: ds).flatMap Declaration.nodes)
        (.error (fault, d.offset) : Check FunctionTable) := by
      rintro fault _ _ ⟨⟩
      exact ⟨.declaration d, by simp [Declaration.nodes], rfl⟩
    rw [declare]
    split
    · exact hown _
    · split
      · exact hown _
      · split
        · exact hown _
        · refine (ih _).mono ?_
          rw [List.flatMap_cons]
          exact List.subset_append_right _ _

theorem checkBodies_fails (ds : List Declaration) :
    FailsAt (ds.flatMap Declaration.nodes) (checkBodies table ds) := by
  induction ds with
  | nil => exact .ok ()
  | cons d ds ih =>
    refine ((checkBlock_fails true d.body).mono ?_).bind fun _ => ih.mono ?_
    all_goals simp [Declaration.nodes]

theorem bind_fails (known : FunctionTable) (p : Program) :
    FailsAt p.nodes (p.bind known) := by
  have hfunctions : p.functions.flatMap Declaration.nodes ⊆ p.nodes := by
    simp [Program.nodes]
  have hstatements : Stmt.allNodes p.statements ⊆ p.nodes := by simp [Program.nodes]
  refine ((declare_fails [] p.functions).mono hfunctions).bind fun table => ?_
  refine ((checkBodies_fails p.functions).mono hfunctions).bind fun _ => ?_
  exact ((checkBlock_fails false p.statements).mono hstatements).bind fun _ => .ok table

end Binding

/-! ### Sources -/

/-- The offsets of the tokens of a source, the end of which counts as a token. -/
def tokenOffsets (source : List Char) (ts : List Token) : List Nat :=
  ts.map Token.offset ++ [source.length]

section Sources

variable {source : List Char} {ts : List Token} {limit : Nat}

theorem Source.rising (h : Source.tokens source = .ok ts) : Rising ts := by
  obtain ⟨xs, hdivides, rfl⟩ := divides_of_scanAll (Source.tokens_eq_ok.mp h)
  exact hdivides.offsets_increase (laid_ofSource source).ascending

/-- A source without tokens is refused at one of its characters, or at a phrase that is replaced. -/
theorem Source.tokens_refused {f : Failure} (h : Source.tokens source = .error f) :
    ∃ c i, f = .lex (Token.refusal c, i) ∧ i < source.length ∧
      (source[i]? = some c ∨ ∃ p ∈ Phrase.all, p.StandsAt source i ∧ Replaced source i p) := by
  rcases tokens_faithful source with ⟨xs, m, rest, hdivides, -, hrefused⟩ | ⟨xs, -, hok, -⟩
  · rw [h] at hrefused
    have hmem : m ∈ (Canonical.ofSource source).marks := by
      rw [← hdivides.flatten]
      simp
    refine ⟨m.char, m.origin, Except.error.inj hrefused,
      ((laid_ofSource source).origin_bounds hmem).2, ?_⟩
    rcases origin_cases hmem with ⟨-, hc⟩ | ⟨p, hreplaced, -⟩
    · exact .inl hc
    · exact .inr ⟨p, hreplaced.standsAt.1, hreplaced.standsAt.2, hreplaced⟩
  · rw [h] at hok
    cases hok

/-- A fault of the parser is at one of the tokens, or at the end. -/
theorem Parse.Raised.offset {fault : ParseFault} (h : Raised limit ts fault)
    (source : List Char) : ∃ i ∈ tokenOffsets source ts,
      (fault.diagnostic source.length).offset = i := by
  have hnext : ∀ rest, rest <:+ ts →
      offsetOf source.length rest.head? ∈ tokenOffsets source ts := by
    intro rest hrest
    cases rest with
    | nil => simp [offsetOf, tokenOffsets]
    | cons t rest =>
      have ht : t ∈ ts := hrest.subset List.mem_cons_self
      exact List.mem_append_left _ (List.mem_map_of_mem ht)
  cases h with
  | missing wanted hrest => exact ⟨_, hnext _ hrest, rfl⟩
  | noExpression hrest => exact ⟨_, hnext _ hrest, rfl⟩
  | notCallable callee hrest => exact ⟨_, hnext _ hrest, rfl⟩
  | notAssignable hstart _ => exact ⟨_, hnext _ hstart, rfl⟩
  | tooDeep hrest _ => exact ⟨_, hnext _ hrest, rfl⟩

theorem Source.program_eq_error (h : Source.tokens source = .ok ts) {f : Failure} :
    Source.program limit source = .error f ↔
      ∃ fault, Program.parse limit ts = .error fault ∧ f = .parse fault source.length := by
  rw [Source.program_of_tokens h]
  cases Program.parse limit ts with
  | ok p => simp
  | error fault => simp [eq_comm]

theorem Source.expression_of_tokens (h : Source.tokens source = .ok ts) (limit : Nat) :
    Source.expression limit source = match Expr.parse limit ts with
      | .ok e => .ok e
      | .error fault => .error (.parse fault source.length) := by
  rw [Source.expression, h]
  rfl

theorem Source.expression_eq_ok (h : Source.tokens source = .ok ts) {e : Expr} :
    Source.expression limit source = .ok e ↔ Expr.parse limit ts = .ok e := by
  rw [Source.expression_of_tokens h]
  cases Expr.parse limit ts <;> simp

theorem Source.expression_eq_error (h : Source.tokens source = .ok ts) {f : Failure} :
    Source.expression limit source = .error f ↔
      ∃ fault, Expr.parse limit ts = .error fault ∧ f = .parse fault source.length := by
  rw [Source.expression_of_tokens h]
  cases Expr.parse limit ts with
  | ok e => simp
  | error fault => simp [eq_comm]

/-- Offsets are places in the source. A source has no tokens only for a character of it or a phrase
in it, and the failure is there. Otherwise, whatever the nesting limit, what is read has its nodes at
tokens, each not in front of the node that it is in; a failure to read it is at a token or at the
end; and a program that does not bind, whatever is known before, fails at a token. -/
theorem Source.offsets_at_tokens (source : List Char) :
    (∀ f, Source.tokens source = .error f → f.diagnostic.kind = .lex ∧ ∃ i : Nat,
      f.diagnostic.offset = i ∧ ∃ c, f.diagnostic.message = (Token.refusal c).message ∧
        i < source.length ∧
        (source[i]? = some c ∨ ∃ p ∈ Phrase.all, p.StandsAt source i ∧ Replaced source i p)) ∧
    ∀ ts, Source.tokens source = .ok ts → ∀ limit,
      (∀ p, Source.program limit source = .ok p → Ordered ts p.nodes ∧
        ∀ known fault, p.bind known = .error fault →
          ∃ t ∈ ts, (BindingFault.diagnostic fault).offset = t.offset) ∧
      (∀ e, Source.expression limit source = .ok e → Ordered ts e.nodes) ∧
      (∀ f, Source.program limit source = .error f ∨ Source.expression limit source = .error f →
        f.diagnostic.kind.isSyntactic = true ∧
          ∃ i ∈ tokenOffsets source ts, f.diagnostic.offset = i) := by
  constructor
  · intro f hf
    obtain ⟨c, i, rfl, hi, hplace⟩ := Source.tokens_refused hf
    exact ⟨rfl, i, rfl, c, rfl, hi, hplace⟩
  · intro ts hts limit
    have hrising := Source.rising hts
    refine ⟨fun p hp => ?_, fun e he => ?_, fun f hf => ?_⟩
    · have hordered := Program.ordered ((Source.program_eq_ok hts).mp hp) hrising
      refine ⟨hordered, fun known fault hfails => ?_⟩
      obtain ⟨n, hn, ho⟩ := Binding.bind_fails known p fault.1 fault.2 hfails
      obtain ⟨t, ht, hto⟩ := hordered.placed n hn _ ho
      exact ⟨t, ht, by rw [hto]; rfl⟩
    · exact Expr.ordered ((Source.expression_eq_ok hts).mp he) hrising
    · have hraised : ∃ fault, Raised limit ts fault ∧ f = .parse fault source.length := by
        rcases hf with hf | hf
        · obtain ⟨fault, hfault, rfl⟩ := (Source.program_eq_error hts).mp hf
          exact ⟨fault, raised_of_parse hfault, rfl⟩
        · obtain ⟨fault, hfault, rfl⟩ := (Source.expression_eq_error hts).mp hf
          exact ⟨fault, raised_of_expression hfault, rfl⟩
      obtain ⟨fault, hraised, rfl⟩ := hraised
      exact ⟨diagnostic_isSyntactic fault source.length, hraised.offset source⟩

end Sources

end Parlance
