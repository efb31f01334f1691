import Parlance.Proofs.Grammar.Rules
import Parlance.Syntax.Parser
/-!
# Chains of operands and levels of operators

A chain is read flat, as operands with operators between them, and put together afterwards. The
trees that `Expr.assemble` makes of chains are the trees that the levels of the grammar give:
`assemble_sound` and `assemble_complete`.
-/
namespace Parlance.Grammar

/-- An operator and the operand after it. -/
inductive Link (operand : Rule Expr) : Rule (BinaryOp × Expr)
  | intro {op : BinaryOp} {t : Token} {ts : List Token} {e : Expr} :
      IsBinary op t → operand ts e → Link operand (t :: ts) (op, e)

/-- An operand, and operators with an operand after each. -/
inductive Chain (operand : Rule Expr) : List Token → Expr → List (BinaryOp × Expr) → Prop
  | intro {ts rest : List Token} {e : Expr} {ops : List (BinaryOp × Expr)} :
      operand ts e → Many (Link operand) rest ops → Chain operand (ts ++ rest) e ops

theorem mem_operators {op : BinaryOp} {n : Nat} : op ∈ operators n ↔ op.precedence = n := by
  constructor
  · intro h
    unfold operators at h
    split at h <;> simp only [List.mem_cons, List.not_mem_nil, or_false] at h
    all_goals rcases h with rfl | rfl | rfl | rfl <;> rfl
  · rintro rfl
    cases op <;> decide

theorem Many.append {α : Type} {item : Rule α} {xs ys : List Token} {as bs : List α}
    (hx : Many item xs as) (hy : Many item ys bs) : Many item (xs ++ ys) (as ++ bs) := by
  induction hx with
  | nil => exact hy
  | cons ha _ ih =>
    rw [List.append_assoc]
    exact .cons ha ih

theorem links_mono {R S : Rule Expr} (h : ∀ ts e, R ts e → S ts e) {ts : List Token}
    {ops : List (BinaryOp × Expr)} (hl : Many (Link R) ts ops) : Many (Link S) ts ops := by
  induction hl with
  | nil => exact .nil
  | cons hlink _ ih =>
    cases hlink with
    | intro ht he => exact .cons (.intro ht (h _ _ he)) ih

/-! ### Soundness -/

/-- Putting together the operators of one level turns a chain of tighter phrases into a chain of
phrases of that level, without operators of the level. -/
theorem join_links {operand : Rule Expr} {n : Nat} (hn : n < 7)
    {ops : List (BinaryOp × Expr)} {xs ys : List Token} {e : Expr}
    (he : Level operand n xs e) (hl : Many (Link (Level operand (n + 1))) ys ops)
    (hops : ∀ p ∈ ops, p.1.precedence ≤ n) :
    Chain (Level operand n) (xs ++ ys) (e.join n ops).1 (e.join n ops).2 ∧
      ∀ p ∈ (e.join n ops).2, p.1.precedence < n := by
  induction ops generalizing xs ys e with
  | nil =>
    cases hl
    exact ⟨.intro he .nil, by simp [Expr.join]⟩
  | cons p ops ih =>
    cases hl with
    | @cons _ rest _ _ hlink hrest =>
      obtain @⟨op, t, ts, f, ht, hf⟩ := hlink
      have hp : op.precedence ≤ n := hops (op, f) (by simp)
      have hops' : ∀ q ∈ ops, q.1.precedence ≤ n := fun q hq => hops q (by simp [hq])
      by_cases hop : op.precedence = n
      · have hj : Level operand n (xs ++ t :: ts) (e.joined op f) :=
          .binary (mem_operators.mpr hop) ht he hf
        have h := ih hj hrest hops'
        simpa [Expr.join, hop] using h
      · obtain ⟨hc, hlt⟩ := ih (.tighter hn hf) hrest hops'
        simp only [Expr.join, if_neg hop]
        refine ⟨?_, ?_⟩
        · cases hc' : f.join n ops with
          | mk g rest' =>
            rw [hc'] at hc
            generalize hz : ts ++ rest = zs at hc
            cases hc with
            | @intro gs ms _ _ hg hm =>
              have hlinks : Many (Link (Level operand n)) (t :: gs ++ ms) ((op, g) :: rest') :=
                .cons (.intro ht hg) hm
              rw [List.cons_append, hz]
              exact .intro he hlinks
        · intro q hq
          rcases List.mem_cons.mp hq with rfl | hq
          · exact Nat.lt_of_le_of_ne hp hop
          · exact hlt q hq

theorem assembleFrom_sound {operand : Rule Expr} {n : Nat} (hn : n < 7)
    {ops : List (BinaryOp × Expr)} {ts : List Token} {e : Expr}
    (hc : Chain (Level operand (n + 1)) ts e ops) (hops : ∀ p ∈ ops, p.1.precedence ≤ n) :
    Level operand 1 ts (e.assembleFrom n ops) := by
  -- each level takes its own operators out of the chain and leaves looser ones
  induction n generalizing ts e ops with
  | zero =>
    cases hc with
    | intro he hl =>
      cases hl with
      | nil => simpa [Expr.assembleFrom] using he
      | cons hlink _ =>
        obtain @⟨op, _, _, f, _, _⟩ := hlink
        have h : op.precedence ≤ 0 := hops (op, f) (by simp)
        exact absurd op.precedence_pos (Nat.not_lt.mpr h)
  | succ n ih =>
    cases hc with
    | intro he hl =>
      obtain ⟨hc, hlt⟩ := join_links hn (.tighter hn he) hl hops
      simp only [Expr.assembleFrom]
      exact ih (by omega) hc fun p hp => Nat.le_of_lt_succ (hlt p hp)

/-- What is put together from a chain of operands is a phrase of the loosest level. -/
theorem assemble_sound {operand : Rule Expr} {ts : List Token} {e : Expr}
    {ops : List (BinaryOp × Expr)} (h : Chain operand ts e ops) :
    Level operand 1 ts (e.assemble ops) := by
  cases h with
  | intro he hl =>
    exact assembleFrom_sound (by decide)
      (.intro (.operand he) (links_mono (fun _ _ => .operand) hl)) fun p _ => p.1.precedence_le_levels

/-! ### Completeness -/

/-- Puts together the operators of a number of levels, of which `low` is the last. -/
def joinDown (low : Nat) : (steps : Nat) → Expr → List (BinaryOp × Expr) →
    Expr × List (BinaryOp × Expr)
  | 0, e, ops => (e, ops)
  | steps + 1, e, ops =>
    joinDown low steps (e.join (low + steps) ops).1 (e.join (low + steps) ops).2

theorem assembleFrom_eq (n : Nat) (e : Expr) (ops : List (BinaryOp × Expr)) :
    e.assembleFrom n ops = (joinDown 1 n e ops).1 := by
  induction n generalizing e ops with
  | zero => rfl
  | succ n ih =>
    rw [joinDown, Nat.add_comm 1 n]
    exact ih _ _

/-- The last level can be split off. -/
theorem joinDown_last (low steps : Nat) (e : Expr) (ops : List (BinaryOp × Expr)) :
    joinDown low (steps + 1) e ops =
      (joinDown (low + 1) steps e ops).1.join low (joinDown (low + 1) steps e ops).2 := by
  induction steps generalizing e ops with
  | zero => rfl
  | succ steps ih =>
    rw [joinDown, ih, joinDown, show low + (steps + 1) = low + 1 + steps by omega]

/-- An operator of another level divides a chain into two that are put together apart. -/
theorem join_split {n : Nat} {op : BinaryOp} (hop : op.precedence ≠ n) (e f : Expr)
    (as bs : List (BinaryOp × Expr)) :
    e.join n (as ++ (op, f) :: bs) =
      ((e.join n as).1, (e.join n as).2 ++ (op, (f.join n bs).1) :: (f.join n bs).2) := by
  induction as generalizing e with
  | nil => simp [Expr.join, hop]
  | cons p as ih =>
    by_cases hp : p.1.precedence = n
    · simp [Expr.join, hp, ih]
    · simp [Expr.join, hp, ih]

theorem joinDown_split {low : Nat} {op : BinaryOp} (hop : op.precedence < low) (steps : Nat)
    (e f : Expr) (as bs : List (BinaryOp × Expr)) :
    joinDown low steps e (as ++ (op, f) :: bs) =
      ((joinDown low steps e as).1,
        (joinDown low steps e as).2 ++ (op, (joinDown low steps f bs).1) ::
          (joinDown low steps f bs).2) := by
  induction steps generalizing e f as bs with
  | zero => rfl
  | succ steps ih =>
    have hne : op.precedence ≠ low + steps := by omega
    simp only [joinDown, join_split hne, ih]

/-- What has been put together completely goes on as the first operand. -/
theorem join_append {n : Nat} {e e' : Expr} {as : List (BinaryOp × Expr)}
    (h : e.join n as = (e', [])) (bs : List (BinaryOp × Expr)) :
    e.join n (as ++ bs) = e'.join n bs := by
  induction as generalizing e with
  | nil =>
    simp only [Expr.join, Prod.mk.injEq, and_true] at h
    rw [h, List.nil_append]
  | cons p as ih =>
    by_cases hp : p.1.precedence = n
    · simp only [Expr.join, hp, if_true] at h
      simp [Expr.join, hp, ih h]
    · simp [Expr.join, hp] at h

/-- The operands and operators of a phrase of any level: joined down to the level they give the
tree of the phrase. -/
theorem Level.chain {operand : Rule Expr} {n : Nat} {ts : List Token} {e : Expr}
    (h : Level operand n ts e) :
    n ≤ 7 ∧ ∃ first ops, Chain operand ts first ops ∧ joinDown n (7 - n) first ops = (e, []) := by
  induction h with
  | @operand ts e he => exact ⟨Nat.le_refl 7, e, [], by simpa using Chain.intro he .nil, rfl⟩
  | @tighter n ts e hn _ ih =>
    obtain ⟨_, first, ops, hc, hj⟩ := ih
    refine ⟨Nat.le_of_lt hn, first, ops, hc, ?_⟩
    rw [show 7 - n = 7 - (n + 1) + 1 by omega, joinDown_last, hj]
    rfl
  | @binary n op t ls rs l r hop ht _ _ ihl ihr =>
    obtain ⟨_, f, as, hcl, hjl⟩ := ihl
    obtain ⟨hn, g, bs, hcr, hjr⟩ := ihr
    have hop := mem_operators.mp hop
    refine ⟨Nat.le_of_succ_le hn, f, as ++ (op, g) :: bs, ?_, ?_⟩
    · cases hcl with
      | intro hf hl =>
        cases hcr with
        | intro hg hr =>
          have := Chain.intro hf (hl.append (.cons (.intro ht hg) hr))
          simpa only [List.append_assoc, List.cons_append] using this
    · have hsteps : 7 - n = 7 - (n + 1) + 1 := by omega
      rw [hsteps, joinDown_last] at hjl ⊢
      rw [joinDown_split (by omega), hjr]
      rw [join_append hjl]
      simp [Expr.join, hop, Expr.joined]

/-- A phrase of the loosest level is put together from a chain of operands. -/
theorem assemble_complete {operand : Rule Expr} {ts : List Token} {e : Expr}
    (h : Level operand 1 ts e) :
    ∃ first ops, Chain operand ts first ops ∧ first.assemble ops = e := by
  obtain ⟨_, first, ops, hc, hj⟩ := h.chain
  exact ⟨first, ops, hc, by rw [Expr.assemble, assembleFrom_eq, BinaryOp.levels, hj]⟩

end Parlance.Grammar
