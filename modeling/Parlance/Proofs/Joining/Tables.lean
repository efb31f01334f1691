import Parlance.Proofs.Joining.Programs
/-!
# Binding a program after another one

A program that declares no function of the table adds its functions at the end of the table, and is
bound in the same way to every table in which the older names take as many arguments
(`bind_after`). So two programs in one are bound if the one is bound and then the other
(`bind_append`).
-/
namespace Parlance

namespace Table

variable {α : Type} {key : String}

theorem put_of_not_mem {t : Table α} (h : key ∉ t.keys) (v : α) :
    t.put key v = t ++ [(key, v)] := by
  induction t with
  | nil => rfl
  | cons e t ih =>
    obtain ⟨k, w⟩ := e
    simp only [keys, List.map_cons, List.mem_cons, not_or] at h
    rw [put, if_neg (Ne.symm h.1), ih h.2, List.cons_append]

theorem get?_append (t u : Table α) (key : String) :
    get? key (t ++ u) = (t.get? key).or (u.get? key) := by
  induction t with
  | nil => rfl
  | cons e t ih =>
    obtain ⟨k, v⟩ := e
    rw [List.cons_append, get?, get?, ih]
    split
    · rfl
    · rfl

theorem get?_eq_none {t : Table α} (h : key ∉ t.keys) : t.get? key = none := by
  cases hget : t.get? key with
  | none => rfl
  | some v => exact absurd (mem_keys_of_get? hget) h

end Table

namespace FunctionTable

variable {φ : Nat → Nat}

theorem moved_append (f g : FunctionTable) : moved φ (f ++ g) = f.moved φ ++ g.moved φ :=
  List.map_append

theorem get?_moved (f : FunctionTable) (key : String) :
    Table.get? key (f.moved φ) = (Table.get? key f).map (Declaration.moved φ) :=
  Table.get?_map _ f key

@[simp]
theorem keys_moved (f : FunctionTable) : Table.keys (f.moved φ) = Table.keys f :=
  Table.keys_map _ f

end FunctionTable

/-- The entries that declarations make in a table. -/
def entries (ds : List Declaration) : FunctionTable := ds.map fun d => (Text.lower d.name, d)

theorem entries_moved (φ : Nat → Nat) (ds : List Declaration) :
    entries (ds.map (Declaration.moved φ)) = FunctionTable.moved φ (entries ds) := by
  simp [entries, FunctionTable.moved, Function.comp_def, Declaration.moved]

/-- None of the declarations is of a name in the table, in any letter case. -/
def FunctionTable.Lacks (f : FunctionTable) (ds : List Declaration) : Prop :=
  ∀ d ∈ ds, Text.lower d.name ∉ Table.keys f

theorem FunctionTable.Lacks.moved {f : FunctionTable} {ds : List Declaration} (h : f.Lacks ds)
    (φ : Nat → Nat) : f.Lacks (ds.map (Declaration.moved φ)) := by
  intro d hd
  obtain ⟨e, he, rfl⟩ := List.mem_map.mp hd
  exact h e he

theorem Stmt.callsAll_append (ss us : List Stmt) :
    Stmt.callsAll (ss ++ us) = Stmt.callsAll ss ++ Stmt.callsAll us := by
  induction ss with
  | nil => rfl
  | cons s ss ih => rw [List.cons_append, Stmt.callsAll, Stmt.callsAll, ih, List.append_assoc]

theorem Stmt.returnsAny_append (ss us : List Stmt) :
    Stmt.returnsAny (ss ++ us) = (Stmt.returnsAny ss || Stmt.returnsAny us) := by
  induction ss with
  | nil => rfl
  | cons s ss ih => rw [List.cons_append, Stmt.returnsAny, Stmt.returnsAny, ih, Bool.or_assoc]

namespace Binding

variable {declared declared' : List String} {f g f' : FunctionTable} {ds es : List Declaration}

/-- The one declaration is entered and the others after it, if it passes the checks. -/
theorem declare_cons_of_ok {d : Declaration} (h : declare declared f (d :: ds) = .ok g)
    (hnew : Text.lower d.name ∉ declared') (f' : FunctionTable) (φ : Nat → Nat)
    (es : List Declaration) : declare declared' f' (d.moved φ :: es)
      = declare (Text.lower d.name :: declared') (f'.put (Text.lower d.name) (d.moved φ)) es := by
  have hname : (d.moved φ).name = d.name := rfl
  have hparameters : (d.moved φ).parameters = d.parameters := rfl
  rw [declare] at h ⊢
  simp only [hname, hparameters]
  split at h
  · cases h
  · next hbuiltin =>
    rw [if_neg hbuiltin, if_neg hnew]
    split at h
    · cases h
    · cases hrepeated : repeated? [] d.parameters with
      | some p =>
        simp only [hrepeated] at h
        cases h
      | none => rfl

/-- Declarations of new names are entered at the end, whatever the table and their places. -/
theorem declare_after (h : declare declared f ds = .ok g) (hfresh : f'.Lacks ds)
    (hnew : ∀ d ∈ ds, Text.lower d.name ∉ declared') (φ : Nat → Nat) :
    declare declared' f' (ds.map (Declaration.moved φ))
      = .ok (f' ++ entries (ds.map (Declaration.moved φ))) := by
  induction ds generalizing declared declared' f f' with
  | nil => rw [List.map_nil, declare, entries, List.map_nil, List.append_nil]
  | cons d ds ih =>
    obtain ⟨hd, hds⟩ := List.forall_mem_cons.mp hfresh
    obtain ⟨hdnew, hdsnew⟩ := List.forall_mem_cons.mp hnew
    obtain ⟨_, _, hrest⟩ := declare_cons_eq_ok h
    have hdistinct : ∀ e ∈ ds, Text.lower e.name ≠ Text.lower d.name := by
      intro e he hsame
      exact declare_fresh hrest e he (hsame ▸ List.mem_cons_self)
    have hlater : FunctionTable.Lacks (f' ++ [(Text.lower d.name, d.moved φ)]) ds := by
      intro e he
      simp only [Table.keys, List.map_append, List.mem_append, List.map_cons, List.map_nil,
        List.mem_singleton, not_or]
      exact ⟨hds e he, hdistinct e he⟩
    have hlaterNew : ∀ e ∈ ds, Text.lower e.name ∉ Text.lower d.name :: declared' := by
      intro e he
      rw [List.mem_cons, not_or]
      exact ⟨hdistinct e he, hdsnew e he⟩
    rw [List.map_cons, declare_cons_of_ok h hdnew, Table.put_of_not_mem hd,
      ih hrest hlater hlaterNew, List.append_assoc]
    rfl

theorem mem_keys_of_declare (h : declare declared f ds = .ok g) {d : Declaration} (hd : d ∈ ds) :
    Text.lower d.name ∈ Table.keys g := by
  have hget := declare_get? h (Text.lower d.name)
  rw [declared?_of_mem h hd, Option.some_or] at hget
  exact Table.mem_keys_of_get? hget

/-- The declarations of one list and then those of another one, whose names are new. -/
theorem declare_append (h : declare declared f ds = .ok g) (hfresh : g.Lacks es)
    (hnew : ∀ e ∈ es, Text.lower e.name ∉ declared)
    (hes : ∀ declared', (∀ e ∈ es, Text.lower e.name ∉ declared') →
      declare declared' g es = .ok f') : declare declared f (ds ++ es) = .ok f' := by
  induction ds generalizing declared f with
  | nil =>
    cases h
    exact hes declared hnew
  | cons d ds ih =>
    obtain ⟨_, hd, hrest⟩ := declare_cons_eq_ok h
    have hstep := declare_cons_of_ok h hd f id (ds ++ es)
    rw [Declaration.moved_id] at hstep
    rw [List.cons_append, hstep]
    refine ih hrest fun e he => ?_
    rw [List.mem_cons, not_or]
    refine ⟨fun hsame => hfresh e he ?_, hnew e he⟩
    rw [hsame]
    exact mem_keys_of_declare h List.mem_cons_self

/-- A block that passes in one table passes in another one in which the names take as many
arguments. -/
theorem checkBlock_congr (φ : Nat → Nat) {inFunction : Bool} {ss : List Stmt}
    (hsame : ∀ name n, arity? f name = some n → arity? g name = some n)
    (h : checkBlock f inFunction ss = .ok ()) :
    checkBlock g inFunction (Stmt.movedAll φ ss) = .ok () := by
  rw [checkBlock_eq_ok] at h ⊢
  rw [Stmt.callsAll_moved, Stmt.returnsAny_moved]
  exact ⟨fun c hc => hsame _ _ (h.1 c hc), h.2⟩

theorem arity?_moved (f : FunctionTable) (φ : Nat → Nat) (name : String) :
    arity? (f.moved φ) name = arity? f name := by
  unfold arity?
  rw [FunctionTable.get?_moved, Option.map_map]
  rfl

/-- The older names take as many arguments in the larger table. -/
theorem arity?_append {name : String} {n : Nat} (h : arity? f name = some n) (g : FunctionTable) :
    arity? (f ++ g) name = some n := by
  unfold arity? at h ⊢
  rw [Table.get?_append]
  cases hbuiltin : Builtin.find? name with
  | some b =>
    simp only [hbuiltin] at h ⊢
    exact h
  | none =>
    simp only [hbuiltin, Option.map_eq_some_iff] at h ⊢
    obtain ⟨d, hd, hn⟩ := h
    exact ⟨d, by rw [hd]; rfl, hn⟩

/-- Two tables in which names take as many arguments, with the same declarations behind them. -/
theorem arity?_append_congr {name : String} {n : Nat} (e : FunctionTable) (φ : Nat → Nat)
    (hsame : ∀ name n, arity? f name = some n → arity? g name = some n)
    (hkeys : ∀ key ∈ Table.keys e, key ∉ Table.keys g) (h : arity? (f ++ e) name = some n) :
    arity? (g ++ e.moved φ) name = some n := by
  cases hbuiltin : Builtin.find? name with
  | some b =>
    simp only [arity?, hbuiltin] at h ⊢
    exact h
  | none =>
    cases hf : f.get? (Text.lower name) with
    | some d =>
      refine arity?_append (hsame name n ?_) _
      simp only [arity?, hbuiltin, Table.get?_append, hf, Option.some_or] at h ⊢
      exact h
    | none =>
      simp only [arity?, hbuiltin, Table.get?_append, hf, Option.none_or, Option.map_eq_some_iff]
        at h ⊢
      obtain ⟨d, hd, hn⟩ := h
      have hnone := Table.get?_eq_none (hkeys _ (Table.mem_keys_of_get? hd))
      refine ⟨d.moved φ, ?_, hn⟩
      rw [hnone, Option.none_or, FunctionTable.get?_moved, hd]
      rfl

end Binding

open Binding

namespace Program

variable {known f g f' : FunctionTable} {p q : Program}

/-- What a program leaves of a table in which its names are new. -/
theorem bind_eq_append (hq : q.bind f = .ok g) (hfresh : f.Lacks q.functions) :
    g = f ++ entries q.functions := by
  have hdeclare := (bind_eq_ok.mp hq).1
  have hafter := declare_after hdeclare hfresh (fun _ _ => List.not_mem_nil) id
  have hid : q.functions.map (Declaration.moved id) = q.functions := by
    rw [funext Declaration.moved_id, List.map_id']
  rw [hid, hdeclare] at hafter
  exact Except.ok.inj hafter

theorem keys_entries (ds : List Declaration) :
    Table.keys (entries ds) = ds.map fun d => Text.lower d.name := by
  simp [entries, Table.keys, Function.comp_def]

/-- A program of new names is bound in the same way after every table in which the older names take
as many arguments. -/
theorem bind_after (hq : q.bind f = .ok g) (hfresh : f.Lacks q.functions)
    (hfresh' : f'.Lacks q.functions) (φ : Nat → Nat)
    (hsame : ∀ name n, arity? f name = some n → arity? f' name = some n) :
    (q.moved φ).bind f' = .ok (f' ++ entries (q.moved φ).functions) := by
  obtain rfl := bind_eq_append hq hfresh
  obtain ⟨hdeclare, hbodies, hstatements⟩ := bind_eq_ok.mp hq
  have hkeys : ∀ key ∈ Table.keys (entries q.functions), key ∉ Table.keys f' := by
    rw [keys_entries]
    rintro _ hkey
    obtain ⟨d, hd, rfl⟩ := List.mem_map.mp hkey
    exact hfresh' d hd
  have hall : ∀ name n, arity? (f ++ entries q.functions) name = some n →
      arity? (f' ++ entries (q.moved φ).functions) name = some n := by
    intro name n h
    rw [moved, entries_moved]
    exact arity?_append_congr _ φ hsame hkeys h
  refine bind_eq_ok.mpr ⟨declare_after hdeclare hfresh' (fun _ _ => List.not_mem_nil) φ, ?_, ?_⟩
  · intro d hd
    obtain ⟨e, he, rfl⟩ := List.mem_map.mp hd
    exact checkBlock_congr φ hall (hbodies e he)
  · exact checkBlock_congr φ hall hstatements

/-- A program and then another one of new names are bound as the one program with both. -/
theorem bind_append (hp : p.bind known = .ok f) (hq : q.bind f = .ok g)
    (hfresh : f.Lacks q.functions) : (p ++ q).bind known = .ok g := by
  obtain rfl := bind_eq_append hq hfresh
  obtain ⟨hdeclare, hbodies, hstatements⟩ := bind_eq_ok.mp hp
  obtain ⟨hdeclare', hbodies', hstatements'⟩ := bind_eq_ok.mp hq
  have hid : q.functions.map (Declaration.moved id) = q.functions := by
    rw [funext Declaration.moved_id, List.map_id']
  have hgrown : ∀ (inFunction : Bool) (ss : List Stmt), checkBlock f inFunction ss = .ok () →
      checkBlock (f ++ entries q.functions) inFunction ss = .ok () := by
    intro inFunction ss h
    have hmoved :=
      checkBlock_congr id (fun name n hn => arity?_append hn (entries q.functions)) h
    rwa [Stmt.movedAll_id] at hmoved
  have happend : (p ++ q).functions = p.functions ++ q.functions ∧
      (p ++ q).statements = p.statements ++ q.statements := ⟨rfl, rfl⟩
  rw [bind_eq_ok, happend.1, happend.2]
  refine ⟨declare_append hdeclare hfresh (fun _ _ => List.not_mem_nil) fun declared' hnew => ?_,
    ?_, ?_⟩
  · have hafter := declare_after hdeclare' hfresh hnew id
    rwa [hid] at hafter
  · intro d hd
    rcases List.mem_append.mp hd with hd | hd
    · exact hgrown true d.body (hbodies d hd)
    · exact hbodies' d hd
  · rw [checkBlock_eq_ok] at hstatements' ⊢
    have hfirst := checkBlock_eq_ok _ |>.mp (hgrown false _ hstatements)
    rw [Stmt.callsAll_append, Stmt.returnsAny_append]
    exact passes_append.mpr ⟨hfirst, hstatements'⟩

end Program
end Parlance
