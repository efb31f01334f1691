import Parlance.Proofs.Steps.Halting
/-!
# Hosts

A host runs programs for a caller. The caller's context has a flag that tells the runs that refer to
it to stop. A run with a time limit refers to a copy of that context with a flag of its own; when
the limit passes the flag is set, the run is given up, and it goes on beside later runs until it
heeds the flag. In every order of events the flag of a run with a time limit tells whether the
limit has passed, and the caller's flag tells whether the caller's context was told to stop from
outside (`Host.Sound`).
-/
namespace Parlance

/-- What the runs that refer to a context have in common: the functions that they call, and the flag
that tells them to stop. -/
structure Cell where
  functions : FunctionTable
  halted : Bool

/-- How far a run has come. -/
inductive Stage
  /-- it has been started, and its program is not bound yet -/
  | due (p : Program) (s : State)
  | running (C : Machine.Config)
  | refused (fault : BindingFault × Nat)

/-- What is known of a run besides its progress. -/
structure Standing where
  /-- the number of the context that it refers to -/
  cell : Nat
  /-- it has a time limit -/
  limited : Bool
  /-- its time limit has passed -/
  expired : Bool

structure Activity extends Standing where
  stage : Stage

/-- The contexts, that of the caller first, and the runs in the order in which they were started. -/
structure Host where
  cells : List Cell
  runs : List Activity

/-- What can happen next. -/
inductive Move
  /-- the caller starts a program, with a time limit or without -/
  | start (p : Program) (s : State) (limited : Bool)
  /-- a run goes on; it finds the data as others have left them meanwhile -/
  | go (run : Nat) (meanwhile : Data → Data)
  /-- the caller takes the result of a run -/
  | collect (run : Nat)
  /-- the time limit of a run passes -/
  | expire (run : Nat)
  /-- the caller's context is told to stop from outside -/
  | halt

def Move.halts : Move → Bool
  | halt => true
  | _ => false

namespace Host

/-- A host before its first run. -/
def fresh (functions : FunctionTable) (halted : Bool) : Host := ⟨[⟨functions, halted⟩], []⟩

def standing? (h : Host) (run : Nat) : Option Standing := h.runs[run]?.map Activity.toStanding

/-- The flag of a context. -/
def flagAt (h : Host) (cell : Nat) : Option Bool := h.cells[cell]?.map Cell.halted

/-- The caller's context has been told to stop. -/
def halted (h : Host) : Bool := (h.flagAt 0).getD false

/-- The flag of the context that a run refers to. -/
def flag? (h : Host) (run : Nat) : Option Bool := (h.standing? run).bind fun m => h.flagAt m.cell

def putFunctions (h : Host) (cell : Nat) (functions : FunctionTable) : Host :=
  { h with cells := h.cells.modify cell fun e => { e with functions := functions } }

def putFlag (h : Host) (cell : Nat) : Host :=
  { h with cells := h.cells.modify cell fun e => { e with halted := true } }

def putStage (h : Host) (run : Nat) (stage : Stage) : Host :=
  { h with runs := h.runs.modify run fun r => { r with stage := stage } }

/-- A run without a time limit refers to the caller's context, one with a limit to a copy in which
the flag is not set. -/
def start (h : Host) (p : Program) (s : State) (limited : Bool) : Host :=
  let stage := .due p { s with halted := false, haltAfter := none }
  if limited then
    ⟨h.cells ++ h.cells.head?.toList.map fun e => { e with halted := false },
      h.runs ++ [⟨⟨h.cells.length, true, false⟩, stage⟩]⟩
  else { h with runs := h.runs ++ [⟨⟨0, false, false⟩, stage⟩] }

/-- The caller's context takes over the functions of the context that a run refers to. -/
def collect (h : Host) (run : Nat) : Host :=
  match h.runs[run]?.bind fun r => h.cells[r.cell]? with
  | some e => h.putFunctions 0 e.functions
  | none => h

/-- The flag of a run with a time limit is set, and the caller goes on without it. -/
def expire (h : Host) (run : Nat) : Host :=
  match h.runs[run]? with
  | some r =>
    if r.limited then
      { h.putFlag r.cell with
        runs := h.runs.modify run fun r => { r with expired := true } }.collect run
    else h
  | none => h

section Moves

variable (debug : Bool) (depth : Nat)

/-- What the machine sees of a context. Steps do not count rounds. -/
def context (e : Cell) : Context := ⟨e.functions, debug, true, 0⟩

/-- A run binds its program, or makes a step, told to stop if the flag of its context is set; and
what is seen of it. -/
def goOn (h : Host) (run : Nat) (r : Activity) (e : Cell) (meanwhile : Data → Data) :
    List Machine.Event × Host :=
  match r.stage with
  | .due p s =>
    match p.bind e.functions with
    | .ok f =>
      let found := s.withData (meanwhile s.data)
      ([], (h.putFunctions r.cell f).putStage run (.running (.start depth p found)))
    | .error fault => ([], h.putStage run (.refused fault))
  | .running C =>
    let found := { C with state := C.state.withData (meanwhile C.state.data) }
    match Machine.step (context debug e) (if e.halted then found.told else found) with
    | some (seen, C') => (seen, h.putStage run (.running C'))
    | none => ([], h)
  | .refused _ => ([], h)

/-- What a run does next, and what is seen of it. -/
def go (h : Host) (run : Nat) (meanwhile : Data → Data) : List Machine.Event × Host :=
  match h.runs[run]? with
  | some r =>
    match h.cells[r.cell]? with
    | some e => h.goOn debug depth run r e meanwhile
    | none => ([], h)
  | none => ([], h)

def apply (h : Host) : Move → Host
  | .start p s limited => h.start p s limited
  | .go run meanwhile => (h.go debug depth run meanwhile).2
  | .collect run => h.collect run
  | .expire run => h.expire run
  | .halt => h.putFlag 0

/-- The host after some moves. -/
def after (h : Host) (moves : List Move) : Host := moves.foldl (apply debug depth) h

end Moves

/-! ### Flags -/

variable {h h' : Host}

/-- What the flags of a host depend on is the same in two hosts. -/
structure Alike (h h' : Host) : Prop where
  flagAt : ∀ cell, h'.flagAt cell = h.flagAt cell
  standing? : ∀ run, h'.standing? run = h.standing? run

theorem Alike.refl (h : Host) : Alike h h := ⟨fun _ => rfl, fun _ => rfl⟩

theorem Alike.trans {h'' : Host} (h₁ : Alike h h') (h₂ : Alike h' h'') : Alike h h'' :=
  ⟨fun cell => (h₂.flagAt cell).trans (h₁.flagAt cell),
    fun run => (h₂.standing? run).trans (h₁.standing? run)⟩

/-- What is read of the entries of a list of which one entry is changed. -/
theorem map_getElem?_modify {α β : Type} (xs : List α) (f : α → α) (g : α → β) (i j : Nat) :
    (xs.modify i f)[j]?.map g = xs[j]?.map fun a => g (if i = j then f a else a) := by
  rw [List.getElem?_modify, Option.map_eq_map, Option.map_map]
  rfl

theorem alike_putFunctions (h : Host) (cell : Nat) (f : FunctionTable) :
    Alike h (h.putFunctions cell f) := by
  refine ⟨fun other => ?_, fun _ => rfl⟩
  rw [flagAt, putFunctions, map_getElem?_modify]
  congr 1
  funext e
  split <;> rfl

theorem alike_putStage (h : Host) (run : Nat) (stage : Stage) : Alike h (h.putStage run stage) := by
  refine ⟨fun _ => rfl, fun other => ?_⟩
  rw [standing?, putStage, map_getElem?_modify]
  congr 1
  funext r
  split <;> rfl

theorem alike_collect (h : Host) (run : Nat) : Alike h (h.collect run) := by
  unfold collect
  split
  · exact alike_putFunctions h 0 _
  · exact .refl h

variable (debug : Bool) (depth : Nat)

theorem alike_goOn (h : Host) (run : Nat) (r : Activity) (e : Cell) (meanwhile : Data → Data) :
    Alike h (h.goOn debug depth run r e meanwhile).2 := by
  unfold goOn
  split
  · split
    · exact (alike_putFunctions h _ _).trans (alike_putStage _ run _)
    · exact alike_putStage h run _
  · simp only
    split
    · exact alike_putStage h run _
    · exact .refl h
  · exact .refl h

theorem alike_go (h : Host) (run : Nat) (meanwhile : Data → Data) :
    Alike h (h.go debug depth run meanwhile).2 := by
  unfold go
  split
  · split
    · exact alike_goOn debug depth h run _ _ meanwhile
    · exact .refl h
  · exact .refl h

/-! ### Moves that change flags -/

theorem flagAt_putFlag (h : Host) (cell other : Nat) :
    (h.putFlag cell).flagAt other
      = if cell = other then (h.flagAt other).map fun _ => true else h.flagAt other := by
  rw [flagAt, putFlag, map_getElem?_modify, flagAt, Option.map_map]
  split
  · rfl
  · rfl

theorem flagAt_expire {m : Standing} {run : Nat} (hm : h.standing? run = some m)
    (hl : m.limited = true) (cell : Nat) : (h.expire run).flagAt cell
      = if m.cell = cell then (h.flagAt cell).map fun _ => true else h.flagAt cell := by
  obtain ⟨r, hr, rfl⟩ := Option.map_eq_some_iff.mp hm
  rw [expire, hr]
  dsimp only
  rw [if_pos hl, (alike_collect _ run).flagAt]
  exact h.flagAt_putFlag r.cell cell

theorem standing?_expire {m : Standing} {run : Nat} (hm : h.standing? run = some m)
    (hl : m.limited = true) (other : Nat) : (h.expire run).standing? other
      = if run = other then some { m with expired := true } else h.standing? other := by
  obtain ⟨r, hr, rfl⟩ := Option.map_eq_some_iff.mp hm
  rw [expire, hr]
  dsimp only
  rw [if_pos hl, (alike_collect _ run).standing?, standing?, map_getElem?_modify]
  split
  · next h =>
    rw [← h, hr]
    rfl
  · rfl

theorem expire_of_not_limited {run : Nat} (h' : ∀ m, h.standing? run = some m → m.limited = false) :
    h.expire run = h := by
  unfold expire
  split
  · next r hr =>
    have hl : r.limited = false := h' r.toStanding (by rw [standing?, hr]; rfl)
    rw [hl]
    rfl
  · rfl

theorem getElem?_concat {α : Type} (xs : List α) (a : α) (i : Nat) :
    (xs ++ [a])[i]? = if i = xs.length then some a else xs[i]? := by
  split
  · next hi => rw [hi, List.getElem?_concat_length]
  · next hi =>
    rcases Nat.lt_or_gt_of_ne hi with hlt | hgt
    · rw [List.getElem?_append_left hlt]
    · rw [List.getElem?_eq_none (by simp; omega), List.getElem?_eq_none (Nat.le_of_lt hgt)]

theorem standing?_start (h : Host) (p : Program) (s : State) (limited : Bool) (run : Nat) :
    (h.start p s limited).standing? run
      = if run = h.runs.length then some ⟨if limited then h.cells.length else 0, limited, false⟩
        else h.standing? run := by
  cases limited with
  | false =>
    simp only [start, standing?, Bool.false_eq_true, if_false, getElem?_concat]
    split <;> rfl
  | true =>
    simp only [start, standing?, if_true, getElem?_concat]
    split <;> rfl

theorem flagAt_eq_none (h : Host) {cell : Nat} (hc : h.cells.length ≤ cell) :
    h.flagAt cell = none := by
  rw [flagAt, List.getElem?_eq_none hc, Option.map_none]

theorem lt_of_flagAt {cell : Nat} {flag : Bool} (hc : h.flagAt cell = some flag) :
    cell < h.cells.length := by
  by_contra hge
  rw [h.flagAt_eq_none (Nat.le_of_not_lt hge)] at hc
  cases hc

theorem flagAt_start (hc : 0 < h.cells.length) (p : Program) (s : State) (limited : Bool)
    (cell : Nat) : (h.start p s limited).flagAt cell
      = if limited = true ∧ cell = h.cells.length then some false else h.flagAt cell := by
  cases limited with
  | false => rfl
  | true =>
    obtain ⟨e, es, hcells⟩ := List.exists_cons_of_length_pos hc
    have hcopy : (h.start p s true).cells = h.cells ++ [{ e with halted := false }] := by
      simp only [start, if_true, hcells, List.head?_cons, Option.toList_some, List.map_cons,
        List.map_nil]
    rw [flagAt, hcopy, getElem?_concat]
    simp only [true_and]
    split <;> rfl

/-! ### Hosts in every order of events -/

/-- The runs without a time limit refer to the caller's context. Those with a limit refer each to a
context of its own, whose flag is set exactly if the limit has passed. -/
structure Sound (h : Host) : Prop where
  caller : ∃ flag, h.flagAt 0 = some flag
  shared : ∀ run m, h.standing? run = some m → m.limited = false → m.cell = 0
  own : ∀ run m, h.standing? run = some m → m.limited = true →
    0 < m.cell ∧ h.flagAt m.cell = some m.expired
  apart : ∀ run other m n, h.standing? run = some m → h.standing? other = some n →
    m.limited = true → n.limited = true → m.cell = n.cell → run = other

namespace Sound

theorem fresh (f : FunctionTable) (halted : Bool) : Sound (fresh f halted) where
  caller := ⟨halted, rfl⟩
  shared _ _ hm := by cases hm
  own _ _ hm := by cases hm
  apart _ _ _ _ hm := by cases hm

theorem alike (hs : h.Sound) (ha : Alike h h') : h'.Sound := by
  obtain ⟨hcaller, hshared, hown, hapart⟩ := hs
  simp only [← ha.standing?, ← ha.flagAt] at hcaller hshared hown hapart
  exact ⟨hcaller, hshared, hown, hapart⟩

/-- A new run refers to the caller's context or to a context that no other run refers to. -/
theorem start (hs : h.Sound) (p : Program) (s : State) (limited : Bool) :
    (h.start p s limited).Sound := by
  obtain ⟨flag, hflag⟩ := hs.caller
  have hpos := lt_of_flagAt hflag
  have hstanding : ∀ run m, (h.start p s limited).standing? run = some m →
      (run = h.runs.length ∧ m = ⟨if limited then h.cells.length else 0, limited, false⟩) ∨
        (run ≠ h.runs.length ∧ h.standing? run = some m) := by
    intro run m hm
    rw [standing?_start] at hm
    split at hm
    · next hrun => exact .inl ⟨hrun, (Option.some.inj hm).symm⟩
    · next hrun => exact .inr ⟨hrun, hm⟩
  have hold : ∀ cell b, h.flagAt cell = some b → (h.start p s limited).flagAt cell = some b := by
    intro cell b hb
    have hne : cell ≠ h.cells.length := Nat.ne_of_lt (lt_of_flagAt hb)
    rw [flagAt_start hpos, if_neg fun hnew => hne hnew.2, hb]
  refine ⟨⟨flag, hold 0 flag hflag⟩, fun run m hm hl => ?_, fun run m hm hl => ?_,
    fun run other m n hm hn hl hl' hcell => ?_⟩
  · rcases hstanding run m hm with ⟨-, rfl⟩ | ⟨-, hm⟩
    · have hlimited : limited = false := hl
      simp only [hlimited, Bool.false_eq_true, if_false]
    · exact hs.shared run m hm hl
  · rcases hstanding run m hm with ⟨-, rfl⟩ | ⟨-, hm⟩
    · have hlimited : limited = true := hl
      subst hlimited
      refine ⟨hpos, ?_⟩
      rw [flagAt_start hpos]
      exact if_pos ⟨rfl, rfl⟩
    · obtain ⟨hcell, hexpired⟩ := hs.own run m hm hl
      exact ⟨hcell, hold _ _ hexpired⟩
  · have hlt : ∀ run m, h.standing? run = some m → m.limited = true → m.cell < h.cells.length :=
      fun run m hm hl => lt_of_flagAt (hs.own run m hm hl).2
    rcases hstanding run m hm with ⟨hrun, rfl⟩ | ⟨-, hrun⟩
    · rcases hstanding other n hn with ⟨hother, -⟩ | ⟨-, hother⟩
      · exact hrun.trans hother.symm
      · have hlimited : limited = true := hl
        subst hlimited
        exact absurd hcell.symm (Nat.ne_of_lt (hlt other n hother hl'))
    · rcases hstanding other n hn with ⟨-, rfl⟩ | ⟨-, hother⟩
      · have hlimited : limited = true := hl'
        subst hlimited
        exact absurd hcell (Nat.ne_of_lt (hlt run m hrun hl))
      · exact hs.apart run other m n hrun hother hl hl' hcell

/-- The flag that is set when a limit passes is that of one run only, and not the caller's. -/
theorem expire (hs : h.Sound) (run : Nat) : (h.expire run).Sound := by
  by_cases hlimited : ∃ m, h.standing? run = some m ∧ m.limited = true
  · obtain ⟨e, he, hel⟩ := hlimited
    obtain ⟨hpos, hflag⟩ := hs.own run e he hel
    have hstanding : ∀ other m, (h.expire run).standing? other = some m →
        (other = run ∧ m = { e with expired := true }) ∨
          (other ≠ run ∧ h.standing? other = some m) := by
      intro other m hm
      rw [standing?_expire he hel] at hm
      split at hm
      · next heq => exact .inl ⟨heq.symm, (Option.some.inj hm).symm⟩
      · next hne => exact .inr ⟨Ne.symm hne, hm⟩
    refine ⟨?_, fun other m hm hl => ?_, fun other m hm hl => ?_,
      fun i j m n hm hn hl hl' hcell => ?_⟩
    · rw [flagAt_expire he hel, if_neg (Nat.ne_of_gt hpos)]
      exact hs.caller
    · rcases hstanding other m hm with ⟨-, rfl⟩ | ⟨-, hm⟩
      · rw [hel] at hl
        cases hl
      · exact hs.shared other m hm hl
    · rw [flagAt_expire he hel]
      rcases hstanding other m hm with ⟨-, rfl⟩ | ⟨hne, hm⟩
      · refine ⟨hpos, ?_⟩
        rw [if_pos rfl, hflag]
        rfl
      · obtain ⟨hpos', hflag'⟩ := hs.own other m hm hl
        have hcell : e.cell ≠ m.cell := fun h' => hne (hs.apart run other e m he hm hel hl h').symm
        exact ⟨hpos', by rw [if_neg hcell, hflag']⟩
    · have hback : ∀ i m, (h.expire run).standing? i = some m →
          ∃ m', h.standing? i = some m' ∧ m'.cell = m.cell ∧ m'.limited = m.limited := by
        intro i m hm
        rcases hstanding i m hm with ⟨rfl, rfl⟩ | ⟨-, hm⟩
        · exact ⟨e, he, rfl, rfl⟩
        · exact ⟨m, hm, rfl, rfl⟩
      obtain ⟨m', hm', hc, hlm⟩ := hback i m hm
      obtain ⟨n', hn', hc', hln⟩ := hback j n hn
      exact hs.apart i j m' n' hm' hn' (hlm.trans hl) (hln.trans hl')
        (hc.trans (hcell.trans hc'.symm))
  · have hnone : h.expire run = h := by
      refine expire_of_not_limited fun m hm => ?_
      exact Bool.eq_false_iff.mpr fun hl => hlimited ⟨m, hm, hl⟩
    rw [hnone]
    exact hs

theorem halt (hs : h.Sound) : (h.putFlag 0).Sound := by
  have hstanding : ∀ run, (h.putFlag 0).standing? run = h.standing? run := fun _ => rfl
  obtain ⟨flag, hflag⟩ := hs.caller
  refine ⟨⟨true, ?_⟩, hs.shared, fun run m hm hl => ?_, hs.apart⟩
  · rw [flagAt_putFlag, if_pos rfl, hflag]
    rfl
  · obtain ⟨hpos, hexpired⟩ := hs.own run m hm hl
    refine ⟨hpos, ?_⟩
    rw [flagAt_putFlag, if_neg (Nat.ne_of_lt hpos), hexpired]

theorem apply (hs : h.Sound) (move : Move) : (h.apply debug depth move).Sound := by
  cases move with
  | start p s limited => exact hs.start p s limited
  | go run meanwhile => exact hs.alike (alike_go debug depth h run meanwhile)
  | collect run => exact hs.alike (alike_collect h run)
  | expire run => exact hs.expire run
  | halt => exact hs.halt

theorem after (hs : h.Sound) (moves : List Move) : (h.after debug depth moves).Sound := by
  induction moves generalizing h with
  | nil => exact hs
  | cons move moves ih => exact ih (hs.apply debug depth move)

end Sound

/-- Only from outside is the caller's context told to stop. -/
theorem halted_apply (hs : h.Sound) (move : Move) :
    (h.apply debug depth move).halted = (h.halted || move.halts) := by
  obtain ⟨flag, hflag⟩ := hs.caller
  have hsame : (h.apply debug depth move).flagAt 0 = some (flag || move.halts) := by
    cases move with
    | start p s limited =>
      have hpos := lt_of_flagAt hflag
      rw [apply, flagAt_start hpos, if_neg fun hnew => Nat.ne_of_lt hpos hnew.2, hflag]
      simp [Move.halts]
    | go run meanwhile =>
      rw [apply, (alike_go debug depth h run meanwhile).flagAt, hflag]
      simp [Move.halts]
    | collect run =>
      rw [apply, (alike_collect h run).flagAt, hflag]
      simp [Move.halts]
    | expire run =>
      have hkept : (h.expire run).flagAt 0 = h.flagAt 0 := by
        by_cases hlimited : ∃ m, h.standing? run = some m ∧ m.limited = true
        · obtain ⟨m, hm, hl⟩ := hlimited
          rw [flagAt_expire hm hl, if_neg (Nat.ne_of_gt (hs.own run m hm hl).1)]
        · rw [expire_of_not_limited fun m hm =>
            Bool.eq_false_iff.mpr fun hl => hlimited ⟨m, hm, hl⟩]
      rw [apply, hkept, hflag]
      simp [Move.halts]
    | halt =>
      rw [apply, flagAt_putFlag, if_pos rfl, hflag]
      simp [Move.halts]
  rw [halted, halted, hsame, hflag]
  rfl

theorem halted_after (hs : h.Sound) (moves : List Move) :
    (h.after debug depth moves).halted = (h.halted || moves.any Move.halts) := by
  induction moves generalizing h with
  | nil => exact (Bool.or_false _).symm
  | cons move moves ih =>
    have hrest := ih (hs.apply debug depth move)
    rw [halted_apply debug depth hs] at hrest
    rw [List.any_cons, ← Bool.or_assoc]
    exact hrest

/-- A run keeps its context, and a limit that has passed has passed. -/
structure Stays (m m' : Standing) : Prop where
  cell : m'.cell = m.cell
  limited : m'.limited = m.limited
  expired : m.expired = true → m'.expired = true

theorem lt_of_standing? {run : Nat} {m : Standing} (hm : h.standing? run = some m) :
    run < h.runs.length := by
  obtain ⟨r, hr, -⟩ := Option.map_eq_some_iff.mp hm
  exact (List.getElem?_eq_some_iff.mp hr).1

theorem standing?_apply {run : Nat} {m : Standing} (hm : h.standing? run = some m) (move : Move) :
    ∃ m', (h.apply debug depth move).standing? run = some m' ∧ Stays m m' := by
  have hsame : Stays m m := ⟨rfl, rfl, id⟩
  cases move with
  | start p s limited =>
    refine ⟨m, ?_, hsame⟩
    rw [apply, standing?_start, if_neg (Nat.ne_of_lt (lt_of_standing? hm)), hm]
  | go other meanwhile =>
    exact ⟨m, ((alike_go debug depth h other meanwhile).standing? run).trans hm, hsame⟩
  | collect other => exact ⟨m, ((alike_collect h other).standing? run).trans hm, hsame⟩
  | expire other =>
    rw [apply]
    by_cases hlimited : ∃ e, h.standing? other = some e ∧ e.limited = true
    · obtain ⟨e, he, hel⟩ := hlimited
      rw [standing?_expire he hel]
      by_cases hrun : other = run
      · subst hrun
        rw [he] at hm
        cases hm
        exact ⟨_, if_pos rfl, ⟨rfl, rfl, fun _ => rfl⟩⟩
      · exact ⟨m, (if_neg hrun).trans hm, hsame⟩
    · rw [expire_of_not_limited fun e he => Bool.eq_false_iff.mpr fun hl => hlimited ⟨e, he, hl⟩]
      exact ⟨m, hm, hsame⟩
  | halt => exact ⟨m, hm, hsame⟩

theorem standing?_after {run : Nat} {m : Standing} (hm : h.standing? run = some m)
    (moves : List Move) :
    ∃ m', (h.after debug depth moves).standing? run = some m' ∧ Stays m m' := by
  induction moves generalizing h m with
  | nil => exact ⟨m, hm, rfl, rfl, id⟩
  | cons move moves ih =>
    obtain ⟨middle, hmiddle, hfirst⟩ := standing?_apply debug depth hm move
    obtain ⟨last, hlast, hrest⟩ := ih hmiddle
    exact ⟨last, hlast, hrest.cell.trans hfirst.cell, hrest.limited.trans hfirst.limited,
      fun he => hrest.expired (hfirst.expired he)⟩

theorem Sound.flag? (hs : h.Sound) {run : Nat} {m : Standing} (hm : h.standing? run = some m)
    (hl : m.limited = true) : h.flag? run = some m.expired := by
  rw [Host.flag?, hm]
  exact (hs.own run m hm hl).2

/-- A new run is told to stop from the start only if it refers to the caller's context and that has
been told to stop. -/
theorem flag?_start (hs : h.Sound) (p : Program) (s : State) (limited : Bool) :
    (h.start p s limited).flag? h.runs.length = some (!limited && h.halted) := by
  obtain ⟨flag, hflag⟩ := hs.caller
  have hpos := lt_of_flagAt hflag
  rw [Host.flag?, standing?_start, if_pos rfl]
  cases limited with
  | true => exact (flagAt_start hpos p s true _).trans (if_pos ⟨rfl, rfl⟩)
  | false =>
    have hcaller : (h.start p s false).flagAt 0 = some flag := hflag
    rw [halted, hflag]
    exact hcaller

end Host
end Parlance
