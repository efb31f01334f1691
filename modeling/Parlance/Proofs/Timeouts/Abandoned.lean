import Parlance.Proofs.Timeouts.Hosts
/-!
# Runs that are given up

A run whose time limit has passed may go on, beside the runs that are started after it. Whatever
these do, its flag stays set, and it comes to its next statement or round and no further
(`Host.Truthful`).
-/
namespace Parlance
namespace Host

def stage? (h : Host) (run : Nat) : Option Stage := h.runs[run]?.map Activity.stage

end Host

/-- What is still to be done of a run, other than statements and rounds that have not begun. -/
def Stage.agenda : Stage → List Machine.Event
  | .running C => C.agenda
  | .due .. | .refused _ => []

namespace Host

variable {h h' : Host} (debug : Bool) (depth : Nat)

/-- What is seen of a run in a move. -/
def seenIn (run : Nat) (h : Host) : Move → List Machine.Event
  | .go other meanwhile => if other = run then (h.go debug depth run meanwhile).1 else []
  | _ => []

/-- What is seen of a run during some moves. -/
def seen (run : Nat) : Host → List Move → List Machine.Event
  | _, [] => []
  | h, move :: moves =>
    seenIn debug depth run h move ++ seen run (h.apply debug depth move) moves

theorem stage?_putStage (h : Host) (run other : Nat) (stage : Stage) :
    (h.putStage run stage).stage? other
      = if run = other then (h.stage? other).map fun _ => stage else h.stage? other := by
  rw [stage?, putStage, map_getElem?_modify, stage?, Option.map_map]
  split <;> rfl

theorem stage?_collect (h : Host) (run other : Nat) :
    (h.collect run).stage? other = h.stage? other := by
  unfold collect
  split <;> rfl

theorem stage?_expire (h : Host) (run other : Nat) :
    (h.expire run).stage? other = h.stage? other := by
  unfold expire
  split
  · split
    · rw [stage?_collect, stage?, map_getElem?_modify]
      congr 1
      funext r
      split <;> rfl
    · rfl
  · rfl

theorem stage?_start (h : Host) (p : Program) (s : State) (limited : Bool) {run : Nat}
    (hrun : run < h.runs.length) : (h.start p s limited).stage? run = h.stage? run := by
  have hne : run ≠ h.runs.length := Nat.ne_of_lt hrun
  cases limited with
  | false => simp only [start, stage?, Bool.false_eq_true, if_false, getElem?_concat, if_neg hne]
  | true => simp only [start, stage?, if_true, getElem?_concat, if_neg hne]

/-- A run that goes on leaves the others where they are. -/
theorem stage?_go_other {run other : Nat} (hne : other ≠ run) (meanwhile : Data → Data) :
    (h.go debug depth other meanwhile).2.stage? run = h.stage? run := by
  unfold go
  split
  · split
    · unfold goOn
      split
      · split
        · rw [stage?_putStage, if_neg hne]
          rfl
        · rw [stage?_putStage, if_neg hne]
      · simp only
        split
        · rw [stage?_putStage, if_neg hne]
        · rfl
      · rfl
    · rfl
  · rfl

/-- A run whose flag is set, as it goes on: what it does was on its agenda. -/
theorem go_flagged {run : Nat} {stage : Stage} (hflag : h.flag? run = some true)
    (hstage : h.stage? run = some stage) (meanwhile : Data → Data) :
    ∃ stage', (h.go debug depth run meanwhile).2.stage? run = some stage' ∧
      List.Sublist ((h.go debug depth run meanwhile).1 ++ stage'.agenda) stage.agenda := by
  obtain ⟨r, hr, rfl⟩ := Option.map_eq_some_iff.mp hstage
  have hstanding : h.standing? run = some r.toStanding := by rw [standing?, hr]; rfl
  rw [flag?, hstanding] at hflag
  obtain ⟨e, he, hhalted⟩ := Option.map_eq_some_iff.mp hflag
  have hput : ∀ (g : Host) stage', g.runs = h.runs →
      (g.putStage run stage').stage? run = some stage' := by
    intro g stage' hg
    rw [stage?_putStage, if_pos rfl, stage?, hg, hr]
    rfl
  have hgo : h.go debug depth run meanwhile = h.goOn debug depth run r e meanwhile := by
    have hcell : h.cells[r.cell]? = some e := he
    simp only [go, hr, hcell]
  rw [hgo]
  unfold goOn
  cases hs : r.stage with
  | due p s =>
    simp only
    split
    · exact ⟨_, hput _ _ rfl, .refl _⟩
    · exact ⟨_, hput _ _ rfl, .refl _⟩
  | running C =>
    simp only [hhalted, if_true]
    split
    · next seen C' hstep =>
      exact ⟨_, hput _ _ rfl, (Machine.step_spends rfl rfl hstep).agenda⟩
    · exact ⟨.running C, hstage.trans (congrArg some hs), .refl _⟩
  | refused fault => exact ⟨.refused fault, hstage.trans (congrArg some hs), .refl _⟩

theorem apply_flagged (hs : h.Sound) {run : Nat} {m : Standing} {stage : Stage}
    (hm : h.standing? run = some m) (hl : m.limited = true) (hx : m.expired = true)
    (hstage : h.stage? run = some stage) (move : Move) :
    ∃ stage', (h.apply debug depth move).stage? run = some stage' ∧
      List.Sublist (seenIn debug depth run h move ++ stage'.agenda) stage.agenda := by
  cases move with
  | go other meanwhile =>
    by_cases hrun : other = run
    · subst hrun
      have hflag : h.flag? other = some true := hx ▸ hs.flag? hm hl
      rw [seenIn, if_pos rfl]
      exact go_flagged debug depth hflag hstage meanwhile
    · refine ⟨stage, (stage?_go_other debug depth hrun meanwhile).trans hstage, ?_⟩
      rw [seenIn, if_neg hrun]
      exact .refl _
  | start p s limited =>
    exact ⟨stage, (h.stage?_start p s limited (lt_of_standing? hm)).trans hstage, .refl _⟩
  | collect other => exact ⟨stage, (h.stage?_collect other run).trans hstage, .refl _⟩
  | expire other => exact ⟨stage, (h.stage?_expire other run).trans hstage, .refl _⟩
  | halt => exact ⟨stage, hstage, .refl _⟩

/-- Whatever happens after its limit has passed, a run does only what was on its agenda. -/
theorem after_flagged (hs : h.Sound) {run : Nat} {m : Standing} {stage : Stage}
    (hm : h.standing? run = some m) (hl : m.limited = true) (hx : m.expired = true)
    (hstage : h.stage? run = some stage) (moves : List Move) :
    List.Sublist (seen debug depth run h moves) stage.agenda := by
  induction moves generalizing h m stage with
  | nil => exact List.nil_sublist _
  | cons move moves ih =>
    obtain ⟨stage', hstage', hseen⟩ := apply_flagged debug depth hs hm hl hx hstage move
    obtain ⟨m', hm', hstays⟩ := standing?_apply debug depth hm move
    have hrest := ih (hs.apply debug depth move) hm' (hstays.limited.trans hl) (hstays.expired hx)
      hstage'
    exact ((List.Sublist.refl _).append hrest).trans hseen

/-- No statement and no round is on the agenda. -/
theorem agenda_begins_nothing {stage : Stage} {seen : List Machine.Event}
    (h : List.Sublist seen stage.agenda) (st : Stmt) : .begins st ∉ seen ∧ .round st ∉ seen := by
  cases stage with
  | due | refused =>
    have hnil : seen = [] := List.sublist_nil.mp h
    simp [hnil]
  | running C =>
    constructor
    · intro hst
      rcases Machine.Config.mem_agenda (h.subset hst) with ⟨_, ⟨⟩⟩ | ⟨_, _, ⟨⟩⟩ | ⟨_, _, ⟨⟩, _⟩
    · intro hst
      rcases Machine.Config.mem_agenda (h.subset hst) with ⟨_, ⟨⟩⟩ | ⟨_, _, ⟨⟩⟩ | ⟨_, _, ⟨⟩, _⟩

/-! ### What the flags tell -/

/-- What the flags of a host tell. The caller's context is `told` to stop or not. -/
structure Truthful (told : Bool) (h : Host) : Prop where
  caller : h.halted = told
  /-- A run with a time limit starts with a flag that is not set, whatever became of other runs. -/
  starts : ∀ p s limited, (h.start p s limited).flag? h.runs.length = some (!limited && told)
  unlimited : ∀ run m, h.standing? run = some m → m.limited = false → h.flag? run = some told
  limited : ∀ run m, h.standing? run = some m → m.limited = true → h.flag? run = some m.expired
  expires : ∀ run m, h.standing? run = some m → m.limited = true →
    (h.expire run).flag? run = some true
  /-- Nothing clears the flag of a run whose limit has passed. -/
  stays : ∀ run m, h.standing? run = some m → m.limited = true → m.expired = true →
    ∀ moves, (h.after debug depth moves).flag? run = some true
  /-- It begins no statement and no round any more. -/
  nothing_begins : ∀ run m, h.standing? run = some m → m.limited = true → m.expired = true →
    ∀ moves st, .begins st ∉ seen debug depth run h moves ∧ .round st ∉ seen debug depth run h moves

theorem Sound.truthful (hs : h.Sound) : h.Truthful debug depth h.halted where
  caller := rfl
  starts := flag?_start hs
  unlimited run m hm hl := by
    obtain ⟨flag, hflag⟩ := hs.caller
    rw [Host.flag?, hm, Option.bind_some, hs.shared run m hm hl, halted, hflag]
    rfl
  limited run m hm hl := hs.flag? hm hl
  expires run m hm hl := by
    have hm' : (h.expire run).standing? run = some { m with expired := true } := by
      rw [standing?_expire hm hl, if_pos rfl]
    exact (hs.expire run).flag? hm' hl
  stays run m hm hl hx moves := by
    obtain ⟨m', hm', hstays⟩ := standing?_after debug depth hm moves
    rw [(hs.after debug depth moves).flag? hm' (hstays.limited.trans hl), hstays.expired hx]
  nothing_begins run m hm hl hx moves := by
    obtain ⟨r, hr, -⟩ := Option.map_eq_some_iff.mp hm
    have hstage : h.stage? run = some r.stage := by
      rw [stage?, hr]
      rfl
    exact agenda_begins_nothing (after_flagged debug depth hs hm hl hx hstage moves)

/-- In every order of events the flags tell which limits have passed, and whether the caller's
context was told to stop. -/
theorem after_truthful (functions : FunctionTable) (halted : Bool) (moves : List Move) :
    ((fresh functions halted).after debug depth moves).Truthful debug depth
      (halted || moves.any Move.halts) := by
  have hfresh := Sound.fresh functions halted
  have htruthful := (hfresh.after debug depth moves).truthful debug depth
  rwa [halted_after debug depth hfresh] at htruthful

end Host
end Parlance
