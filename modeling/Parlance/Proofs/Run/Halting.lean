import Parlance.Proofs.Run.Pairs
import Parlance.Proofs.Run.Sessions
/-!
# Halting as a clean cut

A run that is told to stop after so many writes does what the same run does that is never told to,
up to the point where it heeds the halt flag (`Session.run_cutShort`). What it has written there is
a beginning of what the other run writes, and holds at least the writes after which it was told. If
it never comes to that point, the two runs do not differ.
-/
namespace Parlance

namespace State

/-- The halt flag is set as soon as so many texts are written. -/
structure Counts (n : Nat) (s : State) : Prop where
  halted : s.halted = decide (n ≤ s.written.length)
  haltAfter : s.haltAfter = some (n - s.written.length)

theorem Counts.afterWrite {n : Nat} {s : State} (h : s.Counts n) (text : String) :
    (s.afterWrite text).Counts n := by
  constructor
  · rw [Bool.eq_iff_iff]
    simp only [State.afterWrite, h.halted, h.haltAfter, Option.any_some, List.length_cons,
      Bool.or_eq_true, decide_eq_true_eq]
    omega
  · simp only [State.afterWrite, h.haltAfter, Option.map_some, List.length_cons, Option.some.injEq]
    omega

/-- The state in which the program has not been told to stop and will not be. -/
def unhalted (s : State) : State := { s with halted := false, haltAfter := none }

/-- What was written stays written, and a program that is never told to stop is not told. -/
structure Onward (s t : State) : Prop where
  written : s.written <:+ t.written
  haltAfter : s.haltAfter = none → t.haltAfter = none
  halted : s.haltAfter = none → t.halted = s.halted

theorem Onward.refl (s : State) : Onward s s := ⟨List.suffix_rfl, id, fun _ => rfl⟩

theorem Onward.trans (s t u : State) (hst : Onward s t) (htu : Onward t u) : Onward s u where
  written := hst.written.trans htu.written
  haltAfter h := htu.haltAfter (hst.haltAfter h)
  halted h := (htu.halted (hst.haltAfter h)).trans (hst.halted h)

theorem onward_afterWrite (s : State) (text : String) : Onward s (s.afterWrite text) := by
  refine ⟨List.suffix_cons _ _, ?_, ?_⟩
  · intro h
    simp only [State.afterWrite, h, Option.map_none]
  · intro h
    simp only [State.afterWrite, h, Option.any_none, Bool.or_false]

end State

namespace Run

variable {α β : Type} {n : Nat}

/-- The answer of a run that is told to stop after so many writes, and that of the same run without:
the same, or the first one stopped because it was told to. -/
structure Cut (n : Nat) (r q : Except Stop α × State) : Prop where
  counts : r.2.Counts n
  ends : q = (r.1, r.2.unhalted) ∨
    (∃ offset, r.1 = .error (.fault .halted offset)) ∧ n ≤ r.2.written.length ∧
      r.2.written <:+ q.2.written

/-- The second run, never told to stop, does what the first one does up to where that is cut. -/
def Cuts (n : Nat) (x y : Run α) : Prop :=
  Advances State.Onward y ∧ ∀ s : State, s.Counts n → Cut n (x s) (y s.unhalted)

namespace Cuts

theorem onData {x : Run α} (hx : OnData x) : Cuts n x x := by
  constructor
  · intro s
    rw [hx s]
    exact ⟨List.suffix_rfl, id, fun _ => rfl⟩
  · intro s hs
    rw [hx s, hx s.unhalted]
    exact ⟨⟨hs.halted, hs.haltAfter⟩, .inl rfl⟩

theorem bind {x y : Run α} {f g : α → Run β} (hx : Cuts n x y) (hf : ∀ a, Cuts n (f a) (g a)) :
    Cuts n (x >>= f) (y >>= g) := by
  have hg : ∀ a, Advances State.Onward (g a) := fun a => (hf a).1
  refine ⟨hx.1.bind State.Onward.trans hg, fun s hs => ?_⟩
  obtain ⟨hcounts, hsame | ⟨⟨offset, hstop⟩, hlength, hwritten⟩⟩ := hx.2 s hs
  · rw [bind_apply, bind_apply, hsame]
    rcases hr : x s with ⟨e | a, after⟩
    · rw [hr] at hcounts
      exact ⟨hcounts, .inl rfl⟩
    · rw [hr] at hcounts
      exact (hf a).2 after hcounts
  · rw [bind_of_fault hstop]
    refine ⟨hcounts, .inr ⟨⟨offset, rfl⟩, hlength, ?_⟩⟩
    exact hwritten.trans (Advances.second State.Onward.refl y hg _).written

theorem within (frame : Frame) {x y : Run α} (h : Cuts n x y) :
    Cuts n (Run.within frame x) (Run.within frame y) := by
  constructor
  · intro s
    obtain ⟨hwritten, hafter, hhalted⟩ := h.1 { s with frame := frame }
    exact ⟨hwritten, hafter, hhalted⟩
  · intro s hs
    obtain ⟨hcounts, hends⟩ := h.2 { s with frame := frame } ⟨hs.halted, hs.haltAfter⟩
    refine ⟨⟨hcounts.halted, hcounts.haltAfter⟩, ?_⟩
    rcases hends with hsame | hstop
    · have hinner : y { s.unhalted with frame := frame } = _ := hsame
      unfold Run.within
      rw [hinner]
      exact .inl rfl
    · exact .inr hstop

theorem catchReturn {x y : Run Unit} (h : Cuts n x y) :
    Cuts n (Run.catchReturn x) (Run.catchReturn y) := by
  constructor
  · intro s
    rw [catchReturn_snd]
    exact h.1 s
  · intro s hs
    obtain ⟨hcounts, hsame | ⟨⟨offset, hstop⟩, hlength, hwritten⟩⟩ := h.2 s hs
    · rw [← catchReturn_snd] at hcounts
      refine ⟨hcounts, .inl ?_⟩
      unfold Run.catchReturn
      rw [hsame]
      rcases x s with ⟨e | a, after⟩
      · cases e with
        | returned | fault | exhausted | waiting => rfl
      · rfl
    · rw [catchReturn_of_fault hstop]
      refine ⟨hcounts, .inr ⟨⟨offset, rfl⟩, hlength, ?_⟩⟩
      rwa [catchReturn_snd]

theorem write (text : String) : Cuts n (Run.write text) (Run.write text) :=
  ⟨fun s => s.onward_afterWrite text, fun _ hs => ⟨hs.afterWrite text, .inl rfl⟩⟩

theorem heed (c : Context) (offset : Nat) : Cuts n (Run.heed c offset) (Run.heed c offset) := by
  constructor
  · intro s
    unfold Run.heed
    split
    · exact .refl s
    · exact .refl s
  · intro s hs
    have hfree : Run.heed c offset s.unhalted = (.ok (), s.unhalted) := by
      have hflag : (c.heedsHalt && s.unhalted.halted) = false := Bool.and_false _
      unfold Run.heed
      rw [hflag]
      rfl
    rw [hfree]
    cases h : c.heedsHalt && s.halted with
    | false =>
      unfold Run.heed
      rw [h]
      exact ⟨hs, .inl rfl⟩
    | true =>
      have hhalted : s.halted = true := by
        cases hf : s.halted with
        | true => rfl
        | false => simp [hf] at h
      rw [hs.halted, decide_eq_true_eq] at hhalted
      unfold Run.heed
      rw [h]
      exact ⟨hs, .inr ⟨⟨offset, rfl⟩, hhalted, List.suffix_rfl⟩⟩

theorem note (line : String) : Cuts n (Run.note line) (Run.note line) :=
  ⟨fun _ => ⟨List.suffix_rfl, id, fun _ => rfl⟩,
    fun _ hs => ⟨⟨hs.halted, hs.haltAfter⟩, .inl rfl⟩⟩

theorem enter (c : Context) (kind : NodeKind) (offset : Nat) :
    Cuts n (Run.enter c kind offset) (Run.enter c kind offset) := by
  apply (heed c offset).bind
  intro _
  cases c.debug with
  | true => exact note _
  | false => exact onData (.pure ())

theorem noteCall (c : Context) (name : String) (args : List Value) :
    Cuts n (Run.noteCall c name args) (Run.noteCall c name args) := by
  unfold Run.noteCall
  split
  · exact (onData (.fromStore _ _)).bind fun texts => note _
  · exact onData (.pure ())

end Cuts

theorem congruence_cuts (n : Nat) (c : Context) : Congruence (fun x y => Cuts n x y) c c where
  functions := rfl
  rounds := rfl
  onData := .onData
  bind := .bind
  within := .within
  catchReturn := .catchReturn
  write := .write
  heed := .heed c
  enter := .enter c
  noteCall := .noteCall c

end Run

namespace Session

variable {s : Session} {timeout : Option Number} {n : Nat}

/-- A step of a session that is told to stop after so many writes, and the same step if the session
is never told to. -/
structure CutShort (n : Nat) (cut free : Step) : Prop where
  free_halted : free.session.halted = false
  cut_halted : cut.session.halted = decide (n ≤ cut.written.length)
  written : cut.written <+: free.written
  enough : n ≤ free.written.length → n ≤ cut.written.length
  same : (∀ offset, cut.outcome ≠ .failed (.run .halted offset)) →
    cut.outcome = free.outcome ∧ cut.written = free.written ∧ cut.trace = free.trace ∧
      cut.session = { free.session with halted := cut.session.halted }

theorem CutShort.of_failure (hs : s.halted = false) (hn : 0 < n) (outcome : Outcome) :
    CutShort n ⟨outcome, s, [], []⟩ ⟨outcome, s, [], []⟩ where
  free_halted := hs
  cut_halted := by
    have hbelow : ¬ n ≤ 0 := Nat.not_le.mpr hn
    exact hs.trans (decide_eq_false hbelow).symm
  written := List.prefix_rfl
  enough h := h
  same _ := ⟨rfl, rfl, rfl, rfl⟩

theorem stepOf_cutShort (s : Session) (timeout : Option Number) (f : FunctionTable)
    {r q : Except Stop Unit × State} (h : Run.Cut n r q) (hq : q.2.halted = false) :
    CutShort n (s.stepOf ⟨timeout, some n⟩ f r) (s.stepOf ⟨timeout, none⟩ f q) := by
  obtain ⟨hcounts, hends⟩ := h
  have hhalted : (s.stepOf ⟨timeout, some n⟩ f r).session.halted
      = decide (n ≤ (s.stepOf ⟨timeout, some n⟩ f r).written.length) := by
    have hlength : (s.stepOf ⟨timeout, some n⟩ f r).written.length = r.2.written.length :=
      List.length_reverse
    rw [hlength]
    exact hcounts.halted
  rcases hends with rfl | ⟨⟨offset, hstop⟩, hlength, hwritten⟩
  · exact ⟨hq, hhalted, List.prefix_rfl, id, fun _ => ⟨rfl, rfl, rfl, rfl⟩⟩
  · refine ⟨hq, hhalted, List.reverse_prefix.mpr hwritten, fun _ => ?_, fun hgoes => ?_⟩
    · simpa [stepOf] using hlength
    · refine absurd ?_ (hgoes offset)
      have houtcome : (s.stepOf ⟨timeout, some n⟩ f r).outcome = outcomeOf timeout r.1 := rfl
      rw [houtcome, hstop]
      rfl

/-- A program that is told to stop after so many writes is cut short cleanly. -/
theorem run_cutShort (hs : s.halted = false) (timeout : Option Number) (hn : 0 < n) (p : Program) :
    CutShort n (s.run ⟨timeout, some n⟩ p) (s.run ⟨timeout, none⟩ p) := by
  cases ho : RunOptions.isEndless ⟨timeout, none⟩ with
  | true =>
    have ho' : RunOptions.isEndless ⟨timeout, some n⟩ = true := ho
    unfold run
    rw [ho, ho']
    exact .of_failure hs hn _
  | false =>
    have ho' : RunOptions.isEndless ⟨timeout, some n⟩ = false := ho
    cases hb : p.bind s.functions with
    | error fault =>
      unfold run
      rw [ho, ho', hb]
      exact .of_failure hs hn _
    | ok f =>
      obtain ⟨honward, hcut⟩ := (Run.congruence_cuts n (s.context f ⟨timeout, none⟩)).statements
        s.limits.calls p
      have hcounts : (s.state (some n)).Counts n := by
        refine ⟨?_, rfl⟩
        have hbelow : ¬ n ≤ (s.state (some n)).written.length := Nat.not_le.mpr hn
        rw [decide_eq_false hbelow]
        exact hs
      have hstart : (s.state (some n)).unhalted = s.state none := by
        simp [State.unhalted, state, hs]
      rw [run_eq_stepOf ho hb, run_eq_stepOf ho' hb]
      apply stepOf_cutShort
      · rw [← hstart]
        exact hcut _ hcounts
      · exact ((honward (s.state none)).halted rfl).trans hs

/-- A text is written again and again. -/
def ticking : Program := ⟨[], [.whileDo (.truth true 6) [.say (.text "tick" 16) 12] 0]⟩

/-- Told to stop after two writes, it makes these two, and otherwise as many as its loop has
rounds. -/
theorem ticking_cutShort :
    let cut := blank.run ⟨none, some 2⟩ ticking
    let free := blank.run .plain ticking
    cut.written = ["tick\n", "tick\n"] ∧ cut.outcome = .failed (.run .halted 0) ∧
      cut.written <+: free.written ∧ free.written.length = 10 ∧ free.outcome = .exhausted := by
  have h := run_cutShort (s := blank) rfl none (n := 2) (by decide) ticking
  exact ⟨rfl, rfl, h.written, rfl, rfl⟩

end Session
end Parlance
