import Parlance.Proofs.Steps.Halting
/-!
# Runs within a bound

A run within a time limit does not look at the halt flag of its session, and its loops may make no
more rounds than there is time for. Where the bound is not met and the flag is not set, this makes
no difference: with more rounds, and with a look at the flag, the run is the same
(`Run.statements_repeats`).
-/
namespace Parlance
namespace Run
open Machine

variable {α β : Type}

/-- The first run leaves a flag that is set as it is. Where it does not run out of rounds and the
flag is not set at its end, the second run is the same. -/
structure Repeats (x y : Run α) : Prop where
  told : Advances Told x
  same : ∀ s, (x s).1 ≠ .error .exhausted → (x s).2.halted = false → y s = x s

namespace Repeats

theorem onData {x : Run α} (hx : OnData x) : Repeats x x := ⟨onData_told hx, fun _ _ _ => rfl⟩

/-- A flag that is not set at the end of a run was never set. -/
theorem unset {x y : Run α} (h : Repeats x y) {s : State} (hs : (x s).2.halted = false) :
    s.halted = false := by
  refine Bool.eq_false_iff.mpr fun hset => ?_
  have htold := h.told s hset
  rw [hs] at htold
  cases htold

theorem bind {x y : Run α} {f g : α → Run β} (hx : Repeats x y) (hf : ∀ a, Repeats (f a) (g a)) :
    Repeats (x >>= f) (y >>= g) where
  told := hx.told.bind Told.trans fun a => (hf a).told
  same s hrounds hflag := by
    have hsame := hx.same s
    rw [bind_apply] at hrounds hflag ⊢
    rw [bind_apply]
    rcases hr : x s with ⟨e | a, after⟩
    · rw [hr] at hrounds hflag hsame
      have hne : e ≠ .exhausted := fun he => hrounds (congrArg Except.error he)
      rw [hsame (fun h => hne (Except.error.inj h)) hflag]
    · rw [hr] at hrounds hflag hsame
      rw [hsame nofun ((hf a).unset hflag)]
      exact (hf a).same after hrounds hflag

theorem within (frame : Frame) {x y : Run α} (h : Repeats x y) :
    Repeats (Run.within frame x) (Run.within frame y) where
  told s hs := h.told { s with frame := frame } hs
  same s hrounds hflag := by
    have hsame := h.same { s with frame := frame } hrounds hflag
    simp only [Run.within, hsame]

theorem catchReturn {x y : Run Unit} (h : Repeats x y) :
    Repeats (Run.catchReturn x) (Run.catchReturn y) where
  told s := by
    rw [catchReturn_snd]
    exact h.told s
  same s hrounds hflag := by
    rw [catchReturn_snd] at hflag
    have hne : (x s).1 ≠ .error .exhausted := by
      intro hexhausted
      apply hrounds
      unfold Run.catchReturn
      rcases hr : x s with ⟨r, after⟩
      rw [hr] at hexhausted
      cases hexhausted
      rfl
    unfold Run.catchReturn
    rw [h.same s hne hflag]

/-! ### Loops with more rounds -/

theorem pure (a : α) : Repeats (Pure.pure a : Run α) (Pure.pure a) := onData (.pure a)

theorem loop {test test' : Run Bool} {x y : Run Unit} (ht : Repeats test test') (h : Repeats x y)
    {m n : Nat} (hmn : m ≤ n) : Repeats (Run.loop test x m) (Run.loop test' y n) := by
  induction m generalizing n with
  | zero => exact ⟨onData_told (.stop _), fun _ hrounds => absurd rfl hrounds⟩
  | succ m ih =>
    obtain ⟨n, rfl⟩ : ∃ k, n = k + 1 := ⟨n - 1, by omega⟩
    refine ht.bind fun b => ?_
    cases b with
    | true => exact h.bind fun _ => ih (Nat.le_of_succ_le_succ hmn)
    | false => exact pure ()

theorem times {x y : Run Unit} (h : Repeats x y) (n : Nat) :
    Repeats (Run.times x n) (Run.times y n) := by
  induction n with
  | zero => exact pure ()
  | succ n ih => exact h.bind fun _ => ih

/-- What stops a number of rounds stops a larger number. -/
theorem times_stopped {x : Run Unit} {m n : Nat} (hmn : m ≤ n) {s after : State} {e : Stop}
    (h : Run.times x m s = (.error e, after)) : Run.times x n s = (.error e, after) := by
  induction m generalizing n s with
  | zero => cases h
  | succ m ih =>
    obtain ⟨n, rfl⟩ : ∃ k, n = k + 1 := ⟨n - 1, by omega⟩
    rw [Run.times, bind_apply] at h ⊢
    rcases hr : x s with ⟨e' | a, middle⟩
    · rw [hr] at h
      exact h
    · rw [hr] at h
      exact ih (Nat.le_of_succ_le_succ hmn) h

theorem timesWithin {x y : Run Unit} (h : Repeats x y) {rounds rounds' : Nat}
    (hle : rounds ≤ rounds') (n : Nat) :
    Repeats (Run.timesWithin x rounds n) (Run.timesWithin y rounds' n) where
  told := by
    refine (h.times _).told.bind Told.trans fun _ => ?_
    split
    · exact onData_told (.stop _)
    · exact onData_told (.pure ())
  same s hrounds hflag := by
    have hsame := (h.times (min n rounds)).same s
    unfold Run.timesWithin at hrounds hflag ⊢
    rw [bind_apply] at hrounds hflag ⊢
    rw [bind_apply]
    rcases hr : Run.times x (min n rounds) s with ⟨e | a, after⟩
    · rw [hr] at hrounds hflag hsame
      have hy := hsame (fun h => hrounds h) hflag
      rw [times_stopped (by omega) hy]
    · rw [hr] at hrounds hflag hsame
      simp only at hrounds hflag
      by_cases hlt : rounds < n
      · rw [if_pos hlt] at hrounds
        exact absurd rfl hrounds
      · rw [if_neg hlt] at hflag
        have hy := hsame nofun hflag
        have hmin : min n rounds' = min n rounds := by omega
        have hlt' : ¬ rounds' < n := by omega
        rw [hmin, hy]
        simp only [if_neg hlt, if_neg hlt']

/-! ### The halt flag -/

variable {c c' : Context}

theorem heed (hc : c.heedsHalt = false) (offset : Nat) :
    Repeats (Run.heed c offset) (Run.heed c' offset) where
  told := heed_told c offset
  same s _ hflag := by
    have hpass : Run.heed c offset s = (.ok (), s) := by simp [Run.heed, hc]
    rw [hpass] at hflag ⊢
    have hunset : s.halted = false := hflag
    simp [Run.heed, hunset]

theorem note (line : String) : Repeats (Run.note line) (Run.note line) :=
  ⟨note_told line, fun _ _ _ => rfl⟩

end Repeats

variable {c c' : Context}

/-- A context that does not look at the flag, and one that gives loops as many rounds or more. -/
theorem correspondence_repeats (hc : c.heedsHalt = false) (hf : c'.functions = c.functions)
    (hd : c'.debug = c.debug) (hr : c.rounds ≤ c'.rounds) :
    Correspondence (fun x y => Repeats x y) c c' where
  functions := hf
  onData := .onData
  bind := .bind
  within := .within
  catchReturn := .catchReturn
  loop ht h := ht.loop h hr
  timesWithin h n := h.timesWithin hr n
  write text := ⟨(congruence_told c).write text, fun _ _ _ => rfl⟩
  heed := .heed hc
  enter kind offset := by
    refine (Repeats.heed hc offset).bind fun _ => ?_
    rw [hd]
    cases c.debug with
    | true => exact .note _
    | false => exact .pure ()
  noteCall name args := by
    unfold noteCall
    rw [hd]
    split
    · exact (Repeats.onData (.fromStore _ _)).bind fun _ => .note _
    · exact .pure ()

/-- A program that comes to its end within a bound, and is not told to stop, does the same without
the bound. -/
theorem statements_repeats (hc : c.heedsHalt = false) (hf : c'.functions = c.functions)
    (hd : c'.debug = c.debug) (hr : c.rounds ≤ c'.rounds) (depth : Nat) (p : Program) :
    Repeats (statements c depth p) (statements c' depth p) :=
  (correspondence_repeats hc hf hd hr).statements depth p

end Run
end Parlance
