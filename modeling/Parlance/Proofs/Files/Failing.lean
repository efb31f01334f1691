import Mathlib
import Parlance.Proofs.Files.Writing
import Parlance.Proofs.Lists.Display
import Parlance.Proofs.Run.Sessions
/-!
# Writes that fail

A file is opened, and thereby created or emptied, before the text that goes into it is computed. So a
write that fails before the file is opened leaves all files alone, but one that fails because its
content has no display leaves an empty file behind, whatever was there before
(`Run.failed_write_iff`, `Session.failed_write_empties`).
-/
namespace Parlance

namespace Files

variable {files before after : Files} {place : List String} {path : String}

/-- The same files are there, with the same contents. -/
def Same (before after : Files) : Prop :=
  ∀ path bytes, after.read path = .ok bytes ↔ before.read path = .ok bytes

theorem Same.refl (files : Files) : Same files files := fun _ _ => Iff.rfl

/-- A file that is given the contents it has is the same file. -/
theorem same_store (h : files.Reached place) {bytes : List UInt8}
    (hentry : files.entry place = .file bytes) : Same files (files.store place bytes) := by
  have hfree : files.entry place ≠ .folder := by simp [hentry]
  have hchanged := changedAt_store h hfree bytes
  have hself : (files.store place bytes).entry place = .file bytes :=
    entry_store_self (isBase_eq_false hfree) bytes
  intro path contents
  by_cases hplace : files.resolve path = .ok place
  · have hafter := (hchanged.resolve_iff path place).mpr hplace
    simp only [read, hplace, hafter, bind, Except.bind, hentry, hself]
  · exact hchanged.read_iff hplace contents

/-- To empty a file changes nothing exactly if it is there and empty already. -/
theorem same_emptied_iff (h : files.writable path = .ok place) :
    Same files (files.store place []) ↔ files.read path = .ok [] := by
  constructor
  · intro hsame
    exact (hsame path []).mp (read_store h [])
  · intro hread
    obtain ⟨hplace, -, -⟩ := writable_eq_ok.mp h
    obtain ⟨there, hthere, -, hentry⟩ := read_eq_ok.mp hread
    rw [hplace] at hthere
    cases hthere
    exact same_store (reached_of_resolve hplace) hentry

end Files

namespace Run

variable {α β : Type} {s s' : State} {offset : Nat} {e : Stop}

theorem bind_eq_error {x : Run α} {f : α → Run β} :
    (x >>= f) s = (.error e, s') ↔
      x s = (.error e, s') ∨ ∃ a between, x s = (.ok a, between) ∧ f a between = (.error e, s') := by
  rw [bind_apply]
  obtain ⟨r, between⟩ := x s
  cases r with
  | error other => simp
  | ok a => simp

theorem fromStore_eq_error {f : Store → Except Fault α} :
    fromStore offset f s = (.error e, s') ↔
      ∃ fault, f s.store = .error fault ∧ e = .fault fault (fault.place offset) ∧ s' = s := by
  unfold fromStore
  cases f s.store with
  | ok a => simp [ofExcept, result]
  | error fault => simp [ofExcept, fail, stop, eq_comm]

/-- How a file fails to be written: only a content without a display is noticed after the file has
been opened. -/
theorem writeFile_eq_error {path : String} {content : Value}
    (h : writeFile offset path content s = (.error e, s')) :
    ((∀ place, s.world.knows path = true → s.world.files.writable path ≠ .ok place) ∧ s' = s) ∨
      ∃ place, s.world.knows path = true ∧ s.world.files.writable path = .ok place
        ∧ ¬ s.store.Acyclic content ∧ e = .fault .tooDeep 0 ∧ s' = s.stored place "" := by
  unfold writeFile knowing at h
  cases hknows : s.world.knows path with
  | false =>
    rw [hknows] at h
    cases h
    exact .inl ⟨by simp, rfl⟩
  | true =>
    cases hplace : s.world.files.writable path with
    | error reason =>
      simp only [hknows, hplace, if_pos] at h
      cases h
      exact .inl ⟨by simp, rfl⟩
    | ok place =>
      have hopen : storeFile place "" s = (.ok (), s.stored place "") := rfl
      have hstore : (s.stored place "").store = s.store := rfl
      simp only [hknows, hplace, if_pos, bind_eq_error, hopen] at h
      obtain h | ⟨u, between, heq, h | ⟨text, after, -, hlast⟩⟩ := h
      · cases h
      · cases heq
        obtain ⟨fault, hfault, rfl, rfl⟩ := fromStore_eq_error.mp h
        rw [hstore] at hfault
        obtain ⟨rfl, hcyclic⟩ := Store.toText_eq_error_iff.mp hfault
        exact .inr ⟨place, rfl, rfl, hcyclic, rfl, rfl⟩
      · cases hlast

/-- A call of `write_text` comes to open the file at a place, for a content. -/
def Opens (s : State) (args : List Value) (path : String) (place : List String) (content : Value) :
    Prop :=
  ∃ v, args = [v, content] ∧ s.store.toText v = .ok path ∧ s.world.knows path = true
    ∧ s.world.files.writable path = .ok place

variable {called : String} {args : List Value}

theorem callBuiltin_of_length_ne {b : Builtin} (h : args.length ≠ b.arity) :
    callBuiltin b called args offset s =
      (.error (.fault (.argumentCount called b.arity args.length) offset), s) := by
  rw [callBuiltin, bind_apply, checkCount, if_neg h]
  rfl

theorem callBuiltin_writeText_eq_error
    (h : callBuiltin .writeText called args offset s = (.error e, s')) :
    ((∀ path place content, ¬ Opens s args path place content) ∧ s' = s) ∨
      ∃ path place content, Opens s args path place content ∧ ¬ s.store.Acyclic content
        ∧ e = .fault .tooDeep 0 ∧ s' = s.stored place "" := by
  by_cases hlength : args.length = 2
  · obtain ⟨v, content, rfl⟩ := List.length_eq_two.mp hlength
    simp only [callBuiltin_writeText, bind_eq_error] at h
    obtain h | ⟨path, first, hpath, h | ⟨u, second, -, hlast⟩⟩ := h
    · obtain ⟨fault, hfault, -, rfl⟩ := fromStore_eq_error.mp h
      refine .inl ⟨?_, rfl⟩
      rintro path place other ⟨w, heq, hpath, -⟩
      cases heq
      rw [hfault] at hpath
      cases hpath
    · obtain ⟨hpath, rfl⟩ := fromStore_eq_ok.mp hpath
      obtain ⟨hshut, rfl⟩ | ⟨place, hknows, hplace, hcyclic, rfl, rfl⟩ := writeFile_eq_error h
      · refine .inl ⟨?_, rfl⟩
        rintro other place third ⟨w, heq, hother, hknows, hplace⟩
        cases heq
        rw [hpath] at hother
        cases hother
        exact hshut place hknows hplace
      · exact .inr ⟨path, place, content, ⟨v, rfl, hpath, hknows, hplace⟩, hcyclic, rfl, rfl⟩
    · cases hlast
  · rw [callBuiltin_of_length_ne hlength] at h
    cases h
    refine .inl ⟨?_, rfl⟩
    rintro path place content ⟨v, rfl, -⟩
    exact hlength rfl

theorem Opens.unique {path other : String} {place there : List String} {content third : Value}
    (h : Opens s args path place content) (h' : Opens s args other there third) :
    other = path ∧ there = place ∧ third = content := by
  obtain ⟨v, rfl, hpath, -, hplace⟩ := h
  obtain ⟨w, heq, hother, -, hthere⟩ := h'
  cases heq
  rw [hpath] at hother
  cases hother
  rw [hplace] at hthere
  cases hthere
  exact ⟨rfl, rfl, rfl⟩

/-- A call of `write_text` that fails leaves all files alone, and the whole state with them, if it
does not come to open a file. Otherwise its content has no display, the call fails with too deep a
call, and the file is there and empty afterwards; so the files are the same exactly if it was there
and empty before. -/
theorem failed_write_iff (h : callBuiltin .writeText called args offset s = (.error e, s')) :
    (Files.Same s.world.files s'.world.files ↔
      ∀ path place content, Opens s args path place content → s.world.files.read path = .ok []) ∧
    ((∀ path place content, ¬ Opens s args path place content) → s' = s) ∧
    ∀ path place content, Opens s args path place content →
      ¬ s.store.Acyclic content ∧ e = .fault .tooDeep 0 ∧ s' = s.stored place ""
        ∧ s'.world.files.read path = .ok []
        ∧ Files.ChangedAt place s.world.files s'.world.files := by
  obtain ⟨hshut, rfl⟩ | ⟨path, place, content, hopens, hcyclic, rfl, rfl⟩ :=
    callBuiltin_writeText_eq_error h
  · refine ⟨⟨fun _ path place content hopens => ?_, fun _ => .refl _⟩, fun _ => rfl,
      fun path place content hopens => ?_⟩
    · exact absurd hopens (hshut path place content)
    · exact absurd hopens (hshut path place content)
  · have ⟨_, _, _, _, hplace⟩ := hopens
    have hempty : (s.stored place "").world.files = s.world.files.store place [] := rfl
    rw [hempty]
    refine ⟨?_, fun hshut => ?_, ?_⟩
    · rw [Files.same_emptied_iff hplace]
      constructor
      · intro hread other there third hother
        obtain ⟨rfl, -, -⟩ := hopens.unique hother
        exact hread
      · intro hread
        exact hread path place content hopens
    · exact absurd hopens (hshut path place content)
    · intro other there third hother
      obtain ⟨rfl, rfl, rfl⟩ := hopens.unique hother
      obtain ⟨hresolve, -, hfree⟩ := Files.writable_eq_ok.mp hplace
      exact ⟨hcyclic, rfl, rfl, Files.read_store hplace [],
        Files.changedAt_store (Files.reached_of_resolve hresolve) hfree []⟩

/-- A desk with a list that contains itself. -/
def loopDesk : State := { desk with store := ⟨#[#[.list 0]]⟩ }

/-- Without the folder that a path names the files stay as they are. A file that is there is emptied,
for the same content. -/
theorem loopDesk_writes :
    (∃ after, callBuiltin .writeText "write_text" [.text "d/f", .list 0] 3 loopDesk
        = (.error (.fault (.writeFailed "d/f" .missing) 3), after)
      ∧ Files.Same loopDesk.world.files after.world.files) ∧
    ∃ after, callBuiltin .writeText "write_text" [.text "g", .list 0] 3 loopDesk
        = (.error (.fault .tooDeep 0), after)
      ∧ ¬ Files.Same loopDesk.world.files after.world.files := by
  constructor
  · have h : callBuiltin .writeText "write_text" [.text "d/f", .list 0] 3 loopDesk
        = (.error (.fault (.writeFailed "d/f" .missing) 3), loopDesk) := rfl
    refine ⟨_, h, (failed_write_iff h).1.mpr ?_⟩
    rintro path place content ⟨v, heq, hpath, -, hplace⟩
    cases heq
    cases hpath
    cases hplace
  · have h : callBuiltin .writeText "write_text" [.text "g", .list 0] 3 loopDesk
        = (.error (.fault .tooDeep 0), loopDesk.stored ["g"] "") := rfl
    refine ⟨_, h, fun hsame => ?_⟩
    have hread : loopDesk.world.files.read "g" = .ok [] :=
      (failed_write_iff h).1.mp hsame "g" ["g"] (.list 0) ⟨.text "g", rfl, rfl, rfl, rfl⟩
    cases hread

end Run

namespace Session

/-- A list is put into itself, and then written to a file. -/
def loopSource : List Char := "let x be []. append x to x. write_text(\"f\", x).".toList

def loop : Program :=
  ⟨[], [.letBe "x" (.list [] 9) 0, .append (.name "x" 20) "x" 13,
    .evaluate (.call "write_text" [.text "f" 39, .name "x" 44] 28) 28]⟩

/-- The write fails, and what was in the file is lost. -/
theorem failed_write_empties :
    let files : Files := ⟨[("f", [97, 98, 99])], []⟩
    let before := { blank with world := { blank.world with files := files } }
    let step := before.runSource .plain loopSource
    step.outcome = .failed (.run .tooDeep 0)
      ∧ before.world.files.read "f" = .ok [97, 98, 99]
      ∧ step.session.world.files.read "f" = .ok [] := by
  intro files before step
  have hp : Source.program before.limits.nesting loopSource = .ok loop := by cbv
  have hstep : step = before.run .plain loop := by
    simp only [step, runSource, hp]
    rfl
  rw [hstep]
  exact ⟨rfl, rfl, rfl⟩

end Session
end Parlance
