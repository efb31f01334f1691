import Mathlib
import Parlance.Proofs.Joining.Sessions
import Parlance.Proofs.Lines.Breaks
import Parlance.Proofs.Run.Sessions
import Parlance.Shell.Repl
/-!
# Typing a program line by line

A program whose lines are given to the interactive shell one after another is taken as it is: the
shell collects lines, runs them as soon as they make a program, and goes on with the next one
(`Repl.takes_iff`). There are two exceptions. The head of a declaration may not be torn: its keyword
and its name alone are refused and not waited for. And a line that consists of the word for leaving
leaves the shell even with blanks around it.
-/
namespace Parlance
open Text Token Parse Grammar

/-! ### What the shell does with lines -/

/-- The source that lines make. -/
def sourceOf (lines : List String) : List Char := (String.intercalate "\n" lines).toList

/-- The failure is one of reading a source. -/
def Failure.ofReading : Failure → Bool
  | lex _ | parse _ _ => true
  | binding _ | run _ _ => false

/-- The run behind a reply has come to its end, and the shell is still there. -/
def Reply.Settled (reply : Reply) : Prop := reply.need = none ∧ reply.breakdown = none

namespace Repl

/-- The shell with one more line pending. -/
def holding (r : Repl) (line : String) : Repl := { r with pending := r.pending ++ [line] }

/-- The source that the pending lines make. -/
def source (r : Repl) : List Char := sourceOf r.pending

/-- What the pending lines are read as. -/
def reading (r : Repl) : Except Failure Program :=
  Source.program r.session.limits.nesting r.source

/-- What a shell with debugging says while it reads the pending lines. -/
def readingTrace (r : Repl) : List String :=
  if r.session.debug then Source.programTrace r.session.limits.nesting r.source else []

/-- The shell after lines have been given to it at its prompt. -/
def typed (r : Repl) (lines : List String) : Repl := lines.foldl (fun r line => (r.submit line).1) r

/-- The shell takes lines that are given to it at its prompt, in order and without a complaint about
how they read, until none is pending. A line is kept if more lines may complete what is pending, and
if it makes a program of it then the program is run. The lines of each program are listed. -/
inductive Takes : Repl → List String → List (List String) → Prop
  | done {r : Repl} : r.pending = [] → Takes r [] []
  | collects {r : Repl} {line : String} {lines : List String} {units : List (List String)}
      {failure : Failure} :
      (r.holding line).reading = .error failure → failure.diagnostic.isIncomplete = true →
      r.submit line = (r.holding line,
        { Reply.silent with err := unlines (r.holding line).readingTrace }) →
      Takes (r.holding line) lines units → Takes r (line :: lines) units
  | runs {r : Repl} {line : String} {lines : List String} {units : List (List String)}
      {p : Program} :
      (r.holding line).reading = .ok p →
      r.submit line = r.execute (r.holding line).readingTrace (r.holding line).source p →
      (∀ failure, (r.session.run ⟨r.timeout, none⟩ p).outcome = .failed failure →
        failure.ofReading = false) →
      (r.submit line).2.Settled → Takes (r.submit line).1 lines units →
      Takes r (line :: lines) ((r.holding line).pending :: units)

end Repl

/-! ### Lines that make a program -/

/-- The lines make a program. -/
def Reads (nesting : Nat) (lines : List String) : Prop :=
  ∃ p, Source.program nesting (sourceOf lines) = .ok p

/-- The lines end in the head of a declaration before its parenthesis. -/
def TearsHead (nesting : Nat) (lines : List String) : Prop :=
  ∃ ts, Source.tokens (sourceOf lines) = .ok ts ∧ Torn nesting ts

section Lines

variable {nesting : Nat} {xs ys : List String} {a b : List Char} {ts vs : List Token}

theorem sourceOf_append (hxs : xs ≠ []) (hys : ys ≠ []) :
    sourceOf (xs ++ ys) = sourceOf xs ++ '\n' :: sourceOf ys := by
  simp [sourceOf, String.intercalate_append_of_ne_nil hxs hys]

theorem tokens_nil : Source.tokens (sourceOf []) = .ok [] := by
  have hnil : sourceOf [] = [] := rfl
  rw [Source.tokens_eq_ok, hnil, canonicalFrom, scanAll]

theorem reads_iff (h : Source.tokens (sourceOf xs) = .ok ts) :
    Reads nesting xs ↔ Reaches nesting ts [] := by
  rw [reaches_nil_iff]
  exact exists_congr fun p => Source.program_eq_ok h

theorem reads_nil : Reads nesting [] := (reads_iff tokens_nil).mpr .refl

theorem Reads.exists_tokens (h : Reads nesting xs) :
    ∃ ts, Source.tokens (sourceOf xs) = .ok ts ∧ Reaches nesting ts [] := by
  obtain ⟨p, hp⟩ := h
  obtain ⟨ts, hts, hparse⟩ := Source.exists_tokens hp
  exact ⟨ts, hts, reaches_nil_iff.mpr ⟨p, hparse⟩⟩

theorem tearsHead_iff (h : Source.tokens (sourceOf xs) = .ok ts) :
    TearsHead nesting xs ↔ Torn nesting ts := by
  constructor
  · rintro ⟨us, hus, htorn⟩
    rwa [Except.ok.inj (hus.symm.trans h)] at htorn
  · exact fun htorn => ⟨ts, h, htorn⟩

/-- The first lines of a program have tokens. -/
theorem tokens_of_append (h : Source.tokens (sourceOf (xs ++ ys)) = .ok vs) :
    ∃ ts, Source.tokens (sourceOf xs) = .ok ts ∧ Begins false ts vs := by
  by_cases hxs : xs = []
  · subst hxs
    exact ⟨[], tokens_nil, .nil⟩
  · by_cases hys : ys = []
    · subst hys
      rw [List.append_nil] at h
      exact ⟨vs, h, .refl false vs⟩
    · rw [sourceOf_append hxs hys] at h
      obtain ⟨us, hus, hcut⟩ := tokens_beginning h
      exact ⟨us, hus, hcut.begins⟩

/-- The first lines of a program are a program, or end in the head of a declaration, or the parser
asks for more. -/
theorem reads_beginning (h : Reads nesting (xs ++ ys)) : Reads nesting xs ∨ TearsHead nesting xs ∨
    ∃ failure, Source.program nesting (sourceOf xs) = .error failure ∧
      failure.diagnostic.isIncomplete = true := by
  obtain ⟨vs, hvs, hreach⟩ := h.exists_tokens
  obtain ⟨p, hp⟩ := reaches_nil_iff.mp hreach
  obtain ⟨us, hus, hbegins⟩ := tokens_of_append hvs
  rcases parse_beginning hp hbegins.loosen with hq | htorn | ⟨fault, hfault, hend⟩
  · exact .inl ((reads_iff hus).mpr (reaches_nil_iff.mpr hq))
  · exact .inr (.inl ⟨us, hus, htorn⟩)
  · refine .inr (.inr ⟨.parse fault (sourceOf xs).length, ?_, ParseFault.isIncomplete_iff.mpr hend⟩)
    simp only [Source.program, hus, bind, Except.bind, hfault]

/-- Where the head of a declaration is torn, the parser refuses the lines and asks for no more. -/
theorem TearsHead.refused (h : TearsHead nesting xs) : ∃ failure,
    Source.program nesting (sourceOf xs) = .error failure ∧
      failure.diagnostic.isIncomplete = false := by
  obtain ⟨ts, hts, htorn⟩ := h
  obtain ⟨fault, hfault, hend⟩ := htorn.refused
  refine ⟨.parse fault (sourceOf xs).length, ?_, ?_⟩
  · simp only [Source.program, hts, bind, Except.bind, hfault]
  · by_contra hincomplete
    exact hend (ParseFault.isIncomplete_iff.mp (by simpa [Failure.diagnostic] using hincomplete))

theorem Reads.not_tearsHead (h : Reads nesting xs) : ¬ TearsHead nesting xs := by
  intro htorn
  obtain ⟨failure, hfailure, _⟩ := htorn.refused
  obtain ⟨p, hp⟩ := h
  rw [hp] at hfailure
  cases hfailure

/-- Behind lines that make a program, with no literal open for the normalizer, more lines make a
program or tear a head if they do so alone. -/
theorem reads_behind (hxs : Reads nesting xs) (hclosed : quoting .code (sourceOf xs) = .code)
    (h : Source.tokens (sourceOf (xs ++ ys)) = .ok vs) :
    (∃ ws, Source.tokens (sourceOf ys) = .ok ws) ∧
      (Reads nesting (xs ++ ys) ↔ Reads nesting ys) ∧
        (TearsHead nesting (xs ++ ys) ↔ TearsHead nesting ys) ∧
          quoting .code (sourceOf (xs ++ ys)) = quoting .code (sourceOf ys) := by
  by_cases hnil : xs = []
  · subst hnil
    exact ⟨⟨vs, h⟩, Iff.rfl, Iff.rfl, rfl⟩
  by_cases hys : ys = []
  · subst hys
    rw [List.append_nil]
    exact ⟨⟨[], tokens_nil⟩, iff_of_true hxs reads_nil,
      iff_of_false hxs.not_tearsHead reads_nil.not_tearsHead, hclosed⟩
  obtain ⟨ts, hts, hreach⟩ := hxs.exists_tokens
  have hpoint : ∀ d ∈ ts.getLast?, IsSign .dot d := by
    obtain ⟨p, hp⟩ := reaches_nil_iff.mp hreach
    rcases ends_of_parse hp with rfl | ⟨us, d, rfl, hd⟩
    · simp
    · simpa using hd
  have happend := sourceOf_append hnil hys
  obtain ⟨ws, hws, rfl⟩ := tokens_behind (happend ▸ h) hts hpoint hclosed
  refine ⟨⟨ws, hws⟩, ?_, ?_, ?_⟩
  · rw [reads_iff h, parse_behind_iff hreach, reads_iff hws]
  · rw [tearsHead_iff h, torn_behind_iff hreach, tearsHead_iff hws]
  · rw [happend, quoting_append, hclosed]
    rfl

/-- Nothing keeps the shell from taking lines behind pending ones: no head of a declaration is torn,
and no line for leaving comes behind a program. -/
structure Clear (nesting : Nat) (pending lines : List String) : Prop where
  head : ∀ done, done <+: lines → ¬ TearsHead nesting (pending ++ done)
  stay : ∀ done line, done ++ [line] <+: lines → Reads nesting (pending ++ done) →
    trim line.toList ≠ "exit.".toList

theorem clear_nil : Clear nesting xs [] ↔ ¬ TearsHead nesting xs := by
  constructor
  · intro h
    simpa using h.head [] (List.prefix_refl [])
  · intro h
    refine ⟨fun done hdone => ?_, fun done line hdone => ?_⟩
    · rw [List.prefix_nil.mp hdone, List.append_nil]
      exact h
    · simp at hdone

theorem clear_cons {line : String} : Clear nesting xs (line :: ys) ↔ ¬ TearsHead nesting xs ∧
    (Reads nesting xs → trim line.toList ≠ "exit.".toList) ∧ Clear nesting (xs ++ [line]) ys := by
  constructor
  · intro h
    refine ⟨?_, fun hreads => h.stay [] line (by simp) (by simpa using hreads), fun done hdone => ?_,
      fun done other hdone hreads => ?_⟩
    · simpa using h.head [] (List.nil_prefix)
    · simpa using h.head (line :: done) (by simpa using hdone)
    · exact h.stay (line :: done) other (by simpa using hdone) (by simpa using hreads)
  · rintro ⟨hhead, hline, htail⟩
    refine ⟨fun done hdone => ?_, fun done other hdone hreads => ?_⟩
    · cases done with
      | nil => simpa using hhead
      | cons d done =>
        obtain ⟨rfl, hrest⟩ := List.cons_prefix_cons.mp hdone
        simpa using htail.head done hrest
    · cases done with
      | nil =>
        obtain ⟨rfl, _⟩ := List.cons_prefix_cons.mp hdone
        exact hline (by simpa using hreads)
      | cons d done =>
        obtain ⟨rfl, hrest⟩ := List.cons_prefix_cons.mp hdone
        exact htail.stay done other hrest (by simpa using hreads)

/-- No literal is open for the normalizer where lines behind pending ones make a program. -/
def NoneOpen (nesting : Nat) (pending lines : List String) : Prop :=
  ∀ done, done <+: lines → Reads nesting (pending ++ done) →
    quoting .code (sourceOf (pending ++ done)) = .code

theorem NoneOpen.tail {line : String} (h : NoneOpen nesting xs (line :: ys)) :
    NoneOpen nesting (xs ++ [line]) ys := by
  intro done hdone hreads
  rw [List.append_assoc] at hreads ⊢
  exact h (line :: done) (by simpa using hdone) hreads

/-- Behind a program the lines are taken as they are alone. -/
theorem clear_behind (hxs : Reads nesting xs) (hopen : NoneOpen nesting xs ys)
    (h : Reads nesting (xs ++ ys)) : Reads nesting ys ∧ NoneOpen nesting [] ys ∧
      (Clear nesting xs ys ↔ Clear nesting [] ys) := by
  obtain ⟨vs, hvs, _⟩ := h.exists_tokens
  have hclosed : quoting .code (sourceOf xs) = .code := by
    simpa using hopen [] List.nil_prefix (by simpa using hxs)
  have hbehind : ∀ done, done <+: ys → (Reads nesting (xs ++ done) ↔ Reads nesting done) ∧
      (TearsHead nesting (xs ++ done) ↔ TearsHead nesting done) ∧
        quoting .code (sourceOf (xs ++ done)) = quoting .code (sourceOf done) := by
    rintro done ⟨more, rfl⟩
    rw [← List.append_assoc] at hvs
    obtain ⟨us, hus, _⟩ := tokens_of_append hvs
    exact (reads_behind hxs hclosed hus).2
  refine ⟨(hbehind ys (List.prefix_refl ys)).1.mp h, fun done hdone hreads => ?_, ?_⟩
  · obtain ⟨hiff, _, hquoting⟩ := hbehind done hdone
    rw [List.nil_append] at hreads ⊢
    rw [← hquoting]
    exact hopen done hdone (hiff.mpr hreads)
  · constructor
    · intro hclear
      refine ⟨fun done hdone => ?_, fun done line hdone hreads => ?_⟩
      · rw [List.nil_append, ← (hbehind done hdone).2.1]
        exact hclear.head done hdone
      · rw [List.nil_append] at hreads
        have hdone' := (List.prefix_append done [line]).trans hdone
        exact hclear.stay done line hdone ((hbehind done hdone').1.mpr hreads)
    · intro hclear
      refine ⟨fun done hdone => ?_, fun done line hdone hreads => ?_⟩
      · rw [(hbehind done hdone).2.1]
        exact hclear.head done hdone
      · have hdone' := (List.prefix_append done [line]).trans hdone
        exact hclear.stay done line hdone ((hbehind done hdone').1.mp hreads)

end Lines

/-! ### What the shell takes -/

namespace Session

/-- A run fails in no way in which reading fails. -/
theorem run_failure {s : Session} {o : RunOptions} {p : Program} {failure : Failure}
    (h : (s.run o p).outcome = .failed failure) : failure.ofReading = false := by
  unfold run at h
  split at h
  · cases h
    rfl
  · split at h
    · cases h
      rfl
    · simp only [outcomeOf] at h
      split at h
      all_goals first
        | (cases h; rfl)
        | (cases h)
        | skip
      split at h
      all_goals first
        | (cases h; rfl)
        | (cases h)

end Session

namespace Repl

variable {r : Repl} {line : String} {lines : List String} {units : List (List String)}

/-- Every line is in one of the programs, in order and once. -/
theorem Takes.flatten (h : r.Takes lines units) : units.flatten = r.pending ++ lines := by
  induction h with
  | done hr => simp [hr]
  | collects _ _ _ _ ih => simpa [holding] using ih
  | @runs r line lines units p _ hsubmit _ _ _ ih =>
    have hpending : (r.submit line).1.pending = [] := by
      rw [hsubmit, execute]
      split <;> rfl
    rw [List.flatten_cons, ih, hpending]
    simp [holding]

/-! #### The answer to one line -/

theorem execute_next (r : Repl) (trace : List String) (cs : List Char) (p : Program) :
    (r.execute trace cs p).1.pending = [] ∧ (r.execute trace cs p).2.ended = false ∧
      (r.execute trace cs p).1.session.limits = r.session.limits := by
  have hlimits := (Session.run_settings r.session ⟨r.timeout, none⟩ p).2
  simp only [execute]
  cases (r.session.run ⟨r.timeout, none⟩ p).outcome with
  | done | exhausted | waiting | failed => exact ⟨rfl, rfl, hlimits⟩

theorem submit_exit (hr : r.pending = []) (h : trim line.toList = "exit.".toList) :
    r.submit line = (r, { Reply.silent with ended := true }) := by
  unfold submit
  simp [hr, h]

theorem submit_collect (hblank : trim line.toList ≠ []) (hcommand : line.toList.head? ≠ some ':')
    (hexit : r.pending = [] → trim line.toList ≠ "exit.".toList) :
    r.submit line = r.collect line := by
  unfold submit
  by_cases hr : r.pending = []
  · simp only [hr, List.isEmpty_nil, Bool.not_true, Bool.false_eq_true, if_false,
      if_neg (hexit hr), List.isEmpty_iff, if_neg hblank, if_neg hcommand]
  · simp [hr]

theorem collect_ok {p : Program} (h : (r.holding line).reading = .ok p) :
    r.collect line = r.execute (r.holding line).readingTrace (r.holding line).source p := by
  have hread : Source.program r.session.limits.nesting
      (String.intercalate "\n" (r.pending ++ [line])).toList = .ok p := h
  simp only [collect, hread]
  rfl

theorem collect_incomplete {failure : Failure} (h : (r.holding line).reading = .error failure)
    (hmore : failure.diagnostic.isIncomplete = true) (hblank : trim line.toList ≠ []) :
    r.collect line
      = (r.holding line, { Reply.silent with err := unlines (r.holding line).readingTrace }) := by
  have hread : Source.program r.session.limits.nesting
      (String.intercalate "\n" (r.pending ++ [line])).toList = .error failure := h
  have hkept : (failure.diagnostic.isIncomplete && !(trim line.toList).isEmpty) = true := by
    simp [hmore, hblank]
  simp only [collect, hread, if_pos hkept]
  rfl

theorem collect_refused {failure : Failure} (h : (r.holding line).reading = .error failure)
    (hmore : failure.diagnostic.isIncomplete = false) : r.collect line = ({ r with pending := [] },
      reportReply (r.holding line).readingTrace (r.holding line).source failure) := by
  have hread : Source.program r.session.limits.nesting
      (String.intercalate "\n" (r.pending ++ [line])).toList = .error failure := h
  simp only [collect, hread, hmore, Bool.false_and, Bool.false_eq_true, if_false]
  rfl

theorem execute_settled {trace : List String} {cs : List Char} {p : Program}
    (h : (r.session.run ⟨r.timeout, none⟩ p).outcome = .done) :
    (r.execute trace cs p).2.Settled := by
  simp only [execute, h]
  exact ⟨rfl, rfl⟩

/-- A line that makes a program is taken with what the shell takes after the run. -/
theorem takes_cons_of_reads {p : Program} (h : (r.holding line).reading = .ok p)
    (hsubmit : r.submit line = r.collect line) (hsettled : (r.submit line).2.Settled) :
    (∃ units, r.Takes (line :: lines) units) ↔ ∃ units, (r.submit line).1.Takes lines units := by
  constructor
  · rintro ⟨_, h'⟩
    cases h' with
    | collects hread _ _ _ => cases h.symm.trans hread
    | runs _ _ _ _ htail => exact ⟨_, htail⟩
  · rintro ⟨units, htail⟩
    have hruns := hsubmit.trans (collect_ok h)
    exact ⟨_, .runs h hruns (fun _ => Session.run_failure) hsettled htail⟩

/-- A line that may be completed is taken with what the shell takes while it is pending. -/
theorem takes_cons_of_incomplete {failure : Failure} (h : (r.holding line).reading = .error failure)
    (hmore : failure.diagnostic.isIncomplete = true) (hblank : trim line.toList ≠ [])
    (hsubmit : r.submit line = r.collect line) :
    (∃ units, r.Takes (line :: lines) units) ↔ ∃ units, (r.holding line).Takes lines units := by
  constructor
  · rintro ⟨_, h'⟩
    cases h' with
    | collects _ _ _ htail => exact ⟨_, htail⟩
    | runs hread _ _ _ _ => cases h.symm.trans hread
  · rintro ⟨units, htail⟩
    exact ⟨units, .collects h hmore (hsubmit.trans (collect_incomplete h hmore hblank)) htail⟩

theorem not_takes_of_refused {failure : Failure} (h : (r.holding line).reading = .error failure)
    (hmore : failure.diagnostic.isIncomplete = false) : ¬ r.Takes (line :: lines) units := by
  intro h'
  cases h' with
  | collects hread hincomplete _ _ =>
    obtain rfl := Except.error.inj (h.symm.trans hread)
    cases hmore.symm.trans hincomplete
  | runs hread _ _ _ _ => cases h.symm.trans hread

theorem not_takes_of_exit (hr : r.pending = []) (h : trim line.toList = "exit.".toList) :
    ¬ r.Takes (line :: lines) units := by
  have hended : (r.submit line).2.ended = true := by rw [submit_exit hr h]
  intro h'
  cases h' with
  | collects _ _ hsubmit _ =>
    rw [hsubmit] at hended
    cases hended
  | runs _ hsubmit _ _ _ =>
    rw [hsubmit, (execute_next _ _ _ _).2.1] at hended
    cases hended

/-! #### All lines -/

/-- Pending lines are either none or make no program yet, and tear no head. -/
theorem takes_iff_clear (hr : r.pending = [] ∨ ¬ Reads r.session.limits.nesting r.pending)
    (hhead : ¬ TearsHead r.session.limits.nesting r.pending)
    (hreads : Reads r.session.limits.nesting (r.pending ++ lines))
    (hlines : ∀ line ∈ lines, trim line.toList ≠ [] ∧ line.toList.head? ≠ some ':')
    (hopen : NoneOpen r.session.limits.nesting r.pending lines)
    (hsettled : ∀ done line, done ++ [line] <+: lines → ((r.typed done).submit line).2.Settled) :
    (∃ units, r.Takes lines units) ↔ Clear r.session.limits.nesting r.pending lines := by
  induction lines generalizing r with
  | nil =>
    rw [List.append_nil] at hreads
    rw [clear_nil]
    refine iff_of_true ⟨[], .done (hr.resolve_right fun h => h hreads)⟩ hhead
  | cons line lines ih =>
    rw [List.forall_mem_cons] at hlines
    obtain ⟨⟨hblank, hcommand⟩, hlines⟩ := hlines
    rw [clear_cons]
    by_cases hexit : r.pending = [] ∧ trim line.toList = "exit.".toList
    · obtain ⟨hnil, hexit⟩ := hexit
      refine iff_of_false (fun ⟨_, h⟩ => not_takes_of_exit hnil hexit h) fun h => ?_
      refine h.2.1 ?_ hexit
      rw [hnil]
      exact reads_nil
    have hsubmit : r.submit line = r.collect line :=
      submit_collect hblank hcommand fun hnil h => hexit ⟨hnil, h⟩
    have hstay : Reads r.session.limits.nesting r.pending → trim line.toList ≠ "exit.".toList :=
      fun h => fun hline => hexit ⟨hr.resolve_right fun hnot => hnot h, hline⟩
    rw [and_iff_right hhead, and_iff_right hstay]
    rw [List.append_cons] at hreads
    have htail : NoneOpen r.session.limits.nesting (r.pending ++ [line]) lines := hopen.tail
    have hfirst : (r.submit line).2.Settled := hsettled [] line (by simp)
    have hrest : ∀ done other, done ++ [other] <+: lines →
        (((r.submit line).1.typed done).submit other).2.Settled :=
      fun done other hdone => hsettled (line :: done) other (by simpa using hdone)
    rcases reads_beginning hreads with hdone | htorn | ⟨failure, hfailure, hmore⟩
    · obtain ⟨p, hp⟩ := hdone
      have hread : (r.holding line).reading = .ok p := hp
      rw [takes_cons_of_reads hread hsubmit hfirst]
      obtain ⟨hreads', hopen', hiff⟩ := clear_behind ⟨p, hp⟩ htail hreads
      obtain ⟨hpending, _, hlimits⟩ :=
        execute_next r (r.holding line).readingTrace (r.holding line).source p
      rw [← collect_ok hread, ← hsubmit] at hpending hlimits
      rw [hiff, ← hlimits, ← hpending]
      rw [← hlimits] at hreads' hopen'
      refine ih (.inl hpending) ?_ ?_ hlines ?_ hrest
      · rw [hpending]
        exact reads_nil.not_tearsHead
      · rwa [hpending]
      · rwa [hpending]
    · obtain ⟨failure, hfailure, hmore⟩ := htorn.refused
      have hread : (r.holding line).reading = .error failure := hfailure
      refine iff_of_false (fun ⟨_, h⟩ => not_takes_of_refused hread hmore h) fun h => ?_
      refine h.head [] List.nil_prefix ?_
      rwa [List.append_nil]
    · have hread : (r.holding line).reading = .error failure := hfailure
      rw [takes_cons_of_incomplete hread hmore hblank hsubmit]
      rw [hsubmit, collect_incomplete hread hmore hblank] at hrest
      refine @ih (r.holding line) (.inr ?_) ?_ hreads hlines htail hrest
      · rintro ⟨p, hp⟩
        cases hfailure.symm.trans hp
      · intro htorn
        obtain ⟨other, hother, hnot⟩ := htorn.refused
        obtain rfl := Except.error.inj (hfailure.symm.trans hother)
        cases hmore.symm.trans hnot

/-- A program without blank lines and without lines that start with a colon, of which the lines are
given to the shell one after another: the shell takes them all, each once and in order, if and only
if the head of no declaration is torn and no line behind the last one of a program is the word for
leaving, blanks aside. No literal may be open for the normalizer behind lines that make a program (a
quote in a comment opens one), and no run may break down or wait. -/
theorem takes_iff (hr : r.pending = []) (hreads : Reads r.session.limits.nesting lines)
    (hlines : ∀ line ∈ lines, trim line.toList ≠ [] ∧ line.toList.head? ≠ some ':')
    (hopen : ∀ done, done <+: lines → Reads r.session.limits.nesting done →
      quoting .code (sourceOf done) = .code)
    (hsettled : ∀ done line, done ++ [line] <+: lines → ((r.typed done).submit line).2.Settled) :
    (∃ units, r.Takes lines units ∧ units.flatten = lines) ↔
      (∀ done, done <+: lines → ¬ TearsHead r.session.limits.nesting done) ∧
        ∀ done line, done ++ [line] <+: lines → Reads r.session.limits.nesting done →
          trim line.toList ≠ "exit.".toList := by
  have hall : ∀ units, r.Takes lines units → units.flatten = lines := by
    intro units h
    rw [h.flatten, hr, List.nil_append]
  have hiff := takes_iff_clear (.inl hr) (by rw [hr]; exact reads_nil.not_tearsHead)
    (by rwa [hr]) hlines (by rw [hr]; exact hopen) hsettled
  rw [hr] at hiff
  constructor
  · rintro ⟨units, htakes, _⟩
    obtain ⟨hhead, hstay⟩ := hiff.mp ⟨units, htakes⟩
    exact ⟨hhead, hstay⟩
  · rintro ⟨hhead, hstay⟩
    obtain ⟨units, htakes⟩ := hiff.mpr ⟨hhead, hstay⟩
    exact ⟨units, htakes, hall units htakes⟩

/-- A shell into which nothing has been typed. -/
def fresh : Repl := ⟨.blank, [], none⟩

/-- A literal that goes over two lines. -/
def splitLiteral : List String := ["say \"one", "two\"."]

theorem prefix_splitLiteral {done : List String} (h : done <+: splitLiteral) :
    done = [] ∨ done = ["say \"one"] ∨ done = ["say \"one", "two\"."] := by
  have hmem := (List.mem_inits done splitLiteral).mpr h
  simpa [splitLiteral] using hmem

/-- After the first line a point is missing. -/
theorem program_splitLiteral : Source.program 10 (sourceOf ["say \"one"])
      = .error (.parse (.missing (.kind (.symbol .dot)) none) 8) ∧
    Source.program 10 (sourceOf splitLiteral) = .ok ⟨[], [.say (.text "one\ntwo" 4) 0]⟩ := by
  have hfirst : sourceOf ["say \"one"] = "say \"one".toList := by simp [sourceOf]
  have hwhole : sourceOf splitLiteral = "say \"one\ntwo\".".toList := by
    simp [sourceOf, splitLiteral, String.intercalate_cons_cons]
  rw [hfirst, hwhole]
  constructor
  · cbv
  · cbv

theorem lines_splitLiteral : ∀ line ∈ splitLiteral, trim line.toList ≠ [] ∧
    line.toList.head? ≠ some ':' ∧ trim line.toList ≠ "exit.".toList := by
  simp only [splitLiteral, List.forall_mem_cons]
  exact ⟨by decide, by decide, by simp⟩

theorem settled_splitLiteral (done : List String) (line : String)
    (h : done ++ [line] <+: splitLiteral) : ((fresh.typed done).submit line).2.Settled := by
  have hcollect : ∀ (r : Repl) (line : String), line ∈ splitLiteral →
      r.submit line = r.collect line := by
    intro r line hline
    obtain ⟨hblank, hcommand, hleave⟩ := lines_splitLiteral line hline
    exact submit_collect hblank hcommand fun _ => hleave
  have hfirst : (fresh.holding "say \"one").reading = _ := program_splitLiteral.1
  have hwhole : ((fresh.holding "say \"one").holding "two\".").reading = _ := program_splitLiteral.2
  have hkept : fresh.submit "say \"one" = (fresh.holding "say \"one", .silent) :=
    (hcollect _ _ (by simp [splitLiteral])).trans (collect_incomplete hfirst rfl (by decide))
  rcases prefix_splitLiteral h with hnil | hone | htwo
  · simp at hnil
  · obtain ⟨rfl, hline⟩ := List.append_inj' (hone.trans (List.nil_append _).symm) rfl
    obtain rfl := List.singleton_inj.mp hline
    rw [typed, List.foldl_nil, hkept]
    exact ⟨rfl, rfl⟩
  · have hsplit : done ++ [line] = ["say \"one"] ++ ["two\"."] := htwo
    obtain ⟨rfl, hline⟩ := List.append_inj' hsplit rfl
    obtain rfl := List.singleton_inj.mp hline
    rw [typed, List.foldl_cons, List.foldl_nil, hkept, hcollect _ _ (by simp [splitLiteral]),
      collect_ok hwhole]
    exact execute_settled rfl

/-- The shell takes both lines and runs them as one program. -/
theorem splitLiteral_taken :
    ∃ units, fresh.Takes splitLiteral units ∧ units.flatten = splitLiteral := by
  obtain ⟨hfirst, hwhole⟩ := program_splitLiteral
  have hreads : Reads 10 splitLiteral := ⟨_, hwhole⟩
  have hopen : ∀ done, done <+: splitLiteral → Reads 10 done →
      quoting .code (sourceOf done) = .code := by
    intro done hdone hreads
    rcases prefix_splitLiteral hdone with rfl | rfl | rfl
    · rfl
    · obtain ⟨p, hp⟩ := hreads
      cases hfirst.symm.trans hp
    · simp [sourceOf, String.intercalate_cons_cons]
      decide
  have hhead : ∀ done, done <+: splitLiteral → ¬ TearsHead 10 done := by
    intro done hdone
    rcases prefix_splitLiteral hdone with rfl | rfl | rfl
    · exact reads_nil.not_tearsHead
    · intro htorn
      obtain ⟨failure, hfailure, hmore⟩ := htorn.refused
      obtain rfl := Except.error.inj (hfirst.symm.trans hfailure)
      cases hmore
    · exact hreads.not_tearsHead
  have hlines : ∀ line ∈ splitLiteral, trim line.toList ≠ [] ∧ line.toList.head? ≠ some ':' :=
    fun line hline => ⟨(lines_splitLiteral line hline).1, (lines_splitLiteral line hline).2.1⟩
  exact (@takes_iff fresh splitLiteral rfl hreads hlines hopen settled_splitLiteral).mpr
    ⟨hhead, fun done line hdone _ => (lines_splitLiteral line (hdone.subset (by simp))).2.2⟩

/-- A declaration of which the head is torn: it is refused after the first line. -/
theorem tornHead_refused : Reads 10 ["to", "f(): end."] ∧
    (∀ line ∈ ["to", "f(): end."], trim line.toList ≠ [] ∧ line ≠ "exit." ∧
      line.toList.head? ≠ some ':') ∧
    (∃ failure, failure.ofReading = true ∧ failure.diagnostic.isIncomplete = false ∧
      fresh.submit "to" = (fresh, reportReply [] "to".toList failure)) ∧
    ¬ ∃ units, fresh.Takes ["to", "f(): end."] units := by
  have hto : sourceOf ["to"] = "to".toList := by simp [sourceOf]
  have hboth : sourceOf ["to", "f(): end."] = "to\nf(): end.".toList := by
    simp [sourceOf, String.intercalate_cons_cons]
  have hreading : (fresh.holding "to").reading
      = .error (.parse (.noExpression (some ⟨.keyword .toWord, "to", 0⟩)) 2) := by
    show Source.program 10 (sourceOf ["to"]) = _
    rw [hto]
    cbv
  have hwhole : Source.program 10 (sourceOf ["to", "f(): end."]) = .ok ⟨[⟨"f", [], [], 0⟩], []⟩ := by
    rw [hboth]
    cbv
  have hsubmit : fresh.submit "to" = fresh.collect "to" :=
    submit_collect (by decide) (by decide) fun _ => by decide
  have hsource : (fresh.holding "to").source = "to".toList := hto
  have hmore : (Failure.parse (.noExpression (some ⟨.keyword .toWord, "to", 0⟩))
      2).diagnostic.isIncomplete = false := by decide
  rw [collect_refused hreading hmore, hsource] at hsubmit
  refine ⟨⟨_, hwhole⟩, ?_, ⟨_, rfl, hmore, hsubmit⟩, ?_⟩
  · simp only [List.forall_mem_cons]
    exact ⟨by decide, by decide, by simp⟩
  · rintro ⟨_, h⟩
    exact not_takes_of_refused hreading hmore h

end Repl
end Parlance
