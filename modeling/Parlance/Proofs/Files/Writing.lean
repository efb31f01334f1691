import Parlance.Run.Builtin
import Parlance.Proofs.Except
import Parlance.Proofs.Files.Encoding
import Parlance.Proofs.Files.Ways
/-!
# Writing a file and reading it back

A file that is stored at the end of a path changes what is at that one place: no folder comes or
goes, every path leads where it led before, and every other file is as it was. What has been written
is read back with unified line breaks, so a text comes back character for character exactly if it has
no carriage return.
-/
namespace Parlance

namespace Table

variable {α : Type}

theorem put_put (key : String) (v w : α) (t : Table α) :
    put key w (put key v t) = put key w t := by
  induction t with
  | nil => simp [put]
  | cons e t ih =>
    obtain ⟨k, u⟩ := e
    by_cases hk : k = key <;> simp [put, hk, ih]

theorem any_keys_put (p : String → Bool) (key : String) (v : α) (t : Table α) :
    (put key v t).keys.any p = (t.keys.any p || p key) := by
  rw [keys_put]
  split
  · next hmem =>
    have hany : p key = true → t.keys.any p = true := fun h => List.any_eq_true.mpr ⟨key, hmem, h⟩
    cases hp : p key with
    | false => rw [Bool.or_false]
    | true => rw [hany hp, Bool.or_true]
  · simp [List.any_append]

end Table

namespace Files

/-! ### What is at a place -/

variable {files : Files} {place other : List String}

theorem entry_of_some (hbase : isBase place = false) {bytes : List UInt8}
    (h : files.contents.get? (pathOf place) = some bytes) : files.entry place = .file bytes := by
  simp [entry, hbase, h]

/-- Without a file at a place, a folder is there if it is listed or something is farther down. -/
theorem entry_of_none (hbase : isBase place = false)
    (h : files.contents.get? (pathOf place) = none) :
    files.entry place =
      if files.folders.contains (pathOf place)
          || files.contents.keys.any fun k => (pathOf place ++ "/").toList.isPrefixOf k.toList
        then .folder else .absent := by
  simp [entry, hbase, h]

theorem store_store (files : Files) (place : List String) (first last : List UInt8) :
    (files.store place first).store place last = files.store place last := by
  simp only [store, Table.put_put]

theorem get?_store (files : Files) (place : List String) (bytes : List UInt8) (path : String) :
    (files.store place bytes).contents.get? path =
      if pathOf place = path then some bytes else files.contents.get? path :=
  Table.get?_put (pathOf place) path bytes files.contents

theorem entry_store_self (hbase : isBase place = false) (bytes : List UInt8) :
    (files.store place bytes).entry place = .file bytes := by
  apply entry_of_some hbase
  rw [get?_store, if_pos rfl]

/-- A new file makes no folder, since all folders on the way to it are there already. -/
theorem entry_store_of_ne (h : files.Reached place) (hfree : files.entry place ≠ .folder)
    (ho : Plain other) (hne : other ≠ place) (bytes : List UInt8) :
    (files.store place bytes).entry other = files.entry other := by
  cases hbase : isBase other with
  | true => rw [entry_of_isBase hbase, entry_of_isBase hbase]
  | false =>
    have hone : other ≠ [] := by
      rintro rfl
      cases hbase
    have hpath : pathOf place ≠ pathOf other :=
      (h.plain.pathOf_ne ho (ne_nil_of_entry hfree) hone hne).symm
    have hget : (files.store place bytes).contents.get? (pathOf other)
        = files.contents.get? (pathOf other) := by
      rw [get?_store, if_neg hpath]
    cases hold : files.contents.get? (pathOf other) with
    | some old =>
      rw [hold] at hget
      rw [entry_of_some hbase hget, entry_of_some hbase hold]
    | none =>
      rw [hold] at hget
      have hkeys := Table.any_keys_put
        (fun k => (pathOf other ++ "/").toList.isPrefixOf k.toList) (pathOf place) bytes
        files.contents
      rw [entry_of_none hbase hget, entry_of_none hbase hold]
      simp only [store, hkeys]
      cases hdown : (pathOf other ++ "/").toList.isPrefixOf (pathOf place).toList with
      | false => rw [Bool.or_false]
      | true =>
        have habove := h.plain.above_of_prefix ho (ne_nil_of_entry hfree) hone
          (List.isPrefixOf_iff_prefix.mp hdown)
        have hfolder := h.folder_of_above other habove.1 habove.2
        rw [entry_of_none hbase hold] at hfolder
        rw [hfolder, Bool.or_true, Bool.or_true, if_pos rfl]

/-! ### Where paths lead afterwards -/

theorem walk_store_iff (h : files.Reached place) (hfree : files.entry place ≠ .folder)
    (bytes : List UInt8) {start names there : List String} (hstart : Plain start)
    (hnames : Plain names) :
    (files.store place bytes).walk start names = .ok there ↔ files.walk start names = .ok there := by
  induction names generalizing start with
  | nil => rfl
  | cons n ns ih =>
    have hns : Plain ns := fun m hm => hnames m (List.mem_cons_of_mem n hm)
    rw [walk, walk]
    by_cases hsame : start = place
    · -- no way goes on behind the file, which was no folder before either
      rw [hsame, entry_store_self (isBase_eq_false hfree)]
      cases hentry : files.entry place with
      | folder => exact absurd hentry hfree
      | file old => simp
      | absent => simp
    · rw [entry_store_of_ne h hfree hstart hsame]
      cases files.entry start with
      | absent => rfl
      | file old => rfl
      | folder =>
        simp only
        split
        · exact ih hstart hns
        split
        · exact ih hstart.above hns
        split
        · rfl
        · exact ih (hstart.concat (hnames n List.mem_cons_self)) hns

theorem writable_eq_ok {path : String} :
    files.writable path = .ok place ↔
      files.resolve path = .ok place ∧ asksFolder path = false ∧ files.entry place ≠ .folder := by
  rw [writable, except_bind_eq_ok]
  constructor
  · rintro ⟨there, hthere, h⟩
    cases hasks : asksFolder path with
    | true => simp [hasks] at h
    | false =>
      cases hentry : files.entry there with
      | folder => simp [hasks, hentry] at h
      | file old =>
        simp only [hasks, hentry] at h
        cases h
        simp [hthere, hentry]
      | absent =>
        simp only [hasks, hentry] at h
        cases h
        simp [hthere, hentry]
  · rintro ⟨hplace, hasks, hfree⟩
    refine ⟨place, hplace, ?_⟩
    cases hentry : files.entry place with
    | folder => exact absurd hentry hfree
    | file old => simp [hasks]
    | absent => simp [hasks]

theorem read_eq_ok {path : String} {bytes : List UInt8} :
    files.read path = .ok bytes ↔
      ∃ there, files.resolve path = .ok there ∧ asksFolder path = false
        ∧ files.entry there = .file bytes := by
  rw [read, except_bind_eq_ok]
  constructor
  · rintro ⟨there, hthere, h⟩
    refine ⟨there, hthere, ?_⟩
    cases hentry : files.entry there with
    | folder => simp [hentry] at h
    | absent => simp [hentry] at h
    | file old =>
      cases hasks : asksFolder path with
      | true => simp [hentry, hasks] at h
      | false =>
        simp only [hentry, hasks] at h
        cases h
        simp
  · rintro ⟨there, hthere, hasks, hentry⟩
    exact ⟨there, hthere, by simp [hentry, hasks]⟩

/-- Only what is at one place differs: every path leads where it led, and what is at any other place
is the same. -/
structure ChangedAt (place : List String) (before after : Files) : Prop where
  resolve_iff : ∀ path there, after.resolve path = .ok there ↔ before.resolve path = .ok there
  entry_eq : ∀ other, Plain other → other ≠ place → after.entry other = before.entry other

theorem changedAt_store (h : files.Reached place) (hfree : files.entry place ≠ .folder)
    (bytes : List UInt8) : ChangedAt place files (files.store place bytes) where
  resolve_iff path there := by
    rw [resolve_eq_ok, resolve_eq_ok,
      walk_store_iff h hfree bytes (plain_start path) (plain_names path)]
  entry_eq other ho hne := entry_store_of_ne h hfree ho hne bytes

/-- A path that leads elsewhere is read as before. -/
theorem ChangedAt.read_iff {before after : Files} (h : ChangedAt place before after) {path : String}
    (hpath : before.resolve path ≠ .ok place) (bytes : List UInt8) :
    after.read path = .ok bytes ↔ before.read path = .ok bytes := by
  rw [read_eq_ok, read_eq_ok]
  have hthere : ∀ there, after.resolve path = .ok there →
      after.entry there = before.entry there := by
    intro there hthere
    have hbefore := (h.resolve_iff path there).mp hthere
    apply h.entry_eq there (reached_of_resolve hbefore).plain
    rintro rfl
    exact hpath hbefore
  constructor
  · rintro ⟨there, hres, hasks, hentry⟩
    rw [hthere there hres] at hentry
    exact ⟨there, (h.resolve_iff path there).mp hres, hasks, hentry⟩
  · rintro ⟨there, hres, hasks, hentry⟩
    have hafter := (h.resolve_iff path there).mpr hres
    rw [← hthere there hafter] at hentry
    exact ⟨there, hafter, hasks, hentry⟩

/-- What is stored where a path leads is read from there. -/
theorem read_store {path : String} (h : files.writable path = .ok place) (bytes : List UInt8) :
    (files.store place bytes).read path = .ok bytes := by
  obtain ⟨hplace, hasks, hfree⟩ := writable_eq_ok.mp h
  have hreached := reached_of_resolve hplace
  apply read_eq_ok.mpr
  refine ⟨place, ?_, hasks, entry_store_self (isBase_eq_false hfree) bytes⟩
  exact ((changedAt_store hreached hfree bytes).resolve_iff path place).mpr hplace

/-- A text that is stored is read with unified line breaks. -/
theorem readText_store {path : String} (h : files.writable path = .ok place) (cs : List Char) :
    (files.store place (Text.encode cs)).readText path = .ok (Text.unifyBreaks cs) := by
  rw [readText, except_bind_eq_ok]
  exact ⟨_, read_store h _, by rw [Text.decode_encode]⟩

end Files

namespace Run

variable {α β : Type} {s s' : State}

theorem bind_eq_ok {x : Run α} {f : α → Run β} {b : β} :
    (x >>= f) s = (.ok b, s') ↔ ∃ a between, x s = (.ok a, between) ∧ f a between = (.ok b, s') := by
  rw [bind_apply]
  obtain ⟨r, between⟩ := x s
  cases r with
  | error e => simp
  | ok a =>
    constructor
    · intro h
      exact ⟨a, between, rfl, h⟩
    · rintro ⟨a, between, heq, h⟩
      cases heq
      exact h

theorem fromStore_eq_ok {offset : Nat} {f : Store → Except Fault α} {a : α} :
    fromStore offset f s = (.ok a, s') ↔ f s.store = .ok a ∧ s' = s := by
  unfold fromStore
  cases f s.store with
  | ok b => simp [ofExcept, result, eq_comm]
  | error fault => simp [ofExcept, fail, stop]

end Run

/-- The state after a file has been given a text. -/
def State.stored (s : State) (place : List String) (text : String) : State :=
  { s with world := { s.world with
      files := s.world.files.store place (Text.encode text.toList) } }

theorem State.stored_stored (s : State) (place : List String) (first last : String) :
    (s.stored place first).stored place last = s.stored place last := by
  simp only [State.stored, Files.store_store]

namespace Run

variable {s s' : State} {offset : Nat}

/-- When a file is written, and what that does. -/
theorem writeFile_eq_ok {path : String} {content : Value} :
    writeFile offset path content s = (.ok (), s') ↔
      ∃ place text, s.world.knows path = true ∧ s.world.files.writable path = .ok place
        ∧ s.store.toText content = .ok text ∧ s' = s.stored place text := by
  unfold writeFile knowing
  cases hknows : s.world.knows path with
  | false => simp
  | true =>
    cases hplace : s.world.files.writable path with
    | error reason => simp [hplace, fail, stop]
    | ok place =>
      have hfirst : storeFile place "" s = (.ok (), s.stored place "") := rfl
      have hstore : (s.stored place "").store = s.store := rfl
      simp only [hplace, if_pos, bind_eq_ok, hfirst]
      constructor
      · rintro ⟨u, between, heq, text, after, hfrom, hlast⟩
        cases heq
        obtain ⟨htext, rfl⟩ := fromStore_eq_ok.mp hfrom
        rw [hstore] at htext
        cases hlast
        exact ⟨place, text, trivial, rfl, htext, s.stored_stored place "" text⟩
      · rintro ⟨there, text, -, hthere, htext, rfl⟩
        cases hthere
        refine ⟨(), s.stored place "", rfl, text, s.stored place "", ?_, ?_⟩
        · exact fromStore_eq_ok.mpr ⟨htext, rfl⟩
        · rw [← s.stored_stored place "" text]
          rfl

theorem callBuiltin_writeText (called : String) (v content : Value) (offset : Nat) :
    callBuiltin .writeText called [v, content] offset = (do
      let path ← fromStore offset (·.toText v)
      writeFile offset path content
      return .text path) := rfl

/-- When `write_text` succeeds, and what it does. -/
theorem callBuiltin_writeText_eq_ok {called : String} {v content r : Value} :
    callBuiltin .writeText called [v, content] offset s = (.ok r, s') ↔
      ∃ path place text, s.store.toText v = .ok path ∧ s.world.knows path = true
        ∧ s.world.files.writable path = .ok place ∧ s.store.toText content = .ok text
        ∧ r = .text path ∧ s' = s.stored place text := by
  simp only [callBuiltin_writeText, bind_eq_ok]
  constructor
  · rintro ⟨path, first, hpath, u, second, hwrite, hlast⟩
    obtain ⟨hpath, rfl⟩ := fromStore_eq_ok.mp hpath
    obtain ⟨place, text, hknows, hplace, htext, rfl⟩ := writeFile_eq_ok.mp hwrite
    cases hlast
    exact ⟨path, place, text, hpath, hknows, hplace, htext, rfl, rfl⟩
  · rintro ⟨path, place, text, hpath, hknows, hplace, htext, rfl, rfl⟩
    exact ⟨path, s, fromStore_eq_ok.mpr ⟨hpath, rfl⟩, (), s.stored place text,
      writeFile_eq_ok.mpr ⟨place, text, hknows, hplace, htext, rfl⟩, rfl⟩

/-- `read_text` of a path gives the text of the file that it leads to. -/
theorem callBuiltin_readText_of_ok {called path : String} {v : Value} {cs : List Char}
    (hpath : s.store.toText v = .ok path) (hknows : s.world.knows path = true)
    (hread : s.world.files.readText path = .ok cs) :
    callBuiltin .readText called [v] offset s = (.ok (.text (String.ofList cs)), s) := by
  have hcount : checkCount called 1 1 offset s = (.ok (), s) := rfl
  have hfile : readFile offset path s = (.ok (String.ofList cs), s) := by
    simp only [readFile, knowing, hknows, if_pos, hread]
  simp only [callBuiltin, Builtin.arity, List.length_cons, List.length_nil, builtin, bind_eq_ok]
  exact ⟨(), s, hcount, path, s, fromStore_eq_ok.mpr ⟨hpath, rfl⟩, _, s, hfile, rfl⟩

/-- What `write_text` has written `read_text` gives back, under every value that is displayed as the
same path: the text with unified line breaks, which is the text itself exactly if no carriage return
is in it. The write changes only the place that the path leads to, so every other file is read as
before. -/
theorem readText_of_written {called : String} {v content r : Value}
    (h : callBuiltin .writeText called [v, content] offset s = (.ok r, s')) :
    ∃ (path text : String) (place : List String),
      s.store.toText v = .ok path ∧ s.store.toText content = .ok text
        ∧ s.world.files.writable path = .ok place
        ∧ r = .text path ∧ s' = s.stored place text
        ∧ (∀ (reader : String) (w : Value) (there : Nat), s'.store.toText w = .ok path →
          callBuiltin .readText reader [w] there s'
            = (.ok (.text (String.ofList (Text.unifyBreaks text.toList))), s'))
        ∧ (String.ofList (Text.unifyBreaks text.toList) = text ↔ '\r' ∉ text.toList)
        ∧ Files.ChangedAt place s.world.files s'.world.files
        ∧ ∀ other, s.world.files.resolve other ≠ .ok place → ∀ bytes,
          s'.world.files.read other = .ok bytes ↔ s.world.files.read other = .ok bytes := by
  obtain ⟨path, place, text, hpath, hknows, hplace, htext, rfl, rfl⟩ :=
    callBuiltin_writeText_eq_ok.mp h
  obtain ⟨hresolve, -, hfree⟩ := Files.writable_eq_ok.mp hplace
  have hchanged : Files.ChangedAt place s.world.files (s.stored place text).world.files :=
    Files.changedAt_store (Files.reached_of_resolve hresolve) hfree _
  refine ⟨path, text, place, hpath, htext, hplace, rfl, rfl, ?_, ?_, hchanged, ?_⟩
  · intro reader w there hw
    exact callBuiltin_readText_of_ok hw hknows (Files.readText_store hplace text.toList)
  · rw [← Text.unifyBreaks_eq_self_iff, ← String.toList_inj, String.toList_ofList]
  · intro other hother bytes
    exact hchanged.read_iff hother bytes

/-- A working directory with one file in it. -/
def desk : State :=
  ⟨.empty, [], .complete ⟨2024, 1, 31, 0, 0, 0, 0⟩ [] ⟨[("g", [104, 105])], []⟩, false, none, [], []⟩

theorem desk_writable : desk.world.files.writable "f" = .ok ["f"] := rfl

/-- Any text can be written there. -/
theorem write_on_desk (text : String) :
    callBuiltin .writeText "write_text" [.text "f", .text text] 0 desk
      = (.ok (.text "f"), desk.stored ["f"] text) :=
  callBuiltin_writeText_eq_ok.mpr ⟨"f", ["f"], text, rfl, rfl, desk_writable, rfl, rfl, rfl⟩

/-- A line feed comes back, and the file that was there stays. -/
theorem feed_comes_back :
    let after := desk.stored ["f"] "a\nb"
    callBuiltin .writeText "write_text" [.text "f", .text "a\nb"] 0 desk = (.ok (.text "f"), after)
      ∧ callBuiltin .readText "read_text" [.text "f"] 3 after = (.ok (.text "a\nb"), after)
      ∧ after.world.files.read "g" = .ok [104, 105] := by
  intro after
  have hwrite := write_on_desk "a\nb"
  obtain ⟨path, text, place, hpath, htext, hplace, -, -, hback, hsame, -, hothers⟩ :=
    readText_of_written hwrite
  cases hpath
  cases htext
  rw [desk_writable] at hplace
  cases hplace
  refine ⟨hwrite, ?_, ?_⟩
  · rw [hback "read_text" (.text "f") 3 rfl, hsame.mpr (by decide)]
  · apply (hothers "g" ?_ _).mpr rfl
    have hg : desk.world.files.resolve "g" = .ok ["g"] := rfl
    rw [hg]
    simp

/-- A carriage return is written as it is and comes back as a line feed. -/
theorem return_comes_back_as_feed :
    let after := desk.stored ["f"] "a\rb"
    desk.store.toText (.text "a\rb") = .ok "a\rb"
      ∧ callBuiltin .writeText "write_text" [.text "f", .text "a\rb"] 0 desk
        = (.ok (.text "f"), after)
      ∧ callBuiltin .readText "read_text" [.text "f"] 0 after = (.ok (.text "a\nb"), after)
      ∧ "a\nb" ≠ "a\rb" := by
  intro after
  refine ⟨rfl, write_on_desk "a\rb", ?_, by decide⟩
  exact callBuiltin_readText_of_ok rfl rfl (Files.readText_store desk_writable "a\rb".toList)

end Run
end Parlance
