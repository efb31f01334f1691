import Parlance.World.Files
/-!
# Where paths lead

A path leads through folders only, to a place whose names have no slashes. Among such places the
path of a place tells which one it is, and a path that goes on behind a slash belongs to a place
farther down.
-/
namespace Parlance

namespace Files

/-! ### Names without slashes -/

theorem not_mem_of_mem_split {path name : List Char} (h : name ∈ split path) : '/' ∉ name := by
  fun_induction split path generalizing name with
  | case1 => simp_all
  | case2 cs ih =>
    rcases List.mem_cons.mp h with rfl | h
    · exact List.not_mem_nil
    · exact ih h
  | case3 c cs hc hcs ih => simp_all [Ne.symm hc]
  | case4 c cs hc n ns hcs ih =>
    rw [hcs] at ih
    rcases List.mem_cons.mp h with rfl | h
    · have hn := ih List.mem_cons_self
      simp [Ne.symm hc, hn]
    · exact ih (List.mem_cons_of_mem n h)

/-- The names on the way to a place have no slashes. -/
def Plain (place : List String) : Prop := ∀ n ∈ place, '/' ∉ n.toList

variable {place other : List String}

theorem Plain.of_prefix (h : Plain place) (hle : other <+: place) : Plain other :=
  fun n hn => h n (hle.subset hn)

theorem Plain.concat (h : Plain place) {name : String} (hname : '/' ∉ name.toList) :
    Plain (place ++ [name]) := by
  intro n hn
  rcases List.mem_append.mp hn with hn | hn
  · exact h n hn
  · rw [List.mem_singleton.mp hn]
    exact hname

theorem Plain.above (h : Plain place) : Plain (above place) := by
  unfold Files.above
  split
  · exact h
  split
  · exact h.concat (by decide)
  · exact h.of_prefix (List.dropLast_prefix place)

theorem plain_start (path : String) : Plain (stepsOf path).1 := by
  intro n hn
  simp only [stepsOf] at hn
  split at hn
  · rw [List.mem_singleton.mp hn]
    decide
  · cases hn

theorem plain_names (path : String) : Plain (stepsOf path).2 := by
  intro n hn
  obtain ⟨name, hname, rfl⟩ := List.mem_map.mp hn
  rw [String.toList_ofList]
  exact not_mem_of_mem_split (List.mem_filter.mp hname).1

/-- The path of a place splits into the names on the way to it. -/
theorem Plain.splitOn_pathOf (h : Plain place) (hne : place ≠ []) :
    (pathOf place).toList.splitOn '/' = place.map String.toList := by
  rw [pathOf, String.toList_intercalate]
  apply List.splitOn_intercalate
  · intro l hl
    obtain ⟨n, hn, rfl⟩ := List.mem_map.mp hl
    exact h n hn
  · simpa using hne

theorem map_toList_inj : place.map String.toList = other.map String.toList ↔ place = other :=
  List.map_inj_right fun _ _ => String.toList_inj.mp

theorem Plain.pathOf_ne (h : Plain place) (ho : Plain other) (hne : place ≠ []) (hone : other ≠ [])
    (hdiff : other ≠ place) : pathOf other ≠ pathOf place := by
  intro heq
  apply hdiff
  apply map_toList_inj.mp
  rw [← ho.splitOn_pathOf hone, ← h.splitOn_pathOf hne, heq]

/-- A path that goes on behind a slash belongs to a place farther down. -/
theorem Plain.above_of_prefix (h : Plain place) (ho : Plain other) (hne : place ≠ [])
    (hone : other ≠ []) (hle : (pathOf other ++ "/").toList <+: (pathOf place).toList) :
    other <+: place ∧ other ≠ place := by
  obtain ⟨rest, hrest⟩ := hle
  have hsplit : place.map String.toList = other.map String.toList ++ rest.splitOn '/' := by
    rw [← h.splitOn_pathOf hne, ← ho.splitOn_pathOf hone, ← hrest, String.toList_append,
      List.append_assoc]
    exact List.splitOn_append_cons_self _ _
  have hlen : place.length = other.length + (rest.splitOn '/').length := by
    have := congrArg List.length hsplit
    simpa using this
  have hpos : 0 < (rest.splitOn '/').length := List.length_pos_iff.mpr (List.splitOn_ne_nil _ _)
  constructor
  · obtain ⟨front, back, rfl, hfront, -⟩ := List.map_eq_append_iff.mp hsplit
    rw [map_toList_inj.mp hfront]
    exact List.prefix_append other back
  · rintro rfl
    omega

/-! ### The way to a place -/

/-- A path can lead to a place: its names have no slashes, and there are folders on the way. -/
structure Reached (files : Files) (place : List String) : Prop where
  plain : Plain place
  folder_of_above : ∀ upper, upper <+: place → upper ≠ place → files.entry upper = .folder

variable {files : Files}

theorem entry_of_isBase (h : isBase place = true) : files.entry place = .folder := by
  rw [entry, if_pos h]

theorem isBase_eq_false (h : files.entry place ≠ .folder) : isBase place = false := by
  rw [← Bool.not_eq_true]
  exact fun hbase => h (entry_of_isBase hbase)

theorem ne_nil_of_entry (h : files.entry place ≠ .folder) : place ≠ [] := by
  rintro rfl
  exact h (entry_of_isBase rfl)

theorem Reached.of_prefix (h : files.Reached place) (hle : other <+: place) :
    files.Reached other := by
  refine ⟨h.plain.of_prefix hle, fun upper hupper hne => ?_⟩
  apply h.folder_of_above upper (hupper.trans hle)
  rintro rfl
  exact hne (hupper.eq_of_length (Nat.le_antisymm hupper.length_le hle.length_le))

theorem Reached.concat (h : files.Reached place) (hfolder : files.entry place = .folder)
    {name : String} (hname : '/' ∉ name.toList) : files.Reached (place ++ [name]) := by
  refine ⟨h.plain.concat hname, fun upper hupper hne => ?_⟩
  rcases List.prefix_concat_iff.mp hupper with heq | hupper
  · exact absurd heq hne
  · by_cases hsame : upper = place
    · rw [hsame]
      exact hfolder
    · exact h.folder_of_above upper hupper hsame

theorem Reached.above (h : files.Reached place) (hfolder : files.entry place = .folder) :
    files.Reached (above place) := by
  unfold Files.above
  split
  · exact h
  split
  · exact h.concat hfolder (by decide)
  · exact h.of_prefix (List.dropLast_prefix place)

theorem reached_start (path : String) : files.Reached (stepsOf path).1 := by
  refine ⟨plain_start path, fun upper hupper hne => ?_⟩
  have hnil : upper = [] := by
    simp only [stepsOf] at hupper hne
    split at hupper
    · next habs =>
      rw [if_pos habs] at hne
      rcases List.prefix_cons_iff.mp hupper with h | ⟨t, rfl, ht⟩
      · exact h
      · rw [List.prefix_nil.mp ht] at hne
        exact absurd rfl hne
    · exact List.prefix_nil.mp hupper
  rw [hnil]
  exact entry_of_isBase rfl

theorem Reached.walk {there names : List String} (h : files.Reached place) (hnames : Plain names)
    (hwalk : files.walk place names = .ok there) : files.Reached there := by
  induction names generalizing place with
  | nil =>
    cases hwalk
    exact h
  | cons n ns ih =>
    have hns : Plain ns := fun m hm => hnames m (List.mem_cons_of_mem n hm)
    rw [Files.walk] at hwalk
    cases hentry : files.entry place with
    | absent => simp [hentry] at hwalk
    | file bytes => simp [hentry] at hwalk
    | folder =>
      simp only [hentry] at hwalk
      split at hwalk
      · exact ih h hns hwalk
      split at hwalk
      · exact ih (h.above hentry) hns hwalk
      split at hwalk
      · cases hwalk
      · exact ih (h.concat hentry (hnames n List.mem_cons_self)) hns hwalk

/-- A path is followed if it is not malformed, empty or too long. -/
theorem resolve_eq_ok {path : String} :
    files.resolve path = .ok place ↔
      (path.toList.contains '\x00' = false ∧ path.isEmpty = false
        ∧ ¬ longestPath < path.utf8ByteSize)
      ∧ files.walk (stepsOf path).1 (stepsOf path).2 = .ok place := by
  unfold resolve
  cases path.toList.contains '\x00' with
  | true => simp
  | false =>
    cases path.isEmpty with
    | true => simp
    | false => by_cases hlong : longestPath < path.utf8ByteSize <;> simp [hlong]

theorem reached_of_resolve {path : String} (h : files.resolve path = .ok place) :
    files.Reached place :=
  (reached_start path).walk (plain_names path) (resolve_eq_ok.mp h).2

end Files
end Parlance
