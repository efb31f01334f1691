/-!
# Tables in order of first entry

A table maps keys to values and remembers the order in which keys were first entered: a new value
for a known key takes the place of the old one. Frames, function tables and directories are tables.
-/
namespace Parlance

abbrev Table (α : Type) := List (String × α)

namespace Table

variable {α : Type}

/-- The value of a key. -/
def get? (key : String) : Table α → Option α
  | [] => none
  | (k, v) :: rest => if k = key then some v else get? key rest

/-- Enters a value under a key. -/
def put (key : String) (value : α) : Table α → Table α
  | [] => [(key, value)]
  | (k, v) :: rest => if k = key then (k, value) :: rest else (k, v) :: put key value rest

def keys (t : Table α) : List String := t.map Prod.fst

theorem get?_put (key other : String) (value : α) (t : Table α) :
    get? other (put key value t) = if key = other then some value else get? other t := by
  induction t with
  | nil => simp [put, get?]
  | cons e t ih =>
    obtain ⟨k, v⟩ := e
    by_cases hk : k = key
    · subst hk
      by_cases ho : k = other <;> simp [put, get?, ho]
    · by_cases ho : k = other
      · subst ho
        simp [put, get?, hk, Ne.symm hk]
      · simp [put, get?, hk, ho, ih]

/-- A new key comes last and a known key keeps its place. -/
theorem keys_put (key : String) (value : α) (t : Table α) :
    keys (put key value t) = if key ∈ keys t then keys t else keys t ++ [key] := by
  induction t with
  | nil => simp [put, keys]
  | cons e t ih =>
    obtain ⟨k, v⟩ := e
    by_cases hk : k = key
    · subst hk
      simp [put, keys]
    · have hk' : key ≠ k := Ne.symm hk
      simp only [keys] at ih
      by_cases hm : key ∈ t.map Prod.fst <;> simp [put, keys, hk, hk', ih, hm]

theorem mem_keys_of_get? {t : Table α} {key : String} {v : α} (h : t.get? key = some v) :
    key ∈ t.keys := by
  induction t with
  | nil => cases h
  | cons e t ih =>
    rw [get?] at h
    split at h
    · next hk => exact List.mem_cons.mpr (.inl hk.symm)
    · exact List.mem_cons_of_mem _ (ih h)

theorem mem_of_get? {t : Table α} {key : String} {v : α} (h : t.get? key = some v) :
    (key, v) ∈ t := by
  induction t with
  | nil => cases h
  | cons e t ih =>
    obtain ⟨k, w⟩ := e
    rw [get?] at h
    split at h
    · next hk =>
      cases h
      exact List.mem_cons.mpr (.inl (by rw [hk]))
    · exact List.mem_cons_of_mem _ (ih h)

/-! ### Tables of changed values -/

section Map

variable {β : Type} (f : α → β) (t : Table α)

theorem keys_map : keys (t.map fun e => (e.1, f e.2)) = keys t := by
  simp [keys, Function.comp_def]

theorem get?_map (key : String) : get? key (t.map fun e => (e.1, f e.2)) = (get? key t).map f := by
  induction t with
  | nil => rfl
  | cons e t ih =>
    obtain ⟨k, v⟩ := e
    rw [List.map_cons, get?, get?]
    split
    · rfl
    · exact ih

theorem put_map (key : String) (v : α) :
    put key (f v) (t.map fun e => (e.1, f e.2)) = (put key v t).map fun e => (e.1, f e.2) := by
  induction t with
  | nil => rfl
  | cons e t ih =>
    obtain ⟨k, w⟩ := e
    rw [List.map_cons, put, put]
    split
    · rfl
    · rw [ih, List.map_cons]

end Map

end Table
end Parlance
