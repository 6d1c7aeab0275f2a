import TokenInspector.Json.Basic
import Mathlib.Data.List.Induction
import Mathlib.Data.List.Nodup

/-!
# Keys of an object

A key that stands more than once in an object keeps its first place and takes its last value.
`firstKeys` lists the distinct keys by their first places, `lastValue?` is the value of the last
entry under a key, and `lastValues_eq` says that the entries by key are just these.
-/

namespace TokenInspector

namespace Json

variable {α : Type}

/-- The distinct keys of entries, each in the place of its first entry. -/
def firstKeys (entries : List (String × α)) : List String := (entries.map (·.1)).eraseDups

/-- The value of the last entry under a key. -/
def lastValue? (entries : List (String × α)) (key : String) : Option α := entries.reverse.lookup key

theorem map_fst_put (entries : List (String × α)) (key : String) (value : α) :
    (put entries key value).map (·.1) =
      if key ∈ entries.map (·.1) then entries.map (·.1) else entries.map (·.1) ++ [key] := by
  induction entries with
  | nil => rfl
  | cons entry rest ih =>
    by_cases h : entry.1 = key
    · simp [put, h]
    · have hne : ¬ key = entry.1 := fun heq => h heq.symm
      simp only [put, h, if_false, List.map_cons, ih, List.mem_cons, hne, false_or]
      split <;> rfl

theorem lookup_cons_eq (key other : String) (value : α) (entries : List (String × α)) :
    ((other, value) :: entries).lookup key =
      if key = other then some value else entries.lookup key := by
  by_cases h : key = other
  · simp [h]
  · rw [List.lookup_cons, beq_eq_false_iff_ne.mpr h, if_neg h]

theorem lookup_put (entries : List (String × α)) (key other : String) (value : α) :
    (put entries key value).lookup other =
      if other = key then some value else entries.lookup other := by
  induction entries with
  | nil => exact lookup_cons_eq other key value []
  | cons entry rest ih =>
    obtain ⟨first, held⟩ := entry
    by_cases h : first = key
    · by_cases ho : other = key <;> simp [put, lookup_cons_eq, h, ho]
    · simp only [put, h, if_false, lookup_cons_eq, ih]
      by_cases ho : other = first
      · simp [ho, h]
      · simp [ho]

theorem put_of_not_mem {entries : List (String × α)} {key : String}
    (h : key ∉ entries.map (·.1)) (value : α) : put entries key value = entries ++ [(key, value)] := by
  induction entries with
  | nil => rfl
  | cons entry rest ih =>
    rw [List.map_cons, List.mem_cons, not_or] at h
    rw [put, if_neg (Ne.symm h.1), ih h.2, List.cons_append]

theorem lastValues_concat (entries : List (String × α)) (key : String) (value : α) :
    lastValues (entries ++ [(key, value)]) = put (lastValues entries) key value := by
  rw [lastValues, List.foldl_concat, ← lastValues]

theorem map_fst_lastValues (entries : List (String × α)) :
    (lastValues entries).map (·.1) = firstKeys entries := by
  induction entries using List.reverseRecOn with
  | nil => rfl
  | append_singleton rest entry ih =>
    rw [lastValues_concat, map_fst_put, ih, firstKeys, firstKeys, List.map_append,
      List.eraseDups_append]
    by_cases h : entry.1 ∈ rest.map (·.1) <;>
      simp [List.removeAll, List.mem_eraseDups, List.eraseDups_cons, h]

theorem lookup_lastValues (entries : List (String × α)) (key : String) :
    (lastValues entries).lookup key = lastValue? entries key := by
  induction entries using List.reverseRecOn with
  | nil => rfl
  | append_singleton rest entry ih =>
    rw [lastValues_concat, lookup_put, ih, lastValue?, lastValue?, List.reverse_concat,
      lookup_cons_eq]

theorem nodup_put {entries : List (String × α)} (h : (entries.map (·.1)).Nodup) (key : String)
    (value : α) : ((put entries key value).map (·.1)).Nodup := by
  rw [map_fst_put]
  split
  · exact h
  · rename_i hkey
    refine List.nodup_append.mpr ⟨h, List.nodup_singleton key, ?_⟩
    rintro other hother _ hmem rfl
    exact hkey (List.mem_singleton.mp hmem ▸ hother)

theorem nodup_firstKeys (entries : List (String × α)) : (firstKeys entries).Nodup := by
  rw [← map_fst_lastValues]
  induction entries using List.reverseRecOn with
  | nil => exact .nil
  | append_singleton rest entry ih =>
    rw [lastValues_concat]
    exact nodup_put ih _ _

theorem mem_of_lastValue? {entries : List (String × α)} {key : String} {value : α}
    (h : lastValue? entries key = some value) : (key, value) ∈ entries := by
  obtain ⟨_, _, hsplit, -⟩ := List.lookup_eq_some_iff.mp h
  exact List.mem_reverse.mp (by simp [hsplit])

theorem mem_firstKeys {entries : List (String × α)} {key : String} {value : α}
    (h : lastValue? entries key = some value) : key ∈ firstKeys entries :=
  List.mem_eraseDups.mpr (List.mem_map_of_mem (mem_of_lastValue? h))

/-- Entries with distinct keys are told by their keys and the values under them. -/
theorem filterMap_lookup {entries : List (String × α)} (h : (entries.map (·.1)).Nodup) :
    (entries.map (·.1)).filterMap (fun key => (entries.lookup key).map (key, ·)) = entries := by
  induction entries with
  | nil => rfl
  | cons entry rest ih =>
    obtain ⟨first, held⟩ := entry
    obtain ⟨hfirst, hrest⟩ := List.nodup_cons.mp h
    have hsame : (rest.map (·.1)).filterMap
          (fun key => (((first, held) :: rest).lookup key).map (key, ·)) = rest := by
      refine Eq.trans (List.filterMap_congr fun key hkey => ?_) (ih hrest)
      have hne : key ≠ first := by
        rintro rfl
        exact hfirst hkey
      rw [lookup_cons_eq, if_neg hne]
    simp [hsame]

/-- The entries by key are the keys by their first places with their last values. -/
theorem lastValues_eq (entries : List (String × α)) :
    lastValues entries =
      (firstKeys entries).filterMap fun key => (lastValue? entries key).map (key, ·) := by
  have hnodup : ((lastValues entries).map (·.1)).Nodup :=
    map_fst_lastValues entries ▸ nodup_firstKeys entries
  rw [← filterMap_lookup hnodup, map_fst_lastValues]
  simp only [lookup_lastValues]

/-- Entries with distinct keys are the entries by key. -/
theorem lastValues_of_nodup {entries : List (String × α)} (h : (entries.map (·.1)).Nodup) :
    lastValues entries = entries := by
  induction entries using List.reverseRecOn with
  | nil => rfl
  | append_singleton rest entry ih =>
    rw [List.map_append, List.nodup_append] at h
    obtain ⟨hrest, -, hdisjoint⟩ := h
    have hfresh : entry.1 ∉ rest.map (·.1) := fun hmem =>
      hdisjoint _ hmem _ (List.mem_singleton_self _) rfl
    rw [lastValues_concat, ih hrest, put_of_not_mem hfresh]

variable {β : Type}

theorem firstKeys_map (f : α → β) (entries : List (String × α)) :
    firstKeys (entries.map fun (key, value) => (key, f value)) = firstKeys entries := by
  simp [firstKeys, Function.comp_def]

theorem lookup_map (f : α → β) (entries : List (String × α)) (key : String) :
    (entries.map fun (key, value) => (key, f value)).lookup key = (entries.lookup key).map f := by
  induction entries with
  | nil => rfl
  | cons entry rest ih =>
    obtain ⟨first, held⟩ := entry
    rw [List.map_cons, lookup_cons_eq, lookup_cons_eq, ih]
    split <;> rfl

theorem lastValue?_map (f : α → β) (entries : List (String × α)) (key : String) :
    lastValue? (entries.map fun (key, value) => (key, f value)) key =
      (lastValue? entries key).map f := by
  rw [lastValue?, ← List.map_reverse, lookup_map, ← lastValue?]

end Json

end TokenInspector
