import Mathlib
import EntityFilter.Table
import EntityFilter.Proofs.Refusals

namespace EntityFilter.Table

variable {α : Type} {t : Table α} {es es' : List (String × α)} {name : String} {x : α}

theorem nodup_names (t : Table α) : (t.entries.map (·.1)).Nodup := by
  rw [List.Nodup, List.pairwise_map]
  refine t.sorted.imp ?_
  intro a b less same
  exact String.lt_irrefl b.1 (same ▸ less)

theorem find?_eq_some_iff (distinct : (es.map (·.1)).Nodup) :
    es.find? (·.1 == name) = some (name, x) ↔ (name, x) ∈ es := by
  induction es with
  | nil => simp
  | cons e es ih =>
    obtain ⟨fresh, rest⟩ := List.nodup_cons.mp distinct
    by_cases here : e.1 = name
    · have later : (name, x) ∉ es := fun mem => fresh (List.mem_map.mpr ⟨_, mem, here.symm⟩)
      simp [here, later, eq_comm]
    · have other : (name, x) ≠ e := fun same => here (same ▸ rfl)
      simp [here, other, ih rest]

theorem get?_eq_some : t.get? name = some x ↔ (name, x) ∈ t.entries := by
  constructor
  · exact mem_entries_of_get?
  · intro mem
    rw [get?, (find?_eq_some_iff t.nodup_names).mpr mem]
    rfl

/-- Tables that hold the same under each name are the same: sorted entries leave no choice. -/
theorem ext {s t : Table α} (same : ∀ name, s.get? name = t.get? name) : s = t := by
  have alike : s.entries.Perm t.entries := by
    refine (List.perm_ext_iff_of_nodup ?_ ?_).mpr fun ⟨name, x⟩ => ?_
    · exact s.nodup_names.of_map
    · exact t.nodup_names.of_map
    · rw [← get?_eq_some, ← get?_eq_some, same]
  have equal : s.entries = t.entries :=
    alike.eq_of_pairwise (fun a b _ _ less more => absurd (String.lt_trans less more)
      (String.lt_irrefl a.1)) s.sorted t.sorted
  cases s
  cases t
  cases equal
  rfl

/-- Of entries put in one after another the last under a name counts. -/
theorem get?_foldl (t : Table α) (es : List (String × α)) (name : String) :
    (es.foldl (fun t e => t.insert e.1 e.2) t).get? name =
      ((es.reverse.find? (·.1 == name)).map (·.2)).or (t.get? name) := by
  induction es generalizing t with
  | nil => rfl
  | cons e es ih =>
    rw [List.foldl_cons, ih, get?_insert, List.reverse_cons, List.find?_append]
    by_cases here : name = e.1 <;>
      cases es.reverse.find? (·.1 == name) <;> simp [here, Ne.symm]

/-- Of equally named entries the last counts. -/
theorem get?_ofList (es : List (String × α)) (name : String) :
    (ofList es).get? name = (es.reverse.find? (·.1 == name)).map (·.2) := by
  rw [ofList, get?_foldl]
  exact Option.or_none

/-- A table keeps entries whose names differ, in its own order. -/
theorem entries_ofList_perm (distinct : (es.map (·.1)).Nodup) : (ofList es).entries.Perm es := by
  have backwards : (es.reverse.map (·.1)).Nodup := by rwa [List.map_reverse, List.nodup_reverse]
  refine (List.perm_ext_iff_of_nodup ?_ ?_).mpr fun ⟨name, x⟩ => ?_
  · exact (ofList es).nodup_names.of_map
  · exact distinct.of_map
  · rw [← get?_eq_some, get?_ofList, ← List.mem_reverse, ← find?_eq_some_iff backwards]
    constructor
    · intro last
      obtain ⟨⟨name', _⟩, found, rfl⟩ := Option.map_eq_some_iff.mp last
      have here : name' = name := by simpa using List.find?_some found
      exact here ▸ found
    · intro found
      rw [found]
      rfl

/-- A table is made again from its entries, in whatever order they come. -/
theorem ofList_of_perm (h : es.Perm t.entries) : ofList es = t := by
  have distinct : (es.map (·.1)).Nodup := (h.map (·.1)).nodup_iff.mpr t.nodup_names
  refine ext fun name => Option.ext fun x => ?_
  rw [get?_eq_some, get?_eq_some, (entries_ofList_perm distinct).mem_iff, h.mem_iff]

end EntityFilter.Table
