import Mathlib.Data.List.DropRight
import EntityFilter.Filter.Coercion
import EntityFilter.Proofs.Patterns

namespace EntityFilter

/-- The glob describes the whole of the text. -/
inductive Glob : List Char → List Char → Prop where
  | nil : Glob [] []
  | star (run : List Char) {glob text : List Char} (rest : Glob glob text) :
    Glob ('*' :: glob) (run ++ text)
  | char {c : Char} (plain : c ≠ '*') {glob text : List Char} (rest : Glob glob text) :
    Glob (c :: glob) (c :: text)

namespace Glob

variable {glob more text : List Char}

theorem nil_iff : Glob [] text ↔ text = [] := by
  constructor
  · intro h
    cases h
    rfl
  · rintro rfl
    exact .nil

theorem star_iff : Glob ('*' :: glob) text ↔ ∃ run rest, text = run ++ rest ∧ Glob glob rest := by
  constructor
  · intro h
    generalize shape : '*' :: glob = whole at h
    cases h with
    | nil => cases shape
    | star run rest =>
      cases shape
      exact ⟨run, _, rfl, rest⟩
    | char plain =>
      cases shape
      exact absurd rfl plain
  · rintro ⟨run, _, rfl, rest⟩
    exact .star run rest

theorem char_iff {c : Char} (plain : c ≠ '*') :
    Glob (c :: glob) text ↔ ∃ rest, text = c :: rest ∧ Glob glob rest := by
  constructor
  · intro h
    cases h with
    | star => exact absurd rfl plain
    | char _ rest => exact ⟨_, rfl, rest⟩
  · rintro ⟨_, rfl, rest⟩
    exact .char plain rest

/-- Without stars a glob describes itself and nothing else. -/
theorem iff_eq_of_not_mem (h : '*' ∉ glob) : Glob glob text ↔ text = glob := by
  induction glob generalizing text with
  | nil => exact nil_iff
  | cons c glob ih =>
    simp only [List.mem_cons, not_or] at h
    rw [char_iff (Ne.symm h.1)]
    simp [ih h.2]

theorem append_iff :
    Glob (glob ++ more) text ↔ ∃ t u, text = t ++ u ∧ Glob glob t ∧ Glob more u := by
  constructor
  · intro h
    induction glob generalizing text with
    | nil => exact ⟨[], text, rfl, .nil, h⟩
    | cons c glob ih =>
      rw [List.cons_append] at h
      by_cases star : c = '*'
      · subst star
        obtain ⟨run, rest, rfl, behind⟩ := star_iff.mp h
        obtain ⟨t, u, rfl, front, back⟩ := ih behind
        exact ⟨run ++ t, u, (List.append_assoc ..).symm, .star run front, back⟩
      · obtain ⟨rest, rfl, behind⟩ := (char_iff star).mp h
        obtain ⟨t, u, rfl, front, back⟩ := ih behind
        exact ⟨c :: t, u, rfl, .char star front, back⟩
  · rintro ⟨t, u, rfl, front, back⟩
    induction front with
    | nil => exact back
    | star run _ ih =>
      rw [List.append_assoc]
      exact .star run ih
    | char plain _ ih => exact .char plain ih

end Glob

/-- The glob describes some part of the text. -/
def Glob.Part (glob text : List Char) : Prop :=
  ∃ before part after, text = before ++ part ++ after ∧ Glob glob part

namespace Glob.Part

variable {glob text : List Char}

theorem nil (text : List Char) : Part [] text := ⟨[], [], text, rfl, .nil⟩

/-- A part of a text is what stars around the glob make room for. -/
theorem iff_glob : Part glob text ↔ Glob ('*' :: glob ++ ['*']) text := by
  constructor
  · rintro ⟨before, part, after, rfl, h⟩
    have last : Glob ['*'] after := by simpa using Glob.star after .nil
    rw [List.append_assoc, List.cons_append]
    exact .star before (append_iff.mpr ⟨part, after, rfl, h, last⟩)
  · intro h
    rw [List.cons_append] at h
    obtain ⟨before, rest, rfl, behind⟩ := star_iff.mp h
    obtain ⟨part, after, rfl, described, _⟩ := append_iff.mp behind
    exact ⟨before, part, after, (List.append_assoc ..).symm, described⟩

theorem star_cons_iff : Part ('*' :: glob) text ↔ Part glob text := by
  constructor
  · rintro ⟨before, part, after, rfl, h⟩
    obtain ⟨run, rest, rfl, described⟩ := star_iff.mp h
    exact ⟨before ++ run, rest, after, by simp, described⟩
  · rintro ⟨before, part, after, rfl, h⟩
    exact ⟨before, part, after, rfl, .star [] h⟩

theorem concat_star_iff : Part (glob ++ ['*']) text ↔ Part glob text := by
  constructor
  · rintro ⟨before, part, after, rfl, h⟩
    obtain ⟨front, run, rfl, described, _⟩ := append_iff.mp h
    exact ⟨before, front, run ++ after, by simp, described⟩
  · rintro ⟨before, part, after, rfl, h⟩
    have last : Glob ['*'] [] := .star [] .nil
    exact ⟨before, part, after, rfl, append_iff.mpr ⟨part, [], by simp, h, last⟩⟩

theorem dropWhile_star_iff : Part (glob.dropWhile (· == '*')) text ↔ Part glob text := by
  induction glob with
  | nil => exact Iff.rfl
  | cons c glob ih =>
    by_cases star : c = '*'
    · subst star
      rw [List.dropWhile_cons_of_pos (by simp), ih, star_cons_iff]
    · rw [List.dropWhile_cons_of_neg (by simpa using star)]

theorem rdropWhile_star_iff : Part (glob.rdropWhile (· == '*')) text ↔ Part glob text := by
  induction glob using List.reverseRecOn with
  | nil => exact Iff.rfl
  | append_singleton glob c ih =>
    by_cases star : c = '*'
    · subst star
      rw [List.rdropWhile_concat_pos _ _ _ (by simp), ih, concat_star_iff]
    · rw [List.rdropWhile_concat_neg _ _ _ (by simpa using star)]

/-- A part of a text can be asked for without the stars at the ends of its glob. -/
theorem trimStars_iff : Part (LikePattern.trimStars glob) text ↔ Part glob text := by
  have ends : LikePattern.trimStars glob =
      (glob.dropWhile (· == '*')).rdropWhile (· == '*') := rfl
  rw [ends, rdropWhile_star_iff, dropWhile_star_iff]

end Glob.Part

namespace LikePattern

theorem items_ofGlob (cs : List Char) : (ofGlob cs).items = cs.map globItem := by
  simp [ofGlob, items, LikeItem.parse_pattern]

/-- The patterns that literals are made into match what their globs describe. -/
theorem matches_globItems_iff {glob text : List Char} :
    LikeItem.Matches (glob.map globItem) text ↔ Glob glob text := by
  induction glob generalizing text with
  | nil => exact LikeItem.matches_nil_iff.trans Glob.nil_iff.symm
  | cons c glob ih =>
    rw [List.map_cons]
    by_cases star : c = '*'
    · subst star
      have item : globItem '*' = .run := rfl
      rw [item, LikeItem.matches_run_iff, Glob.star_iff]
      simp only [ih]
    · have item : globItem c = .char c := if_neg star
      rw [item, LikeItem.matches_char_iff, Glob.char_iff star]
      simp only [ih]

theorem matches_ofGlob_iff {glob text : List Char} :
    LikeItem.Matches (ofGlob glob).items text ↔ Glob glob text := by
  rw [items_ofGlob]
  exact matches_globItems_iff

/-- With stars around it a glob asks for a part of the text, whichever of its own stars are left. -/
theorem matches_containing_iff {glob text : List Char} :
    LikeItem.Matches (containing glob).items text ↔ Glob.Part glob text := by
  simp only [containing]
  split
  · rename_i empty
    rw [matches_ofGlob_iff, ← Glob.Part.trimStars_iff, List.isEmpty_iff.mp empty]
    exact iff_of_true (by simpa using Glob.star text .nil) (Glob.Part.nil text)
  · rw [matches_ofGlob_iff, ← Glob.Part.iff_glob, Glob.Part.trimStars_iff]

end LikePattern

instance (glob text : List Char) : Decidable (Glob glob text) :=
  decidable_of_iff _ (LikeItem.matchesAll_iff.trans LikePattern.matches_ofGlob_iff)

end EntityFilter
