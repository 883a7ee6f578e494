import Mathlib
import EntityFilter.Proofs.WrittenJson

namespace EntityFilter.Json

/-- The same value, with the fields of its objects in whatever order. -/
inductive Shuffled : Json → Json → Prop where
  | null : Shuffled .null .null
  | bool (b : Bool) : Shuffled (.bool b) (.bool b)
  | number (n : JsonNumber) : Shuffled (.number n) (.number n)
  | string (s : String) : Shuffled (.string s) (.string s)
  | array {xs ys : List Json} (items : List.Forall₂ Shuffled xs ys) :
      Shuffled (.array xs) (.array ys)
  | object {fs gs hs : List (String × Json)} (names : fs.map (·.1) = gs.map (·.1))
      (values : List.Forall₂ Shuffled (fs.map (·.2)) (gs.map (·.2))) (order : gs.Perm hs) :
      Shuffled (.object fs) (.object hs)

namespace Shuffled

mutual

theorem refl : ∀ j : Json, j.Shuffled j
  | .null => .null
  | .bool b => .bool b
  | .number n => .number n
  | .string s => .string s
  | .array xs => .array (refl_items xs)
  | .object fs => .object rfl (refl_fields fs) (.refl fs)

theorem refl_items : ∀ xs : List Json, List.Forall₂ Shuffled xs xs
  | [] => .nil
  | x :: xs => .cons (refl x) (refl_items xs)

theorem refl_fields : ∀ fs : List (String × Json),
    List.Forall₂ Shuffled (fs.map (·.2)) (fs.map (·.2))
  | [] => .nil
  | (_, x) :: fs => .cons (refl x) (refl_fields fs)

end

end Shuffled

/-- A text in which the value is written. -/
def Writes (j : Json) (text : String) : Prop :=
  ∃ j' sp, j.Shuffled j' ∧ sp.Blank ∧ text = String.ofList (j'.write sp 0)

theorem writes_compact (j : Json) : j.Writes j.compact :=
  ⟨j, .compact, .refl j, Spacing.blank_compact, rfl⟩

theorem writes_pretty (j : Json) : j.Writes j.pretty :=
  ⟨j, .pretty, .refl j, Spacing.blank_pretty, rfl⟩

/-- However the value is written, its outline is one of these. -/
def Outlined (j : Json) (q : Outline → Prop) : Prop := ∀ j', j.Shuffled j' → ∃ o, j'.Shows o ∧ q o

namespace Outlined

theorem mono {j : Json} {q q' : Outline → Prop} (outlined : j.Outlined q) (more : ∀ o, q o → q' o) :
    j.Outlined q' := by
  intro j' shuffled
  obtain ⟨o, shown, here⟩ := outlined j' shuffled
  exact ⟨o, shown, more o here⟩

theorem string (s : String) : (Json.string s).Outlined (· = .string (.ok s)) := by
  intro j' shuffled
  cases shuffled
  exact ⟨_, .string s, rfl⟩

theorem bool (b : Bool) : (Json.bool b).Outlined (· = .bool b) := by
  intro j' shuffled
  cases shuffled
  exact ⟨_, .bool b, rfl⟩

section

variable {β : Type} {q : Outline → β → Prop}

theorem items {js js' : List Json} {ys : List β}
    (each : List.Forall₂ (fun j y => j.Outlined (q · y)) js ys)
    (alike : List.Forall₂ Shuffled js js') :
    ∃ os, List.Forall₂ Shows js' os ∧ List.Forall₂ q os ys := by
  induction each generalizing js' with
  | nil =>
    cases alike
    exact ⟨[], .nil, .nil⟩
  | cons first _ ih =>
    cases alike with
    | cons shuffled alike =>
      obtain ⟨o, shown, here⟩ := first _ shuffled
      obtain ⟨os, others, rest⟩ := ih alike
      exact ⟨o :: os, .cons shown others, .cons here rest⟩

theorem array {js : List Json} {ys : List β}
    (each : List.Forall₂ (fun j y => j.Outlined (q · y)) js ys) :
    (Json.array js).Outlined fun o => ∃ os, o = .array os .closed ∧ List.Forall₂ q os ys := by
  intro j' shuffled
  cases shuffled with
  | array alike =>
    obtain ⟨os, shown, here⟩ := items each alike
    exact ⟨_, .array shown, os, rfl, here⟩

end

section

variable {β : Type} {q : String → Outline → β → Prop}

theorem members {fs gs : List (String × Json)} {ys : List β}
    (each : List.Forall₂ (fun f y => f.2.Outlined (q f.1 · y)) fs ys)
    (names : fs.map (·.1) = gs.map (·.1))
    (values : List.Forall₂ Shuffled (fs.map (·.2)) (gs.map (·.2))) :
    List.Forall₂ (fun g y => ∃ o, g.2.Shows o ∧ q g.1 o y) gs ys := by
  induction each generalizing gs with
  | nil =>
    cases gs with
    | nil => exact .nil
    | cons => cases names
  | cons first _ ih =>
    cases gs with
    | nil => cases names
    | cons g gs =>
      obtain ⟨name, _⟩ := g
      simp only [List.map_cons, List.cons.injEq] at names
      obtain ⟨rfl, names⟩ := names
      cases values with
      | cons shuffled values => exact .cons (first _ shuffled) (ih names values)

theorem outlines {hs : List (String × Json)} {ys : List β}
    (each : List.Forall₂ (fun h y => ∃ o, h.2.Shows o ∧ q h.1 o y) hs ys) :
    ∃ ms : List (Except JsonFault String × Outline),
      List.Forall₂ (fun h m => m.1 = .ok h.1 ∧ h.2.Shows m.2) hs ms ∧
      List.Forall₂ (fun m y => ∃ name, m.1 = .ok name ∧ q name m.2 y) ms ys := by
  induction each with
  | nil => exact ⟨[], .nil, .nil⟩
  | @cons h y hs ys first _ ih =>
    obtain ⟨o, shown, here⟩ := first
    obtain ⟨ms, others, rest⟩ := ih
    exact ⟨(.ok h.1, o) :: ms, .cons ⟨rfl, shown⟩ others, .cons ⟨h.1, rfl, here⟩ rest⟩

/-- The fields of an object may be written in whatever order, so a reader's outline of it is known
only up to the order of members. -/
theorem object {fs : List (String × Json)} {ys : List β}
    (each : List.Forall₂ (fun f y => f.2.Outlined (q f.1 · y)) fs ys) :
    (Json.object fs).Outlined fun o => ∃ ms ys', o = .object ms .closed ∧ ys'.Perm ys ∧
      List.Forall₂ (fun m y => ∃ name, m.1 = .ok name ∧ q name m.2 y) ms ys' := by
  intro j' shuffled
  cases shuffled with
  | object names values order =>
    obtain ⟨ys', each', order'⟩ := List.perm_comp_forall₂ order.symm (members each names values)
    obtain ⟨ms, shown, here⟩ := outlines each'
    exact ⟨_, .object shown, ms, ys', rfl, order', here⟩

end

/-- A whole text. -/
theorem ofText {j : Json} {q : Outline → Prop} (outlined : j.Outlined q) {text : String}
    (written : j.Writes text) : ∃ o, q o ∧ Outline.ofText text.toList = (o, false) := by
  obtain ⟨j', sp, shuffled, blank, rfl⟩ := written
  obtain ⟨o, shown, here⟩ := outlined j' shuffled
  exact ⟨o, here, by rw [String.toList_ofList, shown.ofText blank]⟩

end Outlined

end EntityFilter.Json
