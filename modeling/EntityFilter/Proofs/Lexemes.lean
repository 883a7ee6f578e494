import EntityFilter.Text.Blank
import EntityFilter.Query.Lexeme
import EntityFilter.Proofs.Shapes

namespace EntityFilter.Lexeme

open Text Shape

def isIdentifier : List Char → Bool
  | [] => false
  | c :: cs => isIdentifierStart c && cs.all isIdentifierPart

inductive IsSelector : List Char → Prop where
  | identifier {cs : List Char} (h : isIdentifier cs) : IsSelector cs
  | path {cs ds : List Char} (h : isIdentifier cs) (more : IsSelector ds) :
    IsSelector (cs ++ '.' :: ds)

theorem cons_of_isIdentifier {cs : List Char} (h : isIdentifier cs) :
    ∃ c ds, cs = c :: ds ∧ isIdentifierStart c ∧ ds.all isIdentifierPart := by
  cases cs with
  | nil => cases h
  | cons c ds =>
    simp only [isIdentifier, Bool.and_eq_true] at h
    exact ⟨c, ds, rfl, h⟩

theorem IsSelector.head {cs : List Char} (h : IsSelector cs) :
    ∃ c ds, cs = c :: ds ∧ isIdentifierStart c := by
  cases h with
  | identifier h =>
    obtain ⟨c, ds, rfl, hc, _⟩ := cons_of_isIdentifier h
    exact ⟨c, ds, rfl, hc⟩
  | path h _ =>
    obtain ⟨c, ds, rfl, hc, _⟩ := cons_of_isIdentifier h
    exact ⟨c, _, rfl, hc⟩

theorem not_isBlank_of_isIdentifierStart {c : Char} (h : isIdentifierStart c) :
    isBlank c = false := by
  cases hb : isBlank c with
  | false => rfl
  | true =>
    have apart : isIdentifierStart c = false := off_of_isBlank rfl hb
    rw [h] at apart
    cases apart

theorem not_digit_of_isIdentifierStart {c : Char} (h : isIdentifierStart c) : digit c = false := by
  have apart : ∀ z ∈ zeros, ∀ k < 10, isIdentifierStart (Char.ofNat (z + k)) = false := by decide
  cases hd : digit c with
  | false => rfl
  | true =>
    obtain ⟨z, hz, k, hk, hc⟩ : ∃ z ∈ zeros, ∃ k < 10, c.toNat = z + k := by
      simp only [digit, isDecimalDigit, Bool.or_eq_true, List.any_eq_true, Bool.and_eq_true,
        decide_eq_true_eq] at hd
      rcases hd with hd | ⟨z, hz, low, high⟩
      · simp only [Char.isDigit, Bool.and_eq_true, decide_eq_true_eq,
          UInt32.le_iff_toNat_le] at hd
        have bounds : 48 ≤ c.toNat ∧ c.toNat ≤ 57 := hd
        exact ⟨48, by decide, c.toNat - 48, by omega, by omega⟩
      · exact ⟨z, hz, c.toNat - z, by omega, by omega⟩
    have := apart z hz k hk
    rw [← hc, Char.ofNat_toNat, h] at this
    cases this

theorem selectorRest_part {c : Char} (cs : List Char) (h : isIdentifierPart c) :
    selectorRest (c :: cs) = 1 + selectorRest cs := by
  rw [selectorRest.eq_def]
  simp [h]

theorem selectorRest_point {d : Char} (ds : List Char) (h : isIdentifierStart d) :
    selectorRest ('.' :: d :: ds) = 2 + selectorRest ds := by
  rw [selectorRest.eq_def]
  simp [h, isIdentifierPart]

theorem selectorRest_append {cs : List Char} (h : cs.all isIdentifierPart) (rest : List Char) :
    selectorRest (cs ++ rest) = cs.length + selectorRest rest := by
  induction cs with
  | nil => simp
  | cons c cs ih =>
    simp only [List.all_cons, Bool.and_eq_true] at h
    rw [List.cons_append, selectorRest_part _ h.1, ih h.2, List.length_cons]
    omega

theorem selector_append {cs : List Char} (h : isIdentifier cs) (rest : List Char) :
    selector (cs ++ rest) = some (cs.length + selectorRest rest) := by
  obtain ⟨c, ds, rfl, hc, hds⟩ := cons_of_isIdentifier h
  rw [List.cons_append, selector, if_pos hc, selectorRest_append hds, List.length_cons]
  congr 1
  omega

/-- A selector is read, and what goes on it. -/
theorem IsSelector.selector_append {cs : List Char} (h : IsSelector cs) (rest : List Char) :
    selector (cs ++ rest) = some (cs.length + selectorRest rest) := by
  induction h with
  | identifier h => exact Lexeme.selector_append h rest
  | @path cs ds h more ih =>
    obtain ⟨d, ds, rfl, hd⟩ := more.head
    rw [List.cons_append, selector, if_pos hd] at ih
    rw [List.append_assoc, Lexeme.selector_append h]
    simp only [List.cons_append, selectorRest_point _ hd, Option.some.injEq, List.length_append,
      List.length_cons] at ih ⊢
    omega

/-- A selector is taken to its end where what follows does not go on it. -/
theorem IsSelector.takes {cs rest : List Char} (h : IsSelector cs) (off : selectorRest rest = 0) :
    selector (cs ++ rest) = some cs.length := by
  rw [h.selector_append, off, Nat.add_zero]

theorem IsSelector.split_append {cs rest : List Char} (h : IsSelector cs)
    (off : selectorRest rest = 0) : selector.split (cs ++ rest) = some (cs, rest) := by
  simp [Shape.split, h.takes off]

/-- An identifier and what goes on it are a selector. -/
theorem isSelector_append_take {cs : List Char} (ds : List Char) (h : isIdentifier cs) :
    IsSelector (cs ++ ds.take (selectorRest ds)) := by
  induction ds using selectorRest.induct generalizing cs with
  | case1 => simpa [selectorRest] using IsSelector.identifier h
  | case2 c ds hc ih =>
    have longer : isIdentifier (cs ++ [c]) := by
      cases cs with
      | nil => simp [isIdentifier] at h
      | cons b cs => simpa [isIdentifier, hc] using h
    rw [selectorRest_part _ hc, Nat.add_comm, List.take_succ_cons]
    simpa using ih longer
  | case3 hp => simpa [selectorRest, hp] using IsSelector.identifier h
  | case4 d ds hd hp ih =>
    have start : isIdentifier [d] := by simpa [isIdentifier] using hd
    rw [selectorRest_point _ hd, Nat.add_comm, List.take_succ_cons, List.take_succ_cons]
    exact .path h (ih start)
  | case5 d ds hd hp =>
    have stop : selectorRest ('.' :: d :: ds) = 0 := by
      rw [selectorRest.eq_def]
      simp [hp, hd]
    simpa [stop] using IsSelector.identifier h
  | case6 c ds hc hp =>
    have stop : selectorRest (c :: ds) = 0 := by
      rw [selectorRest.eq_def]
      simp [hc, hp]
    simpa [stop] using IsSelector.identifier h

/-- What is taken for a selector is one. -/
theorem isSelector_of_split {cs taken rest : List Char}
    (h : selector.split cs = some (taken, rest)) : IsSelector taken := by
  cases cs with
  | nil => simp [Shape.split, selector] at h
  | cons c cs =>
    simp only [Shape.split, selector] at h
    split at h
    · rename_i hc
      simp only [Option.map_some, Option.some.injEq, Prod.mk.injEq] at h
      have start : isIdentifier [c] := by simpa [isIdentifier] using hc
      rw [← h.1, Nat.add_comm, List.take_succ_cons]
      exact isSelector_append_take cs start
    · simp at h

theorem isSelector_iff {cs : List Char} : IsSelector cs ↔ selector cs = some cs.length := by
  constructor
  · intro h
    have whole : selector (cs ++ []) = some cs.length := h.takes rfl
    rwa [List.append_nil] at whole
  · intro h
    have whole : selector.split cs = some (cs, []) := by simp [Shape.split, h]
    exact isSelector_of_split whole

instance (cs : List Char) : Decidable (IsSelector cs) :=
  decidable_of_iff _ isSelector_iff.symm

theorem relation?_append (r : Relation) (rest : List Char) :
    relation? (r.symbol.toList ++ rest) = some r := by
  cases r <;> rfl

/-- No selector goes on with a relation. -/
theorem selectorRest_symbol (r : Relation) (cs : List Char) :
    selectorRest (r.symbol.toList ++ cs) = 0 := by
  cases r <;> rfl

section

variable {rest : List Char}

/-- Text that starts neither an identifier nor a further part does not make a selector longer. A
point at the end was no part of it before, either. -/
theorem selectorRest_followed (off : ∀ c ∈ rest.head?, isIdentifierPart c = false ∧ c ≠ '.')
    (cs : List Char) : selectorRest (cs ++ rest) = selectorRest cs := by
  have start : ∀ c ∈ rest.head?, isIdentifierStart c = false := by
    intro c hc
    have part := (off c hc).1
    simp only [isIdentifierPart, Char.isAlphanum, Bool.or_eq_false_iff] at part
    simp [isIdentifierStart, part]
  induction cs using selectorRest.induct with
  | case1 =>
    cases rest with
    | nil => rfl
    | cons c rest =>
      have := off c (by simp)
      rw [List.nil_append, selectorRest.eq_def]
      simp [this, selectorRest]
  | case2 c cs hc ih => rw [List.cons_append, selectorRest_part _ hc, selectorRest_part _ hc, ih]
  | case3 hp =>
    rw [List.cons_append, List.nil_append, selectorRest.eq_def, selectorRest.eq_def ['.']]
    cases rest with
    | nil => rfl
    | cons d rest => simp [hp, start d (by simp)]
  | case4 d ds hd hp ih =>
    rw [List.cons_append, List.cons_append, selectorRest_point _ hd, selectorRest_point _ hd, ih]
  | case5 d ds hd hp =>
    rw [List.cons_append, List.cons_append, selectorRest.eq_def, selectorRest.eq_def ('.' :: d :: ds)]
    simp [hp, hd]
  | case6 c cs hc hp =>
    rw [List.cons_append, selectorRest.eq_def, selectorRest.eq_def (c :: cs)]
    simp [hc, hp]

theorem selectorRest_le (cs : List Char) : selectorRest cs ≤ cs.length := by
  fun_induction selectorRest cs <;> grind

theorem selector_split_followed (off : ∀ c ∈ rest.head?, isIdentifierPart c = false ∧ c ≠ '.')
    {cs taken more : List Char} (h : selector.split cs = some (taken, more)) :
    selector.split (cs ++ rest) = some (taken, more ++ rest) := by
  cases cs with
  | nil => cases h
  | cons c cs =>
    simp only [Shape.split, selector, List.cons_append, selectorRest_followed off] at h ⊢
    split at h
    · rename_i hc
      have bound : 1 + selectorRest cs ≤ (c :: cs).length := by
        have := selectorRest_le cs
        simp only [List.length_cons]
        omega
      simp only [Option.map_some, Option.some.injEq, Prod.mk.injEq] at h
      rw [← h.1, ← h.2, if_pos hc, Option.map_some, ← List.cons_append,
        List.take_append_of_le_length bound, List.drop_append_of_le_length bound]
    · cases h

theorem relation?_eq_some {cs : List Char} {r : Relation} (h : relation? cs = some r) :
    ∃ more, cs = r.symbol.toList ++ more := by
  have starts := List.find?_some h
  obtain ⟨more, rfl⟩ := List.isPrefixOf_iff_prefix.mp starts
  exact ⟨more, rfl⟩

end

end EntityFilter.Lexeme
