import EntityFilter.Proofs.Patterns

namespace EntityFilter

namespace Regex

/-- Whether a character means something else than itself. -/
def isSpecial (c : Char) : Bool := "\\.+*?()|[]\x7b\x7d^$".toList.contains c

/-- Whether a character stands for itself behind a backslash. -/
def isEscapable (c : Char) : Bool :=
  decide (c.toNat < 128) && !c.isAlphanum && !(c == '<') && !(c == '>')

/-- The expression is satisfied from a place of the text on, with `before` in front of the place and
`after` behind it. -/
inductive Fits : List Char → List Char → List Char → Prop where
  | done (before after : List Char) : Fits [] before after
  | start {source after : List Char} (rest : Fits source [] after) : Fits ('^' :: source) [] after
  | finish {source before : List Char} (rest : Fits source before []) :
    Fits ('$' :: source) before []
  | run (taken : List Char) {source before after : List Char}
    (rest : Fits source (before ++ taken) after) :
    Fits ('(' :: '?' :: 's' :: ':' :: '.' :: '*' :: ')' :: source) before (taken ++ after)
  | any (c : Char) {source before after : List Char} (rest : Fits source (before ++ [c]) after) :
    Fits ('(' :: '?' :: 's' :: ':' :: '.' :: ')' :: source) before (c :: after)
  | escaped {c : Char} (escapable : isEscapable c = true) {source before after : List Char}
    (rest : Fits source (before ++ [c]) after) : Fits ('\\' :: c :: source) before (c :: after)
  | plain {c : Char} (ordinary : isSpecial c = false) {source before after : List Char}
    (rest : Fits source (before ++ [c]) after) : Fits (c :: source) before (c :: after)

/-- There is a place in the text from which on the expression is satisfied. -/
def Finds (source text : List Char) : Prop :=
  ∃ before after, text = before ++ after ∧ Fits source before after

section

variable {source before after : List Char}

theorem fits_start_iff : Fits ('^' :: source) before after ↔ before = [] ∧ Fits source [] after := by
  constructor
  · intro h
    generalize shape : '^' :: source = whole at h
    cases h with
    | start rest =>
      cases shape
      exact ⟨rfl, rest⟩
    | plain ordinary =>
      cases shape
      cases ordinary
    | _ => simp at shape
  · rintro ⟨rfl, rest⟩
    exact .start rest

theorem fits_finish_iff : Fits ['$'] before after ↔ after = [] := by
  constructor
  · intro h
    generalize shape : ['$'] = whole at h
    cases h with
    | finish => rfl
    | plain ordinary =>
      cases shape
      cases ordinary
    | _ => simp at shape
  · rintro rfl
    exact .finish (.done _ _)

/-- In the mode where a point is any character, a repeated point takes what the rest leaves it. -/
theorem fits_run_iff :
    Fits (LikeItem.run.regex ++ source) before after ↔
      ∃ taken rest, after = taken ++ rest ∧ Fits source (before ++ taken) rest := by
  have text : LikeItem.run.regex = ['(', '?', 's', ':', '.', '*', ')'] := by decide
  rw [text]
  constructor
  · intro h
    generalize shape : ['(', '?', 's', ':', '.', '*', ')'] ++ source = whole at h
    cases h with
    | run taken rest =>
      cases shape
      exact ⟨taken, _, rfl, rest⟩
    | plain ordinary =>
      cases shape
      cases ordinary
    | _ => simp at shape
  · rintro ⟨taken, _, rfl, rest⟩
    exact .run taken rest

theorem fits_any_iff :
    Fits (LikeItem.any.regex ++ source) before after ↔
      ∃ c rest, after = c :: rest ∧ Fits source (before ++ [c]) rest := by
  have text : LikeItem.any.regex = ['(', '?', 's', ':', '.', ')'] := by decide
  rw [text]
  constructor
  · intro h
    generalize shape : ['(', '?', 's', ':', '.', ')'] ++ source = whole at h
    cases h with
    | any c rest =>
      cases shape
      exact ⟨c, _, rfl, rest⟩
    | plain ordinary =>
      cases shape
      cases ordinary
    | _ => simp at shape
  · rintro ⟨c, _, rfl, rest⟩
    exact .any c rest

theorem fits_escaped_iff {c : Char} (escapable : isEscapable c = true) :
    Fits ('\\' :: c :: source) before after ↔
      ∃ rest, after = c :: rest ∧ Fits source (before ++ [c]) rest := by
  constructor
  · intro h
    generalize shape : '\\' :: c :: source = whole at h
    cases h with
    | escaped _ rest =>
      cases shape
      exact ⟨_, rfl, rest⟩
    | plain ordinary =>
      cases shape
      cases ordinary
    | _ => simp at shape
  · rintro ⟨_, rfl, rest⟩
    exact .escaped escapable rest

theorem fits_plain_iff {c : Char} (ordinary : isSpecial c = false) :
    Fits (c :: source) before after ↔
      ∃ rest, after = c :: rest ∧ Fits source (before ++ [c]) rest := by
  constructor
  · intro h
    generalize shape : c :: source = whole at h
    cases h with
    | plain _ rest =>
      cases shape
      exact ⟨_, rfl, rest⟩
    | done => simp at shape
    | _ =>
      cases shape
      cases ordinary
  · rintro ⟨_, rfl, rest⟩
    exact .plain ordinary rest

end

theorem isEscapable_of_isRegexMeta {c : Char} (h : LikeItem.isRegexMeta c = true) :
    isEscapable c = true := by
  have each : "\\.+*?()|[]\x7b\x7d^$#&-~".toList.all isEscapable = true := by decide
  exact List.all_eq_true.mp each c (List.contains_iff_mem.mp h)

/-- Whatever would mean something else gets a backslash. -/
theorem isRegexMeta_of_isSpecial {c : Char} (h : isSpecial c = true) :
    LikeItem.isRegexMeta c = true := by
  have each : "\\.+*?()|[]\x7b\x7d^$".toList.all LikeItem.isRegexMeta = true := by decide
  exact List.all_eq_true.mp each c (List.contains_iff_mem.mp h)

/-- A character of a pattern means itself, whatever it would mean in an expression. -/
theorem fits_char_iff {c : Char} {source before after : List Char} :
    Fits ((LikeItem.char c).regex ++ source) before after ↔
      ∃ rest, after = c :: rest ∧ Fits source (before ++ [c]) rest := by
  have text : (LikeItem.char c).regex =
      if LikeItem.isRegexMeta c then ['\\', c] else [c] := rfl
  rw [text]
  split
  · rename_i special
    exact fits_escaped_iff (isEscapable_of_isRegexMeta special)
  · rename_i ordinary
    have plain : isSpecial c = false := by
      cases h : isSpecial c with
      | false => rfl
      | true => exact absurd (isRegexMeta_of_isSpecial h) ordinary
    exact fits_plain_iff plain

/-- Item by item the expression fits what the pattern matches. -/
theorem fits_items_iff {is : List LikeItem} {before after : List Char} :
    Fits (is.flatMap LikeItem.regex ++ ['$']) before after ↔ LikeItem.Matches is after := by
  induction is generalizing before after with
  | nil => exact fits_finish_iff.trans LikeItem.matches_nil_iff.symm
  | cons i is ih =>
    rw [List.flatMap_cons, List.append_assoc]
    cases i with
    | run => simp only [fits_run_iff, LikeItem.matches_run_iff, ih]
    | any => simp only [fits_any_iff, LikeItem.matches_any_iff, ih]
    | char c => simp only [fits_char_iff, LikeItem.matches_char_iff, ih]

end Regex

/-- The expression of a pattern is found in the texts that the pattern matches. -/
theorem LikePattern.finds_regexSource_iff {p : LikePattern} {cs : List Char} :
    Regex.Finds p.regexSource.toList cs ↔ LikeItem.Matches p.items cs := by
  have source : p.regexSource.toList = '^' :: (p.items.flatMap LikeItem.regex ++ ['$']) := by
    simp [regexSource]
  rw [source]
  constructor
  · rintro ⟨before, after, rfl, fits⟩
    obtain ⟨rfl, rest⟩ := Regex.fits_start_iff.mp fits
    exact Regex.fits_items_iff.mp rest
  · intro h
    exact ⟨[], cs, rfl, .start (Regex.fits_items_iff.mpr h)⟩

end EntityFilter
