import EntityFilter.Proofs.RegularExpressions

namespace EntityFilter

/-- A text is as the pattern says: `%` stands for any run of characters and `_` for any one of them,
behind `\` every character stands for itself, and a `\` that nothing follows stands for nothing. -/
inductive Like : List Char → List Char → Prop where
  | nil : Like [] []
  | run (taken : List Char) {pattern text : List Char} (rest : Like pattern text) :
    Like ('%' :: pattern) (taken ++ text)
  | any (c : Char) {pattern text : List Char} (rest : Like pattern text) :
    Like ('_' :: pattern) (c :: text)
  | escaped (c : Char) {pattern text : List Char} (rest : Like pattern text) :
    Like ('\\' :: c :: pattern) (c :: text)
  | trailing : Like ['\\'] []
  | plain {c : Char} (percent : c ≠ '%') (underscore : c ≠ '_') (backslash : c ≠ '\\')
    {pattern text : List Char} (rest : Like pattern text) : Like (c :: pattern) (c :: text)

namespace Like

variable {c : Char} {pattern text : List Char}

theorem nil_iff : Like [] text ↔ text = [] := by
  constructor
  · intro h
    cases h
    rfl
  · rintro rfl
    exact .nil

/-- A run takes as much of the text as the rest of the pattern leaves it. -/
theorem run_iff :
    Like ('%' :: pattern) text ↔ ∃ taken rest, text = taken ++ rest ∧ Like pattern rest := by
  constructor
  · intro h
    cases h with
    | run taken rest => exact ⟨taken, _, rfl, rest⟩
    | plain percent => exact absurd rfl percent
  · rintro ⟨taken, _, rfl, rest⟩
    exact .run taken rest

theorem any_iff : Like ('_' :: pattern) text ↔ ∃ c rest, text = c :: rest ∧ Like pattern rest := by
  constructor
  · intro h
    cases h with
    | any c rest => exact ⟨c, _, rfl, rest⟩
    | plain _ underscore => exact absurd rfl underscore
  · rintro ⟨c, _, rfl, rest⟩
    exact .any c rest

theorem escaped_iff :
    Like ('\\' :: c :: pattern) text ↔ ∃ rest, text = c :: rest ∧ Like pattern rest := by
  constructor
  · intro h
    cases h with
    | escaped _ rest => exact ⟨_, rfl, rest⟩
    | plain _ _ backslash => exact absurd rfl backslash
  · rintro ⟨_, rfl, rest⟩
    exact .escaped c rest

theorem trailing_iff : Like ['\\'] text ↔ text = [] := by
  constructor
  · intro h
    cases h with
    | trailing => rfl
    | plain _ _ backslash => exact absurd rfl backslash
  · rintro rfl
    exact .trailing

theorem plain_iff (percent : c ≠ '%') (underscore : c ≠ '_') (backslash : c ≠ '\\') :
    Like (c :: pattern) text ↔ ∃ rest, text = c :: rest ∧ Like pattern rest := by
  constructor
  · intro h
    cases h with
    | run => exact absurd rfl percent
    | any => exact absurd rfl underscore
    | escaped => exact absurd rfl backslash
    | trailing => exact absurd rfl backslash
    | plain _ _ _ rest => exact ⟨_, rfl, rest⟩
  · rintro ⟨_, rfl, rest⟩
    exact .plain percent underscore backslash rest

end Like

/-- The items that a pattern is read as match what it is like. -/
theorem LikeItem.matches_parse_iff {pattern text : List Char} :
    Matches (parse pattern) text ↔ Like pattern text := by
  -- Along the reader, which takes two characters at once behind a backslash.
  fun_induction parse pattern generalizing text with
  | case1 => exact matches_nil_iff.trans Like.nil_iff.symm
  | case2 pattern ih => simp only [matches_run_iff, Like.run_iff, ih]
  | case3 pattern _ ih => simp only [matches_any_iff, Like.any_iff, ih]
  | case4 => exact matches_nil_iff.trans Like.trailing_iff.symm
  | case5 _ _ c pattern ih => simp only [matches_char_iff, Like.escaped_iff, ih]
  | case6 c pattern percent underscore backslash ih =>
    simp only [matches_char_iff, Like.plain_iff percent underscore backslash, ih]

namespace LikePattern

/-- The items of a pattern match the texts that it is like. -/
theorem matchesText_iff {p : LikePattern} {text : String} :
    p.matchesText text = true ↔ Like p.text.toList text.toList :=
  LikeItem.matchesAll_iff.trans LikeItem.matches_parse_iff

/-- Of every pattern, also one written by hand, the regular expression is found in just the texts
that are like it, and these are the texts that evaluation takes it to match. -/
theorem finds_regexSource_iff_like (p : LikePattern) (text : String) :
    (Regex.Finds p.regexSource.toList text.toList ↔ Like p.text.toList text.toList) ∧
      (p.matchesText text = true ↔ Like p.text.toList text.toList) :=
  ⟨finds_regexSource_iff.trans LikeItem.matches_parse_iff, matchesText_iff⟩

end LikePattern

instance (pattern text : List Char) : Decidable (Like pattern text) :=
  decidable_of_iff _ (LikeItem.matchesAll_iff.trans LikeItem.matches_parse_iff)

example : Like "_%.\\%\\\\\\".toList "é\n\n.%\\".toList := by decide +kernel

end EntityFilter
