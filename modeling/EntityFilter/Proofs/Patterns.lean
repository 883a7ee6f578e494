import EntityFilter.Filter.LikePattern

namespace EntityFilter

namespace LikeItem

/-- The items, each in its turn, take up the whole text. -/
inductive Matches : List LikeItem → List Char → Prop where
  | nil : Matches [] []
  | run (taken : List Char) {is : List LikeItem} {cs : List Char} (rest : Matches is cs) :
    Matches (.run :: is) (taken ++ cs)
  | any (c : Char) {is : List LikeItem} {cs : List Char} (rest : Matches is cs) :
    Matches (.any :: is) (c :: cs)
  | char (c : Char) {is : List LikeItem} {cs : List Char} (rest : Matches is cs) :
    Matches (.char c :: is) (c :: cs)

section

variable {is : List LikeItem} {c d : Char} {cs : List Char}

theorem matches_nil_iff : Matches [] cs ↔ cs = [] := by
  constructor
  · intro h
    cases h
    rfl
  · rintro rfl
    exact .nil

theorem matches_run_iff :
    Matches (.run :: is) cs ↔ ∃ taken rest, cs = taken ++ rest ∧ Matches is rest := by
  constructor
  · intro h
    cases h with
    | run taken rest => exact ⟨taken, _, rfl, rest⟩
  · rintro ⟨taken, _, rfl, rest⟩
    exact .run taken rest

theorem matches_run_nil_iff : Matches (.run :: is) [] ↔ Matches is [] := by
  simp [matches_run_iff, and_assoc]

/-- A run ends here or takes the next character. -/
theorem matches_run_cons_iff :
    Matches (.run :: is) (c :: cs) ↔ Matches is (c :: cs) ∨ Matches (.run :: is) cs := by
  constructor
  · intro h
    obtain ⟨taken, rest, split, more⟩ := matches_run_iff.mp h
    cases taken with
    | nil =>
      rw [List.nil_append] at split
      exact .inl (split ▸ more)
    | cons d taken =>
      obtain ⟨rfl, rfl⟩ := List.cons.inj split
      exact .inr (.run taken more)
  · rintro (h | h)
    · exact .run [] h
    · obtain ⟨taken, rest, rfl, more⟩ := matches_run_iff.mp h
      exact .run (c :: taken) more

theorem matches_any_iff :
    Matches (.any :: is) cs ↔ ∃ c rest, cs = c :: rest ∧ Matches is rest := by
  constructor
  · intro h
    cases h with
    | any c rest => exact ⟨c, _, rfl, rest⟩
  · rintro ⟨c, _, rfl, rest⟩
    exact .any c rest

theorem matches_any_cons_iff : Matches (.any :: is) (c :: cs) ↔ Matches is cs := by
  simp [matches_any_iff, and_assoc]

theorem matches_char_iff :
    Matches (.char d :: is) cs ↔ ∃ rest, cs = d :: rest ∧ Matches is rest := by
  constructor
  · intro h
    cases h with
    | char _ rest => exact ⟨_, rfl, rest⟩
  · rintro ⟨_, rfl, rest⟩
    exact .char d rest

theorem matches_char_cons_iff : Matches (.char d :: is) (c :: cs) ↔ c = d ∧ Matches is cs := by
  simp [matches_char_iff, and_assoc]

end

/-- What a row says: for every suffix of the text, longest first, whether the items match it. -/
inductive Row (is : List LikeItem) : List Char → List Bool → Prop where
  | last {b : Bool} (here : b = true ↔ Matches is []) : Row is [] [b]
  | cons {c : Char} {cs : List Char} {b : Bool} {row : List Bool}
    (here : b = true ↔ Matches is (c :: cs)) (rest : Row is cs row) : Row is (c :: cs) (b :: row)

theorem Row.head {is : List LikeItem} {cs : List Char} {row : List Bool} (h : Row is cs row) :
    row.headD false = true ↔ Matches is cs := by
  cases h with
  | last here => exact here
  | cons here => exact here

theorem row_endRow (cs : List Char) : Row [] cs (endRow cs) := by
  induction cs with
  | nil => exact .last (by simp [Matches.nil])
  | cons c cs ih => exact .cons (by simp [matches_nil_iff]) ih

/-- A row with one item more in front says of each suffix whether the items match it. -/
theorem row_step (i : LikeItem) {is : List LikeItem} {cs : List Char} {row : List Bool}
    (h : Row is cs row) : Row (i :: is) cs (step i cs row) := by
  induction h with
  | @last b here =>
    cases i with
    | run => exact .last (here.trans matches_run_nil_iff.symm)
    | any => exact .last (by simp [matches_any_iff])
    | char d => exact .last (by simp [matches_char_iff])
  | @cons c cs b row here rest ih =>
    refine .cons ?_ ih
    cases i with
    | run =>
      rw [matches_run_cons_iff, ← here, ← ih.head]
      exact Bool.or_eq_true_iff
    | any =>
      rw [matches_any_cons_iff, ← rest.head]
      rfl
    | char d =>
      rw [matches_char_cons_iff, ← rest.head]
      exact Bool.and_eq_true_iff.trans (and_congr_left' beq_iff_eq)

/-- The matcher decides what the items match. -/
theorem matchesAll_iff {is : List LikeItem} {cs : List Char} :
    matchesAll is cs = true ↔ Matches is cs := by
  have rows : ∀ is : List LikeItem, Row is cs (is.foldr (fun i row => step i cs row) (endRow cs)) := by
    intro is
    induction is with
    | nil => exact row_endRow cs
    | cons i is ih => exact row_step i ih
  exact (rows is).head

end LikeItem

end EntityFilter
