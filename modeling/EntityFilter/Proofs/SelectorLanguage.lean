import Mathlib
import EntityFilter.Proofs.Lexing

namespace EntityFilter

open Text

namespace Lexeme

open scoped Computability

/-- Words of one character. -/
def oneOf (p : Char → Prop) : Language Char := {cs | ∃ c, p c ∧ cs = [c]}

/-- A letter of ASCII, or an underscore. -/
def IsInitial (c : Char) : Prop := ('A' ≤ c ∧ c ≤ 'Z') ∨ ('a' ≤ c ∧ c ≤ 'z') ∨ c = '_'

def identifiers : Language Char :=
  oneOf IsInitial * (oneOf fun c => IsInitial c ∨ ('0' ≤ c ∧ c ≤ '9'))∗

def selectors : Language Char := identifiers * (oneOf (· = '.') * identifiers)∗

theorem isIdentifierStart_iff {c : Char} : isIdentifierStart c ↔ IsInitial c := by
  simp [isIdentifierStart, IsInitial, Char.isAlpha, Char.isUpper, Char.isLower, Char.le_def, or_assoc]

theorem isIdentifierPart_iff {c : Char} :
    isIdentifierPart c ↔ IsInitial c ∨ ('0' ≤ c ∧ c ≤ '9') := by
  rw [← isIdentifierStart_iff]
  simp [isIdentifierPart, isIdentifierStart, Char.isAlphanum, Char.isDigit, Char.le_def,
    or_right_comm]

theorem cons_mem_oneOf_mul {p : Char → Prop} {l : Language Char} {cs : List Char} :
    cs ∈ oneOf p * l ↔ ∃ c ds, cs = c :: ds ∧ p c ∧ ds ∈ l := by
  constructor
  · rintro ⟨_, ⟨c, hc, rfl⟩, ds, hds, rfl⟩
    exact ⟨c, ds, rfl, hc, hds⟩
  · rintro ⟨c, ds, rfl, hc, hds⟩
    exact ⟨[c], ⟨c, hc, rfl⟩, ds, hds, rfl⟩

theorem append_mem_kstar {l : Language Char} {cs ds : List Char} (h : cs ∈ l) (more : ds ∈ l∗) :
    cs ++ ds ∈ l∗ := by
  obtain ⟨parts, rfl, words⟩ := Language.mem_kstar.mp more
  exact Language.mem_kstar.mpr ⟨cs :: parts, rfl, List.forall_mem_cons.mpr ⟨h, words⟩⟩

theorem mem_kstar_oneOf {p : Char → Prop} {cs : List Char} : cs ∈ (oneOf p)∗ ↔ ∀ c ∈ cs, p c := by
  constructor
  · rintro ⟨parts, rfl, words⟩ c hc
    obtain ⟨part, mem, hc⟩ := List.mem_flatten.mp hc
    obtain ⟨d, hd, rfl⟩ := words part mem
    rwa [List.mem_singleton.mp hc]
  · intro h
    induction cs with
    | nil => exact Language.nil_mem_kstar _
    | cons c cs ih =>
      obtain ⟨hc, hcs⟩ := List.forall_mem_cons.mp h
      have word : [c] ∈ oneOf p := ⟨c, hc, rfl⟩
      exact append_mem_kstar word (ih hcs)

theorem mem_identifiers_iff {cs : List Char} : cs ∈ identifiers ↔ isIdentifier cs := by
  rw [identifiers, cons_mem_oneOf_mul]
  cases cs with
  | nil => simp [isIdentifier]
  | cons c cs =>
    simp [isIdentifier, mem_kstar_oneOf, isIdentifierStart_iff, isIdentifierPart_iff]

/-- The words of the language are what is called a selector. -/
theorem mem_selectors_iff {cs : List Char} : cs ∈ selectors ↔ IsSelector cs := by
  constructor
  · rintro ⟨cs, first, _, ⟨parts, rfl, words⟩, rfl⟩
    induction parts generalizing cs with
    | nil => simpa using IsSelector.identifier (mem_identifiers_iff.mp first)
    | cons part parts ih =>
      obtain ⟨word, others⟩ := List.forall_mem_cons.mp words
      obtain ⟨_, ds, rfl, rfl, next⟩ := cons_mem_oneOf_mul.mp word
      exact .path (mem_identifiers_iff.mp first) (ih ds next others)
  · intro h
    induction h with
    | identifier h =>
      exact ⟨_, mem_identifiers_iff.mpr h, [], Language.nil_mem_kstar _, List.append_nil _⟩
    | path h _ ih =>
      obtain ⟨ds, next, more, words, rfl⟩ := ih
      have part : '.' :: ds ∈ oneOf (· = '.') * identifiers :=
        cons_mem_oneOf_mul.mpr ⟨'.', ds, rfl, rfl, next⟩
      exact ⟨_, mem_identifiers_iff.mpr h, _, append_mem_kstar part words, rfl⟩

/-- What is left does not go on the selector that was taken. -/
theorem selectorRest_of_split {cs taken rest : List Char}
    (h : selector.split cs = some (taken, rest)) : selectorRest rest = 0 := by
  have whole := Shape.split_append h
  have read := (isSelector_of_split h).selector_append rest
  rw [whole] at read
  simp only [Shape.split, read, Option.map_some, Option.some.injEq, Prod.mk.injEq] at h
  have taking := congrArg List.length h.1
  have lengths := congrArg List.length whole
  have bound := selectorRest_le rest
  simp only [List.length_take, List.length_append] at taking lengths
  omega

/-- No longer word comes first than the one that was taken. -/
theorem IsSelector.prefix_of_split {cs taken rest word : List Char} (h : IsSelector word)
    (first : word <+: cs) (split : selector.split cs = some (taken, rest)) : word <+: taken := by
  obtain ⟨more, rfl⟩ := first
  have whole := Shape.split_append split
  have length : taken.length = word.length + selectorRest more := by
    have read := (isSelector_of_split split).takes (selectorRest_of_split split)
    rw [whole, h.selector_append] at read
    exact (Option.some.inj read).symm
  exact List.prefix_of_prefix_length_le (List.prefix_append word more) ⟨rest, whole⟩ (by omega)

theorem not_mem_of_isIdentifier {cs : List Char} (h : isIdentifier cs) : '.' ∉ cs := by
  obtain ⟨c, ds, rfl, hc, hds⟩ := cons_of_isIdentifier h
  intro point
  rcases List.mem_cons.mp point with rfl | point
  · cases hc
  · cases List.all_eq_true.mp hds '.' point

/-- In a selector another identifier begins behind every point. -/
theorem IsSelector.behind_point {cs front behind : List Char} (h : IsSelector cs)
    (split : cs = front ++ '.' :: behind) : ∃ d ds, behind = d :: ds ∧ isIdentifierStart d := by
  induction h generalizing front with
  | identifier h =>
    have point : '.' ∈ front ++ '.' :: behind := List.mem_append_right front (.head _)
    exact absurd (split ▸ point) (not_mem_of_isIdentifier h)
  | path h more ih =>
    rcases List.append_eq_append_iff.mp split with ⟨between, rfl, rest⟩ | ⟨between, rfl, rest⟩
    · cases between with
      | nil =>
        obtain ⟨_, rfl⟩ := List.cons.inj rest
        exact more.head
      | cons d between =>
        obtain ⟨_, inner⟩ := List.cons.inj rest
        exact ih inner
    · cases between with
      | nil =>
        obtain ⟨_, rfl⟩ := List.cons.inj rest
        exact more.head
      | cons d between =>
        obtain ⟨rfl, _⟩ := List.cons.inj rest
        exact absurd (List.mem_append_right front (.head _)) (not_mem_of_isIdentifier h)

/-- A selector ends in front of a point behind which no identifier begins. -/
theorem IsSelector.prefix_of_point {taken rest front behind : List Char} (h : IsSelector taken)
    (whole : taken ++ rest = front ++ '.' :: behind)
    (off : ∀ d ∈ behind.head?, ¬ isIdentifierStart d) : taken <+: front := by
  rcases List.append_eq_append_iff.mp whole with ⟨between, rfl, _⟩ | ⟨between, rfl, points⟩
  · exact List.prefix_append taken between
  · cases between with
    | nil => exact ⟨[], by simp⟩
    | cons d between =>
      obtain ⟨rfl, rfl⟩ := List.cons.inj points
      obtain ⟨d, ds, rfl, hd⟩ := h.behind_point rfl
      exact absurd hd (off d rfl)

end Lexeme

namespace Lexer

open Lexeme

/-- Where an identifier can begin, the longest word of the language that comes first is read, and
the lexer stands behind it. A point with no identifier behind it is not gone past. -/
theorem next_selector_longest {c : Char} (start : IsInitial c) (cs : List Char) (offset : Nat) :
    ∃ taken rest, taken ++ rest = c :: cs ∧
      next ⟨c :: cs, offset, .selector⟩ =
        (.ok (some (.selector (String.ofList taken))),
          ⟨rest, offset + byteLength taken, .relation⟩) ∧
      taken ∈ selectors ∧ (∀ word ∈ selectors, word <+: c :: cs → word <+: taken) ∧
      ∀ front behind, c :: cs = front ++ '.' :: behind →
        (∀ d ∈ behind.head?, ¬ IsInitial d) → taken <+: front := by
  have first : isIdentifierStart c := isIdentifierStart_iff.mpr start
  obtain ⟨taken, rest, split⟩ : ∃ taken rest, selector.split (c :: cs) = some (taken, rest) := by
    simp [Shape.split, selector, first]
  have whole := Shape.split_append split
  have word := isSelector_of_split split
  refine ⟨taken, rest, whole, ?_, mem_selectors_iff.mpr word, ?_, ?_⟩
  · have opening : c ≠ '(' := by
      rintro rfl
      cases first
    rw [next_of_not_blank (not_isBlank_of_isIdentifierStart first)]
    simp only [readToken, readOperand, opening, if_false, split, past]
    rfl
  · intro longer mem inFront
    exact (mem_selectors_iff.mp mem).prefix_of_split inFront split
  · intro front behind points off
    exact word.prefix_of_point (whole.trans points) fun d hd =>
      mt isIdentifierStart_iff.mp (off d hd)

/-- The second point stands in front of a digit, with which no identifier begins. -/
theorem next_selector_longest_of_clinic :
    IsInitial 'p' ∧ next ⟨'p' :: "ets.age_2.0==1".toList, 3, .selector⟩ =
      (.ok (some (.selector "pets.age_2")), ⟨".0==1".toList, 13, .relation⟩) := by
  have start : IsInitial 'p' := isIdentifierStart_iff.mp rfl
  have word : "pets.age_2".toList ∈ selectors := mem_selectors_iff.mpr (by decide +kernel)
  obtain ⟨taken, rest, whole, read, _, longest, points⟩ :=
    next_selector_longest start "ets.age_2.0==1".toList 3
  have least : "pets.age_2".toList <+: taken := longest _ word ⟨".0==1".toList, by decide⟩
  have most : taken <+: "pets.age_2".toList := by
    refine points _ "0==1".toList (by decide) ?_
    rintro d ⟨⟩
    exact mt isIdentifierStart_iff.mpr (by decide)
  obtain rfl := most.eq_of_length_le least.length_le
  obtain rfl : rest = ".0==1".toList := List.append_cancel_left (whole.trans (by decide))
  refine ⟨start, ?_⟩
  rw [read, String.ofList_toList]
  rfl

end Lexer

end EntityFilter
