import EntityFilter.Text.Blank
import EntityFilter.Query.Lexeme
import EntityFilter.Proofs.Shapes

namespace EntityFilter.Lexeme

open Text Shape

/-- The characters that no lexeme goes on with, whatever stands behind them. -/
def fences : List Char := [')', '\'', '"']

/-- The characters behind an argument that are no part of it unless digits follow them. -/
def breaks : List Char := [',', ';', '.', ':'] ++ fences ++ blankChars

def suffixes : List Char := ['L', 'l', 'D', 'd']

/-- The characters behind a date or a number that are no part of it unless digits follow them. -/
def stops : List Char := breaks ++ suffixes

theorem mem_suffixes {c : Char} {s : Suffix} (h : Suffix.ofChar? c = some s) : c ∈ suffixes := by
  unfold Suffix.ofChar? at h
  split at h
  all_goals first | decide | cases h

/-- `rest` goes on with no date and no number. -/
structure Apart (rest : List Char) : Prop where
  head : ∀ c ∈ rest.head?, c ∈ stops
  next : ∀ c more, rest = c :: more → c = '.' ∨ c = ':' → ∀ d ∈ more.head?, digit d = false

theorem steady_fraction : Steady (char '.' ++ many1 digit) :=
  solid_one.append_steady steady_many1

theorem steady_exponent :
    Steady (one (fun c => c == 'e' || c == 'E') ++ opt sign ++ many1 digit) := by
  rw [append_assoc]
  exact solid_one.append_steady (steady_many1.opt_one_append rfl)

theorem steady_number : Steady number :=
  (steady_many1.opt_one_append rfl).append_opt.append_opt

theorem solid_date : Solid date :=
  ((((solid_times 4).append solid_one).append (solid_times 2)).append solid_one).append
    (solid_times 2)

theorem steady_seconds : Steady seconds :=
  (solid_one.append (solid_times 2)).steady.append_opt

theorem steady_zone : Steady zone := by
  have minutes : Steady (opt (char ':') ++ times 2 digit) :=
    (solid_times 2).steady.opt_one_append rfl
  have signed : Steady (sign ++ times 2 digit ++ (opt (char ':') ++ times 2 digit)) :=
    (solid_one.append (solid_times 2)).append_steady minutes
  rw [← append_assoc] at signed
  exact solid_one.steady.or signed

/-- Text that starts no date-time is not made one by cutting it short. -/
theorem steady_dateTime : Steady dateTime :=
  ((((solid_date.append solid_one).append (solid_times 2)).append solid_one).append
    (solid_times 2)).steady.append_opt.append_opt

namespace Apart

variable {rest : List Char}

theorem off {p : Char → Bool} (h : Apart rest) (hp : stops.any p = false) :
    ∀ c ∈ rest.head?, p c = false := by
  intro c hc
  simpa using List.any_eq_false.mp hp c (h.head c hc)

theorem digits (h : Apart rest) : ∀ c ∈ rest.head?, digit c = false := h.off rfl

theorem signs (h : Apart rest) : ∀ c ∈ rest.head?, (c == '+' || c == '-') = false :=
  h.off rfl

/-- Digits do not start behind a point or a colon of `rest`. -/
theorem refuses {a : Shape} {c : Char} (h : Apart rest) (hc : c = '.' ∨ c = ':') {more : List Char}
    (hr : rest = c :: more) : (one digit ++ a) more = none := by
  have first : one digit more = none := by
    cases more with
    | nil => rfl
    | cons d more => simp [one, h.next c _ hr hc d (by simp)]
  simp [append_apply, first]

theorem fraction (h : Apart rest) : Blind rest (char '.' ++ many1 digit) :=
  (blind_many1 h.digits).char_append fun _ hr => h.refuses (.inl rfl) hr

theorem exponent (h : Apart rest) :
    Blind rest (one (fun c => c == 'e' || c == 'E') ++ opt sign ++ many1 digit) :=
  ((blind_one (h.off rfl)).append ((blind_one h.signs).opt solid_one.steady)).append
    (blind_many1 h.digits)

theorem number (h : Apart rest) : Blind rest number := by
  have whole := ((blind_one h.signs).opt solid_one.steady).append (blind_many1 h.digits)
  exact (whole.append (h.fraction.opt steady_fraction)).append (h.exponent.opt steady_exponent)

theorem date (h : Apart rest) : Blind rest date := by
  have hyphen : Blind rest (char '-') := blind_one (h.off rfl)
  exact ((((blind_times h.digits 4).append hyphen).append (blind_times h.digits 2)).append
    hyphen).append (blind_times h.digits 2)

theorem seconds (h : Apart rest) : Blind rest seconds := by
  have colon : Blind rest (char ':' ++ times 2 digit) :=
    (blind_times h.digits 2).char_append fun _ hr => h.refuses (.inr rfl) hr
  exact colon.append (h.fraction.opt steady_fraction)

theorem zone (h : Apart rest) : Blind rest zone := by
  have minutes : Blind rest (opt (char ':') ++ times 2 digit) :=
    (blind_times h.digits 2).opt_char_append rfl fun _ hr => h.refuses (.inr rfl) hr
  have utc : Blind rest (char 'Z') := blind_one (h.off rfl)
  have signed := ((blind_one h.signs).append (blind_times h.digits 2)).append minutes
  rw [← append_assoc] at signed
  exact utc.or solid_one.steady signed

/-- A date-time does not go on with the text, since none of its optional parts could start there. -/
theorem dateTime (h : Apart rest) : Blind rest dateTime := by
  have between : Blind rest (char 'T') := blind_one (h.off rfl)
  have minutes : Blind rest (char ':' ++ times 2 digit) :=
    (blind_times h.digits 2).char_append fun _ hr => h.refuses (.inr rfl) hr
  have hours := ((h.date.append between).append (blind_times h.digits 2)).append minutes
  rw [← append_assoc] at hours
  exact (hours.append (h.seconds.opt steady_seconds)).append (h.zone.opt steady_zone)

theorem dates (h : Apart rest) : Blind rest (Lexeme.dateTime.or Lexeme.date) :=
  h.dateTime.or steady_dateTime h.date

end Apart

/-- What follows an argument that has ended. -/
inductive Closes : List Char → Prop where
  | finish : Closes []
  | fence {c : Char} (h : c ∈ fences) (cs : List Char) : Closes (c :: cs)
  | connector (c : Connector) {cs : List Char} (next : ∀ d ∈ cs.head?, digit d = false) :
    Closes (c.symbol :: cs)

theorem Closes.closing (cs : List Char) : Closes (')' :: cs) := .fence (by decide) cs

/-- No argument goes on with `rest`. -/
structure Ended (rest : List Char) : Prop where
  head : ∀ c ∈ rest.head?, c ∈ breaks
  next : ∀ c more, rest = c :: more → c = '.' ∨ c = ':' → ∀ d ∈ more.head?, digit d = false

namespace Ended

variable {rest : List Char}

theorem apart (h : Ended rest) : Apart rest :=
  ⟨fun c hc => List.mem_append_left _ (h.head c hc), h.next⟩

theorem off {p : Char → Bool} (h : Ended rest) (hp : breaks.any p = false) :
    ∀ c ∈ rest.head?, p c = false := by
  intro c hc
  simpa using List.any_eq_false.mp hp c (h.head c hc)

theorem word (h : Ended rest) : Blind rest word :=
  (blind_one (h.off rfl)).append (blind_many (h.off rfl))

theorem suffix (h : Ended rest) : ∀ c ∈ rest.head?, Suffix.ofChar? c = none := by
  intro c hc
  simpa using h.off (p := fun c => (Suffix.ofChar? c).isSome) rfl c hc

end Ended

/-- A point or a colon behind a bare argument may also be a connector. The character after it tells
them apart, so no argument goes on there. -/
theorem Closes.ended {rest : List Char} (h : Closes rest) : Ended rest := by
  refine ⟨?_, ?_⟩
  · intro c hc
    cases h with
    | finish => cases hc
    | fence h =>
      cases hc
      simp [breaks, h]
    | connector x =>
      cases hc
      cases x <;> simp [breaks, Connector.symbol]
  · intro c more hr hc
    cases h with
    | finish => cases hr
    | fence h =>
      cases hr
      rcases hc with rfl | rfl <;> exact absurd h (by decide)
    | connector x next =>
      cases hr
      exact next

theorem ended_of_isBlank {c : Char} (h : isBlank c) (cs : List Char) : Ended (c :: cs) := by
  refine ⟨?_, ?_⟩
  · rintro _ ⟨⟩
    exact List.mem_append_right _ (mem_blankChars h)
  · rintro _ _ ⟨⟩ hc
    rcases hc with rfl | rfl <;> cases h

theorem apart_suffix {c : Char} {s : Suffix} (h : Suffix.ofChar? c = some s) : Apart [c] := by
  refine ⟨?_, ?_⟩
  · rintro _ ⟨⟩
    exact List.mem_append_right _ (mem_suffixes h)
  · rintro _ _ ⟨⟩ _
    simp

/-- A literal is read in one of three ways, each where those before it have failed. -/
inductive Reading (cs : List Char) : Bare → Prop where
  | date {s : List Char × List Char} (h : (dateTime.or date).split cs = some s) :
    Reading cs (.ofSplit s)
  | number {s : List Char × List Char} (noDate : (dateTime.or date).split cs = none)
    (h : number.split cs = some s) : Reading cs (Bare.ofSplit s).withSuffix
  | word {s : List Char × List Char} (noDate : (dateTime.or date).split cs = none)
    (noNumber : number.split cs = none) (h : word.split cs = some s) : Reading cs (.ofSplit s)

theorem bare?_eq_some {cs : List Char} {b : Bare} : bare? cs = some b ↔ Reading cs b := by
  constructor
  · intro h
    simp only [bare?, Option.or_eq_some_iff, Option.map_eq_some_iff, Option.map_eq_none_iff] at h
    rcases h with ⟨s, hs, rfl⟩ | ⟨noDate, ⟨s, hs, rfl⟩ | ⟨noNumber, s, hs, rfl⟩⟩
    · exact .date hs
    · exact .number noDate hs
    · exact .word noDate noNumber hs
  · intro h
    cases h with
    | date h => simp [bare?, h]
    | number noDate h => simp [bare?, noDate, h]
    | word noDate noNumber h => simp [bare?, noDate, noNumber, h]

/-- The literal of a number that has the suffix `s`. -/
def suffixed (taken : List Char) (s : Suffix) : Literal :=
  { Literal.ofBare (String.ofList taken) with suffix := some s }

theorem chars_ofBare (cs : List Char) : (Literal.ofBare (String.ofList cs)).chars = cs := by
  simp [Literal.ofBare, Literal.chars, Literal.suffixText]

theorem chars_suffixed (cs : List Char) (s : Suffix) : (suffixed cs s).chars = cs ++ [s.char] := by
  simp [suffixed, Literal.ofBare, Literal.chars, Literal.suffixText]

theorem withSuffix_of_suffix (taken rest : List Char) {c : Char} {s : Suffix}
    (h : Suffix.ofChar? c = some s) :
    (Bare.ofSplit (taken, c :: rest)).withSuffix = ⟨suffixed taken s, taken ++ [c], rest⟩ := by
  simp [Bare.ofSplit, Bare.withSuffix, h, suffixed]

theorem withSuffix_of_none (taken rest : List Char)
    (h : ∀ c ∈ rest.head?, Suffix.ofChar? c = none) :
    (Bare.ofSplit (taken, rest)).withSuffix = .ofSplit (taken, rest) := by
  cases rest with
  | nil => rfl
  | cons c rest => simp [Bare.ofSplit, Bare.withSuffix, h c (by simp)]

theorem suffix_cases (rest : List Char) :
    (∃ c s more, rest = c :: more ∧ Suffix.ofChar? c = some s) ∨
      ∀ c ∈ rest.head?, Suffix.ofChar? c = none := by
  cases rest with
  | nil => exact .inr (by simp)
  | cons c more =>
    cases h : Suffix.ofChar? c with
    | some s => exact .inl ⟨c, s, more, rfl, h⟩
    | none => exact .inr (by simpa using h)

/-- What is printed for a literal that was read starts as what it was read from does. -/
theorem bare?_taken {cs : List Char} {b : Bare} (h : bare? cs = some b) :
    b.taken ++ b.rest = cs ∧ b.taken ≠ [] ∧ b.literal.quoted = false ∧
      b.literal.chars.head? = b.taken.head? := by
  have none : Ended [] := Closes.finish.ended
  rw [bare?_eq_some] at h
  cases h with
  | @date s h =>
    have some := none.apart.dates.split_ne_nil rfl h
    exact ⟨split_append h, some, rfl, congrArg List.head? (chars_ofBare s.1)⟩
  | @number s _ h =>
    obtain ⟨taken, rest⟩ := s
    have some := none.apart.number.split_ne_nil rfl h
    have whole := split_append h
    rcases suffix_cases rest with ⟨c, x, more, rfl, hx⟩ | off
    · rw [withSuffix_of_suffix taken more hx]
      refine ⟨by simpa using whole, by simp, rfl, ?_⟩
      cases taken with
      | nil => exact absurd rfl some
      | cons c taken => simp [chars_suffixed]
    · rw [withSuffix_of_none taken rest off]
      exact ⟨whole, some, rfl, congrArg List.head? (chars_ofBare taken)⟩
  | @word s _ _ h =>
    have some := none.word.split_ne_nil rfl h
    exact ⟨split_append h, some, rfl, congrArg List.head? (chars_ofBare s.1)⟩

/-- What is read as the literal where nothing follows. A suffix may be a small letter or a capital
one. -/
inductive Alone : Literal → List Char → Prop where
  | plain {cs : List Char} (h : bare? cs = some ⟨.ofBare (String.ofList cs), cs, []⟩) :
    Alone (.ofBare (String.ofList cs)) cs
  | suffixed {cs : List Char} {s : Suffix} {c : Char} (hc : Suffix.ofChar? c = some s)
    (h : ∀ d, Suffix.ofChar? d = some s → bare? (cs ++ [d]) = some ⟨suffixed cs s, cs ++ [d], []⟩) :
    Alone (suffixed cs s) (cs ++ [c])

/-- What was taken for a literal is read as the same literal when it stands alone. -/
theorem alone_of_bare? {cs : List Char} {b : Bare} (h : bare? cs = some b) :
    Alone b.literal b.taken := by
  have none : Ended [] := Closes.finish.ended
  have dates := none.apart.dates.toLocal
  have numbers := none.apart.number.toLocal
  have steady := steady_dateTime.or solid_date.steady
  rw [bare?_eq_some] at h
  cases h with
  | @date s h => exact .plain (bare?_eq_some.mpr (.date (dates.split_cut h)))
  | @number s noDate h =>
    obtain ⟨taken, rest⟩ := s
    have noDate := steady.split_cut noDate h
    have number := numbers.split_cut h
    rcases suffix_cases rest with ⟨c, s, more, rfl, hs⟩ | off
    · rw [withSuffix_of_suffix taken more hs]
      refine .suffixed hs fun d hd => ?_
      have again := Reading.number ((apart_suffix hd).dates.split_append_none noDate)
        ((apart_suffix hd).number.split_append number)
      rwa [← bare?_eq_some, List.nil_append, withSuffix_of_suffix taken [] hd] at again
    · have again := Reading.number noDate number
      rw [← bare?_eq_some, withSuffix_of_none taken [] (by simp)] at again
      rw [withSuffix_of_none taken rest off]
      exact .plain again
  | @word s noDate noNumber h =>
    exact .plain (bare?_eq_some.mpr (.word (steady.split_cut noDate h)
      (steady_number.split_cut noNumber h) (none.word.toLocal.split_cut h)))

theorem bare?_cut {cs : List Char} {b : Bare} (h : bare? cs = some b) :
    bare? b.taken = some ⟨b.literal, b.taken, []⟩ := by
  have alone := alone_of_bare? h
  generalize b.literal = l, b.taken = taken at alone ⊢
  cases alone with
  | plain h => exact h
  | suffixed hc h => exact h _ hc

/-- What is printed for a literal that was read is read as that literal, to its end. Printing
changes no more than a small suffix to a capital one. -/
theorem bare?_chars {cs : List Char} {b : Bare} (h : bare? cs = some b) :
    bare? b.literal.chars = some ⟨b.literal, b.literal.chars, []⟩ := by
  have alone := alone_of_bare? h
  generalize b.literal = l, b.taken = taken at alone ⊢
  cases alone with
  | plain h =>
    rw [chars_ofBare]
    exact h
  | @suffixed _ s _ _ h =>
    rw [chars_suffixed]
    exact h s.char s.ofChar?_char

/-- The same where the text goes on with `rest`. -/
def Bare.followed (b : Bare) (rest : List Char) : Bare := { b with rest := b.rest ++ rest }

theorem withSuffix_followed {rest : List Char} (ended : Ended rest) (taken more : List Char) :
    (Bare.ofSplit (taken, more ++ rest)).withSuffix =
      (Bare.ofSplit (taken, more)).withSuffix.followed rest := by
  rcases suffix_cases more with ⟨c, s, more, rfl, hs⟩ | off
  · rw [List.cons_append, withSuffix_of_suffix taken (more ++ rest) hs,
      withSuffix_of_suffix taken more hs]
    rfl
  · have still : ∀ c ∈ (more ++ rest).head?, Suffix.ofChar? c = none := by
      cases more with
      | nil => exact ended.suffix
      | cons c more => exact off
    rw [withSuffix_of_none taken (more ++ rest) still, withSuffix_of_none taken more off]
    rfl

/-- What is read does not hang on how the text goes on, where no argument goes on with it. -/
theorem bare?_append {cs rest : List Char} {b : Bare} (ended : Ended rest) (h : bare? cs = some b) :
    bare? (cs ++ rest) = some (b.followed rest) := by
  rw [bare?_eq_some] at h ⊢
  cases h with
  | date h => exact .date (ended.apart.dates.split_append h)
  | @number s noDate h =>
    rw [← withSuffix_followed ended]
    exact .number (ended.apart.dates.split_append_none noDate) (ended.apart.number.split_append h)
  | word noDate noNumber h =>
    exact .word (ended.apart.dates.split_append_none noDate)
      (ended.apart.number.split_append_none noNumber) (ended.word.split_append h)

end EntityFilter.Lexeme
