import EntityFilter.Text.Shape

namespace EntityFilter.Text.Shape

variable {a b : Shape} {p : Char → Bool} {c : Char} {rest : List Char}

theorem append_apply (a b : Shape) (cs : List Char) :
    (a ++ b) cs = (a cs).bind fun n => (b (cs.drop n)).map (n + ·) := rfl

theorem append_eq_some {cs : List Char} {n : Nat} :
    (a ++ b) cs = some n ↔ ∃ i j, a cs = some i ∧ b (cs.drop i) = some j ∧ i + j = n := by
  simp only [append_apply, Option.bind_eq_some_iff, Option.map_eq_some_iff]
  constructor
  · rintro ⟨i, ha, j, hb, rfl⟩
    exact ⟨i, j, ha, hb, rfl⟩
  · rintro ⟨i, j, ha, hb, rfl⟩
    exact ⟨i, ha, j, hb, rfl⟩

theorem append_eq_none {cs : List Char} :
    (a ++ b) cs = none ↔ ∀ i, a cs = some i → b (cs.drop i) = none := by
  simp only [append_apply, Option.bind_eq_none_iff, Option.map_eq_none_iff]

theorem append_assoc (a b c : Shape) : a ++ b ++ c = a ++ (b ++ c) := by
  funext cs
  simp only [append_apply]
  cases a cs with
  | none => rfl
  | some i =>
    simp only [Option.bind_some]
    cases b (cs.drop i) with
    | none => rfl
    | some j =>
      simp only [Option.map_some, Option.bind_some, List.drop_drop]
      cases c (cs.drop (i + j)) with
      | none => rfl
      | some k => simp [Nat.add_assoc]

/-- What the shape takes of a text it takes of every longer one. -/
def Solid (a : Shape) : Prop :=
  ∀ cs k n, a (cs.take k) = some n → a cs = some n

theorem solid_one : Solid (one p) := by
  intro cs k n h
  cases cs with
  | nil => simp [one] at h
  | cons c cs =>
    cases k with
    | zero => simp [one] at h
    | succ k => exact h

theorem Solid.append (ha : Solid a) (hb : Solid b) : Solid (a ++ b) := by
  intro cs k n h
  obtain ⟨i, j, hi, hj, rfl⟩ := append_eq_some.mp h
  rw [List.drop_take] at hj
  exact append_eq_some.mpr ⟨i, j, ha _ _ _ hi, hb _ _ _ hj, rfl⟩

theorem solid_times (n : Nat) : Solid (times n p) := by
  induction n with
  | zero => intro cs k n h; exact h
  | succ n ih => exact solid_one.append ih

/-- Where the shape does not fit a text, it fits no start of it. -/
def Steady (a : Shape) : Prop :=
  ∀ cs k, a cs = none → a (cs.take k) = none

theorem Solid.steady (h : Solid a) : Steady a := by
  intro cs k hn
  cases hk : a (cs.take k) with
  | none => rfl
  | some n => simp [h cs k n hk] at hn

theorem Solid.append_steady (ha : Solid a) (hb : Steady b) : Steady (a ++ b) := by
  intro cs k h
  rw [append_eq_none] at h ⊢
  intro i hi
  rw [List.drop_take]
  exact hb _ _ (h i (ha _ _ _ hi))

/-- A part that always fits does not make the shape fit a shorter text. -/
theorem Steady.append_total (ha : Steady a) (hb : ∀ cs, b cs ≠ none) : Steady (a ++ b) := by
  intro cs k h
  rw [append_eq_none] at h ⊢
  intro i hi
  cases hn : a cs with
  | none => simp [ha cs k hn] at hi
  | some j => exact absurd (h j hn) (hb _)

theorem Steady.append_opt (ha : Steady a) : Steady (a ++ opt b) :=
  ha.append_total fun cs h => by simp [opt] at h

theorem steady_many1 : Steady (many1 p) :=
  solid_one.steady.append_total fun cs h => by simp [many] at h

/-- An optional character may be cut off with all behind it, so it is not enough that what is
behind it is steady. -/
theorem Steady.opt_one_append (hb : Steady b) (empty : b [] = none) : Steady (opt (one p) ++ b) := by
  intro cs k h
  cases cs with
  | nil => simpa using h
  | cons c cs =>
    cases k with
    | zero => simpa [append_apply, opt, one] using empty
    | succ k =>
      rw [append_eq_none] at h ⊢
      intro i hi
      rw [List.drop_take]
      exact hb _ _ (h i hi)

theorem Steady.or (ha : Steady a) (hb : Steady b) : Steady (a.or b) := by
  intro cs k h
  simp only [Shape.or, Option.or_eq_none_iff] at h ⊢
  exact ⟨ha cs k h.1, hb cs k h.2⟩

/-- The shape takes no more than there is, and as much where the text ends sooner. -/
structure Local (a : Shape) : Prop where
  le : ∀ {cs n}, a cs = some n → n ≤ cs.length
  cut : ∀ {cs n} k, a cs = some n → n ≤ k → a (cs.take k) = some n

theorem local_one : Local (one p) := by
  constructor
  · intro cs n h
    cases cs with
    | nil => simp [one] at h
    | cons c cs =>
      simp only [one, Option.ite_none_right_eq_some, Option.some.injEq] at h
      simp [← h.2]
  · intro cs n k h hk
    cases cs with
    | nil => simp [one] at h
    | cons c cs =>
      cases k with
      | zero =>
        simp only [one, Option.ite_none_right_eq_some, Option.some.injEq] at h
        omega
      | succ k => exact h

/-- Repetition takes what it took also where the text ends there. -/
theorem local_many : Local (many p) := by
  constructor
  · intro cs n h
    simp only [many, Option.some.injEq] at h
    exact h ▸ (List.takeWhile_prefix p).length_le
  · intro cs n k h hk
    simp only [many, Option.some.injEq] at h ⊢
    subst h
    induction cs generalizing k with
    | nil => simp
    | cons c cs ih =>
      cases hp : p c with
      | false => cases k <;> simp [hp]
      | true =>
        simp only [List.takeWhile_cons, hp, if_true, List.length_cons] at hk
        cases k with
        | zero => omega
        | succ k =>
          have := ih k (by omega)
          simp [hp, this]

theorem Local.append (ha : Local a) (hb : Local b) : Local (a ++ b) := by
  constructor
  · intro cs n h
    obtain ⟨i, j, hi, hj, rfl⟩ := append_eq_some.mp h
    have := ha.le hi
    have := hb.le hj
    simp only [List.length_drop] at this
    omega
  · intro cs n k h hk
    obtain ⟨i, j, hi, hj, rfl⟩ := append_eq_some.mp h
    refine append_eq_some.mpr ⟨i, j, ha.cut k hi (by omega), ?_, rfl⟩
    rw [List.drop_take]
    exact hb.cut (k - i) hj (by omega)

theorem local_times (n : Nat) : Local (times n p) := by
  induction n with
  | zero =>
    constructor
    · intro cs n h
      simp only [times, Option.some.injEq] at h
      omega
    · intro cs n k h _
      exact h
  | succ n ih => exact local_one.append ih

theorem Local.opt (ha : Local a) (hs : Steady a) : Local (opt a) := by
  constructor
  · intro cs n h
    cases hn : a cs with
    | none =>
      simp only [Shape.opt, hn, Option.getD_none, Option.some.injEq] at h
      omega
    | some m =>
      simp only [Shape.opt, hn, Option.getD_some, Option.some.injEq] at h
      exact h ▸ ha.le hn
  · intro cs n k h hk
    cases hn : a cs with
    | none => simpa [Shape.opt, hn, hs cs k hn] using h
    | some m =>
      simp only [Shape.opt, hn, Option.getD_some, Option.some.injEq] at h
      subst h
      simp [Shape.opt, ha.cut k hn hk]

theorem Local.or (ha : Local a) (hs : Steady a) (hb : Local b) : Local (a.or b) := by
  constructor
  · intro cs n h
    rcases Option.or_eq_some_iff.mp h with h | ⟨_, h⟩
    · exact ha.le h
    · exact hb.le h
  · intro cs n k h hk
    rcases Option.or_eq_some_iff.mp h with h | ⟨hn, h⟩
    · exact Option.or_eq_some_iff.mpr (.inl (ha.cut k h hk))
    · exact Option.or_eq_some_iff.mpr (.inr ⟨hs cs k hn, hb.cut k h hk⟩)

/-- A shape that does not fit the empty text takes something. -/
theorem Local.pos (ha : Local a) (empty : a [] = none) {cs : List Char} {n : Nat}
    (h : a cs = some n) : 0 < n := by
  cases n with
  | zero =>
    have hz := ha.cut 0 h (Nat.le_refl 0)
    rw [List.take_zero, empty] at hz
    cases hz
  | succ n => exact Nat.succ_pos n

/-- Whether `rest` follows a text makes no difference to what the shape takes there. -/
structure Blind (rest : List Char) (a : Shape) : Prop extends Local a where
  blind : ∀ cs, a (cs ++ rest) = a cs

theorem blind_one (h : ∀ c ∈ rest.head?, p c = false) : Blind rest (one p) := by
  refine ⟨local_one, ?_⟩
  intro cs
  cases cs with
  | cons c cs => rfl
  | nil =>
    cases rest with
    | nil => rfl
    | cons c rest => simp [one, h c (by simp)]

theorem blind_many (h : ∀ c ∈ rest.head?, p c = false) : Blind rest (many p) := by
  refine ⟨local_many, ?_⟩
  intro cs
  simp only [many, Option.some.injEq]
  induction cs with
  | nil =>
    cases rest with
    | nil => rfl
    | cons c rest => simp [h c (by simp)]
  | cons c cs ih =>
    cases hp : p c with
    | false => simp [hp]
    | true => simp [hp, ih]

theorem Blind.append (ha : Blind rest a) (hb : Blind rest b) : Blind rest (a ++ b) := by
  refine ⟨ha.toLocal.append hb.toLocal, ?_⟩
  intro cs
  rw [append_apply, append_apply, ha.blind]
  cases hn : a cs with
  | none => rfl
  | some n =>
    simp only [Option.bind_some]
    rw [List.drop_append_of_le_length (ha.le hn), hb.blind]

theorem blind_many1 (h : ∀ c ∈ rest.head?, p c = false) : Blind rest (many1 p) :=
  (blind_one h).append (blind_many h)

theorem blind_times (h : ∀ c ∈ rest.head?, p c = false) (n : Nat) : Blind rest (times n p) := by
  induction n with
  | zero => exact ⟨local_times 0, fun _ => rfl⟩
  | succ n ih => exact (blind_one h).append ih

theorem Blind.opt (ha : Blind rest a) (hs : Steady a) : Blind rest (opt a) :=
  ⟨ha.toLocal.opt hs, fun cs => by simp only [Shape.opt, ha.blind]⟩

theorem Blind.or (ha : Blind rest a) (hs : Steady a) (hb : Blind rest b) : Blind rest (a.or b) :=
  ⟨ha.toLocal.or hs hb.toLocal, fun cs => by simp only [Shape.or, ha.blind, hb.blind]⟩

/-- A character may start what follows, as long as that does not go on as the shape would. -/
theorem Blind.char_append (hb : Blind rest b) (off : ∀ more, rest = c :: more → b more = none) :
    Blind rest (char c ++ b) := by
  refine ⟨local_one.append hb.toLocal, ?_⟩
  intro cs
  cases cs with
  | nil =>
    cases rest with
    | nil => rfl
    | cons d more =>
      by_cases hd : d = c
      · subst hd
        simp [append_apply, char, one, off more rfl]
      · simp [append_apply, char, one, hd]
  | cons d cs =>
    by_cases hd : d = c
    · simp [append_apply, char, one, hd, hb.blind]
    · simp [append_apply, char, one, hd]

/-- An option of one character may fit where the text used to end. It does no harm if what comes
next does not. -/
theorem Blind.opt_char_append (hb : Blind rest b) (empty : b [] = none)
    (off : ∀ more, rest = c :: more → b more = none) : Blind rest (Shape.opt (char c) ++ b) := by
  refine ⟨(local_one.opt solid_one.steady).append hb.toLocal, ?_⟩
  intro cs
  cases cs with
  | nil =>
    have whole : b rest = none := by simpa [empty] using hb.blind []
    cases rest with
    | nil => rfl
    | cons d more =>
      by_cases hd : d = c
      · subst hd
        simp [append_apply, char, Shape.opt, one, off more rfl, empty]
      · simp [append_apply, char, Shape.opt, one, hd, whole, empty]
  | cons d cs =>
    by_cases hd : d = c
    · simp [append_apply, char, Shape.opt, one, hd, hb.blind]
    · have whole : b (d :: (cs ++ rest)) = b (d :: cs) := hb.blind (d :: cs)
      simp [append_apply, char, Shape.opt, one, hd, whole]

/-- What a shape takes of a text it takes whole. -/
theorem Local.split_cut (ha : Local a) {cs taken more : List Char}
    (h : a.split cs = some (taken, more)) : a.split taken = some (taken, []) := by
  simp only [split, Option.map_eq_some_iff, Prod.mk.injEq] at h
  obtain ⟨n, hn, rfl, rfl⟩ := h
  have hl : (cs.take n).length = n := by
    rw [List.length_take]
    exact Nat.min_eq_left (ha.le hn)
  simp only [split, ha.cut n hn (Nat.le_refl n), Option.map_some]
  rw [List.take_of_length_le (Nat.le_of_eq hl), List.drop_eq_nil_of_le (Nat.le_of_eq hl)]

/-- The text is split in the same place when it goes on. -/
theorem Blind.split_append (ha : Blind rest a) {cs taken more : List Char}
    (h : a.split cs = some (taken, more)) : a.split (cs ++ rest) = some (taken, more ++ rest) := by
  simp only [split, Option.map_eq_some_iff, Prod.mk.injEq] at h
  obtain ⟨n, hn, rfl, rfl⟩ := h
  have hl := ha.le hn
  simp only [split, ha.blind, hn, Option.map_some]
  rw [List.take_append_of_le_length hl, List.drop_append_of_le_length hl]

theorem split_eq_none {cs : List Char} : a.split cs = none ↔ a cs = none := by
  simp [split]

theorem Blind.split_append_none (ha : Blind rest a) {cs : List Char} (h : a.split cs = none) :
    a.split (cs ++ rest) = none := by
  rw [split_eq_none] at h ⊢
  rw [ha.blind, h]

/-- A shape that did not fit the text does not fit what another one took of it. -/
theorem Steady.split_cut (ha : Steady a) {cs taken more : List Char} (h : a.split cs = none)
    (hb : b.split cs = some (taken, more)) : a.split taken = none := by
  simp only [split, Option.map_eq_some_iff, Prod.mk.injEq] at hb
  obtain ⟨n, _, rfl, _⟩ := hb
  exact split_eq_none.mpr (ha cs n (split_eq_none.mp h))

theorem Local.split_ne_nil (ha : Local a) (empty : a [] = none) {cs taken more : List Char}
    (h : a.split cs = some (taken, more)) : taken ≠ [] := by
  simp only [split, Option.map_eq_some_iff, Prod.mk.injEq] at h
  obtain ⟨n, hn, rfl, rfl⟩ := h
  have hp := ha.pos empty hn
  have hl := ha.le hn
  intro he
  have := congrArg List.length he
  simp only [List.length_take, List.length_nil] at this
  omega

/-- In front of `rest` the shape takes the text, and stops there. -/
def Takes (a : Shape) (cs rest : List Char) : Prop := a (cs ++ rest) = some cs.length

section

variable {xs ys : List Char}

theorem Takes.append (ha : Takes a xs (ys ++ rest)) (hb : Takes b ys rest) :
    Takes (a ++ b) (xs ++ ys) rest := by
  rw [Takes, List.append_assoc, append_eq_some]
  exact ⟨xs.length, ys.length, ha, by rw [List.drop_left]; exact hb, List.length_append.symm⟩

theorem takes_one (h : p c = true) : Takes (one p) [c] rest := by
  simp [Takes, one, h]

theorem Takes.char_append (hb : Takes b ys rest) : Takes (char c ++ b) (c :: ys) rest :=
  (takes_one (by simp) : Takes (char c) [c] (ys ++ rest)).append hb

theorem takes_times (h : ∀ d ∈ xs, p d = true) : Takes (times xs.length p) xs rest := by
  induction xs with
  | nil => rfl
  | cons x xs ih =>
    obtain ⟨first, more⟩ := List.forall_mem_cons.mp h
    exact (takes_one first : Takes (one p) [x] (xs ++ rest)).append (ih more)

theorem takes_many1 (nonempty : xs ≠ []) (h : ∀ d ∈ xs, p d = true)
    (stop : ∀ d ∈ rest.head?, p d = false) : Takes (many1 p) xs rest := by
  obtain ⟨x, xs, rfl⟩ := List.exists_cons_of_ne_nil nonempty
  obtain ⟨first, more⟩ := List.forall_mem_cons.mp h
  have behind : rest.takeWhile p = [] := by
    cases rest with
    | nil => rfl
    | cons d rest => simp [stop d rfl]
  have others : Takes (many p) xs rest := by
    rw [Takes, many, List.takeWhile_append_of_pos more, behind, List.append_nil]
  exact (takes_one first : Takes (one p) [x] (xs ++ rest)).append others

theorem Takes.opt (h : Takes a xs rest) : Takes (opt a) xs rest := by
  rw [Takes] at h
  rw [Takes, Shape.opt, h, Option.getD_some]

theorem takes_opt_none (h : a rest = none) : Takes (opt a) [] rest := by
  rw [Takes, List.nil_append, Shape.opt, h]
  rfl

theorem Takes.or (h : Takes a xs rest) : Takes (a.or b) xs rest := by
  rw [Takes] at h
  rw [Takes, Shape.or, h, Option.some_or]

theorem Takes.or_right (ha : a (xs ++ rest) = none) (hb : Takes b xs rest) :
    Takes (a.or b) xs rest := by
  rw [Takes, Shape.or, ha, Option.none_or]
  exact hb

theorem char_none (h : ∀ d ∈ rest.head?, d ≠ c) : char c rest = none := by
  cases rest with
  | nil => rfl
  | cons d rest => simp [char, one, h d rfl]

theorem char_append_none (h : ∀ d ∈ rest.head?, d ≠ c) : (char c ++ b) rest = none := by
  rw [append_apply, char_none h, Option.bind_none]

theorem Takes.append_none (ha : Takes a xs rest) (hb : b rest = none) :
    (a ++ b) (xs ++ rest) = none := by
  rw [append_eq_none]
  intro i hi
  obtain rfl : xs.length = i := Option.some.inj (ha.symm.trans hi)
  rw [List.drop_left, hb]

theorem Takes.split (h : Takes a xs []) : a.split xs = some (xs, []) := by
  rw [Takes, List.append_nil] at h
  simp [Shape.split, h]

end

end EntityFilter.Text.Shape
