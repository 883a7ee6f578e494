import EntityFilter.Proofs.Numerals

namespace EntityFilter.Decimal

open Text Numeral

/-- The number that a decimal is. -/
def value (d : Decimal) : ℚ := d.signed / 10 ^ d.scale

structure Fits (d : Decimal) : Prop where
  coefficient_lt : d.coefficient < coefficientLimit
  scale_le : d.scale ≤ maxScale

/-- Some decimal is the number. -/
def Holds (q : ℚ) : Prop := ∃ d : Decimal, d.Fits ∧ d.value = q

theorem value_eq (d : Decimal) : d.value = signOf d.negative * (d.coefficient / 10 ^ d.scale) := by
  unfold value signed signOf
  split <;> push_cast <;> ring

theorem value_ofParts (negative : Bool) (c s : Nat) :
    (ofParts negative c s).value = signOf negative * (c / 10 ^ s) := by
  rw [value_eq]
  by_cases zero : c = 0
  · simp [ofParts, zero]
  · simp [ofParts, zero]

theorem abs_signOf_mul (negative : Bool) (x : ℚ) : |signOf negative * x| = |x| := by
  cases negative <;> simp [signOf]

/-- The grid that a number which is held lies on. -/
theorem Holds.on_grid {q : ℚ} (h : Holds q) :
    ∃ s ≤ maxScale, ∃ c < coefficientLimit, |q| * 10 ^ s = c := by
  obtain ⟨d, fits, rfl⟩ := h
  refine ⟨d.scale, fits.scale_le, d.coefficient, fits.coefficient_lt, ?_⟩
  rw [value_eq, abs_signOf_mul, abs_of_nonneg (by positivity)]
  field_simp

/-- A number that is held needs no digits behind those of a coefficient that has no room for more.
-/
theorem eq_zero_of_holds {negative : Bool} {c s : Nat} {x : ℚ} (nonneg : 0 ≤ x) (small : x < 1)
    (full : s = maxScale ∨ (coefficientLimit : ℚ) ≤ (c + x) * 10)
    (h : Holds (signOf negative * ((c + x) / 10 ^ s))) : x = 0 := by
  obtain ⟨s', scale, c', limit, grid⟩ := h.on_grid
  rw [abs_signOf_mul, abs_of_nonneg (by positivity)] at grid
  rcases Nat.lt_or_ge s s' with finer | coarser
  · exfalso
    rcases full with rfl | full
    · exact absurd scale (Nat.not_le.mpr finer)
    · obtain ⟨k, rfl⟩ := Nat.exists_eq_add_of_lt finer
      have whole : (c + x) * 10 * 10 ^ k = c' := by
        rw [← grid]
        field_simp
        ring
      have grows : (c + x) * 10 ≤ (c + x) * 10 * 10 ^ k :=
        le_mul_of_one_le_right (by positivity) (one_le_pow₀ (by norm_num))
      have : (coefficientLimit : ℚ) ≤ c' := by linarith
      exact absurd limit (Nat.not_lt.mpr (mod_cast this))
  · obtain ⟨k, rfl⟩ := Nat.exists_eq_add_of_le coarser
    have whole : c + x = ((c' * 10 ^ k : Nat) : ℚ) := by
      push_cast
      rw [← grid]
      field_simp
      ring
    have low : c ≤ c' * 10 ^ k := by
      have : (c : ℚ) ≤ ((c' * 10 ^ k : Nat) : ℚ) := by linarith
      exact_mod_cast this
    have high : c' * 10 ^ k < c + 1 := by
      have : ((c' * 10 ^ k : Nat) : ℚ) < c + 1 := by linarith
      exact_mod_cast this
    have same : c' * 10 ^ k = c := by omega
    rw [same] at whole
    linarith

/-- What a decimal keeps of a number. It is off only where one of its limits is reached. -/
structure Keeps (d : Decimal) (q : ℚ) : Prop where
  fits : d.Fits
  near : |d.value - q| < 1 / 10 ^ d.scale
  full : d.value = q ∨ d.scale = maxScale ∨ coefficientLimit ≤ d.coefficient * 10
  exact : Holds q → d.value = q

section

variable {negative : Bool} {c s : Nat} {d : Decimal}

theorem keeps_exactly (hc : c < coefficientLimit) (hs : s ≤ maxScale) {x : ℚ} (h : c / 10 ^ s = x) :
    (ofParts negative c s).Keeps (signOf negative * x) := by
  have value : (ofParts negative c s).value = signOf negative * x := by rw [value_ofParts, h]
  refine ⟨⟨hc, hs⟩, ?_, .inl value, fun _ => value⟩
  rw [value, sub_self, abs_zero]
  positivity

theorem near_ofParts {q r : ℚ} (near : |(c : ℚ) - r| < 1) (h : q = signOf negative * (r / 10 ^ s)) :
    |(ofParts negative c s).value - q| < 1 / 10 ^ (ofParts negative c s).scale := by
  have apart : (ofParts negative c s).value - q = signOf negative * ((c - r) / 10 ^ s) := by
    rw [value_ofParts, h]
    ring
  rw [apart, abs_signOf_mul, abs_div, abs_of_pos (by positivity : (0 : ℚ) < 10 ^ s)]
  exact div_lt_div_of_pos_right near (by positivity)

section

variable {digit : Nat} {x : ℚ}

/-- At the last place a number may be closed, whatever digits come after it. -/
theorem keeps_closed (hc : c < coefficientLimit) (places : s = maxScale) (nonneg : 0 ≤ x)
    (small : x < 1) : (ofParts negative c s).Keeps (signOf negative * ((c + x) / 10 ^ s)) := by
  refine ⟨⟨hc, places.le⟩, near_ofParts (r := c + x) ?_ rfl, .inr (.inl places), fun held => ?_⟩
  · rw [abs_lt]
    constructor <;> linarith
  · rw [value_ofParts, eq_zero_of_holds nonneg small (.inl places) held, add_zero]

/-- A digit that there is no room for, and what stands behind it, are nothing in a number that is
held. -/
theorem digit_eq_zero_of_holds (nine : digit ≤ 9) (nonneg : 0 ≤ x) (small : x < 1)
    (noRoom : s = maxScale ∨ coefficientLimit ≤ c * 10 + digit)
    (h : Holds (signOf negative * ((c + (digit + x) / 10) / 10 ^ s))) : digit = 0 ∧ x = 0 := by
  have nine : (digit : ℚ) ≤ 9 := mod_cast nine
  have digit_nonneg : (0 : ℚ) ≤ digit := by positivity
  have full : s = maxScale ∨ (coefficientLimit : ℚ) ≤ (c + (digit + x) / 10) * 10 := by
    rcases noRoom with places | limit
    · exact .inl places
    · have limit : (coefficientLimit : ℚ) ≤ c * 10 + digit := mod_cast limit
      right
      linarith
  have nothing := eq_zero_of_holds (by positivity) (by linarith) full h
  have zero : (digit : ℚ) = 0 := by linarith
  exact ⟨mod_cast zero, by linarith⟩

/-- The greatest coefficient has no unit to round up to, and gives its last digit away as well. -/
theorem keeps_spilled (greatest : c + 1 = coefficientLimit) (hs : s ≤ maxScale) (positive : s ≠ 0)
    (nine : digit ≤ 9) (up : 5 ≤ digit) (nonneg : 0 ≤ x) (small : x < 1) :
    (ofParts negative (roundedOff 1 (c + 1)) (s - 1)).Keeps
      (signOf negative * ((c + (digit + x) / 10) / 10 ^ s)) := by
  have limit : coefficientLimit = 79228162514264337593543950336 := rfl
  have tenth : roundedOff 1 (c + 1) = 7922816251426433759354395034 := by
    rw [greatest]
    rfl
  have most : (c : ℚ) = 79228162514264337593543950335 := by
    have : c = 79228162514264337593543950335 := by omega
    exact_mod_cast this
  have nine' : (digit : ℚ) ≤ 9 := mod_cast nine
  have up' : (5 : ℚ) ≤ digit := mod_cast up
  have shift : (10 : ℚ) ^ s = 10 * 10 ^ (s - 1) := by
    rw [← pow_succ', Nat.sub_one_add_one positive]
  rw [tenth]
  refine ⟨⟨by simp [ofParts, limit], (Nat.sub_le s 1).trans hs⟩,
    near_ofParts (r := (c + (digit + x) / 10) / 10) ?_ ?_, .inr (.inr (by simp [ofParts, limit])),
    fun held => ?_⟩
  · rw [abs_lt, most]
    constructor <;> norm_num <;> linarith
  · rw [shift]
    field_simp
  · have none := digit_eq_zero_of_holds nine nonneg small (.inr (by omega)) held
    omega

/-- A digit that there is no room for is rounded off with those behind it. -/
theorem keeps_rounded (hc : c < coefficientLimit) (hs : s ≤ maxScale) (nine : digit ≤ 9)
    (nonneg : 0 ≤ x) (small : x < 1) (noRoom : s = maxScale ∨ coefficientLimit ≤ c * 10 + digit)
    (h : rounded? negative c s digit = some d) :
    d.Keeps (signOf negative * ((c + (digit + x) / 10) / 10 ^ s)) := by
  have limit : coefficientLimit = 79228162514264337593543950336 := rfl
  have exact (held : Holds (signOf negative * ((c + (digit + x) / 10) / 10 ^ s))) :
      digit = 0 ∧ x = 0 := digit_eq_zero_of_holds nine nonneg small noRoom held
  have nine' : (digit : ℚ) ≤ 9 := mod_cast nine
  rcases Nat.lt_or_ge digit 5 with down | up
  · rw [rounded?, if_neg (Nat.not_le.mpr down), if_pos hc] at h
    cases h
    have down' : (digit : ℚ) ≤ 4 := mod_cast Nat.le_of_lt_succ down
    refine ⟨⟨hc, hs⟩, near_ofParts (r := c + (digit + x) / 10) ?_ rfl,
      .inr (noRoom.imp_right fun _ => ?_), fun held => ?_⟩
    · rw [abs_lt]
      constructor <;> linarith
    · simp only [ofParts]
      omega
    · obtain ⟨rfl, rfl⟩ := exact held
      simp [value_ofParts]
  · rw [rounded?, if_pos up] at h
    have up' : (5 : ℚ) ≤ digit := mod_cast up
    split at h
    · rename_i room
      cases h
      refine ⟨⟨room, hs⟩, near_ofParts (r := c + (digit + x) / 10) ?_ rfl,
        .inr (noRoom.imp_right fun _ => ?_), fun held => ?_⟩
      · rw [abs_lt]
        push_cast
        constructor <;> linarith
      · simp only [ofParts]
        omega
      · exact absurd (exact held).1 (by omega)
    · split at h
      · cases h
      · rename_i noUnit positive
        cases h
        exact keeps_spilled (by omega) hs positive nine up nonneg small

end

/-- The digits of a fraction are taken in one by one, and the number that they go on to write stays
the same. -/
theorem keeps_withFraction {cs : List Char} (all : ∀ c ∈ cs, isDigitOrMark c = true)
    (hc : c < coefficientLimit) (hs : s ≤ maxScale) (h : withFraction? negative c s cs = some d) :
    d.Keeps (signOf negative * ((c + fractionOf cs) / 10 ^ s)) := by
  induction cs generalizing c s with
  | nil =>
    cases h
    exact keeps_exactly hc hs (by simp [fractionOf])
  | cons a cs ih =>
    obtain ⟨ha, rest⟩ := List.forall_mem_cons.mp all
    have nonneg := fractionOf_nonneg cs
    have small := fractionOf_lt_one cs
    unfold withFraction? at h
    simp only at h
    split at h
    · rename_i mark
      have skipped : fractionOf (a :: cs) = fractionOf cs := by
        rw [mark]
        rfl
      rw [skipped]
      split at h
      · rename_i closed
        cases h
        simp only [isShortAndFull, Bool.and_eq_true, beq_iff_eq] at closed
        exact keeps_closed hc closed.1 nonneg small
      · exact ih rest hc hs h
    · rename_i mark
      have digit : a.isDigit = true := by
        simpa [isDigitOrMark, mark] using ha
      rw [fractionOf_digit digit]
      split at h
      · rename_i room
        have taken := ih rest room.2 room.1 h
        have same : ((c * 10 + digitValue a : Nat) + fractionOf cs : ℚ) / 10 ^ (s + 1) =
            (c + (digitValue a + fractionOf cs) / 10) / 10 ^ s := by
          push_cast
          field_simp
          ring
        rwa [same] at taken
      · rename_i noRoom
        exact keeps_rounded hc hs (digitValue_le digit) nonneg small (by omega) h

end

variable {d e : Decimal} {cs : List Char}

/-- Digits and a point, without the sign. -/
theorem ofUnsigned?_keeps {negative : Bool} (h : ofUnsigned? negative cs = some d) (power : Int) :
    ∃ n : Numeral, n.power = power ∧ d.Keeps n.base ∧
      ∀ sign, SignText negative sign → BaseText n (sign ++ cs) := by
  simp only [ofUnsigned?, Option.ite_none_right_eq_some] at h
  obtain ⟨⟨run, limit⟩, h⟩ := h
  have parts := List.takeWhile_append_dropWhile (p := (· != '.')) (l := cs)
  generalize hw : cs.takeWhile (· != '.') = whole at *
  generalize hb : cs.dropWhile (· != '.') = back at *
  have fraction : FractionText (back.drop 1) back := by
    have first := List.head?_dropWhile_not (· != '.') cs
    rw [hb] at first
    cases back with
    | nil => exact .none
    | cons c cs =>
      obtain rfl : c = '.' := by simpa using first
      exact .point cs
  simp only [isDigitRun, Bool.and_eq_true, Option.any_eq_true, List.all_eq_true] at run
  obtain ⟨⟨c, first, digit⟩, all⟩ := run
  refine ⟨⟨negative, whole, back.drop 1, power⟩, rfl, ?_, fun sign signed =>
    ⟨signed, ⟨⟨c, first, digit⟩, all⟩, fraction, by rw [parts]⟩⟩
  have kept := keeps_withFraction (fun c hc => all c (List.mem_append_right _ hc)) limit
    (Nat.zero_le maxScale) h
  simpa [base] using kept

/-- What reading keeps of a number without its power of ten. -/
theorem ofPlain?_keeps (h : ofPlain? cs = some d) (power : Int) :
    ∃ n : Numeral, n.power = power ∧ BaseText n cs ∧ d.Keeps n.base := by
  unfold ofPlain? at h
  split at h
  · obtain ⟨n, hp, keeps, text⟩ := ofUnsigned?_keeps h power
    exact ⟨n, hp, text ['-'] .minus, keeps⟩
  · obtain ⟨n, hp, keeps, text⟩ := ofUnsigned?_keeps h power
    exact ⟨n, hp, text ['+'] .plus, keeps⟩
  · obtain ⟨n, hp, keeps, text⟩ := ofUnsigned?_keeps h power
    exact ⟨n, hp, text [] .none, keeps⟩

/-- What reading a number keeps of it. -/
structure Reads (d : Decimal) (n : Numeral) : Prop where
  fits : d.Fits
  near : |d.value - n.value| < 1 / 10 ^ d.scale
  exact : Holds n.base → Holds n.value → d.value = n.value

theorem Keeps.reads {n : Numeral} (h : d.Keeps n.base) (power : n.power = 0) : d.Reads n := by
  have value : n.value = n.base := by simp [Numeral.value, power]
  exact ⟨h.fits, value ▸ h.near, fun held _ => value ▸ h.exact held⟩

theorem roundedOff_le (k c : Nat) : roundedOff k c ≤ c := by
  rw [roundedOff, placeValue_eq]
  have place : 0 < 10 ^ k := Nat.pow_pos (by decide)
  have wide : c ≤ c * 10 ^ k := Nat.le_mul_of_pos_right c place
  rw [← Nat.lt_add_one_iff, Nat.div_lt_iff_lt_mul place, Nat.add_mul, Nat.one_mul]
  omega

theorem roundedOff_mul (k c : Nat) : roundedOff k (c * 10 ^ k) = c := by
  have place : 0 < 10 ^ k := Nat.pow_pos (by decide)
  rw [roundedOff, placeValue_eq, Nat.mul_comm, Nat.mul_add_div place,
    Nat.div_eq_of_lt (Nat.div_lt_self place (by decide)), Nat.add_zero]

/-- Rounding is off by half a unit at most. -/
theorem abs_roundedOff_sub_le_half (k c : Nat) : |(roundedOff k c : ℚ) - c / 10 ^ k| ≤ 1 / 2 := by
  have place : 0 < 10 ^ k := Nat.pow_pos (by decide)
  have low : roundedOff k c * 10 ^ k ≤ c + 10 ^ k / 2 := Nat.div_mul_le_self ..
  have high : c + 10 ^ k / 2 < roundedOff k c * 10 ^ k + 10 ^ k :=
    Nat.lt_div_mul_add place (a := c + 10 ^ k / 2)
  have low' : ((2 * (roundedOff k c * 10 ^ k) : Nat) : ℚ) ≤ (2 * c + 10 ^ k : Nat) :=
    mod_cast (by omega)
  have high' : ((2 * c : Nat) : ℚ) ≤ (2 * (roundedOff k c * 10 ^ k) + 10 ^ k : Nat) :=
    mod_cast (by omega)
  push_cast at low' high'
  have place' : (0 : ℚ) < 10 ^ k := by positivity
  have same : (roundedOff k c : ℚ) - c / 10 ^ k = (roundedOff k c * 10 ^ k - c) / 10 ^ k := by
    field_simp
  rw [same, abs_div, abs_of_pos place', div_le_iff₀ place', abs_le]
  constructor <;> linarith

/-- Rounding off leaves room for one more unit of the digits that were cut off. -/
theorem abs_roundedOff_sub (k c : Nat) : |(roundedOff k c : ℚ) - c / 10 ^ k| ≤ 1 - 1 / 10 ^ k := by
  cases k with
  | zero => simp [roundedOff_zero]
  | succ k =>
    have tenth : (1 : ℚ) / 10 ^ (k + 1) ≤ 1 / 10 := by
      rw [div_le_div_iff₀ (by positivity) (by norm_num), pow_succ]
      have : (1 : ℚ) ≤ 10 ^ k := one_le_pow₀ (by norm_num)
      linarith
    linarith [abs_roundedOff_sub_le_half (k + 1) c]

section

variable {n : Numeral} {k : Nat}

theorem value_of_raised (power : n.power = k) : n.value = n.base * 10 ^ k := by
  rw [Numeral.value, power, zpow_natCast]

/-- The point is moved over digits that are there. -/
theorem Keeps.reads_moved (keeps : d.Keeps n.base) (power : n.power = k) (within : k ≤ d.scale) :
    ({ d with scale := d.scale - k } : Decimal).Reads n := by
  obtain ⟨s, scale⟩ := Nat.exists_eq_add_of_le within
  have moved : ∀ q : ℚ, q / 10 ^ (d.scale - k) = q / 10 ^ d.scale * 10 ^ k := by
    intro q
    rw [scale, Nat.add_sub_cancel_left, pow_add]
    field_simp
  have same : (({ d with scale := d.scale - k } : Decimal)).value = d.value * 10 ^ k := by
    rw [value_eq, value_eq, moved]
    ring
  refine ⟨⟨keeps.fits.coefficient_lt, (Nat.sub_le _ _).trans keeps.fits.scale_le⟩, ?_,
    fun held _ => ?_⟩
  · rw [same, value_of_raised power, ← sub_mul, abs_mul,
      abs_of_pos (by positivity : (0 : ℚ) < 10 ^ k), moved]
    exact mul_lt_mul_of_pos_right keeps.near (by positivity)
  · rw [same, value_of_raised power, keeps.exact held]

/-- Zeros are put behind the digits. A decimal with room for one more digit, and with a place for
it, has lost none. -/
theorem Keeps.reads_filled {s : Nat} (keeps : d.Keeps n.base)
    (power : n.power = (d.scale + (s + 1) : Nat)) (places : d.scale < maxScale)
    (room : d.coefficient * 10 ^ (s + 1) < coefficientLimit) :
    (ofParts d.negative (d.coefficient * 10 ^ (s + 1)) 0).Reads n := by
  have exact : d.value = n.base := by
    rcases keeps.full with exact | full | full
    · exact exact
    · exact absurd full places.ne
    · have : 1 ≤ 10 ^ s := Nat.pow_pos (by decide)
      rw [pow_succ] at room
      nlinarith
  have same : (ofParts d.negative (d.coefficient * 10 ^ (s + 1)) 0).value = n.value := by
    rw [value_of_raised power, ← exact, value_ofParts, value_eq]
    push_cast
    rw [pow_add (10 : ℚ) d.scale]
    field_simp
  exact ⟨⟨room, Nat.zero_le _⟩, by rw [same, sub_self, abs_zero]; positivity, fun _ _ => same⟩

/-- A raised number is moved as it is, or has no room. -/
theorem raised?_reads (keeps : d.Keeps n.base) (power : n.power = k) (h : d.raised? k = some e) :
    e.Reads n := by
  unfold raised? at h
  split at h
  · rename_i within
    cases h
    exact keeps.reads_moved power within
  · rename_i past
    split at h
    · cases h
    · rename_i places
      simp only [Option.ite_none_right_eq_some, Option.some.injEq] at h
      obtain ⟨room, rfl⟩ := h
      obtain ⟨s, rfl⟩ := Nat.exists_eq_add_of_lt (Nat.not_le.mp past)
      rw [placeValue_eq, Nat.add_assoc, Nat.add_sub_cancel_left] at room ⊢
      exact keeps.reads_filled power (by omega) room

end

/-- Decimals hold a lowered number only where the digits that it would lose are zeros. -/
theorem dvd_of_holds {k kept cut : Nat} (scale : d.scale = kept + cut)
    (full : cut = 0 ∨ kept + k = maxScale) (h : Holds (d.value / 10 ^ k)) :
    ∃ m, d.coefficient = m * 10 ^ cut := by
  rcases full with rfl | full
  · exact ⟨d.coefficient, by simp⟩
  · obtain ⟨s, hs, c, -, grid⟩ := h.on_grid
    obtain ⟨room, more⟩ := Nat.exists_eq_add_of_le (full ▸ hs)
    refine ⟨c * 10 ^ room, ?_⟩
    have places : (10 : ℚ) ^ d.scale * 10 ^ k = 10 ^ room * 10 ^ cut * 10 ^ s := by
      rw [← pow_add, ← pow_add, ← pow_add]
      congr 1
      omega
    have size : |d.value / 10 ^ k| = d.coefficient / (10 ^ d.scale * 10 ^ k) := by
      rw [value_eq, mul_div_assoc, abs_signOf_mul, abs_of_nonneg (by positivity), div_div]
    rw [size, places, div_mul_eq_mul_div, div_eq_iff (by positivity)] at grid
    have whole : (d.coefficient : ℚ) = c * (10 ^ room * 10 ^ cut) :=
      mul_right_cancel₀ (pow_ne_zero s (by norm_num : (10 : ℚ) ≠ 0)) (by linarith)
    rw [← mul_assoc] at whole
    exact_mod_cast whole

/-- A lowered number loses the digits behind the last place, and is rounded there. -/
theorem lowered?_reads {n : Numeral} {k : Nat} (keeps : d.Keeps n.base) (power : n.power = -k)
    (h : d.lowered? k = some e) : e.Reads n := by
  have value : n.value = n.base / 10 ^ k := by
    rw [Numeral.value, power, zpow_neg, zpow_natCast, div_eq_mul_inv]
  unfold lowered? at h
  split at h
  · cases h
  · obtain ⟨kept, hk⟩ : ∃ kept, min d.scale (maxScale - k) = kept := ⟨_, rfl⟩
    obtain ⟨cut, scale⟩ := Nat.exists_eq_add_of_le (hk ▸ Nat.min_le_left .. : kept ≤ d.scale)
    have length : d.scale - kept = cut := Nat.sub_eq_of_eq_add' scale
    simp only [hk, length, Option.some.injEq] at h
    have same : e.value = signOf d.negative * (roundedOff cut d.coefficient / 10 ^ (kept + k)) := by
      rw [← h, value_eq]
    have moved : d.value / 10 ^ k =
        signOf d.negative * (d.coefficient / 10 ^ cut / 10 ^ (kept + k)) := by
      rw [value_eq, scale, pow_add, pow_add]
      field_simp
    have places : e.scale = kept + k := by rw [← h]
    refine ⟨⟨?_, ?_⟩, ?_, fun held lowered => ?_⟩
    · rw [← h]
      exact (roundedOff_le ..).trans_lt keeps.fits.coefficient_lt
    · rw [places]
      omega
    · have cutOff : |e.value - d.value / 10 ^ k| ≤ (1 - 1 / 10 ^ cut) / 10 ^ (kept + k) := by
        rw [same, moved, ← mul_sub, abs_signOf_mul, ← sub_div, abs_div,
          abs_of_pos (by positivity : (0 : ℚ) < 10 ^ (kept + k))]
        exact div_le_div_of_nonneg_right (abs_roundedOff_sub ..) (by positivity)
      have before : |d.value / 10 ^ k - n.base / 10 ^ k| < 1 / 10 ^ cut / 10 ^ (kept + k) := by
        have apart := div_lt_div_of_pos_right keeps.near (by positivity : (0 : ℚ) < 10 ^ k)
        rw [← sub_div, abs_div, abs_of_pos (by positivity : (0 : ℚ) < 10 ^ k)]
        refine apart.trans_eq ?_
        rw [scale, pow_add, pow_add]
        field_simp
      rw [value, places]
      calc |e.value - n.base / 10 ^ k|
          ≤ |e.value - d.value / 10 ^ k| + |d.value / 10 ^ k - n.base / 10 ^ k| := abs_sub_le ..
        _ < (1 - 1 / 10 ^ cut) / 10 ^ (kept + k) + 1 / 10 ^ cut / 10 ^ (kept + k) :=
            add_lt_add_of_le_of_lt cutOff before
        _ = 1 / 10 ^ (kept + k) := by ring
    · have exact := keeps.exact held
      rw [value, ← exact] at lowered ⊢
      obtain ⟨m, whole⟩ := dvd_of_holds scale (by omega) lowered
      rw [same, moved, whole, roundedOff_mul]
      push_cast
      field_simp

theorem powerOf?_eq_some {k : Nat} (h : powerOf? cs = some k) :
    ∃ plus ds, cs = plus ++ ds ∧ (plus = [] ∨ plus = ['+']) ∧ Digits k ds := by
  unfold powerOf? at h
  split at h
  · exact ⟨['+'], _, rfl, .inr rfl, natOf?_eq_some.mp h⟩
  · exact ⟨[], _, rfl, .inl rfl, natOf?_eq_some.mp h⟩

/-- The number in front of the power is rounded by itself, and then once more by what the power
moves out. -/
theorem ofScientific?_reads (h : ofScientific? cs = some d) :
    ∃ n : Numeral, n.Writes cs ∧ d.Reads n := by
  unfold ofScientific? at h
  have parts := List.takeWhile_append_dropWhile (p := (!isExponentMark ·)) (l := cs)
  have first := List.head?_dropWhile_not (!isExponentMark ·) cs
  generalize cs.takeWhile (!isExponentMark ·) = front at *
  generalize cs.dropWhile (!isExponentMark ·) = back at *
  split at h
  · cases h
  · rename_i mark power
    obtain ⟨base, plain, h⟩ := Option.bind_eq_some_iff.mp h
    have marked : mark = 'e' ∨ mark = 'E' := or_iff_not_imp_left.mpr (by simpa [isExponentMark] using first)
    split at h
    · rename_i power
      obtain ⟨k, digits, moved⟩ := Option.bind_eq_some_iff.mp h
      obtain ⟨plus, ds, rfl, more, digits⟩ := powerOf?_eq_some digits
      obtain ⟨n, exponent, text, keeps⟩ := ofPlain?_keeps plain (-k)
      have sign : PowerSign true ('-' :: plus) := by
        rcases more with rfl | rfl
        · exact .sign .minus
        · exact .minusPlus
      exact ⟨n, ⟨text, exponent ▸ .power marked sign digits, parts.symm⟩,
        lowered?_reads keeps exponent moved⟩
    · obtain ⟨k, digits, moved⟩ := Option.bind_eq_some_iff.mp h
      obtain ⟨plus, ds, rfl, more, digits⟩ := powerOf?_eq_some digits
      obtain ⟨n, exponent, text, keeps⟩ := ofPlain?_keeps plain k
      have sign : PowerSign false plus := by
        rcases more with rfl | rfl
        · exact .sign .none
        · exact .sign .plus
      exact ⟨n, ⟨text, exponent ▸ .power marked sign digits, parts.symm⟩,
        raised?_reads keeps exponent moved⟩

/-- A decimal that is read is within a unit of its last place of the number that is written, and is
that number where decimals hold it and hold what stands in front of its power of ten. -/
theorem ofText?_reads (h : ofText? cs = some d) : ∃ n : Numeral, n.Writes cs ∧ d.Reads n := by
  unfold ofText? at h
  split at h
  · exact ofScientific?_reads h
  · obtain ⟨n, power, text, keeps⟩ := ofPlain?_keeps h 0
    exact ⟨n, ⟨text, power ▸ .none, (List.append_nil cs).symm⟩, keeps.reads power⟩

end EntityFilter.Decimal
