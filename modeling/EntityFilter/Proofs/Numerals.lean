import Mathlib
import EntityFilter.Number.Decimal

namespace EntityFilter

namespace Text

/-- Where two texts both stop belonging to a class for the first time, they are parted alike. -/
theorem parts_unique {p : Char → Bool} {a b r s : List Char} (ha : ∀ c ∈ a, p c = true)
    (hb : ∀ c ∈ b, p c = true) (hr : ∀ c ∈ r.head?, p c = false) (hs : ∀ c ∈ s.head?, p c = false)
    (h : a ++ r = b ++ s) : a = b ∧ r = s := by
  have stops : ∀ {t : List Char}, (∀ c ∈ t.head?, p c = false) → t.takeWhile p = [] := by
    intro t ht
    cases t with
    | nil => rfl
    | cons c t => simp [ht c rfl]
  have taken := congrArg (List.takeWhile p) h
  rw [List.takeWhile_append_of_pos ha, List.takeWhile_append_of_pos hb, stops hr, stops hs,
    List.append_nil, List.append_nil] at taken
  exact ⟨taken, List.append_cancel_left (taken ▸ h)⟩

theorem digitValue_le {c : Char} (h : c.isDigit = true) : digitValue c ≤ 9 := by
  simp only [Char.isDigit, Bool.and_eq_true, decide_eq_true_eq, UInt32.le_iff_toNat_le] at h
  have bounds : 48 ≤ c.toNat ∧ c.toNat ≤ 57 := h
  have zero : '0'.toNat = 48 := rfl
  unfold digitValue
  omega

theorem placeValue_eq (n : Nat) : placeValue n = 10 ^ n := rfl

theorem natOfDigits_cons (c : Char) (ds : List Char) :
    natOfDigits (c :: ds) = digitValue c * 10 ^ ds.length + natOfDigits ds := by
  rw [← List.singleton_append, natOfDigits_append, placeValue_eq]
  simp [natOfDigits]

/-- One or more digits, and the number that they write. -/
structure Digits (n : Nat) (ds : List Char) : Prop where
  nonempty : ds ≠ []
  digits : ∀ c ∈ ds, c.isDigit = true
  value : natOfDigits ds = n

theorem natOf?_eq_some {cs : List Char} {n : Nat} : natOf? cs = some n ↔ Digits n cs := by
  simp only [natOf?, Option.ite_none_right_eq_some, Option.some.injEq, List.all_eq_true]
  exact ⟨fun ⟨⟨h, all⟩, value⟩ => ⟨h, all, value⟩, fun ⟨h, all, value⟩ => ⟨⟨h, all⟩, value⟩⟩

/-- What digits count for behind a point, where marks between them count for nothing. -/
def fractionOf : List Char → ℚ
  | [] => 0
  | c :: cs => if c.isDigit then (digitValue c + fractionOf cs) / 10 else fractionOf cs

theorem fractionOf_digit {c : Char} (h : c.isDigit = true) (cs : List Char) :
    fractionOf (c :: cs) = (digitValue c + fractionOf cs) / 10 := by
  rw [fractionOf, if_pos h]

theorem fractionOf_nonneg (cs : List Char) : 0 ≤ fractionOf cs := by
  induction cs with
  | nil => exact le_refl 0
  | cons c cs ih =>
    unfold fractionOf
    split
    · positivity
    · exact ih

/-- Digits behind a point make less than one. -/
theorem fractionOf_lt_one (cs : List Char) : fractionOf cs < 1 := by
  induction cs with
  | nil => exact zero_lt_one
  | cons c cs ih =>
    unfold fractionOf
    split
    · rename_i digit
      have nine : (digitValue c : ℚ) ≤ 9 := mod_cast digitValue_le digit
      linarith
    · exact ih

/-- Behind a point digits are the number they write in front of it, moved by as many places. -/
theorem fractionOf_eq {ds : List Char} (h : ∀ c ∈ ds, c.isDigit = true) :
    fractionOf ds = natOfDigits ds / 10 ^ ds.length := by
  induction ds with
  | nil => simp [fractionOf, natOfDigits]
  | cons c ds ih =>
    obtain ⟨digit, rest⟩ := List.forall_mem_cons.mp h
    rw [fractionOf_digit digit, ih rest, natOfDigits_cons, List.length_cons, pow_succ]
    push_cast
    field_simp

/-- The digits up to a place make the whole number below what the fraction is worth there. -/
theorem floor_fractionOf {ds : List Char} (h : ∀ c ∈ ds, c.isDigit = true) (k : Nat) :
    ⌊fractionOf ds * 10 ^ k⌋ = natOfDigits (ds.take k) * 10 ^ (k - (ds.take k).length) := by
  induction k generalizing ds with
  | zero =>
    rw [pow_zero, mul_one, Int.floor_eq_iff]
    exact ⟨by simpa [natOfDigits] using fractionOf_nonneg ds,
      by simpa [natOfDigits] using fractionOf_lt_one ds⟩
  | succ k ih =>
    cases ds with
    | nil => simp [fractionOf, natOfDigits]
    | cons c ds =>
      obtain ⟨digit, rest⟩ := List.forall_mem_cons.mp h
      have shift : fractionOf (c :: ds) * 10 ^ (k + 1) =
          ((digitValue c * 10 ^ k : Nat) : ℚ) + fractionOf ds * 10 ^ k := by
        rw [fractionOf_digit digit]
        push_cast
        ring
      have short : (ds.take k).length ≤ k := List.length_take_le _ _
      have places : (10 : Int) ^ k = 10 ^ (ds.take k).length * 10 ^ (k - (ds.take k).length) := by
        rw [← pow_add, Nat.add_sub_cancel' short]
      rw [shift, Int.floor_natCast_add, ih rest, List.take_succ_cons, natOfDigits_cons,
        List.length_cons, Nat.add_sub_add_right]
      push_cast
      rw [places]
      ring

end Text

open Text

/-- A number before it is read. -/
structure Numeral where
  negative : Bool
  whole : List Char
  fraction : List Char
  power : Int

namespace Numeral

def signOf (negative : Bool) : ℚ := if negative then -1 else 1

/-- The number without its power of ten. -/
def base (n : Numeral) : ℚ :=
  signOf n.negative * (natOfDigits (n.whole.filter Char.isDigit) + fractionOf n.fraction)

def value (n : Numeral) : ℚ := n.base * 10 ^ n.power

inductive SignText : Bool → List Char → Prop where
  | none : SignText false []
  | plus : SignText false ['+']
  | minus : SignText true ['-']

/-- A minus in front of a power may have a plus behind it. -/
inductive PowerSign : Bool → List Char → Prop where
  | sign {negative : Bool} {cs : List Char} (h : SignText negative cs) : PowerSign negative cs
  | minusPlus : PowerSign true ['-', '+']

def isSign (c : Char) : Bool := c == '+' || c == '-'

def isDigitOrMark (c : Char) : Bool := c.isDigit || c == '_'

/-- Digits that marks may part, but not before the first of them. -/
structure IsRun (cs : List Char) : Prop where
  head : ∃ c ∈ cs.head?, c.isDigit = true
  all : ∀ c ∈ cs, isDigitOrMark c = true

inductive FractionText : List Char → List Char → Prop where
  | none : FractionText [] []
  | point (ds : List Char) : FractionText ds ('.' :: ds)

/-- A sign and digits, with a point before, between or behind these. -/
inductive BaseText (n : Numeral) (cs : List Char) : Prop where
  | intro {sign back : List Char} (signed : SignText n.negative sign)
    (run : IsRun (n.whole ++ n.fraction)) (fraction : FractionText n.fraction back)
    (parts : cs = sign ++ (n.whole ++ back))

inductive PowerText : Int → List Char → Prop where
  | none : PowerText 0 []
  | power {mark : Char} {negative : Bool} {n : Nat} {sign ds : List Char}
    (marked : mark = 'e' ∨ mark = 'E') (signed : PowerSign negative sign) (digits : Digits n ds) :
    PowerText (if negative then -n else n) (mark :: (sign ++ ds))

/-- The text is that of the number. -/
inductive Writes (n : Numeral) (cs : List Char) : Prop where
  | intro {front back : List Char} (base : BaseText n front) (power : PowerText n.power back)
    (parts : cs = front ++ back)

end Numeral

namespace Text.Digits

variable {n m : Nat} {a b r s : List Char}

/-- Digits end where no digit follows, so a text starts with one number. -/
theorem unique (ha : Digits n a) (hb : Digits m b) (hr : ∀ c ∈ r.head?, c.isDigit = false)
    (hs : ∀ c ∈ s.head?, c.isDigit = false) (h : a ++ r = b ++ s) : n = m ∧ r = s := by
  obtain ⟨rfl, rest⟩ := parts_unique ha.digits hb.digits hr hs h
  exact ⟨ha.value.symm.trans hb.value, rest⟩

theorem head (h : Digits n a) (r : List Char) : ∀ c ∈ (a ++ r).head?, c.isDigit = true := by
  intro c hc
  cases a with
  | nil => exact absurd rfl h.nonempty
  | cons d ds =>
    cases hc
    exact h.digits _ List.mem_cons_self

end Text.Digits

namespace Numeral

variable {n m : Numeral} {a b r s : List Char}

theorem SignText.all {x : Bool} (h : SignText x a) : ∀ c ∈ a, isSign c = true := by
  cases h <;> simp [isSign]

theorem SignText.functional {x y : Bool} (hx : SignText x a) (hy : SignText y a) : x = y := by
  cases hx <;> cases hy <;> rfl

theorem PowerSign.all {x : Bool} (h : PowerSign x a) : ∀ c ∈ a, isSign c = true := by
  cases h with
  | sign h => exact h.all
  | minusPlus => simp [isSign]

theorem PowerSign.functional {x y : Bool} (hx : PowerSign x a) (hy : PowerSign y a) : x = y := by
  cases hx with
  | sign hx =>
    cases hy with
    | sign hy => exact hx.functional hy
    | minusPlus => cases hx
  | minusPlus =>
    cases hy with
    | sign hy => cases hy
    | minusPlus => rfl

theorem isSign_of_isDigit {c : Char} (h : c.isDigit = true) : isSign c = false := by
  by_contra sign
  rw [Bool.not_eq_false, isSign, Bool.or_eq_true, beq_iff_eq, beq_iff_eq] at sign
  rcases sign with rfl | rfl <;> exact absurd h (by decide)

/-- Behind a sign stands a digit, or a point in front of one. -/
theorem IsRun.not_sign {w f t : List Char} (run : IsRun (w ++ f)) (fraction : FractionText f t)
    (r : List Char) : ∀ c ∈ (w ++ (t ++ r)).head?, isSign c = false := by
  intro c hc
  obtain ⟨d, hd, digit⟩ := run.head
  cases w with
  | cons e w =>
    cases hd
    cases hc
    exact isSign_of_isDigit digit
  | nil =>
    cases fraction with
    | none => cases hd
    | point =>
      cases hc
      decide

/-- Neither the digits nor a point go on. -/
def Ends (r : List Char) : Prop := ∀ c ∈ r.head?, isDigitOrMark c = false ∧ c ≠ '.'

theorem FractionText.stops {f t : List Char} (h : FractionText f t) (hr : Ends r) :
    ∀ c ∈ (t ++ r).head?, isDigitOrMark c = false := by
  intro c hc
  cases h with
  | none => exact (hr c hc).1
  | point =>
    cases hc
    decide

theorem FractionText.unique {f g t u : List Char} (ht : FractionText f t) (hu : FractionText g u)
    (hf : ∀ c ∈ f, isDigitOrMark c = true) (hg : ∀ c ∈ g, isDigitOrMark c = true) (hr : Ends r)
    (hs : Ends s) (h : t ++ r = u ++ s) : f = g ∧ r = s := by
  cases ht <;> cases hu
  case none.none => exact ⟨rfl, h⟩
  case none.point => exact absurd rfl (hr '.' (congrArg List.head? h)).2
  case point.none => exact absurd rfl (hs '.' (congrArg List.head? h.symm)).2
  case point.point =>
    exact parts_unique hf hg (fun c hc => (hr c hc).1) (fun c hc => (hs c hc).1) (List.cons.inj h).2

/-- Sign, whole part and fraction are told apart by what they begin with. -/
theorem BaseText.unique (hn : BaseText n a) (hm : BaseText m b) (hr : Ends r) (hs : Ends s)
    (h : a ++ r = b ++ s) :
    n.negative = m.negative ∧ n.whole = m.whole ∧ n.fraction = m.fraction ∧ r = s := by
  obtain ⟨signed, run, fraction, parts⟩ := hn
  obtain ⟨signed', run', fraction', parts'⟩ := hm
  have all := List.forall_mem_append.mp run.all
  have all' := List.forall_mem_append.mp run'.all
  rw [parts, parts', List.append_assoc, List.append_assoc, List.append_assoc, List.append_assoc] at h
  obtain ⟨rfl, behind⟩ := parts_unique signed.all signed'.all (run.not_sign fraction r)
    (run'.not_sign fraction' s) h
  obtain ⟨whole, behind⟩ :=
    parts_unique all.1 all'.1 (fraction.stops hr) (fraction'.stops hs) behind
  obtain ⟨part, rest⟩ := fraction.unique fraction' all.2 all'.2 hr hs behind
  exact ⟨signed.functional signed', whole, part, rest⟩

theorem PowerText.ends {p : Int} (h : PowerText p a) : Ends a := by
  intro c hc
  cases h with
  | none => cases hc
  | power marked =>
    cases hc
    rcases marked with rfl | rfl <;> decide

theorem PowerText.unique {p q : Int} (hp : PowerText p a) (hq : PowerText q a) : p = q := by
  cases hp with
  | none => cases hq; rfl
  | @power mark negative n sign ds marked signed digits =>
    generalize same : mark :: (sign ++ ds) = b at hq
    cases hq with
    | none => cases same
    | @power mark' negative' n' sign' ds' marked' signed' digits' =>
      have not_sign : ∀ {k : Nat} {es : List Char}, Digits k es →
          ∀ c ∈ es.head?, isSign c = false := by
        intro k es he c hc
        exact isSign_of_isDigit (he.head [] c (by simpa using hc))
      obtain ⟨rfl, rfl⟩ := parts_unique signed.all signed'.all (not_sign digits) (not_sign digits')
        (List.cons.inj same).2
      rw [signed.functional signed', ← digits.value, ← digits'.value]

/-- A text writes one number at most. -/
theorem Writes.unique (hn : Writes n a) (hm : Writes m a) : n = m := by
  obtain ⟨base, power, parts⟩ := hn
  obtain ⟨base', power', parts'⟩ := hm
  obtain ⟨sign, whole, fraction, rfl⟩ :=
    base.unique base' power.ends power'.ends (parts.symm.trans parts')
  have powers := power.unique power'
  cases n
  cases m
  simp_all

end Numeral

end EntityFilter
