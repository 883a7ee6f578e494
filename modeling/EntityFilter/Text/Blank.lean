namespace EntityFilter.Text

/-- The code points of the Unicode property `White_Space`. -/
def blanks : List Nat :=
  [0x9, 0xA, 0xB, 0xC, 0xD, 0x20, 0x85, 0xA0, 0x1680, 0x2000, 0x2001, 0x2002, 0x2003, 0x2004,
    0x2005, 0x2006, 0x2007, 0x2008, 0x2009, 0x200A, 0x2028, 0x2029, 0x202F, 0x205F, 0x3000]

/-- What may stand between two tokens of a filter, and before a number inside a date. -/
def isBlank (c : Char) : Bool := blanks.contains c.toNat

def trimBlanks (cs : List Char) : List Char := cs.dropWhile isBlank

def blankChars : List Char := blanks.map Char.ofNat

theorem mem_blankChars {c : Char} (h : isBlank c) : c ∈ blankChars := by
  have found : c.toNat ∈ blanks := List.contains_iff_mem.mp h
  exact Char.ofNat_toNat c ▸ List.mem_map_of_mem found

theorem off_of_isBlank {p : Char → Bool} (hp : blankChars.any p = false) {c : Char}
    (h : isBlank c) : p c = false := by
  simpa using List.any_eq_false.mp hp c (mem_blankChars h)

theorem trimBlanks_cons_of_not_blank {c : Char} (cs : List Char) (h : ¬ isBlank c) :
    trimBlanks (c :: cs) = c :: cs := by
  simp [trimBlanks, h]

end EntityFilter.Text
