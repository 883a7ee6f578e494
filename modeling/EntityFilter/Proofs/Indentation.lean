import Mathlib
import EntityFilter.Proofs.WrittenJson

namespace EntityFilter.Json

open JsonToken

/-- A text without the white space outside of quotes. -/
def unspaced : (quoted : Bool) → List Char → List Char
  | _, [] => []
  | true, '\\' :: c :: cs => '\\' :: c :: unspaced true cs
  | true, c :: cs => c :: unspaced (c != '"') cs
  | false, c :: cs => if isSpace c then unspaced false cs else c :: unspaced (c == '"') cs

/-- Neither white space nor the start of a text in quotes. -/
def solid (c : Char) : Bool := !isSpace c && c != '"'

theorem unspaced_space {c : Char} (blank : isSpace c = true) (cs : List Char) :
    unspaced false (c :: cs) = unspaced false cs := by
  rw [unspaced, if_pos blank]

theorem unspaced_solid {c : Char} (here : solid c = true) (cs : List Char) :
    unspaced false (c :: cs) = c :: unspaced false cs := by
  obtain ⟨dark, plain⟩ := (Bool.and_eq_true_iff).mp here
  have outside : (c == '"') = false := by simpa using plain
  rw [unspaced, if_neg (by simpa using dark), outside]

theorem unspaced_spaces {ws : List Char} (blank : ∀ c ∈ ws, isSpace c = true) (cs : List Char) :
    unspaced false (ws ++ cs) = unspaced false cs := by
  induction ws with
  | nil => rfl
  | cons c ws ih =>
    rw [List.cons_append, unspaced_space (blank c List.mem_cons_self)]
    exact ih fun d mem => blank d (List.mem_cons_of_mem c mem)

theorem unspaced_solids {ds : List Char} (all : ds.all solid = true) (cs : List Char) :
    unspaced false (ds ++ cs) = ds ++ unspaced false cs := by
  induction ds with
  | nil => rfl
  | cons c ds ih =>
    obtain ⟨here, others⟩ := Bool.and_eq_true_iff.mp all
    rw [List.cons_append, unspaced_solid here, ih others, List.cons_append]

theorem unspaced_plain {c : Char} (noQuote : c ≠ '"') (noBackslash : c ≠ '\\') (cs : List Char) :
    unspaced true (c :: cs) = c :: unspaced true cs := by
  have inside : (c != '"') = true := by simpa using noQuote
  rw [unspaced.eq_def]
  simp [noBackslash, inside]

theorem hexDigit_plain : ∀ n < 16, hexDigit n ≠ '"' ∧ hexDigit n ≠ '\\' := by decide

theorem unspaced_escapeChar (c : Char) (cs : List Char) :
    unspaced true (escapeChar c ++ cs) = escapeChar c ++ unspaced true cs := by
  unfold escapeChar
  split
  iterate 7 rfl
  rename_i noQuote noBackslash _ _ _ _ _
  split
  · rename_i control
    have high := hexDigit_plain (c.toNat / 16) (by omega)
    have low := hexDigit_plain (c.toNat % 16) (by omega)
    have unit : unspaced true
        ('0' :: '0' :: hexDigit (c.toNat / 16) :: hexDigit (c.toNat % 16) :: cs) =
          '0' :: '0' :: hexDigit (c.toNat / 16) :: hexDigit (c.toNat % 16) :: unspaced true cs := by
      rw [unspaced_plain (by decide) (by decide), unspaced_plain (by decide) (by decide),
        unspaced_plain high.1 high.2, unspaced_plain low.1 low.2]
    exact congrArg ('\\' :: 'u' :: ·) unit
  · exact unspaced_plain noQuote noBackslash cs

/-- In quotes nothing is left out, and the closing quote is found as a reader finds it: behind a
backslash there is always one character of the text. -/
theorem unspaced_quote (s : String) (cs : List Char) :
    unspaced false (quote s ++ cs) = quote s ++ unspaced false cs := by
  have inside : ∀ text : List Char, unspaced true (text.flatMap escapeChar ++ '"' :: cs) =
      text.flatMap escapeChar ++ '"' :: unspaced false cs := by
    intro text
    induction text with
    | nil => rfl
    | cons c text ih =>
      rw [List.flatMap_cons, List.append_assoc, unspaced_escapeChar, ih, List.append_assoc]
  have whole : unspaced false ('"' :: (s.toList.flatMap escapeChar ++ '"' :: cs)) =
      '"' :: (s.toList.flatMap escapeChar ++ '"' :: unspaced false cs) :=
    congrArg ('"' :: ·) (inside s.toList)
  simpa only [quote, List.append_assoc, List.cons_append, List.nil_append] using whole

theorem solid_digit {c : Char} (digit : c.isDigit = true) : solid c = true := by
  have dark : isSpace c = false := by
    rw [Bool.eq_false_iff]
    intro blank
    simp only [isSpace, Bool.or_eq_true, beq_iff_eq] at blank
    rcases blank with ((rfl | rfl) | rfl) | rfl <;> cases digit
  have plain : c ≠ '"' := by
    rintro rfl
    cases digit
  simp [solid, dark, plain]

theorem all_solid_nat (n : Nat) : (toString n).toList.all solid = true := by
  refine List.all_eq_true.mpr fun c mem => ?_
  rw [Nat.toString_eq_repr, Nat.toList_repr] at mem
  exact solid_digit (Nat.isDigit_of_mem_toDigits (by decide) (by decide) mem)

theorem all_solid_int (n : Int) : (toString n).toList.all solid = true := by
  cases n with
  | ofNat n => exact all_solid_nat n
  | negSucc n =>
    have whole : (toString (Int.negSucc n)).toList = '-' :: (toString (n + 1)).toList := by
      simp [Int.repr]
    rw [whole, List.all_cons, all_solid_nat]
    rfl

section

variable {ds : List Char} (all : ds.all solid = true)

include all

theorem all_solid_of_sublist {es : List Char} (part : es.Sublist ds) : es.all solid = true :=
  List.all_eq_true.mpr fun c mem => List.all_eq_true.mp all c (part.mem mem)

theorem all_solid_dropLastZeros : (Double.dropLastZeros ds).all solid = true := by
  refine all_solid_of_sublist all ?_
  have front := (List.dropWhile_sublist (· == '0') (l := ds.reverse)).reverse
  rwa [List.reverse_reverse] at front

theorem all_solid_placed (e : Int) : (Double.placed ds e).all solid = true := by
  have zeros : ∀ n, (List.replicate n '0').all solid = true := fun n =>
    List.all_eq_true.mpr fun c mem => List.eq_of_mem_replicate mem ▸ rfl
  unfold Double.placed
  split
  · rw [List.all_cons, List.all_cons, List.all_append, zeros, all]
    rfl
  · dsimp only
    rw [List.all_append, List.all_append, List.all_cons, zeros,
      all_solid_of_sublist all (List.take_sublist _ ds)]
    split
    · rfl
    · rw [all_solid_of_sublist all (List.drop_sublist _ ds)]
      rfl

theorem all_solid_withExponent (plus : Bool) (e : Int) :
    (Double.withExponent plus ds e).all solid = true := by
  unfold Double.withExponent
  rw [List.all_append, List.all_append, List.all_cons, List.all_append, all_solid_int,
    all_solid_of_sublist all (List.take_sublist 1 ds)]
  have fraction : (if ds.length ≤ 1 then [] else '.' :: ds.drop 1).all solid = true := by
    split
    · rfl
    · rw [List.all_cons, all_solid_of_sublist all (List.drop_sublist 1 ds)]
      rfl
  rw [fraction]
  split <;> rfl

end

/-- Numbers are written without white space. -/
theorem all_solid_magnitudeText (layout : DoubleLayout) (m : Nat) :
    (Double.magnitudeText layout m).all solid = true := by
  unfold Double.magnitudeText
  split
  · rfl
  · dsimp only
    have digits := all_solid_dropLastZeros (all_solid_nat (Double.shortest layout.tie m).1)
    split
    · exact all_solid_placed digits _
    · exact all_solid_withExponent digits _ _

theorem all_solid_double (layout : DoubleLayout) (x : Double) :
    (x.text layout).toList.all solid = true := by
  unfold Double.text
  split
  · decide
  · have body : (if x.isFinite then Double.magnitudeText layout x.magnitude
        else ['i', 'n', 'f']).all solid = true := by
      split
      · exact all_solid_magnitudeText layout _
      · rfl
    dsimp only
    rw [String.toList_ofList]
    split
    · rw [List.all_cons, body]
      rfl
    · exact body

theorem all_solid_number (n : JsonNumber) : n.text.toList.all solid = true := by
  cases n with
  | integer n => exact all_solid_int n
  | double x => exact all_solid_double _ x

section

variable {sp : Spacing} (blank : sp.Blank)

include blank

mutual

/-- However a value is laid out, its texts differ in nothing but white space outside of quotes. -/
theorem unspaced_write : ∀ (j : Json) (depth : Nat) (cs : List Char),
    unspaced false (j.write sp depth ++ cs) = j.write .compact depth ++ unspaced false cs
  | .null, _, cs => @unspaced_solids ['n', 'u', 'l', 'l'] rfl cs
  | .bool true, _, cs => @unspaced_solids ['t', 'r', 'u', 'e'] rfl cs
  | .bool false, _, cs => @unspaced_solids ['f', 'a', 'l', 's', 'e'] rfl cs
  | .number n, _, cs => unspaced_solids (all_solid_number n) cs
  | .string s, _, cs => unspaced_quote s cs
  | .array [], _, cs => @unspaced_solids ['[', ']'] rfl cs
  | .array (x :: xs), depth, cs => by
    simp only [write, List.append_assoc, List.cons_append]
    rw [unspaced_solid rfl, unspaced_spaces (blank.line (depth + 1)), unspaced_write x,
      unspaced_items xs, unspaced_spaces (blank.line depth), unspaced_solid rfl]
    rfl
  | .object [], _, cs => @unspaced_solids ['\x7b', '\x7d'] rfl cs
  | .object ((name, x) :: fs), depth, cs => by
    simp only [write, List.append_assoc, List.cons_append]
    rw [unspaced_solid rfl, unspaced_spaces (blank.line (depth + 1)), unspaced_quote,
      unspaced_solid rfl, unspaced_spaces blank.colon, unspaced_write x, unspaced_fields fs,
      unspaced_spaces (blank.line depth), unspaced_solid rfl]
    rfl

theorem unspaced_items : ∀ (xs : List Json) (depth : Nat) (cs : List Char),
    unspaced false (writeItems sp depth xs ++ cs) =
      writeItems .compact depth xs ++ unspaced false cs
  | [], _, _ => rfl
  | x :: xs, depth, cs => by
    simp only [writeItems, List.append_assoc, List.cons_append]
    rw [unspaced_solid rfl, unspaced_spaces (blank.line depth), unspaced_write x, unspaced_items xs]
    rfl

theorem unspaced_fields : ∀ (fs : List (String × Json)) (depth : Nat) (cs : List Char),
    unspaced false (writeFields sp depth fs ++ cs) =
      writeFields .compact depth fs ++ unspaced false cs
  | [], _, _ => rfl
  | (name, x) :: fs, depth, cs => by
    simp only [writeFields, List.append_assoc, List.cons_append]
    rw [unspaced_solid rfl, unspaced_spaces (blank.line depth), unspaced_quote, unspaced_solid rfl,
      unspaced_spaces blank.colon, unspaced_write x, unspaced_fields fs]
    rfl

end

end

end EntityFilter.Json
