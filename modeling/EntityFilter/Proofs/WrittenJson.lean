import Mathlib
import EntityFilter.Json.Outline
import EntityFilter.Json.Printer

namespace EntityFilter

open JsonToken

namespace JsonToken

theorem pieces_close (rest : List Char) : pieces ('"' :: rest) = ([], .closed rest) := by
  rw [pieces.eq_def]
  rfl

theorem pieces_plain {c : Char} (noQuote : c ≠ '"') (noBackslash : c ≠ '\\')
    (printed : ¬ c.toNat < 0x20) (cs : List Char) :
    pieces (c :: cs) = (.char c :: (pieces cs).1, (pieces cs).2) := by
  rw [pieces.eq_def]
  simp [noQuote, noBackslash, printed]

theorem pieces_escape {e d : Char} (stands : unescape? e = some d) (noUnit : e ≠ 'u')
    (cs : List Char) : pieces ('\\' :: e :: cs) = (.char d :: (pieces cs).1, (pieces cs).2) := by
  rw [pieces.eq_def]
  simp [stands, noUnit]

theorem pieces_unit {w x y z : Char} {n : Nat} (unit : codeUnit? w x y z = some n)
    (cs : List Char) : pieces ('\\' :: 'u' :: w :: x :: y :: z :: cs) =
      (.ofCodeUnit n :: (pieces cs).1, (pieces cs).2) := by
  rw [pieces.eq_def]
  simp [unit]

theorem codeUnit?_control : ∀ n < 0x20, codeUnit? '0' '0' (Json.hexDigit (n / 16))
    (Json.hexDigit (n % 16)) = some n := by decide

/-- Every character is read back from what is written for it. -/
theorem pieces_escapeChar (c : Char) (cs : List Char) :
    pieces (Json.escapeChar c ++ cs) = (.char c :: (pieces cs).1, (pieces cs).2) := by
  unfold Json.escapeChar
  split
  iterate 7 exact pieces_escape rfl (by decide) cs
  rename_i noQuote noBackslash _ _ _ _ _
  split
  · rename_i control
    have unit : Piece.ofCodeUnit c.toNat = .char c := by
      have low : ¬ 0xD800 ≤ c.toNat := by omega
      have high : ¬ 0xDC00 ≤ c.toNat := by omega
      simp [Piece.ofCodeUnit, low, high]
    exact unit ▸ pieces_unit (codeUnit?_control c.toNat control) cs
  · rename_i printed
    exact pieces_plain noQuote noBackslash printed cs

theorem pieces_escaped (text rest : List Char) :
    pieces (text.flatMap Json.escapeChar ++ '"' :: rest) = (text.map .char, .closed rest) := by
  induction text with
  | nil => exact pieces_close rest
  | cons c text ih =>
    rw [List.flatMap_cons, List.append_assoc, pieces_escapeChar, ih]
    rfl

theorem joinPieces_chars (unpaired : JsonFault) (text : List Char) :
    joinPieces unpaired (text.map .char) = .ok text := by
  induction text with
  | nil => rfl
  | cons c text ih =>
    rw [List.map_cons, joinPieces, ih]
    rfl

/-- A text in quotes is read to its closing quote. -/
theorem scanString_escaped (s : String) (rest : List Char) :
    scanString (s.toList.flatMap Json.escapeChar ++ '"' :: rest) = (.string (.ok s), rest) := by
  rw [scanString, pieces_escaped]
  simp [joinPieces_chars, Except.map]

end JsonToken

namespace Outline

namespace State

/-- From one state in front of a text the reader comes to another in front of what is left of it. -/
def Passes (s : State) (cs : List Char) (s' : State) (rest : List Char) : Prop :=
  ∀ n, cs.length ≤ n → ∃ m, rest.length ≤ m ∧
    (tokensWithin n cs).foldl step s = (tokensWithin m rest).foldl step s'

namespace Passes

variable {s s' s'' : State} {cs mid rest : List Char}

theorem refl (s : State) (cs : List Char) : Passes s cs s cs := fun n enough => ⟨n, enough, rfl⟩

theorem trans (first : Passes s cs s' mid) (second : Passes s' mid s'' rest) :
    Passes s cs s'' rest := by
  intro n enough
  obtain ⟨m, enough, here⟩ := first n enough
  obtain ⟨k, enough, there⟩ := second m enough
  exact ⟨k, enough, here.trans there⟩

theorem space {c : Char} (blank : isSpace c = true) (s : State) (cs : List Char) :
    Passes s (c :: cs) s cs := by
  intro n enough
  cases n with
  | zero => cases enough
  | succ n =>
    refine ⟨n + 1, Nat.le_of_succ_le enough, ?_⟩
    rw [tokensWithin, tokensWithin, List.dropWhile_cons_of_pos blank]

theorem spaces {ws : List Char} (blank : ∀ c ∈ ws, isSpace c = true) (s : State) (cs : List Char) :
    Passes s (ws ++ cs) s cs := by
  induction ws with
  | nil => exact refl s cs
  | cons c ws ih =>
    exact (space (blank c List.mem_cons_self) s _).trans
      (ih fun d mem => blank d (List.mem_cons_of_mem _ mem))

theorem token {c : Char} {t : JsonToken} (solid : isSpace c = false)
    (scanned : scan c cs = (t, rest)) (shorter : rest.length ≤ cs.length) (s : State) :
    Passes s (c :: cs) (s.step t) rest := by
  intro n enough
  cases n with
  | zero => cases enough
  | succ n =>
    refine ⟨n, shorter.trans (Nat.le_of_succ_le_succ enough), ?_⟩
    have here : (c :: cs).dropWhile isSpace = c :: cs := by simp [solid]
    rw [tokensWithin, here]
    simp [scanned]

/-- One character that is a token by itself. -/
theorem mark {c : Char} {t : JsonToken} (alone : scan c cs = (t, cs)) (solid : isSpace c = false)
    (next : s.step t = s') : Passes s (c :: cs) s' cs :=
  next ▸ token solid alone (Nat.le_refl _) s

theorem quoted (text : String) (s : State) (rest : List Char) :
    Passes s (Json.quote text ++ rest) (s.step (.string (.ok text))) rest := by
  have scanned : scan '"' (text.toList.flatMap Json.escapeChar ++ '"' :: rest) =
      (.string (.ok text), rest) := scanString_escaped text rest
  have shorter : rest.length ≤ (text.toList.flatMap Json.escapeChar ++ '"' :: rest).length := by
    simp only [List.length_append, List.length_cons]
    omega
  have whole := token rfl scanned shorter s
  simpa [Json.quote] using whole

end Passes

end State

/-- Where a value may stand. -/
def Phase.TakesValue (phase : Phase) : Prop := phase = .value ∨ phase = .firstItem ∨ phase = .item

namespace State

variable {phase : Phase} {t : JsonToken} {cs rest : List Char}

theorem step_value (takes : phase.TakesValue) (other : t ≠ .closeArray) (stack : List Frame) :
    step (.reading phase stack) t = stepValue stack t := by
  rcases takes with rfl | rfl | rfl
  · rfl
  · cases t <;> first | rfl | exact absurd rfl other
  · cases t <;> first | rfl | exact absurd rfl other

theorem Passes.value (takes : phase.TakesValue) (other : t ≠ .closeArray) {stack : List Frame}
    (passes : Passes (.reading phase stack) cs (step (.reading phase stack) t) rest) :
    Passes (.reading phase stack) cs (stepValue stack t) rest :=
  step_value takes other stack ▸ passes

end State

end Outline

/-- Nothing but white space. -/
structure Json.Spacing.Blank (sp : Json.Spacing) : Prop where
  line : ∀ depth, ∀ c ∈ sp.line depth, isSpace c = true
  colon : ∀ c ∈ sp.colon, isSpace c = true

theorem Json.Spacing.blank_compact : compact.Blank where
  line _ _ mem := by cases mem
  colon _ mem := by cases mem

theorem Json.Spacing.blank_pretty : pretty.Blank where
  line depth c mem := by
    rcases List.mem_cons.mp mem with rfl | mem
    · rfl
    · rw [List.eq_of_mem_replicate mem]
      rfl
  colon c mem := by
    rw [List.mem_singleton.mp mem]
    rfl

open Outline State

/-- Wherever the value is written, it is read as the outline. -/
def Json.Shows (j : Json) (o : Outline) : Prop :=
  ∀ sp : Json.Spacing, sp.Blank → ∀ depth phase stack rest, phase.TakesValue →
    Passes (.reading phase stack) (j.write sp depth ++ rest) (complete stack o) rest

namespace Json.Shows

theorem string (text : String) : (Json.string text).Shows (.string (.ok text)) := by
  intro sp _ depth phase stack rest takes
  exact Passes.value takes JsonToken.noConfusion (.quoted text _ rest)

theorem bool (b : Bool) : (Json.bool b).Shows (.bool b) := by
  intro sp _ depth phase stack rest takes
  cases b with
  | true =>
    have word : scan 't' ('r' :: 'u' :: 'e' :: rest) = (.bool true, rest) := rfl
    exact Passes.value takes JsonToken.noConfusion (.token rfl word (by simp; omega) _)
  | false =>
    have word : scan 'f' ('a' :: 'l' :: 's' :: 'e' :: rest) = (.bool false, rest) := rfl
    exact Passes.value takes JsonToken.noConfusion (.token rfl word (by simp; omega) _)

section

variable {sp : Json.Spacing} (blank : sp.Blank)

include blank

/-- Behind its first items an array is passed item by item, whatever white space was written between
them. -/
theorem items {js : List Json} {os : List Outline} (each : List.Forall₂ Shows js os) (depth : Nat)
    (read : List Outline) (stack : List Frame) (rest : List Char) :
    Passes (.reading .next (.array read :: stack)) (writeItems sp depth js ++ rest)
      (.reading .next (.array (os.reverse ++ read) :: stack)) rest := by
  induction each generalizing read with
  | nil => exact .refl _ _
  | @cons j o js os first _ ih =>
    have value := first sp blank depth .item (.array read :: stack) (writeItems sp depth js ++ rest)
      (.inr (.inr rfl))
    have comma : Passes (.reading .next (.array read :: stack))
        (',' :: (sp.line depth ++ (j.write sp depth ++ (writeItems sp depth js ++ rest))))
        (.reading .item (.array read :: stack)) _ := .mark rfl rfl rfl
    have whole := comma.trans ((Passes.spaces (blank.line depth) _ _).trans
      (value.trans (ih (o :: read))))
    simpa [writeItems] using whole

theorem member {name : String} {j : Json} {o : Outline} (shown : j.Shows o) (depth : Nat)
    {phase : Phase} (takes : phase = .firstKey ∨ phase = .key)
    (read : List (Except JsonFault String × Outline)) (key : Except JsonFault String)
    (stack : List Frame) (rest : List Char) :
    Passes (.reading phase (.object read key :: stack))
      (quote name ++ ':' :: (sp.colon ++ (j.write sp depth ++ rest)))
      (.reading .next (.object ((.ok name, o) :: read) (.ok name) :: stack)) rest := by
  have named := Passes.quoted name (.reading phase (.object read key :: stack))
    (':' :: (sp.colon ++ (j.write sp depth ++ rest)))
  have waits : (State.reading phase (.object read key :: stack)).step (.string (.ok name)) =
      .reading .colon (.object read (.ok name) :: stack) := by rcases takes with rfl | rfl <;> rfl
  rw [waits] at named
  have colon : Passes (.reading .colon (.object read (.ok name) :: stack))
      (':' :: (sp.colon ++ (j.write sp depth ++ rest)))
      (.reading .value (.object read (.ok name) :: stack)) _ := .mark rfl rfl rfl
  have value := shown sp blank depth .value (.object read (.ok name) :: stack) rest (.inl rfl)
  exact named.trans (colon.trans ((Passes.spaces blank.colon _ _).trans value))

theorem members {fs : List (String × Json)} {ms : List (Except JsonFault String × Outline)}
    (each : List.Forall₂ (fun f m => m.1 = .ok f.1 ∧ f.2.Shows m.2) fs ms) (depth : Nat)
    (read : List (Except JsonFault String × Outline)) (key : Except JsonFault String)
    (stack : List Frame) (rest : List Char) :
    ∃ key', Passes (.reading .next (.object read key :: stack)) (writeFields sp depth fs ++ rest)
      (.reading .next (.object (ms.reverse ++ read) key' :: stack)) rest := by
  induction each generalizing read key with
  | nil => exact ⟨key, .refl _ _⟩
  | @cons f m fs ms first _ ih =>
    obtain ⟨name, j⟩ := f
    obtain ⟨_, o⟩ := m
    obtain ⟨rfl, shown⟩ := first
    obtain ⟨key', others⟩ := ih ((.ok name, o) :: read) (.ok name)
    have comma : Passes (.reading .next (.object read key :: stack))
        (',' :: (sp.line depth ++ (quote name ++ ':' :: (sp.colon ++ (j.write sp depth ++
          (writeFields sp depth fs ++ rest))))))
        (.reading .key (.object read key :: stack)) _ := .mark rfl rfl rfl
    have whole := comma.trans ((Passes.spaces (blank.line depth) _ _).trans
      ((member blank shown depth (.inr rfl) read key stack _).trans others))
    exact ⟨key', by simpa [writeFields] using whole⟩

end

/-- In front of a written array the reader comes to what stands behind it, with its outline read. -/
theorem array {js : List Json} {os : List Outline} (each : List.Forall₂ Shows js os) :
    (Json.array js).Shows (.array os .closed) := by
  intro sp blank depth phase stack rest takes
  cases each with
  | nil =>
    have opens : Passes (.reading phase stack) ('[' :: ']' :: rest)
        (.reading .firstItem (.array [] :: stack)) _ :=
      .mark rfl rfl (step_value takes JsonToken.noConfusion stack)
    have closes : Passes (.reading .firstItem (.array [] :: stack)) (']' :: rest)
        (complete stack (.array [] .closed)) _ := .mark rfl rfl rfl
    exact opens.trans closes
  | @cons j o js os first others =>
    have opens : Passes (.reading phase stack)
        ('[' :: (sp.line (depth + 1) ++ (j.write sp (depth + 1) ++
          (writeItems sp (depth + 1) js ++ (sp.line depth ++ ']' :: rest)))))
        (.reading .firstItem (.array [] :: stack)) _ :=
      .mark rfl rfl (step_value takes JsonToken.noConfusion stack)
    have value := first sp blank (depth + 1) .firstItem (.array [] :: stack)
      (writeItems sp (depth + 1) js ++ (sp.line depth ++ ']' :: rest)) (.inr (.inl rfl))
    have more := items blank others (depth + 1) [o] stack (sp.line depth ++ ']' :: rest)
    have closes : Passes (.reading .next (.array (os.reverse ++ [o]) :: stack)) (']' :: rest)
        (complete stack (.array (o :: os) .closed)) _ :=
      .mark rfl rfl (by simp [State.step, stepNext, closeTop, Frame.close])
    have whole := opens.trans ((Passes.spaces (blank.line (depth + 1)) _ _).trans
      (value.trans (more.trans ((Passes.spaces (blank.line depth) _ _).trans closes))))
    simpa [write] using whole

/-- In front of a written object the reader comes to what stands behind it, with its members read in
the order of the text. -/
theorem object {fs : List (String × Json)} {ms : List (Except JsonFault String × Outline)}
    (each : List.Forall₂ (fun f m => m.1 = .ok f.1 ∧ f.2.Shows m.2) fs ms) :
    (Json.object fs).Shows (.object ms .closed) := by
  intro sp blank depth phase stack rest takes
  cases each with
  | nil =>
    have opens : Passes (.reading phase stack) ('\x7b' :: '\x7d' :: rest)
        (.reading .firstKey (.object [] (.ok "") :: stack)) _ :=
      .mark rfl rfl (step_value takes JsonToken.noConfusion stack)
    have closes : Passes (.reading .firstKey (.object [] (.ok "") :: stack)) ('\x7d' :: rest)
        (complete stack (.object [] .closed)) _ := .mark rfl rfl rfl
    exact opens.trans closes
  | @cons f m fs ms first others =>
    obtain ⟨name, j⟩ := f
    obtain ⟨_, o⟩ := m
    obtain ⟨rfl, shown⟩ := first
    have opens : Passes (.reading phase stack)
        ('\x7b' :: (sp.line (depth + 1) ++ (quote name ++ ':' :: (sp.colon ++
          (j.write sp (depth + 1) ++
            (writeFields sp (depth + 1) fs ++ (sp.line depth ++ '\x7d' :: rest)))))))
        (.reading .firstKey (.object [] (.ok "") :: stack)) _ :=
      .mark rfl rfl (step_value takes JsonToken.noConfusion stack)
    obtain ⟨key, more⟩ := members blank others (depth + 1) [(.ok name, o)] (.ok name) stack
      (sp.line depth ++ '\x7d' :: rest)
    have closes : Passes (.reading .next (.object (ms.reverse ++ [(.ok name, o)]) key :: stack))
        ('\x7d' :: rest) (complete stack (.object ((.ok name, o) :: ms) .closed)) _ :=
      .mark rfl rfl (by simp [State.step, stepNext, closeTop, Frame.close])
    have whole := opens.trans ((Passes.spaces (blank.line (depth + 1)) _ _).trans
      ((member blank shown (depth + 1) (.inl rfl) [] (.ok "") stack _).trans
        (more.trans ((Passes.spaces (blank.line depth) _ _).trans closes))))
    simpa [write] using whole

/-- The outline of a text that was written is that of the value, and nothing follows it. -/
theorem ofText {j : Json} {o : Outline} (shown : j.Shows o) {sp : Json.Spacing} (blank : sp.Blank)
    (depth : Nat) : Outline.ofText (j.write sp depth) = (o, false) := by
  have whole := shown sp blank depth .value [] [] (.inl rfl)
  obtain ⟨m, -, same⟩ := whole _ (Nat.le_refl _)
  rw [List.append_nil] at same
  rw [Outline.ofText, tokens, start, same]
  cases m <;> rfl

end Json.Shows

end EntityFilter
