import EntityFilter.Proofs.AllOrNothing
import EntityFilter.Proofs.Clinic
import EntityFilter.Proofs.Quoting
import EntityFilter.Proofs.TextEquality

namespace EntityFilter

open Text Shape

namespace Lexeme

/-- The characters of a bare argument, but with a capital letter for a suffix. -/
def Bare.kept (b : Bare) : List Char :=
  match b.literal.suffix with
  | none => b.taken
  | some s => b.taken.dropLast ++ [s.char]

theorem Bare.kept_ofSplit (s : List Char × List Char) :
    (Bare.ofSplit s).literal.verbatim.toList = (Bare.ofSplit s).kept := by
  simp [Bare.ofSplit, Bare.kept, Literal.ofBare, Literal.verbatim, Literal.suffixText]

/-- Only a number may lose something of its characters: of its suffix no more is kept than which it
is. -/
theorem verbatim_bare {cs : List Char} {b : Bare} (h : bare? cs = some b) :
    b.literal.verbatim = String.ofList b.kept := by
  rw [← String.toList_inj, String.toList_ofList]
  rw [bare?_eq_some] at h
  cases h with
  | date => exact Bare.kept_ofSplit _
  | @number s _ _ =>
    obtain ⟨taken, rest⟩ := s
    rcases suffix_cases rest with ⟨c, x, more, rfl, hx⟩ | off
    · rw [withSuffix_of_suffix taken more hx]
      simp [Bare.kept, suffixed, Literal.ofBare, Literal.verbatim, Literal.suffixText]
    · rw [withSuffix_of_none taken rest off]
      exact Bare.kept_ofSplit _
  | word => exact Bare.kept_ofSplit _

theorem eq_char_of_isUpper {c : Char} {s : Suffix} (h : Suffix.ofChar? c = some s)
    (upper : c.isUpper = true) : c = s.char := by
  unfold Suffix.ofChar? at h
  split at h <;> cases h
  · rfl
  · exact absurd upper (by decide)
  · rfl
  · exact absurd upper (by decide)

/-- Nothing is lost where there is no suffix, or where its letter is a capital one as typed. -/
theorem kept_eq_taken {cs : List Char} {b : Bare} (h : bare? cs = some b)
    (capital : b.literal.suffix = none ∨ ∀ c ∈ b.taken.getLast?, c.isUpper = true) :
    b.kept = b.taken := by
  rw [bare?_eq_some] at h
  cases h with
  | date => rfl
  | @number s _ _ =>
    obtain ⟨taken, rest⟩ := s
    rcases suffix_cases rest with ⟨c, x, more, rfl, hx⟩ | off
    · rw [withSuffix_of_suffix taken more hx] at capital ⊢
      rcases capital with none | upper
      · cases none
      · have same := eq_char_of_isUpper hx (upper c (by simp))
        simp [Bare.kept, suffixed, Literal.ofBare, same]
    · rw [withSuffix_of_none taken rest off]
      rfl
  | word => rfl

/-- No bare argument starts as one in quotes does. -/
theorem not_quote_of_bare {c : Char} {cs : List Char} {b : Bare} (h : bare? (c :: cs) = some b) :
    ¬ (c = '\'' ∨ c = '"') := by
  rintro (rfl | rfl)
  · have none : bare? ('\'' :: cs) = none := rfl
    rw [none] at h
    cases h
  · have none : bare? ('"' :: cs) = none := rfl
    rw [none] at h
    cases h

end Lexeme

open Lexeme

namespace Expression

/-- A selector, a relation and an argument. -/
theorem ofQuery_comparison {query s : String} {r : Relation} {l : Literal}
    (h : Lexes (Lexer.ofQuery query) [.selector s, .relation r, .argument l]) :
    ofQuery query = .ok (.comparison s r l) :=
  ofQuery_eq_ok_iff.mpr ⟨_, h, .single (.single (.comparison s r l)),
    (FitsIn.comparison_iff s r l).mpr (Nat.zero_le _), (by decide : 1 ≤ maxDepth)⟩

end Expression

theorem Lexes.bare {query s : String} {r : Relation} {k : Lexer} {b : Bare}
    (front : Lexer.Prefix (Lexer.ofQuery query) [.selector s, .relation r] k)
    (argument : bare? (trimBlanks k.rest) = some b) (finish : trimBlanks b.rest = []) :
    Lexes (Lexer.ofQuery query) [.selector s, .relation r, .argument b.literal] := by
  have mode : k.mode = .argument := by
    have front : Lexer.Prefix (Lexer.ofQuery query) ([.selector s] ++ [.relation r]) k := front
    exact front.mode_eq
  cases trimmed : trimBlanks k.rest with
  | nil =>
    rw [trimmed] at argument
    cases argument
  | cons c cs =>
    rw [trimmed] at argument
    have read : k.skipBlanks.readToken c cs =
        (.ok (.argument b.literal), k.skipBlanks.past b.taken b.rest .connector) := by
      have skipped : k.skipBlanks.mode = .argument := mode
      simp only [Lexer.readToken, skipped, Lexer.readArgument, if_neg (not_quote_of_bare argument),
        argument]
    have next := Lexer.next_eq_some.mpr ⟨c, cs, trimmed, read⟩
    have ended := (Lexer.next_eq_none (l := k.skipBlanks.past b.taken b.rest .connector)).mpr
      ⟨finish, rfl⟩
    exact Lexes.iff_prefix.mpr ⟨_, _, front.append (.token next (.refl _)), ended⟩

namespace Predicate

/-- What a comparison of a text is compiled to. -/
def textLeaf (policy : Policy) (path : Path) (r : Relation) (text : String) : Predicate :=
  match patternFor? policy path r (.ofQuoted text) with
  | some pattern => .like path pattern (r == .ne)
  | none =>
    if path.isCollectionValued then .contains path (.string text) (r == .ne)
    else .compare path r (.string text)

/-- A pattern is made of the characters alone. -/
theorem patternFor?_verbatim (policy : Policy) (path : Path) (r : Relation) (l : Literal) :
    patternFor? policy path r l = patternFor? policy path r (.ofQuoted l.verbatim) := by
  have same : (Literal.ofQuoted l.verbatim).verbatim = l.verbatim := by
    simp [Literal.ofQuoted, Literal.verbatim, Literal.suffixText]
  have wild : l.hasWildcard = (Literal.ofQuoted l.verbatim).hasWildcard := by
    rw [Bool.eq_iff_iff, Literal.hasWildcard_iff, Literal.hasWildcard_iff, same]
  simp only [patternFor?, LikePattern.ofLiteral?, same, wild]

/-- Where text is compared, what a literal is compiled to hangs on its characters only. -/
theorem leafOf_textLeaf {policy : Policy} {path : Path} {r : Relation} (l : Literal)
    (text : path.target.type = .string)
    (equality : path.isCollectionValued = true → r.isOrdering = false) :
    LeafOf policy path r l (textLeaf policy path r l.verbatim) := by
  have same := patternFor?_verbatim policy path r l
  have read : Value.ofLiteral l path.target.type = .ok (.string l.verbatim) := by rw [text]; rfl
  have plain : path.target.type.isEntity = false := by rw [text]; rfl
  have ordered : path.target.type.isOrdered = true := by rw [text]; rfl
  rw [textLeaf, ← same]
  cases found : patternFor? policy path r l with
  | some pattern =>
    obtain ⟨_, equality, asked⟩ := patternFor?_eq_some found
    exact .like text equality asked
  | none =>
    simp only
    split
    · rename_i collection
      exact .contains collection plain (equality collection) found read
    · rename_i single
      exact .compare (by simpa using single) plain (fun _ => ordered) found read

theorem ofQuery_text {scope : Scope} {query s : String} {r : Relation} {l : Literal} {path : Path}
    (lexes : Lexes (Lexer.ofQuery query) [.selector s, .relation r, .argument l])
    (resolved : Path.resolve scope.graph scope.root scope.policy s = .ok path)
    (text : path.target.type = .string)
    (equality : path.isCollectionValued = true → r.isOrdering = false) :
    ofQuery scope query = .ok (textLeaf scope.policy path r l.verbatim) := by
  have compiled := compile_of_leafOf (c := ⟨s, r, l⟩) resolved (leafOf_textLeaf l text equality)
  rw [← ofExpression_alone] at compiled
  rw [ofQuery, Expression.ofQuery_comparison lexes]
  exact congrArg (Except.mapError CompileError.filter) compiled

/-- Where text is compared, a bare argument is compiled as what is kept of it, and so is that in
quotes. What is kept are its characters, with a capital letter for a suffix. -/
theorem ofQuery_bare_text {scope : Scope} {query s : String} {r : Relation} {k : Lexer} {b : Bare}
    {path : Path} (front : Lexer.Prefix (Lexer.ofQuery query) [.selector s, .relation r] k)
    (argument : bare? (trimBlanks k.rest) = some b) (finish : trimBlanks b.rest = [])
    (resolved : Path.resolve scope.graph scope.root scope.policy s = .ok path)
    (text : path.target.type = .string)
    (equality : path.isCollectionValued = true → r.isOrdering = false) :
    ofQuery scope query = .ok (textLeaf scope.policy path r (String.ofList b.kept)) ∧
      (∀ other, Lexes (Lexer.ofQuery other)
          [.selector s, .relation r, .argument (.ofQuoted (String.ofList b.kept))] →
        ofQuery scope other = ofQuery scope query) ∧
      (b.literal.suffix = none ∨ (∀ c ∈ b.taken.getLast?, c.isUpper = true) → b.kept = b.taken) := by
  have compiled := ofQuery_text (Lexes.bare front argument finish) resolved text equality
  rw [verbatim_bare argument] at compiled
  refine ⟨compiled, fun other quoted => ?_, kept_eq_taken argument⟩
  have same := ofQuery_text quoted resolved text equality
  rw [compiled, same]
  simp [Literal.ofQuoted, Literal.verbatim, Literal.suffixText]

/-- A town that is called like a number, with blanks around it. -/
theorem ofQuery_bare_text_of_clinic :
    let typed : Bare := ⟨⟨"1.5", some .double, false⟩, ['1', '.', '5', 'd'], [' ']⟩
    let city : Path := ⟨[], ⟨"city", .string, .single⟩⟩
    Lexer.Prefix (Lexer.ofQuery "town!= 1.5d ") [.selector "town", .relation .ne]
        ⟨" 1.5d ".toList, 6, .argument⟩ ∧
      bare? (trimBlanks " 1.5d ".toList) = some typed ∧
      Path.resolve Clinic.scope.graph Clinic.scope.root Clinic.scope.policy "town" = .ok city ∧
      ofQuery Clinic.scope "town!= 1.5d " = .ok (.compare city .ne (.string "1.5D")) := by
  intro typed city
  have selector : Lexer.next (Lexer.ofQuery "town!= 1.5d ") =
      (.ok (some (.selector "town")), ⟨"!= 1.5d ".toList, 4, .relation⟩) := by cbv
  have relation : Lexer.next ⟨"!= 1.5d ".toList, 4, .relation⟩ =
      (.ok (some (.relation .ne)), ⟨" 1.5d ".toList, 6, .argument⟩) := by cbv
  have front := Lexer.Prefix.token selector (.token relation (.refl _))
  have argument : bare? (trimBlanks " 1.5d ".toList) = some typed := by cbv
  have resolved : Path.resolve Clinic.scope.graph Clinic.scope.root Clinic.scope.policy "town" =
      .ok city := by decide +kernel
  have leaf : textLeaf Clinic.scope.policy city .ne (String.ofList typed.kept) =
      .compare city .ne (.string "1.5D") := by cbv
  have compiled := (ofQuery_bare_text front argument rfl resolved rfl (by decide)).1
  exact ⟨front, argument, resolved, leaf ▸ compiled⟩

/-- A small suffix makes another town of the one in quotes. -/
theorem bare_text_not_verbatim :
    ofQuery Clinic.scope "town==2l" ≠ ofQuery Clinic.scope "town=='2l'" := by
  have bare : ofQuery Clinic.scope "town==2l" =
      .ok (.compare ⟨[], ⟨"city", .string, .single⟩⟩ .eq (.string "2L")) := by cbv
  have quoted : ofQuery Clinic.scope "town=='2l'" =
      .ok (.compare ⟨[], ⟨"city", .string, .single⟩⟩ .eq (.string "2l")) := by cbv
  rw [bare, quoted]
  decide

end Predicate

end EntityFilter
