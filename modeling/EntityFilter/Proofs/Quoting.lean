import EntityFilter.Proofs.Continuation

namespace EntityFilter

namespace Expression

/-- The trees are the same but for the literal of the comparison that has `n` others to its left. -/
inductive DiffersAt (l l' : Literal) : Nat → Expression → Expression → Prop where
  | here (s : String) (r : Relation) :
    DiffersAt l l' 0 (.comparison s r l) (.comparison s r l')
  | left {n : Nat} {a a' : Expression} (c : Connector) (b : Expression) (h : DiffersAt l l' n a a') :
    DiffersAt l l' n (.joined c a b) (.joined c a' b)
  | right {n : Nat} {b b' : Expression} (c : Connector) (a : Expression)
    (h : DiffersAt l l' n b b') :
    DiffersAt l l' (a.leaves.length + n) (.joined c a b) (.joined c a b')

theorem DiffersAt.height_eq {l l' : Literal} {n : Nat} {e e' : Expression}
    (h : DiffersAt l l' n e e') : e'.height = e.height := by
  induction h with
  | here => rfl
  | left c b _ ih => rw [height, height, ih]
  | right c a _ ih => rw [height, height, ih]

end Expression

def Token.isArgument : Token → Bool
  | argument _ => true
  | _ => false

namespace Derives

variable {phrase : Phrase} {ts us : List Token} {e : Expression}

/-- A phrase has an argument for each of its comparisons. -/
theorem countP_isArgument (h : Derives phrase ts e) : ts.countP Token.isArgument = e.leaves.length := by
  induction h with
  | comparison s r l => rfl
  | group _ ih => simpa [Token.isArgument] using ih
  | single _ ih => exact ih
  | join _ _ _ left right => simp [Token.isArgument, Expression.leaves, left, right]

/-- Any argument can stand in the place of another. -/
theorem exchange {l : Literal} (h : Derives phrase (ts ++ .argument l :: us) e) (l' : Literal) :
    ∃ e', Derives phrase (ts ++ .argument l' :: us) e' ∧
      Expression.DiffersAt l l' (ts.countP Token.isArgument) e e' := by
  generalize same : ts ++ .argument l :: us = all at h
  induction h generalizing ts us with
  | comparison s r x =>
    obtain ⟨rfl, rfl, rfl⟩ : ts = [.selector s, .relation r] ∧ us = [] ∧ x = l := by
      rcases ts with _ | ⟨_, _ | ⟨_, _ | ⟨_, ts⟩⟩⟩ <;> simp_all
    exact ⟨_, .comparison s r l', .here s r⟩
  | @group inside e inner ih =>
    cases ts with
    | nil => cases same
    | cons t ts =>
      obtain ⟨rfl, rest⟩ := List.cons.inj same
      -- What ends the group is no argument, so this one stands inside.
      rcases List.eq_nil_or_concat us with rfl | ⟨us, x, rfl⟩
      · have last := congrArg List.getLast? rest
        simp at last
      · have ends : (ts ++ .argument l :: us) ++ [x] = inside ++ [.closing] := by simpa using rest
        obtain ⟨shorter, last⟩ := List.append_inj' ends rfl
        obtain ⟨e', inner', differs⟩ := ih shorter
        cases last
        refine ⟨e', ?_, by simpa [Token.isArgument] using differs⟩
        simpa using Derives.group inner'
  | single _ ih =>
    obtain ⟨e', part, differs⟩ := ih same
    exact ⟨e', .single part, differs⟩
  | @join tight c before behind a b strength left right ihl ihr =>
    rcases List.append_eq_append_iff.mp same with ⟨between, rfl, rest⟩ | ⟨between, rfl, rest⟩
    · -- The argument stands in the left part.
      cases between with
      | nil => cases rest
      | cons t between =>
        obtain ⟨rfl, rfl⟩ := List.cons.inj rest
        obtain ⟨a', left', differs⟩ := ihl rfl
        refine ⟨_, ?_, .left c b differs⟩
        simpa using Derives.join strength left' right
    · cases between with
      | nil => cases rest
      | cons t between =>
        obtain ⟨rfl, rfl⟩ := List.cons.inj rest
        obtain ⟨b', right', differs⟩ := ihr rfl
        refine ⟨.joined c a b', ?_, ?_⟩
        · simpa using Derives.join strength left right'
        · have count := left.countP_isArgument
          simpa [Token.isArgument, count] using Expression.DiffersAt.right c a differs

end Derives

theorem openGroups_exchange (ps us : List Token) (l l' : Literal) :
    openGroups (ps ++ .argument l :: us) = openGroups (ps ++ .argument l' :: us) := by
  simp [openGroups, List.count_append]

theorem FitsIn.exchange {n : Nat} {ts us : List Token} {l : Literal}
    (h : FitsIn n (ts ++ .argument l :: us)) (l' : Literal) : FitsIn n (ts ++ .argument l' :: us) := by
  intro ps hp
  rcases prefix_of_prefix_append hp with hp | ⟨qs, rfl, hq⟩
  · exact h ps (hp.trans (List.prefix_append _ _))
  · rcases List.prefix_cons_iff.mp hq with rfl | ⟨rs, rfl, hr⟩
    · exact h _ (by simp)
    · rw [← openGroups_exchange ts rs l l']
      exact h _ (by simpa using hr)

/-- The text in quotes, between two parts of a query. -/
def quotedBetween (pre post text : String) : String :=
  pre ++ (Literal.ofQuoted text).display ++ post

section

variable {pre : String} {ts : List Token} {r : Relation}

/-- The text is read as one argument, and the lexer is then in front of what follows it. -/
theorem Lexes.prefix_quoted (h : Lexes (Lexer.ofQuery pre) (ts ++ [.relation r]))
    (post text : String) :
    Lexer.Prefix (Lexer.ofQuery (quotedBetween pre post text))
      (ts ++ [.relation r, .argument (.ofQuoted text)])
      ⟨post.toList, (pre ++ (Literal.ofQuoted text).display).utf8ByteSize, .connector⟩ := by
  have whole : Lexer.ofQuery (quotedBetween pre post text) =
      (Lexer.ofQuery pre).followed ((Literal.ofQuoted text).chars ++ post.toList) := by
    simp [Lexer.ofQuery, Lexer.followed, quotedBetween, Literal.display]
  have fenced : Fenced ((Literal.ofQuoted text).chars ++ post.toList) := by
    intro c hc
    cases hc
    decide
  obtain ⟨l, front, next⟩ := h.followed fenced
  obtain ⟨offset, argument⟩ := Lexer.reads_quoted text post.toList (Lexer.ofQuery pre).finish
  have all := front.append (.token (next.trans argument) (.refl _))
  rw [← whole] at all
  have finish : offset + post.utf8ByteSize = (quotedBetween pre post text).utf8ByteSize := by
    simpa [Lexer.finish, Lexer.ofQuery, Text.byteLength_toList] using all.finish_eq
  have start : offset = (pre ++ (Literal.ofQuoted text).display).utf8ByteSize := by
    rw [quotedBetween, String.utf8ByteSize_append] at finish
    omega
  rw [← start]
  simpa using all

/-- Another text in the quotes changes neither what is read around it nor the rest of the tree. -/
theorem Lexes.ofQuery_exchange (h : Lexes (Lexer.ofQuery pre) (ts ++ [.relation r]))
    {post v : String} {e : Expression}
    (parsed : Expression.ofQuery (quotedBetween pre post v) = .ok e) (w : String) :
    ∃ e', Expression.ofQuery (quotedBetween pre post w) = .ok e' ∧
      Expression.DiffersAt (.ofQuoted v) (.ofQuoted w) (ts.countP Token.isArgument) e e' := by
  obtain ⟨all, lexes, sentence, fits, shallow⟩ := Expression.ofQuery_eq_ok_iff.mp parsed
  obtain ⟨us, rfl, behind⟩ := (h.prefix_quoted post v).lexes_iff.mp lexes
  have split : ∀ l, ts ++ [.relation r, .argument l] ++ us =
      ts ++ [.relation r] ++ Token.argument l :: us := by simp
  rw [split] at sentence fits
  obtain ⟨e', sentence', differs⟩ := sentence.exchange (.ofQuoted w)
  have lexes' := (h.prefix_quoted post w).lexes_iff.mpr ⟨us, rfl, behind.moved _⟩
  rw [split] at lexes'
  refine ⟨e', Expression.ofQuery_eq_ok_iff.mpr ⟨_, lexes', sentence', fits.exchange _, ?_⟩, ?_⟩
  · rwa [differs.height_eq]
  · simpa [Token.isArgument] using differs

/-- Behind a relation a text in quotes is one argument, and what follows is read as behind any
other. Of the queries with two texts both are parsed or none is, and to trees that differ in the
text only. -/
theorem quotedBetween_reads_argument (h : Lexes (Lexer.ofQuery pre) (ts ++ [.relation r]))
    (post : String) :
    (∀ text n, (Lexer.ofQuery (quotedBetween pre post text)).outcomes (ts.length + 2 + n) =
      (ts ++ [Token.relation r, .argument (.ofQuoted text)]).map (fun t => .ok (some t)) ++
        ((Lexer.mk post.toList 0 .connector).outcomes n).map
          (Except.mapError (.shift (pre ++ (Literal.ofQuoted text).display).utf8ByteSize))) ∧
    ∀ v w, ((∃ e, Expression.ofQuery (quotedBetween pre post v) = .ok e) ↔
        ∃ e, Expression.ofQuery (quotedBetween pre post w) = .ok e) ∧
      ∀ e e', Expression.ofQuery (quotedBetween pre post v) = .ok e →
        Expression.ofQuery (quotedBetween pre post w) = .ok e' →
        Expression.DiffersAt (.ofQuoted v) (.ofQuoted w) (ts.countP Token.isArgument) e e' := by
  refine ⟨?_, ?_⟩
  · intro text n
    have length : ts.length + 2 =
        (ts ++ [Token.relation r, .argument (.ofQuoted text)]).length := by simp
    have moved := Lexer.outcomes_shift (pre ++ (Literal.ofQuoted text).display).utf8ByteSize n
      (Lexer.mk post.toList 0 .connector)
    rw [length, (h.prefix_quoted post text).outcomes_eq, ← moved]
    simp [Lexer.shift]
  · intro v w
    have parsed : ∀ v w, (∃ e, Expression.ofQuery (quotedBetween pre post v) = .ok e) →
        ∃ e, Expression.ofQuery (quotedBetween pre post w) = .ok e := by
      rintro v w ⟨e, he⟩
      obtain ⟨e', he', _⟩ := h.ofQuery_exchange he w
      exact ⟨e', he'⟩
    refine ⟨⟨parsed v w, parsed w v⟩, ?_⟩
    intro e e' he he'
    obtain ⟨_, same, differs⟩ := h.ofQuery_exchange he w
    rw [he'] at same
    cases same
    exact differs

/-- A town whose name looks like more of the query is a town. -/
theorem quotedBetween_reads_argument_of_clinic :
    Lexes (Lexer.ofQuery "town!= ") ([.selector "town"] ++ [.relation .ne]) ∧
      Expression.DiffersAt (.ofQuoted "Ghent") (.ofQuoted "x';(town=='\\") 0
        (.joined .nor (.comparison "town" .ne (.ofQuoted "Ghent")) Clinic.grown)
        (.joined .nor (.comparison "town" .ne (.ofQuoted "x';(town=='\\")) Clinic.grown) := by
  have selector : Lexeme.IsSelector "town".toList := by decide +kernel
  have lexes : Lexes (Lexer.ofQuery "town!= ") ([.selector "town"] ++ [.relation .ne]) :=
    (Lexer.reads_selector selector (Lexeme.selectorRest_symbol .ne [' '])).lexes
      ((Lexer.reads_relation .ne [' ']).lexes fun _ => .finish rfl) 0
  refine ⟨lexes, ?_⟩
  exact ((quotedBetween_reads_argument lexes " :pets.age=ge=2L").2 _ _).2 _ _ (by cbv) (by cbv)

end

end EntityFilter
