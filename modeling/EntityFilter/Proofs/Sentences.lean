import EntityFilter.Proofs.Acceptance
import EntityFilter.Proofs.AllOrNothing
import EntityFilter.Proofs.Clinic
import EntityFilter.Proofs.Reading

namespace EntityFilter

open Fallible

/-- The tokens up to the end of the input, all of them read. -/
inductive Lexes : Lexer → List Token → Prop where
  | finish {l l' : Lexer} (ended : l.next = (.ok none, l')) : Lexes l []
  | token {l l' : Lexer} {t : Token} {ts : List Token} (read : l.next = (.ok (some t), l'))
    (rest : Lexes l' ts) : Lexes l (t :: ts)

/-- A run over tokens that were read takes each of them and ends at the end of the input. -/
theorem Lexes.run_eq {l : Lexer} {ts : List Token} (h : Lexes l ts) :
    ∃ located stop, located.map Prod.fst = ts ∧ ∀ s last,
      (Parser.run 0 s last l l.steps).1 =
        s.takeAll located >>= fun s' => s'.finish stop := by
  induction h with
  | @finish l l' ended =>
    refine ⟨[], l.offset, rfl, ?_⟩
    intro s last
    rw [Lexer.steps_of_end ended]
    rfl
  | @token l l' t ts read rest ih =>
    obtain ⟨located, stop, tokens, same⟩ := ih
    refine ⟨(t, l.offset) :: located, stop, by rw [List.map_cons, tokens], ?_⟩
    intro s last
    rw [Lexer.steps_of_next read, Parser.run, ParseState.takeAll_cons]
    cases taken : s.take t l.offset with
    | error x =>
      rw [Parser.proceed_of_error taken]
      rfl
    | ok s' =>
      rw [Parser.proceed_of_ok taken]
      exact same s' (some t)

theorem Lexes.run_ofQuery {query : String} {ts : List Token} (h : Lexes (Lexer.ofQuery query) ts) :
    ∃ located stop, located.map Prod.fst = ts ∧
      (Parser.run 0 .start none (Lexer.ofQuery query) (Lexer.ofQuery query).steps).1 =
        ParseState.start.takeAll located >>= fun s => s.finish stop := by
  obtain ⟨located, stop, tokens, same⟩ := h.run_eq
  exact ⟨located, stop, tokens, same .start none⟩

theorem Derives.ne_nil {phrase : Phrase} {ts : List Token} {e : Expression}
    (h : Derives phrase ts e) : ts ≠ [] := by
  induction h with
  | comparison => exact List.cons_ne_nil _ _
  | group => exact List.cons_ne_nil _ _
  | single _ ih => exact ih
  | join => exact List.append_ne_nil_of_right_ne_nil _ (List.cons_ne_nil _ _)

namespace Expression

/-- Where a first token is read, parsing is a run over all of them. -/
theorem ofQuery_eq_run {query : String} {ts : List Token} (h : Lexes (Lexer.ofQuery query) ts)
    (nonempty : ts ≠ []) :
    ofQuery query = (Parser.run 0 .start none (Lexer.ofQuery query) (Lexer.ofQuery query).steps).1 := by
  cases h with
  | finish => exact absurd rfl nonempty
  | token read _ =>
    unfold ofQuery Parser.ofLexer
    rw [read, ← Parser.parse_eq_run read none]
    rfl

/-- A sentence of the grammar is parsed to its tree if it keeps to the limits, and nests too deep if
not. -/
theorem ofQuery_within {query : String} {ts : List Token} {e : Expression}
    (lexes : Lexes (Lexer.ofQuery query) ts) (h : Sentence ts e) :
    Within (FitsIn 0 ts ∧ e.height ≤ maxDepth) (ofQuery query) e := by
  obtain ⟨located, stop, tokens, run⟩ := lexes.run_ofQuery
  rw [ofQuery_eq_run lexes h.ne_nil, run]
  exact h.finish_within tokens stop

end Expression

/-- A run that gives a tree has read all of the text. -/
theorem Parser.lexes_of_run {n : Nat} {l k : Lexer} (bound : l.rest.length ≤ n) {s : ParseState}
    {last : Option Token} {e : Expression} (h : (run 0 s last k (l.stepsWithin n)).1 = .ok e) :
    ∃ ts, Lexes l ts := by
  induction n generalizing l k s last with
  | zero =>
    have empty : l.rest = [] := List.eq_nil_of_length_eq_zero (Nat.le_zero.mp bound)
    have ended : l.next = (.ok none, l.skipBlanks) := by
      simp [Lexer.next, Lexer.skipBlanks, empty, Text.trimBlanks]
    exact ⟨[], .finish ended⟩
  | succ n ih =>
    unfold Lexer.stepsWithin at h
    split at h
    · rename_i ended
      exact ⟨[], .finish ended⟩
    · rename_i t l' read
      rw [run] at h
      have shorter := (Lexer.next_eq_ok read).1
      cases taken : s.take t k.offset with
      | ok s' =>
        rw [proceed_of_ok taken] at h
        have short : l'.rest.length ≤ n := by omega
        obtain ⟨ts, rest⟩ := ih short h
        exact ⟨t :: ts, .token read rest⟩
      | error x =>
        rw [proceed_of_error taken] at h
        cases h
    · cases h

theorem ParseState.ReadFrom.takeAll {s s' : ParseState} {us located : List (Token × Nat)}
    (hs : s.ReadFrom us) (h : s.takeAll located = .ok s') : s'.ReadFrom (us ++ located) := by
  induction located generalizing s us with
  | nil =>
    cases h
    simpa using hs
  | cons t located ih =>
    rw [takeAll_cons] at h
    obtain ⟨between, taken, h⟩ := bind_eq_ok.mp h
    have read := ih (hs.take taken) h
    simpa using read

namespace Expression

/-- What is parsed is a sentence of the grammar, with its tree. -/
theorem sentence_of_ofQuery {query : String} {e : Expression} (h : ofQuery query = .ok e) :
    ∃ ts, Lexes (Lexer.ofQuery query) ts ∧ Sentence ts e := by
  rw [ofQuery_eq_ok] at h
  obtain ⟨ts, lexes⟩ := Parser.lexes_of_run (Nat.le_refl _) h
  obtain ⟨located, stop, tokens, run⟩ := lexes.run_ofQuery
  rw [run] at h
  obtain ⟨s, taken, finished⟩ := bind_eq_ok.mp h
  have read := ParseState.readFrom_start.takeAll taken
  exact ⟨ts, lexes, tokens ▸ read.finish finished⟩

/-- What is parsed is within the limits that a tree has to keep. -/
theorem ofQuery_eq_ok_iff {query : String} {e : Expression} :
    ofQuery query = .ok e ↔
      ∃ ts, Lexes (Lexer.ofQuery query) ts ∧ Sentence ts e ∧ FitsIn 0 ts ∧ e.height ≤ maxDepth := by
  constructor
  · intro h
    obtain ⟨ts, lexes, sentence⟩ := sentence_of_ofQuery h
    have within := ofQuery_within lexes sentence
    -- A sentence that breaks a limit is too deep, so it was not parsed.
    by_cases kept : FitsIn 0 ts ∧ e.height ≤ maxDepth
    · exact ⟨ts, lexes, sentence, kept⟩
    · obtain ⟨position, deep⟩ := within.2 kept
      rw [h] at deep
      cases deep
  · rintro ⟨ts, lexes, sentence, kept⟩
    exact (ofQuery_within lexes sentence).1 kept

end Expression

namespace Predicate

theorem withValue_ne_tooDeep {selector : String} {value : Value.Coerced} {make : Value → Predicate}
    {depth : Nat} : withValue selector value make ≠ .error (.tooDeep depth) := by
  cases value <;> simp [withValue]

theorem compile_ne_tooDeep {scope : Scope} {c : Comparison} {depth : Nat} :
    c.compile scope ≠ .error (.tooDeep depth) := by
  intro h
  simp only [Comparison.compile, ofComparison] at h
  split at h
  · cases h
  · split at h
    · unfold ofCollection at h
      split at h
      · exact withValue_ne_tooDeep h
      · split at h
        · cases h
        · split at h
          · cases h
          · exact withValue_ne_tooDeep h
    · simp only [ofSingle] at h
      split at h
      · cases h
      · split at h
        · cases h
        · exact withValue_ne_tooDeep h

/-- Only the walk for the depth of a tree finds it too deep. -/
theorem ofExpression_ne_tooDeep (scope : Scope) {e : Expression} (shallow : e.height ≤ maxDepth)
    (depth : Nat) : ofExpression scope e ≠ .error (.tooDeep depth) := by
  intro h
  rw [ofExpression_of_shallow shallow, ofTree_eq_error] at h
  obtain ⟨c, _, failed⟩ := mapM_error_mem h
  exact compile_ne_tooDeep failed

/-- A tree that was parsed is never too deep to be compiled. -/
theorem ofQuery_ne_tooDeep (scope : Scope) (query : String) (depth : Nat) :
    ofQuery scope query ≠ .error (.filter (.tooDeep depth)) := by
  unfold ofQuery
  cases parsed : Expression.ofQuery query with
  | error x => simp
  | ok e =>
    obtain ⟨_, _, _, _, shallow⟩ := Expression.ofQuery_eq_ok_iff.mp parsed
    have fine := ofExpression_ne_tooDeep scope shallow depth
    intro h
    apply fine
    cases compiled : ofExpression scope e with
    | ok p => simp [compiled, Except.mapError] at h
    | error x =>
      simp only [compiled, Except.mapError, Except.error.injEq, CompileError.filter.injEq] at h
      rw [h]

end Predicate

namespace Expression

theorem fitsIn_zero {ts : List Token} :
    FitsIn 0 ts ↔ ∀ ps, ps <+: ts → openGroups ps ≤ maxDepth := by
  simp [FitsIn]

/-- A query is parsed to a tree exactly if it is a sentence with this tree and keeps to the limits.
A sentence that does not nests too deep, it has no other tree, and so no tree that was parsed is too
deep to be compiled. -/
theorem ofQuery_accepts_sentences (query : String) :
    (∀ e, ofQuery query = .ok e ↔ ∃ ts, Lexes (Lexer.ofQuery query) ts ∧ Sentence ts e ∧
      (∀ ps, ps <+: ts → openGroups ps ≤ maxDepth) ∧ e.depth ≤ maxDepth) ∧
    (∀ ts e, Lexes (Lexer.ofQuery query) ts → Sentence ts e →
      ¬ ((∀ ps, ps <+: ts → openGroups ps ≤ maxDepth) ∧ e.depth ≤ maxDepth) →
      ∃ position, ofQuery query = .error (.tooDeep position)) ∧
    (∀ ts e e', Sentence ts e → Sentence ts e' → e = e') ∧
    ∀ scope depth, Predicate.ofQuery scope query ≠ .error (.filter (.tooDeep depth)) := by
  simp only [← fitsIn_zero, depth_eq_height]
  refine ⟨fun e => ofQuery_eq_ok_iff, ?_, ?_, ?_⟩
  · intro ts e lexes sentence broken
    exact (ofQuery_within lexes sentence).2 broken
  · intro ts e e' sentence sentence'
    exact sentence.unique sentence'
  · intro scope depth
    exact Predicate.ofQuery_ne_tooDeep scope query depth

end Expression

theorem Lexer.Reads.lexes {mode mode' : LexMode} {cs rest : List Char} {t : Token}
    (h : Reads mode cs t mode' rest) {ts : List Token}
    (more : ∀ offset, Lexes ⟨rest, offset, mode'⟩ ts) (offset : Nat) :
    Lexes ⟨cs, offset, mode⟩ (t :: ts) := by
  obtain ⟨offset', read⟩ := h offset
  exact .token read (more offset')

theorem lexes_openings (n : Nat) {cs : List Char} {ts : List Token}
    (h : ∀ offset, Lexes ⟨cs, offset, .selector⟩ ts) (offset : Nat) :
    Lexes ⟨List.replicate n '(' ++ cs, offset, .selector⟩ (List.replicate n .opening ++ ts) := by
  induction n generalizing offset with
  | zero => exact h offset
  | succ n ih => exact (Lexer.reads_opening _).lexes ih offset

theorem lexes_closings (n offset : Nat) :
    Lexes ⟨List.replicate n ')', offset, .connector⟩ (List.replicate n .closing) := by
  induction n generalizing offset with
  | zero => exact .finish rfl
  | succ n ih => exact (Lexer.reads_closing _).lexes ih offset

theorem Derives.enclosed (n : Nat) {ts : List Token} {e : Expression} (h : Sentence ts e) :
    Sentence (List.replicate n Token.opening ++ (ts ++ List.replicate n Token.closing)) e := by
  induction n with
  | zero => simpa using h
  | succ n ih =>
    have outer := Derives.group ih
    rw [List.replicate_succ, List.replicate_succ']
    refine .single (.single ?_)
    change Derives .operand _ _
    simpa using outer

namespace Clinic

def enclosedTokens (n : Nat) : List Token :=
  List.replicate n Token.opening ++
    ([Token.selector "pets.age", Token.relation .ge, Token.argument ⟨"2", some .long, false⟩] ++
      List.replicate n Token.closing)

theorem lexes_enclosed (n : Nat) : Lexes (Lexer.ofQuery (enclosed n)) (enclosedTokens n) := by
  have closes : Lexeme.Closes (List.replicate n ')') := by
    cases n with
    | zero => exact .finish
    | succ n => exact .closing _
  have argument : (⟨"2", some .long, false⟩ : Literal).Printable := by decide +kernel
  have selector : Lexeme.IsSelector "pets.age".toList := by decide +kernel
  have third := (Lexer.reads_argument argument closes).lexes (lexes_closings n)
  have second := (Lexer.reads_relation .ge _).lexes third
  have first := (Lexer.reads_selector selector (Lexeme.selectorRest_symbol .ge _)).lexes second
  have whole := lexes_openings n first 0
  simpa [Lexer.ofQuery, enclosed, enclosedTokens, grown, Expression.chars] using whole

theorem sentence_enclosed (n : Nat) : Sentence (enclosedTokens n) grown :=
  Derives.enclosed n (.single (.single (.comparison ..)))

/-- As many groups are open at once as there are. -/
theorem openGroups_enclosed (n : Nat) :
    (∀ ps, ps <+: enclosedTokens n → openGroups ps ≤ n) ∧
      ∃ ps, ps <+: enclosedTokens n ∧ openGroups ps = n := by
  constructor
  · intro ps hp
    have count := hp.sublist.count_le Token.opening
    simp [enclosedTokens, List.count_replicate] at count
    exact Nat.le_trans (Nat.sub_le _ _) count
  · refine ⟨List.replicate n .opening, List.prefix_append _ _, ?_⟩
    simp [openGroups, List.count_replicate]

theorem exceeded_enclosed :
    ¬ ∀ ps, ps <+: enclosedTokens (maxDepth + 1) → openGroups ps ≤ maxDepth := by
  intro kept
  obtain ⟨ps, hp, count⟩ := (openGroups_enclosed (maxDepth + 1)).2
  have bound := kept ps hp
  omega

end Clinic

namespace Expression

/-- A comparison in 512 groups is read, and in one more it is too deep. -/
theorem ofQuery_accepts_sentences_of_clinic :
    ofQuery (Clinic.enclosed 512) = .ok Clinic.grown ∧
      Lexes (Lexer.ofQuery (Clinic.enclosed 513)) (Clinic.enclosedTokens 513) ∧
      Sentence (Clinic.enclosedTokens 513) Clinic.grown ∧
      ∃ position, ofQuery (Clinic.enclosed 513) = .error (.tooDeep position) := by
  have shallow : Clinic.grown.depth ≤ maxDepth := by cbv
  refine ⟨?_, Clinic.lexes_enclosed 513, Clinic.sentence_enclosed 513, ?_⟩
  · have kept := (Clinic.openGroups_enclosed 512).1
    exact ((ofQuery_accepts_sentences _).1 _).mpr
      ⟨_, Clinic.lexes_enclosed 512, Clinic.sentence_enclosed 512, kept, shallow⟩
  · refine (ofQuery_accepts_sentences _).2.1 _ _ (Clinic.lexes_enclosed 513)
      (Clinic.sentence_enclosed 513) ?_
    exact fun kept => Clinic.exceeded_enclosed kept.1

end Expression

end EntityFilter
