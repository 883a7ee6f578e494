import EntityFilter.Proofs.Continuation

namespace EntityFilter

/-- A phrase ends where a connector is expected. -/
theorem Derives.last {phrase : Phrase} {ts : List Token} {e : Expression} (h : Derives phrase ts e) :
    ∃ us t, ts = us ++ [t] ∧ t.nextMode = .connector := by
  induction h with
  | comparison s r l => exact ⟨[.selector s, .relation r], .argument l, rfl, rfl⟩
  | @group ts e inner _ => exact ⟨.opening :: ts, .closing, rfl, rfl⟩
  | single _ ih => exact ih
  | @join _ c ts _ _ _ _ _ _ _ right =>
    obtain ⟨us, t, rfl, mode⟩ := right
    exact ⟨ts ++ .connector c :: us, t, by simp, mode⟩

/-- A sentence in a group, with more text behind it. -/
theorem Lexes.grouped {query : String} {ts us : List Token} {e : Expression} {rest : List Char}
    (h : Lexes (Lexer.ofQuery query) ts) (sentence : Sentence ts e)
    (more : ∀ offset, Lexes ⟨rest, offset, .connector⟩ us) (offset : Nat) :
    Lexes ⟨'(' :: (query.toList ++ ')' :: rest), offset, .selector⟩
      (.opening :: (ts ++ .closing :: us)) := by
  refine (Lexer.reads_opening _).lexes (fun behind => ?_) offset
  have fenced : Fenced (')' :: rest) := by
    intro c hc
    cases hc
    decide
  obtain ⟨front, t, rfl, mode⟩ := sentence.last
  obtain ⟨l, read, next⟩ := h.followed fenced
  rw [mode] at next
  have closed := (Lexer.reads_closing rest).lexes more (Lexer.ofQuery query).finish
  have whole := read.lexes_iff.mpr ⟨.closing :: us, rfl, closed.of_next_eq next⟩
  exact whole.moved behind

/-- Two texts in groups with a connector between them. -/
def joinedGroups (c : Connector) (q₁ q₂ : String) : String :=
  "(" ++ q₁ ++ ")" ++ String.singleton c.symbol ++ "(" ++ q₂ ++ ")"

/-- The tokens of two groups with a connector between them. -/
def groupTokens (c : Connector) (ts us : List Token) : List Token :=
  (.opening :: (ts ++ [.closing])) ++ .connector c :: (.opening :: (us ++ [.closing]))

section

variable {q₁ q₂ : String} {ts us : List Token} {a b : Expression}

/-- A group is read as the query in it, wherever it stands. -/
theorem Lexes.joinedGroups (c : Connector) (h₁ : Lexes (Lexer.ofQuery q₁) ts)
    (h₂ : Lexes (Lexer.ofQuery q₂) us) (s₁ : Sentence ts a) (s₂ : Sentence us b) :
    Lexes (Lexer.ofQuery (joinedGroups c q₁ q₂)) (groupTokens c ts us) := by
  have finish : ∀ offset, Lexes ⟨[], offset, .connector⟩ [] := fun _ => .finish rfl
  have second := h₂.grouped s₂ finish
  have connected := (Lexer.reads_connector c _).lexes second
  have whole := h₁.grouped s₁ connected 0
  simpa [Lexer.ofQuery, EntityFilter.joinedGroups, groupTokens] using whole

theorem Derives.joinedGroups (c : Connector) (s₁ : Sentence ts a) (s₂ : Sentence us b) :
    Sentence (groupTokens c ts us) (.joined c a b) := by
  have left := Derives.group s₁
  have right := Derives.group s₂
  cases strength : c.isTight with
  | true => exact .single (.join strength (.single left) right)
  | false => exact .join strength (.single (.single left)) (.single right)

/-- Each query stands in one group more than it does by itself. -/
theorem FitsIn.joinedGroups_iff (c : Connector) (s₁ : Sentence ts a) (s₂ : Sentence us b) :
    FitsIn 0 (groupTokens c ts us) ↔ FitsIn 1 ts ∧ FitsIn 1 us := by
  rw [groupTokens, join_iff (Derives.group s₁), group_iff s₁, group_iff s₂]

end

/-- The query has no more than `n` levels, and no more than `n` of its groups are open at once. -/
structure StaysWithin (n : Nat) (query : String) : Prop where
  levels : ∀ e, Expression.ofQuery query = .ok e → e.depth ≤ n
  groups : ∀ ts, Lexes (Lexer.ofQuery query) ts → ∀ ps, ps <+: ts → openGroups ps ≤ n

theorem StaysWithin.mono {n m : Nat} {query : String} (h : StaysWithin n query) (le : n ≤ m) :
    StaysWithin m query where
  levels e parsed := (h.levels e parsed).trans le
  groups ts lexes ps hp := (h.groups ts lexes ps hp).trans le

theorem Lexes.length_le {l : Lexer} {ts : List Token} (h : Lexes l ts) :
    ts.length ≤ l.rest.length := by
  induction h with
  | finish => exact Nat.zero_le _
  | token read _ ih =>
    have shorter := (Lexer.next_eq_ok read).1
    rw [List.length_cons]
    omega

theorem Derives.height_le {phrase : Phrase} {ts : List Token} {e : Expression}
    (h : Derives phrase ts e) : e.height ≤ ts.length := by
  induction h with
  | comparison s r l => simp [Expression.height]
  | group _ ih =>
    simp only [List.length_cons, List.length_append]
    omega
  | single _ ih => exact ih
  | join _ _ _ left right =>
    simp only [Expression.height, List.length_cons, List.length_append]
    omega

/-- Neither levels nor groups outnumber the characters. -/
theorem staysWithin_length (query : String) : StaysWithin query.length query where
  levels e parsed := by
    obtain ⟨ts, lexes, sentence⟩ := Expression.sentence_of_ofQuery parsed
    have high := sentence.height_le.trans lexes.length_le
    rwa [Expression.depth_eq_height, ← String.length_toList]
  groups ts lexes ps hp := by
    have opened : openGroups ps ≤ ps.length := (Nat.sub_le _ _).trans List.count_le_length
    have long := (opened.trans hp.length_le).trans lexes.length_le
    rwa [← String.length_toList]

/-- Queries are composed like the trees they are parsed to. -/
theorem Expression.ofQuery_groups_eq_ok (c : Connector) {q₁ q₂ : String} {a b : Expression}
    (h₁ : ofQuery q₁ = .ok a) (h₂ : ofQuery q₂ = .ok b) (w₁ : StaysWithin 511 q₁)
    (w₂ : StaysWithin 511 q₂) : ofQuery (joinedGroups c q₁ q₂) = .ok (.joined c a b) := by
  obtain ⟨ts, l₁, s₁⟩ := sentence_of_ofQuery h₁
  obtain ⟨us, l₂, s₂⟩ := sentence_of_ofQuery h₂
  have inside : ∀ {q : String} {ts : List Token}, StaysWithin 511 q → Lexes (Lexer.ofQuery q) ts →
      FitsIn 1 ts := by
    intro q ts within lexes ps hp
    have := within.groups ts lexes ps hp
    unfold maxDepth
    omega
  have fits := (FitsIn.joinedGroups_iff c s₁ s₂).mpr ⟨inside w₁ l₁, inside w₂ l₂⟩
  have levels : (joined c a b).height ≤ maxDepth := by
    have left := w₁.levels a h₁
    have right := w₂.levels b h₂
    rw [depth_eq_height] at left right
    simp only [height, maxDepth]
    omega
  exact ofQuery_eq_ok_iff.mpr ⟨_, l₁.joinedGroups c l₂ s₁ s₂, .joinedGroups c s₁ s₂, fits, levels⟩

namespace Predicate

variable {scope : Scope} {query : String} {p : Predicate}

/-- Queries in groups are compiled to what the queries are compiled to, composed. -/
theorem ofQuery_joinedGroups (c : Connector) {q₁ q₂ : String} {p₁ p₂ : Predicate}
    (h₁ : ofQuery scope q₁ = .ok p₁) (h₂ : ofQuery scope q₂ = .ok p₂) (w₁ : StaysWithin 511 q₁)
    (w₂ : StaysWithin 511 q₂) : ofQuery scope (joinedGroups c q₁ q₂) = .ok (compose c p₁ p₂) := by
  obtain ⟨a, parsed₁, compiled₁⟩ := ofQuery_eq_ok.mp h₁
  obtain ⟨b, parsed₂, compiled₂⟩ := ofQuery_eq_ok.mp h₂
  have parsed := Expression.ofQuery_groups_eq_ok c parsed₁ parsed₂ w₁ w₂
  obtain ⟨_, _, _, _, shallow⟩ := Expression.ofQuery_eq_ok_iff.mp parsed
  have compiled :=
    ofTree_joined (c := c) (ofTree_of_ofExpression compiled₁) (ofTree_of_ofExpression compiled₂)
  exact ofQuery_eq_ok.mpr ⟨_, parsed, ofExpression_eq_ok.mpr ⟨shallow, compiled⟩⟩

/-- Newcomers in one group, and whoever comes from Ghent in the other. -/
theorem ofQuery_joinedGroups_of_clinic :
    ofQuery Clinic.scope (joinedGroups .nor " pets.age=ge=2.pets.weights=gt=1" "(town==Ghent)") =
      .ok (.or (.not Clinic.newcomersPredicate)
        (.not (.compare ⟨[], ⟨"city", .string, .single⟩⟩ .eq (.string "Ghent")))) := by
  have first : ofQuery Clinic.scope " pets.age=ge=2.pets.weights=gt=1" =
      .ok Clinic.newcomersPredicate := by cbv
  have second : ofQuery Clinic.scope "(town==Ghent)" =
      .ok (.compare ⟨[], ⟨"city", .string, .single⟩⟩ .eq (.string "Ghent")) := by cbv
  exact ofQuery_joinedGroups .nor first second ((staysWithin_length _).mono (by decide))
    ((staysWithin_length _).mono (by decide))

end Predicate

end EntityFilter
