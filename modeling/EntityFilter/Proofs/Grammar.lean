import EntityFilter.Query.Expression
import EntityFilter.Query.Parser
import EntityFilter.Query.Token

namespace EntityFilter

/-- What a list of tokens can be: a comparison or group, or a chain whose parts are joined by tight
connectors or by loose ones. -/
inductive Phrase where
  | operand
  | chain (tight : Bool)

namespace Phrase

/-- What the connectors of a strength join. -/
def part : Bool → Phrase
  | true => operand
  | false => chain true

/-- Whether a connector can stand in the phrase outside of its groups. -/
def Joins (c : Connector) : Phrase → Prop
  | operand => False
  | chain tight => tight = true → c.isTight = true

theorem not_joins_part {tight : Bool} {c : Connector} (h : c.isTight = tight) :
    ¬ (part tight).Joins c := by
  cases tight with
  | true => exact id
  | false =>
    intro joins
    rw [joins rfl] at h
    cases h

theorem joins_chain {tight : Bool} {c : Connector} (h : (part tight).Joins c) :
    (chain tight).Joins c := by
  intro ht
  rw [ht] at h
  exact h.elim

end Phrase

/-- The tokens are a phrase, and the expression is its tree. -/
inductive Derives : Phrase → List Token → Expression → Prop where
  | comparison (s : String) (r : Relation) (l : Literal) :
    Derives .operand [.selector s, .relation r, .argument l] (.comparison s r l)
  | group {ts : List Token} {e : Expression} (inner : Derives (.chain false) ts e) :
    Derives .operand (.opening :: (ts ++ [.closing])) e
  | single {tight : Bool} {ts : List Token} {e : Expression} (h : Derives (.part tight) ts e) :
    Derives (.chain tight) ts e
  | join {tight : Bool} {c : Connector} {ts us : List Token} {a b : Expression}
    (strength : c.isTight = tight) (left : Derives (.chain tight) ts a)
    (right : Derives (.part tight) us b) :
    Derives (.chain tight) (ts ++ .connector c :: us) (.joined c a b)

/-- A whole filter. -/
abbrev Sentence (ts : List Token) (e : Expression) : Prop := Derives (.chain false) ts e

theorem prefix_of_prefix_append {α : Type} {ps ts us : List α} (h : ps <+: ts ++ us) :
    ps <+: ts ∨ ∃ qs, ps = ts ++ qs ∧ qs <+: us := by
  obtain ⟨rest, h⟩ := h
  rcases List.append_eq_append_iff.mp h with ⟨qs, rfl, _⟩ | ⟨qs, rfl, rfl⟩
  · exact .inl (List.prefix_append ps qs)
  · exact .inr ⟨qs, rfl, List.prefix_append qs rest⟩

namespace Derives

variable {phrase : Phrase} {ts : List Token} {e : Expression}

/-- A phrase closes each group that it opens. -/
theorem balanced (h : Derives phrase ts e) : ts.count .opening = ts.count .closing := by
  induction h with
  | comparison s r l => simp
  | group _ ih => simp [ih]
  | single _ ih => exact ih
  | join _ _ _ left right =>
    simp only [List.count_append, List.count_cons, left, right]
    simp

/-- A closing parenthesis ends a group that was opened before it. -/
theorem closings_le_openings (h : Derives phrase ts e) {ps : List Token} (hp : ps <+: ts) :
    ps.count .closing ≤ ps.count .opening := by
  induction h generalizing ps with
  | comparison s r l =>
    have := hp.sublist.count_le Token.closing
    simp at this
    omega
  | @group ts e inner ih =>
    rcases List.prefix_cons_iff.mp hp with rfl | ⟨qs, rfl, hq⟩
    · simp
    · rcases List.prefix_concat_iff.mp hq with rfl | hq
      · have := inner.balanced
        simp [this]
      · have := ih hq
        simp only [List.count_cons]
        simp
        omega
  | single _ ih => exact ih hp
  | @join tight c ts us a b strength left right ihl ihr =>
    rcases prefix_of_prefix_append hp with hp | ⟨qs, rfl, hq⟩
    · exact ihl hp
    · have whole := left.balanced
      rcases List.prefix_cons_iff.mp hq with rfl | ⟨rs, rfl, hr⟩
      · simp [whole]
      · have := ihr hr
        simp only [List.count_append, List.count_cons]
        simp
        omega

/-- A connector inside a phrase joins parts of it, or stands in a group. -/
theorem joins_or_open (h : Derives phrase ts e) {before after : List Token} {c : Connector}
    (split : ts = before ++ .connector c :: after) :
    phrase.Joins c ∨ before.count .closing < before.count .opening := by
  induction h generalizing before after with
  | comparison s r l =>
    have mem : Token.connector c ∈ [Token.selector s, .relation r, .argument l] := by
      rw [split]
      simp
    simp at mem
  | @group ts e inner ih =>
    cases before with
    | nil => simp at split
    | cons t before =>
      simp only [List.cons_append, List.cons.injEq] at split
      obtain ⟨rfl, split⟩ := split
      have short : before <+: ts := by
        have long : before <+: ts ++ [.closing] := ⟨_, split.symm⟩
        rcases List.prefix_concat_iff.mp long with whole | short
        · have lengths := congrArg List.length split
          simp [whole] at lengths
        · exact short
      have := inner.closings_le_openings short
      right
      simp only [List.count_cons]
      simp
      omega
  | @single tight ts e h ih =>
    rcases ih split with joins | opened
    · exact .inl (Phrase.joins_chain joins)
    · exact .inr opened
  | @join tight d ts us a b strength left right ihl ihr =>
    have whole := left.balanced
    rcases List.append_eq_append_iff.mp split with ⟨between, rfl, rest⟩ | ⟨between, rfl, rest⟩
    · cases between with
      | nil =>
        simp only [List.nil_append, List.cons.injEq, Token.connector.injEq] at rest
        left
        intro ht
        rw [← rest.1, strength, ht]
      | cons t between =>
        simp only [List.cons_append, List.cons.injEq] at rest
        obtain ⟨rfl, rest⟩ := rest
        rcases ihr rest with joins | opened
        · exact .inl (Phrase.joins_chain joins)
        · right
          simp only [List.count_append, List.count_cons]
          simp
          omega
    · cases between with
      | nil =>
        simp only [List.nil_append, List.cons.injEq, Token.connector.injEq] at rest
        left
        intro ht
        rw [rest.1, strength, ht]
      | cons t between =>
        simp only [List.cons_append, List.cons.injEq] at rest
        obtain ⟨rfl, rest⟩ := rest
        exact ihl rfl

/-- A chain is a part, or ends in a connector and a part. -/
theorem chain_cases {tight : Bool} (h : Derives (.chain tight) ts e) :
    Derives (.part tight) ts e ∨
      ∃ c us vs a b, ts = us ++ .connector c :: vs ∧ e = .joined c a b ∧ c.isTight = tight ∧
        Derives (.chain tight) us a ∧ Derives (.part tight) vs b := by
  cases h with
  | single h => exact .inl h
  | join strength left right => exact .inr ⟨_, _, _, _, _, rfl, rfl, strength, left, right⟩

/-- What is joined is no part of a longer chain of its strength. -/
theorem not_part_of_join {tight : Bool} {c : Connector} {us vs : List Token} {a : Expression}
    (strength : c.isTight = tight) (left : Derives (.chain tight) us a) :
    ¬ Derives (.part tight) (us ++ .connector c :: vs) e := by
  intro h
  have whole := left.balanced
  rcases h.joins_or_open rfl with joins | opened
  · exact Phrase.not_joins_part strength joins
  · omega

/-- No right operand holds the connector that joins it. -/
theorem not_join_behind {tight : Bool} {c d : Connector} {us vs ws : List Token}
    {a b x : Expression} (strength : d.isTight = tight) (left : Derives (.chain tight) us a)
    (longer : Derives (.chain tight) (us ++ .connector c :: vs) b) :
    ¬ Derives (.part tight) (vs ++ .connector d :: ws) x := by
  intro h
  have whole := left.balanced
  have longerWhole := longer.balanced
  rcases h.joins_or_open rfl with joins | opened
  · exact Phrase.not_joins_part strength joins
  · simp only [List.count_append, List.count_cons] at longerWhole
    simp at longerWhole
    omega

/-- The last connector outside of all groups parts a chain, so there is one way only. -/
theorem join_unique {tight : Bool} {c c' : Connector} {us us' vs vs' : List Token}
    {a a' b b' : Expression} (strength : c.isTight = tight) (strength' : c'.isTight = tight)
    (left : Derives (.chain tight) us a) (left' : Derives (.chain tight) us' a')
    (right : Derives (.part tight) vs b) (right' : Derives (.part tight) vs' b')
    (same : us ++ .connector c :: vs = us' ++ .connector c' :: vs') :
    us = us' ∧ c = c' ∧ vs = vs' := by
  -- Of two connectors in different places the later one would be inside the right operand of the
  -- earlier, and outside of its groups.
  rcases List.append_eq_append_iff.mp same with ⟨between, rfl, rest⟩ | ⟨between, rfl, rest⟩
  · cases between with
    | nil =>
      simp only [List.nil_append, List.cons.injEq, Token.connector.injEq] at rest
      exact ⟨by simp, rest⟩
    | cons t between =>
      simp only [List.cons_append, List.cons.injEq] at rest
      obtain ⟨rfl, rfl⟩ := rest
      exact absurd right (not_join_behind strength' left left')
  · cases between with
    | nil =>
      simp only [List.nil_append, List.cons.injEq, Token.connector.injEq] at rest
      exact ⟨by simp, rest.1.symm, rest.2.symm⟩
    | cons t between =>
      simp only [List.cons_append, List.cons.injEq] at rest
      obtain ⟨rfl, rfl⟩ := rest
      exact absurd right' (not_join_behind strength left' left)

/-- A phrase has one tree. -/
theorem unique (h : Derives phrase ts e) {e' : Expression} (h' : Derives phrase ts e') :
    e = e' := by
  induction h generalizing e' with
  | comparison s r l =>
    generalize same : [Token.selector s, .relation r, .argument l] = ws at h'
    cases h' with
    | comparison =>
      cases same
      rfl
    | group => cases same
  | @group ts e inner ih =>
    generalize same : Token.opening :: (ts ++ [.closing]) = ws at h'
    cases h' with
    | comparison => cases same
    | group inner' =>
      simp only [List.cons.injEq, true_and, List.append_cancel_right_eq] at same
      subst same
      exact ih inner'
  | single h ih =>
    rcases h'.chain_cases with h' | ⟨c, us, vs, a, b, rfl, rfl, strength, left, right⟩
    · exact ih h'
    · exact absurd h (not_part_of_join strength left)
  | join strength left right ihl ihr =>
    rcases h'.chain_cases with h' | ⟨c, us, vs, a, b, same, rfl, strength', left', right'⟩
    · exact absurd h' (not_part_of_join strength left)
    · obtain ⟨rfl, rfl, rfl⟩ := join_unique strength strength' left left' right right' same
      rw [ihl left', ihr right']

end Derives

/-- The groups that are open behind the tokens. -/
def openGroups (ts : List Token) : Nat := ts.count .opening - ts.count .closing

/-- Inside `n` groups, no more are open at any of the tokens than may be. -/
def FitsIn (n : Nat) (ts : List Token) : Prop := ∀ ps, ps <+: ts → n + openGroups ps ≤ maxDepth

namespace FitsIn

variable {n : Nat} {phrase : Phrase} {ts us : List Token} {a e : Expression}

theorem bound (h : FitsIn n ts) : n ≤ maxDepth := by
  have := h [] List.nil_prefix
  simpa [openGroups] using this

theorem comparison_iff (s : String) (r : Relation) (l : Literal) :
    FitsIn n [.selector s, .relation r, .argument l] ↔ n ≤ maxDepth := by
  constructor
  · exact bound
  · intro bound ps hp
    have := hp.sublist.count_le Token.opening
    simp at this
    simp [openGroups, this, bound]

/-- A phrase in parentheses fits where the phrase fits one group deeper. -/
theorem group_iff (h : Derives phrase ts e) :
    FitsIn n (.opening :: (ts ++ [.closing])) ↔ FitsIn (n + 1) ts := by
  constructor
  · intro fits ps hp
    have inside : Token.opening :: ps <+: .opening :: (ts ++ [.closing]) :=
      List.prefix_cons_inj _ |>.mpr (hp.trans (List.prefix_append _ _))
    have deep := fits _ inside
    have := h.closings_le_openings hp
    simp only [openGroups, List.count_cons] at deep ⊢
    simp at deep
    omega
  · intro fits ps hp
    have bound := fits.bound
    rcases List.prefix_cons_iff.mp hp with rfl | ⟨qs, rfl, hq⟩
    · simp only [openGroups, List.count_nil]
      omega
    · rcases List.prefix_concat_iff.mp hq with rfl | hq
      · have := h.balanced
        simp only [openGroups, List.count_cons, List.count_append]
        simp
        omega
      · have deep := fits qs hq
        simp only [openGroups, List.count_cons] at deep ⊢
        simp
        omega

/-- A connector stands outside of the groups on both sides, so each side fits by itself. -/
theorem join_iff {c : Connector} (h : Derives phrase ts a) :
    FitsIn n (ts ++ .connector c :: us) ↔ FitsIn n ts ∧ FitsIn n us := by
  have whole := h.balanced
  have behind : ∀ ps, openGroups (ts ++ .connector c :: ps) = openGroups ps := by
    intro ps
    simp only [openGroups, List.count_cons, List.count_append]
    simp
    omega
  constructor
  · intro fits
    refine ⟨fun ps hp => fits ps (hp.trans (List.prefix_append _ _)), fun ps hp => ?_⟩
    have longer : ts ++ .connector c :: ps <+: ts ++ .connector c :: us := by
      simpa using hp
    have := fits _ longer
    rwa [behind] at this
  · rintro ⟨fits, fits'⟩ ps hp
    rcases prefix_of_prefix_append hp with hp | ⟨qs, rfl, hq⟩
    · exact fits ps hp
    · rcases List.prefix_cons_iff.mp hq with rfl | ⟨rs, rfl, hr⟩
      · have := fits ts List.prefix_rfl
        simpa using this
      · rw [behind]
        exact fits' rs hr

end FitsIn

end EntityFilter
