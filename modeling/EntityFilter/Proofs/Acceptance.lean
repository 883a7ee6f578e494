import EntityFilter.Proofs.Grammar
import EntityFilter.Proofs.Parsing

namespace EntityFilter

/-- The result where a limit is kept, and the error of what nests too deep where it is not. -/
def Within {α : Type} (kept : Prop) (x : Except ParseError α) (a : α) : Prop :=
  (kept → x = .ok a) ∧ (¬ kept → ∃ position, x = .error (.tooDeep position))

namespace Within

variable {α β : Type} {kept more : Prop} {x : Except ParseError α} {a : α}

theorem ok (h : kept) (a : α) : Within kept (.ok a) a :=
  ⟨fun _ => rfl, fun broken => absurd h broken⟩

/-- Limits that are kept one after the other are kept together, and what nests too deep first ends
it. -/
theorem bind {f : α → Except ParseError β} {b : β} (h : Within kept x a)
    (h' : kept → Within more (f a) b) : Within (kept ∧ more) (x >>= f) b := by
  constructor
  · rintro ⟨first, second⟩
    rw [h.1 first]
    exact (h' first).1 second
  · intro broken
    by_cases first : kept
    · rw [h.1 first]
      exact (h' first).2 fun second => broken ⟨first, second⟩
    · obtain ⟨position, deep⟩ := h.2 first
      rw [deep]
      exact ⟨position, rfl⟩

theorem map {f : α → β} (h : Within kept x a) : Within kept (x.map f) (f a) := by
  constructor
  · intro first
    rw [h.1 first]
    rfl
  · intro broken
    obtain ⟨position, deep⟩ := h.2 broken
    rw [deep]
    exact ⟨position, rfl⟩

theorem of_iff (h : Within kept x a) (same : more ↔ kept) : Within more x a :=
  ⟨fun m => h.1 (same.mp m), fun m => h.2 fun k => m (same.mpr k)⟩

end Within

/-- Joining is refused for the height of the tree and for nothing else. -/
theorem Pending.join?_within (c : Connector) (position : Nat) (a b : Expression) :
    Within ((Expression.joined c a b).height ≤ maxDepth)
      (join? ⟨.of a, c, position⟩ (.of b)) (.of (.joined c a b)) := by
  rw [join?, Operand.join_of]
  constructor
  · intro shallow
    exact if_neg (Nat.not_lt.mpr shallow)
  · intro deep
    exact ⟨position, if_pos (Nat.lt_of_not_le deep)⟩

namespace ParseState

/-- Takes tokens one after another, each with the position it starts behind. -/
def takeAll (s : ParseState) (ts : List (Token × Nat)) : Except ParseError ParseState :=
  ts.foldlM (fun s t => s.take t.1 t.2) s

theorem takeAll_append (s : ParseState) (ts us : List (Token × Nat)) :
    s.takeAll (ts ++ us) = s.takeAll ts >>= fun s' => s'.takeAll us :=
  List.foldlM_append

theorem takeAll_cons (s : ParseState) (t : Token) (position : Nat) (ts : List (Token × Nat)) :
    s.takeAll ((t, position) :: ts) = s.take t position >>= fun s' => s'.takeAll ts :=
  List.foldlM_cons

theorem joinPending_none (x : Operand) : joinPending none x = .ok x := rfl

theorem closeGroup_new (stage : Stage) (outer : List Group) (x : Operand) :
    closeGroup ⟨stage, .new, outer⟩ x = .ok x := rfl

/-- Joins what waits in front of a complete operand, as a connector of that strength does. -/
def settle (tight : Bool) (s : ParseState) : Except ParseError ParseState :=
  match s.stage with
  | .connector x =>
    if tight then
      (joinPending s.group.tight x).map fun y =>
        { s with stage := .connector y, group := { s.group with tight := none } }
    else (s.closeGroup x).map fun y => { s with stage := .connector y, group := .new }
  | _ => .ok s

/-- What a loose connector joins, it joins after what a tight one would have joined. -/
theorem settle_false (s : ParseState) : s.settle false = s.settle true >>= settle false := by
  obtain ⟨stage, ⟨loose, tight⟩, outer⟩ := s
  cases stage with
  | connector x =>
    simp only [settle, closeGroup]
    cases joinPending tight x <;> rfl
  | _ => rfl

/-- A connector joins by itself what waits in front of it and is no weaker. -/
theorem take_connector_eq (s : ParseState) (c : Connector) (position : Nat) :
    s.take (.connector c) position =
      s.settle c.isTight >>= fun s' => s'.take (.connector c) position := by
  obtain ⟨stage, ⟨loose, tight⟩, outer⟩ := s
  cases stage with
  | connector x =>
    cases hc : c.isTight with
    | true =>
      cases joined : joinPending tight x <;>
        simp [take, connect, settle, hc, joined, joinPending_none, Except.map, bind, Except.bind]
    | false =>
      cases joined : closeGroup ⟨.connector x, ⟨loose, tight⟩, outer⟩ x <;>
        simp [take, connect, settle, hc, joined, closeGroup_new, Except.map, bind, Except.bind]
  | _ => rfl

theorem take_closing_eq (s : ParseState) (position : Nat) :
    s.take .closing position = s.settle false >>= fun s' => s'.take .closing position := by
  obtain ⟨stage, ⟨loose, tight⟩, outer⟩ := s
  cases stage with
  | connector x =>
    simp only [take, close, settle]
    cases closeGroup ⟨.connector x, ⟨loose, tight⟩, outer⟩ x <;> rfl
  | _ => rfl

theorem finish_eq (s : ParseState) (position : Nat) :
    s.finish position = s.settle false >>= fun s' => s'.finish position := by
  obtain ⟨stage, ⟨loose, tight⟩, outer⟩ := s
  cases stage with
  | connector x =>
    simp only [finish, settle]
    cases closeGroup ⟨.connector x, ⟨loose, tight⟩, outer⟩ x <;> rfl
  | _ => rfl

end ParseState

namespace Phrase

open ParseState

/-- Nothing waits that a connector of the phrase would join. -/
def StartsIn (g : Group) : Phrase → Prop
  | operand => True
  | chain true => g.tight = none
  | chain false => g = .new

def settle : Phrase → ParseState → Except ParseError ParseState
  | operand => .ok
  | chain tight => ParseState.settle tight

/-- The parts of a chain are settled before the chain is. -/
theorem bind_settle (tight : Bool) (x : Except ParseError ParseState) :
    x >>= ParseState.settle tight = (x >>= (part tight).settle) >>= ParseState.settle tight := by
  rw [bind_assoc]
  congr 1
  funext s
  cases tight with
  | true => rfl
  | false => exact settle_false s

theorem settle_settled {tight : Bool} {g : Group} (h : (chain tight).StartsIn g) (x : Operand)
    (outer : List Group) :
    ParseState.settle tight ⟨.connector x, g, outer⟩ = .ok ⟨.connector x, g, outer⟩ := by
  obtain ⟨l, t⟩ := g
  cases tight <;> cases h <;> rfl

theorem StartsIn.part {tight : Bool} {g : Group} (h : (chain tight).StartsIn g) :
    (part tight).StartsIn g := by
  cases tight with
  | true => trivial
  | false =>
    cases h
    rfl

end Phrase

/-- The group behind a connector that waits in it. -/
def Group.behind (g : Group) (p : Pending) : Group :=
  if p.connector.isTight then { g with tight := some p } else ⟨some p, none⟩

section

variable {c : Connector} {g : Group}

theorem Group.startsIn_behind (g : Group) (p : Pending) :
    (Phrase.part p.connector.isTight).StartsIn (g.behind p) := by
  rw [behind]
  cases p.connector.isTight <;> trivial

theorem ParseState.take_connector_settled (h : (Phrase.chain c.isTight).StartsIn g) (x : Operand)
    (outer : List Group) (position : Nat) :
    take ⟨.connector x, g, outer⟩ (.connector c) position =
      .ok ⟨.operand, g.behind ⟨x, c, position⟩, outer⟩ := by
  obtain ⟨l, t⟩ := g
  simp only [take, connect, Group.behind]
  cases hc : c.isTight <;> rw [hc] at h <;> cases h <;> rfl

/-- What was put behind a connector is joined to its left operand, and the group is as it was. -/
theorem ParseState.settle_behind (h : (Phrase.chain c.isTight).StartsIn g) (x y : Operand)
    (outer : List Group) (position : Nat) :
    settle c.isTight ⟨.connector y, g.behind ⟨x, c, position⟩, outer⟩ =
      (Pending.join? ⟨x, c, position⟩ y).map fun z => ⟨.connector z, g, outer⟩ := by
  obtain ⟨l, t⟩ := g
  simp only [settle, closeGroup, Group.behind]
  cases hc : c.isTight <;> rw [hc] at h <;> cases h <;> rfl

namespace ParseState

theorem take_opening_within {outer : List Group} (bound : outer.length ≤ maxDepth) (g : Group)
    (position : Nat) :
    Within (outer.length + 1 ≤ maxDepth) (take ⟨.operand, g, outer⟩ .opening position)
      ⟨.operand, .new, g :: outer⟩ := by
  constructor
  · intro room
    exact if_neg (Nat.ne_of_lt room)
  · intro full
    have same : outer.length = maxDepth := by omega
    exact ⟨position, if_pos same⟩

theorem settle_behind_within (h : (Phrase.chain c.isTight).StartsIn g) (a b : Expression)
    (outer : List Group) (position : Nat) :
    Within ((Expression.joined c a b).height ≤ maxDepth)
      (settle c.isTight ⟨.connector (.of b), g.behind ⟨.of a, c, position⟩, outer⟩)
      ⟨.connector (.of (.joined c a b)), g, outer⟩ := by
  rw [settle_behind h]
  exact (Pending.join?_within c position a b).map

/-- Behind a group it is as if its connectors had joined before the parenthesis came. -/
theorem takeAll_closing (s : ParseState) (ts : List (Token × Nat)) (position : Nat) :
    s.takeAll (ts ++ [(.closing, position)]) =
      (s.takeAll ts >>= settle false) >>= fun s => s.take .closing position := by
  rw [takeAll_append, bind_assoc]
  congr 1
  funext s
  rw [← take_closing_eq, takeAll_cons]
  exact bind_pure _

/-- Behind a connector it is as if those it ends had joined before it came. -/
theorem takeAll_connector (s : ParseState) (ts us : List (Token × Nat)) (c : Connector)
    (position : Nat) (tight : Bool) :
    s.takeAll (ts ++ (.connector c, position) :: us) >>= settle tight =
      (s.takeAll ts >>= settle c.isTight) >>= fun s =>
        s.take (.connector c) position >>= fun s => s.takeAll us >>= settle tight := by
  rw [takeAll_append, bind_assoc, bind_assoc]
  congr 1
  funext s
  rw [takeAll_cons, take_connector_eq]
  simp only [bind_assoc]

end ParseState

end

theorem located_cons {located : List (Token × Nat)} {t : Token} {ts : List Token}
    (h : located.map Prod.fst = t :: ts) :
    ∃ position rest, located = (t, position) :: rest ∧ rest.map Prod.fst = ts := by
  obtain ⟨⟨_, position⟩, rest, rfl, rfl, read⟩ := List.map_eq_cons_iff.mp h
  exact ⟨position, rest, rfl, read⟩

open ParseState

/-- From where the phrase can start, the tokens lead to the operand, within the limits. -/
def Phrase.LeadsTo (phrase : Phrase) (ts : List Token) (e : Expression) : Prop :=
  ∀ (located : List (Token × Nat)) (g : Group) (outer : List Group), located.map Prod.fst = ts →
    phrase.StartsIn g → outer.length ≤ maxDepth →
    Within (FitsIn outer.length ts ∧ e.height ≤ maxDepth)
      (takeAll ⟨.operand, g, outer⟩ located >>= phrase.settle) ⟨.connector (.of e), g, outer⟩

namespace Phrase.LeadsTo

theorem comparison (s : String) (r : Relation) (l : Literal) :
    operand.LeadsTo [.selector s, .relation r, .argument l] (.comparison s r l) := by
  intro located g outer tokens _ bound
  obtain ⟨p, _, rfl, second⟩ := located_cons tokens
  obtain ⟨q, _, rfl, third⟩ := located_cons second
  obtain ⟨o, _, rfl, none⟩ := located_cons third
  rw [List.map_eq_nil_iff.mp none]
  have fits := (FitsIn.comparison_iff s r l).mpr bound
  exact Within.ok ⟨fits, (by decide : 1 ≤ maxDepth)⟩ _

/-- Inside its parentheses a sentence starts in a new group, and the group around it comes back
behind them. -/
theorem group {ts : List Token} {e : Expression} (derived : Sentence ts e)
    (h : (chain false).LeadsTo ts e) : operand.LeadsTo (.opening :: (ts ++ [.closing])) e := by
  intro located g outer tokens _ bound
  obtain ⟨p, _, rfl, rest⟩ := located_cons tokens
  obtain ⟨inside, _, rfl, read, last⟩ := List.map_eq_append_iff.mp rest
  obtain ⟨q, _, rfl, none⟩ := located_cons last
  rw [List.map_eq_nil_iff.mp none, takeAll_cons]
  have closed : Within True (take ⟨.connector (.of e), .new, g :: outer⟩ .closing q)
      ⟨.connector (.of e), g, outer⟩ := Within.ok trivial _
  have behind : outer.length + 1 ≤ maxDepth →
      Within ((FitsIn (outer.length + 1) ts ∧ e.height ≤ maxDepth) ∧ True)
        (takeAll ⟨.operand, .new, g :: outer⟩ (inside ++ [(.closing, q)]))
        ⟨.connector (.of e), g, outer⟩ := by
    intro room
    have within := h inside .new (g :: outer) read rfl room
    rw [takeAll_closing]
    exact within.bind (f := fun s => s.take .closing q) fun _ => closed
  have whole := (take_opening_within bound g p).bind
    (f := fun s => s.takeAll (inside ++ [(.closing, q)])) behind
  have settled : ∀ x : Except ParseError ParseState, x >>= operand.settle = x :=
    fun x => bind_pure x
  rw [settled]
  apply whole.of_iff
  rw [FitsIn.group_iff derived]
  constructor
  · rintro ⟨fits, shallow⟩
    exact ⟨fits.bound, ⟨fits, shallow⟩, trivial⟩
  · rintro ⟨_, ⟨fits, shallow⟩, _⟩
    exact ⟨fits, shallow⟩

theorem single {tight : Bool} {ts : List Token} {e : Expression} (h : (part tight).LeadsTo ts e) :
    (chain tight).LeadsTo ts e := by
  intro located g outer tokens starts bound
  have within := h located g outer tokens starts.part bound
  have settled : Within True (ParseState.settle tight ⟨.connector (.of e), g, outer⟩)
      ⟨.connector (.of e), g, outer⟩ := by
    rw [settle_settled starts]
    exact Within.ok trivial _
  have whole := within.bind (f := ParseState.settle tight) fun _ => settled
  rw [← bind_settle] at whole
  exact whole.of_iff (iff_of_eq (and_true _).symm)

/-- The connector waits in the group until the right operand is there. -/
theorem join {c : Connector} {ts us : List Token} {a b : Expression}
    (derived : Derives (.chain c.isTight) ts a) (left : (chain c.isTight).LeadsTo ts a)
    (right : (part c.isTight).LeadsTo us b) :
    (chain c.isTight).LeadsTo (ts ++ .connector c :: us) (.joined c a b) := by
  intro located g outer tokens starts bound
  obtain ⟨before, _, rfl, first, rest⟩ := List.map_eq_append_iff.mp tokens
  obtain ⟨p, after, rfl, second⟩ := located_cons rest
  -- The right operand starts in the group where `c` waits, and settling it lets `c` join.
  have operand := right after _ outer second (g.startsIn_behind ⟨.of a, c, p⟩) bound
  have joined := operand.bind (f := ParseState.settle c.isTight) fun _ =>
    settle_behind_within starts a b outer p
  rw [← bind_settle] at joined
  have behind : Within ((FitsIn outer.length us ∧ b.height ≤ maxDepth) ∧
        (Expression.joined c a b).height ≤ maxDepth)
      (take ⟨.connector (.of a), g, outer⟩ (.connector c) p >>= fun s =>
        s.takeAll after >>= ParseState.settle c.isTight)
      ⟨.connector (.of (.joined c a b)), g, outer⟩ := by
    rw [take_connector_settled starts]
    exact joined
  have whole := (left before g outer first starts bound).bind
    (f := fun s => s.take (.connector c) p >>= fun s =>
      s.takeAll after >>= ParseState.settle c.isTight)
    fun _ => behind
  -- The connectors of the left operand join at `c`, not at the end of the tokens.
  change Within _ (takeAll _ _ >>= ParseState.settle _) _
  rw [takeAll_connector]
  apply whole.of_iff
  rw [FitsIn.join_iff derived]
  have : (Expression.joined c a b).height = 1 + max a.height b.height := rfl
  constructor
  · rintro ⟨⟨fits, fits'⟩, shallow⟩
    exact ⟨⟨fits, by omega⟩, ⟨fits', by omega⟩, shallow⟩
  · rintro ⟨⟨fits, _⟩, ⟨fits', _⟩, shallow⟩
    exact ⟨⟨fits, fits'⟩, shallow⟩

end Phrase.LeadsTo

/-- The parser takes every phrase of the grammar and has its tree in the end, if the tree and the
groups around it keep to the limits; else it says that it nests too deep. -/
theorem Derives.leadsTo {phrase : Phrase} {ts : List Token} {e : Expression}
    (h : Derives phrase ts e) : phrase.LeadsTo ts e := by
  induction h with
  | comparison s r l => exact .comparison s r l
  | group inner ih => exact .group inner ih
  | single _ ih => exact .single ih
  | join strength left right ihl ihr =>
    subst strength
    exact .join left ihl ihr

/-- All of a sentence is taken and gives its tree at the end of the input. -/
theorem Derives.finish_within {ts : List Token} {e : Expression} (h : Sentence ts e)
    {located : List (Token × Nat)} (tokens : located.map Prod.fst = ts) (position : Nat) :
    Within (FitsIn 0 ts ∧ e.height ≤ maxDepth)
      (takeAll .start located >>= fun s => s.finish position) e := by
  have settled := h.leadsTo located .new [] tokens rfl (Nat.zero_le maxDepth)
  have finished : Within True (finish ⟨.connector (.of e), .new, []⟩ position) e := Within.ok trivial _
  have whole := settled.bind (f := fun s => s.finish position) fun _ => finished
  have steps : takeAll .start located >>= (fun s => s.finish position) =
      (takeAll .start located >>= settle false) >>= fun s => s.finish position := by
    rw [bind_assoc]
    congr 1
    funext s
    exact finish_eq s position
  rw [steps]
  exact whole.of_iff (iff_of_eq (and_true _).symm)

end EntityFilter
