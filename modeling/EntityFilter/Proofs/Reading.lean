import EntityFilter.Proofs.Fallible
import EntityFilter.Proofs.Grammar

namespace EntityFilter

open Fallible

/-- The tokens that what waits for an operand was read from. -/
inductive Waits (tight : Bool) : Option Pending → List (Token × Nat) → Prop where
  | nothing : Waits tight none []
  | pending {p : Pending} {ts : List (Token × Nat)} (strength : p.connector.isTight = tight)
    (left : Derives (.chain tight) (ts.map Prod.fst) p.left.expression) :
    Waits tight (some p) (ts ++ [(.connector p.connector, p.position)])

structure Group.ReadFrom (g : Group) (ts us : List (Token × Nat)) : Prop where
  loose : Waits false g.loose ts
  tight : Waits true g.tight us

/-- The tokens of open groups, the innermost first, each up to the parenthesis that opens the
next. -/
inductive Surround : List Group → List (Token × Nat) → Prop where
  | nothing : Surround [] []
  | group {g : Group} {gs : List Group} {ts us vs : List (Token × Nat)} {position : Nat}
    (inner : g.ReadFrom us vs) (outer : Surround gs ts) :
    Surround (g :: gs) (ts ++ (us ++ vs) ++ [(.opening, position)])

def Stage.ReadFrom : Stage → List (Token × Nat) → Prop
  | operand, ts => ts = []
  | relation s, ts => ∃ o, ts = [(.selector s, o)]
  | argument s r, ts => ∃ o p, ts = [(.selector s, o), (.relation r, p)]
  | connector x, ts => Derives .operand (ts.map Prod.fst) x.expression

/-- The tokens of the groups around, of what waits in the group and of what has begun behind it. -/
inductive ParseState.ReadFrom (s : ParseState) (read : List (Token × Nat)) : Prop where
  | intro {ts us vs ws : List (Token × Nat)} (outer : Surround s.outer ts)
    (group : s.group.ReadFrom us vs) (stage : s.stage.ReadFrom ws)
    (parts : read = ts ++ (us ++ vs) ++ ws)

/-- An operand joins what waits for it to a chain of the tokens of both. -/
theorem Waits.join {tight : Bool} {p : Option Pending} {ts us : List (Token × Nat)} {x y : Operand}
    (waits : Waits tight p ts) (right : Derives (.part tight) (us.map Prod.fst) x.expression)
    (h : joinPending p x = .ok y) :
    Derives (.chain tight) ((ts ++ us).map Prod.fst) y.expression := by
  cases waits with
  | nothing =>
    cases h
    exact .single right
  | pending strength left =>
    simp only [joinPending, Pending.join?] at h
    split at h
    · cases h
    · cases h
      simp only [List.append_assoc, List.map_append]
      exact .join strength left right

/-- What is read in a group is a sentence when the group is closed. -/
theorem Group.ReadFrom.closeGroup {s : ParseState} {ts us vs : List (Token × Nat)} {x y : Operand}
    (h : s.group.ReadFrom ts us) (operand : Derives .operand (vs.map Prod.fst) x.expression)
    (closed : s.closeGroup x = .ok y) : Sentence ((ts ++ us ++ vs).map Prod.fst) y.expression := by
  simp only [ParseState.closeGroup, bind_eq_ok] at closed
  obtain ⟨z, tight, loose⟩ := closed
  have chain := h.tight.join operand tight
  have whole := h.loose.join chain loose
  rwa [List.append_assoc]

theorem Group.readFrom_new : Group.new.ReadFrom [] [] := ⟨.nothing, .nothing⟩

namespace ParseState

variable {stage : Stage} {g : Group} {gs : List Group} {s' : ParseState} {x : Operand} {t : Token}
  {position : Nat} {ts us vs ws : List (Token × Nat)}

theorem readFrom_start : start.ReadFrom [] := .intro .nothing Group.readFrom_new rfl rfl

/-- A connector is added to the tokens that its left operand was read from. -/
theorem ReadFrom.connect {c : Connector} (outer : Surround gs ts) (group : g.ReadFrom us vs)
    (operand : Derives .operand (ws.map Prod.fst) x.expression)
    (h : connect ⟨stage, g, gs⟩ x c position = .ok s') :
    s'.ReadFrom (ts ++ (us ++ vs) ++ ws ++ [(.connector c, position)]) := by
  unfold ParseState.connect at h
  split at h
  · rename_i tight
    obtain ⟨y, joined, h⟩ := bind_eq_ok.mp h
    cases h
    have left := group.tight.join operand joined
    have waits : Group.ReadFrom { g with tight := some ⟨y, c, position⟩ } us
        (vs ++ ws ++ [(.connector c, position)]) := ⟨group.loose, .pending tight left⟩
    exact .intro outer waits rfl (by simp)
  · rename_i loose
    obtain ⟨y, closed, h⟩ := bind_eq_ok.mp h
    cases h
    have left := group.closeGroup operand closed
    have waits : Group.ReadFrom ⟨some ⟨y, c, position⟩, none⟩
        (us ++ vs ++ ws ++ [(.connector c, position)]) [] :=
      ⟨.pending (by simpa using loose) left, .nothing⟩
    exact .intro outer waits rfl (by simp)

theorem ReadFrom.close (outer : Surround gs ts) (group : g.ReadFrom us vs)
    (operand : Derives .operand (ws.map Prod.fst) x.expression)
    (h : close ⟨stage, g, gs⟩ x t position = .ok s') :
    s'.ReadFrom (ts ++ (us ++ vs) ++ ws ++ [(t, position)]) := by
  obtain ⟨y, closed, h⟩ := bind_eq_ok.mp h
  have inner := group.closeGroup operand closed
  cases outer with
  | nothing => cases h
  | @group _ _ _ _ _ opened around rest =>
    cases t with
    | closing =>
      cases h
      have whole : (Stage.connector y).ReadFrom
          ((.opening, opened) :: (us ++ vs ++ ws ++ [(.closing, position)])) := by
        have derived := Derives.group inner
        simpa [Stage.ReadFrom] using derived
      exact .intro rest around whole (by simp)
    | _ => cases h

/-- A token that is taken is one more that the state was read from. -/
theorem ReadFrom.take {s : ParseState} (hs : s.ReadFrom ts) (h : s.take t position = .ok s') :
    s'.ReadFrom (ts ++ [(t, position)]) := by
  obtain ⟨stage, g, gs⟩ := s
  obtain ⟨outer, group, read, rfl⟩ := hs
  cases stage with
  | operand =>
    cases read
    cases t with
    | opening =>
      simp only [ParseState.take] at h
      split at h
      · cases h
      · cases h
        have surround : Surround (g :: gs) (_ ++ (_ ++ _) ++ [(Token.opening, position)]) :=
          .group group outer
        exact .intro surround Group.readFrom_new rfl (by simp)
    | selector text =>
      cases h
      have begun : (Stage.relation text).ReadFrom [(.selector text, position)] := ⟨_, rfl⟩
      exact .intro outer group begun (by simp)
    | _ => cases h
  | relation text =>
    obtain ⟨o, rfl⟩ := read
    cases t with
    | relation r =>
      cases h
      have begun : (Stage.argument text r).ReadFrom
          [(.selector text, o), (.relation r, position)] := ⟨_, _, rfl⟩
      exact .intro outer group begun (by simp)
    | _ => cases h
  | argument text r =>
    obtain ⟨o, p, rfl⟩ := read
    cases t with
    | argument l =>
      cases h
      have whole : (Stage.connector (.comparison text r l)).ReadFrom
          [(.selector text, o), (.relation r, p), (.argument l, position)] := .comparison text r l
      exact .intro outer group whole (by simp)
    | _ => cases h
  | connector x =>
    cases t with
    | connector c => exact .connect outer group read h
    | _ => exact .close outer group read h

/-- At the end of the input the tokens that were read are a sentence with the tree. -/
theorem ReadFrom.finish {s : ParseState} {e : Expression} (hs : s.ReadFrom ts)
    (h : s.finish position = .ok e) : Sentence (ts.map Prod.fst) e := by
  obtain ⟨stage, g, gs⟩ := s
  obtain ⟨outer, group, read, rfl⟩ := hs
  cases stage with
  | connector x =>
    obtain ⟨y, closed, h⟩ := bind_eq_ok.mp h
    have whole := group.closeGroup read closed
    cases outer with
    | nothing =>
      cases h
      simpa using whole
    | group => cases h
  | _ => cases h

end ParseState

end EntityFilter
