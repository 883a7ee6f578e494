import EntityFilter.Proofs.Joins
import EntityFilter.Proofs.Leaves

namespace EntityFilter

open Fallible

namespace Truth

/-- The first is not known, or the second is the same. -/
def Settles (t u : Truth) : Prop := t = .unknown ∨ u = t

instance (t u : Truth) : Decidable (Settles t u) := inferInstanceAs (Decidable (_ ∨ _))

namespace Settles

variable {t t' u u' : Truth}

theorem refl (t : Truth) : Settles t t := .inr rfl

/-- The connectives are monotone: what they know of operands that are not all known stays. -/
theorem and (ht : Settles t t') (hu : Settles u u') : Settles (t.and u) (t'.and u') := by
  revert ht hu
  cases t <;> cases t' <;> cases u <;> cases u' <;> decide

theorem or (ht : Settles t t') (hu : Settles u u') : Settles (t.or u) (t'.or u') := by
  revert ht hu
  cases t <;> cases t' <;> cases u <;> cases u' <;> decide

theorem not (ht : Settles t t') : Settles t.not t'.not := by
  revert ht
  cases t <;> cases t' <;> decide

end Settles

/-- What has become unknown is never false again. -/
theorem anyFrom_unknown {ε α : Type} {test : α → Except ε Truth} {xs : List α} {u : Truth}
    (h : anyFrom test .unknown xs = .ok u) : u ≠ .false := by
  induction xs with
  | nil =>
    cases h
    decide
  | cons x xs ih =>
    obtain ⟨v, _, h⟩ := bind_eq_ok.mp h
    cases v with
    | true =>
      cases h
      decide
    | false => exact ih h
    | unknown => exact ih h

/-- A test over completed items settles what it settled before. Where it ends early it was true,
which it stays. -/
theorem Settles.anyFrom {ε α : Type} {R : α → α → Prop} {test test' : α → Except ε Truth}
    (tests : ∀ x x' v v', R x x' → test x = .ok v → test' x' = .ok v' → Settles v v')
    {xs xs' : List α} (h : List.Forall₂ R xs xs') {t t' u u' : Truth} (start : Settles t t')
    (hu : Truth.anyFrom test t xs = .ok u) (hu' : Truth.anyFrom test' t' xs' = .ok u') :
    Settles u u' := by
  induction h generalizing t t' with
  | nil =>
    cases hu
    cases hu'
    exact start
  | cons first _ ih =>
    obtain ⟨v, hv, hu⟩ := bind_eq_ok.mp hu
    obtain ⟨v', hv', hu'⟩ := bind_eq_ok.mp hu'
    have both := start.or (tests _ _ _ _ first hv hv')
    dsimp only at hu hu'
    by_cases found : t.or v = .true
    · rw [found] at both
      have found' : t'.or v' = .true := both.resolve_left nofun
      rw [if_pos found] at hu
      rw [if_pos found'] at hu'
      cases hu
      cases hu'
      exact .refl _
    · rw [if_neg found] at hu
      by_cases found' : t'.or v' = .true
      · -- The second run stops here, where the first is not yet sure.
        rw [if_pos found'] at hu'
        cases hu'
        have unsure : t.or v = .unknown := by
          rcases both with unknown | same
          · exact unknown
          · exact absurd (same.symm.trans found') found
        rw [unsure] at hu
        have possible := anyFrom_unknown hu
        cases u with
        | true => exact .refl _
        | false => exact absurd rfl possible
        | unknown => exact .inl rfl
      · rw [if_neg found'] at hu'
        exact ih both hu hu'

end Truth

/-- What lies ahead on a path: the elements of a collection, if it stands in front of one, and then
the attributes. -/
structure Way where
  crosses : Bool
  rest : List Attribute

namespace Way

/-- The way on from the field of that name. -/
def field? (name : String) : Way → Option Way
  | ⟨false, a :: rest⟩ => if a.name = name then some ⟨a.isCollection, rest⟩ else none
  | _ => none

/-- The way on from an element. -/
def item? : Way → Option Way
  | ⟨true, rest⟩ => some ⟨false, rest⟩
  | _ => none

/-- No collection is still to be crossed. -/
def Clear (w : Way) : Prop := w.crosses = false ∧ ∀ a ∈ w.rest, a.isCollection = false

end Way

namespace Path

def way (path : Path) : Way := ⟨false, path.segments⟩

/-- The path to a target that is counted, which is to cross it. -/
def counted (path : Path) : Path :=
  { path with target := { path.target with multiplicity := .collection } }

theorem counted_eq_self {path : Path} (collection : path.isCollectionValued = true) :
    path.counted = path := by
  obtain ⟨hops, name, type, multiplicity⟩ := path
  cases multiplicity with
  | single => cases collection
  | collection => rfl

end Path

def Predicate.ways : Predicate → List Way
  | and p q | or p q => p.ways ++ q.ways
  | not p => p.ways
  | compare path _ _ | like path _ _ | contains path _ _ => [path.way]
  | size path _ _ => [path.counted.way]

/-- The second value is the first with something filled in where it was missing or null, at places
from which no collection is to be crossed on any of the ways through them. A collection that is
missing has no elements, which is known already. -/
inductive Completed : List Way → Option Json → Option Json → Prop where
  | same {ways : List Way} (v : Option Json) : Completed ways v v
  | filled {ways : List Way} {v : Option Json} (missing : v = none ∨ v = some .null)
    (clear : ∀ w ∈ ways, w.Clear) (v' : Json) : Completed ways v (some v')
  | object {ways : List Way} {fields fields' : List (String × Json)}
    (each : ∀ name, Completed (ways.filterMap (Way.field? name)) ((Json.object fields).get? name)
      ((Json.object fields').get? name)) :
    Completed ways (some (.object fields)) (some (.object fields'))
  | array {ways : List Way} {items items' : List Json} (length : items.length = items'.length)
    (each : ∀ i : Nat, Completed (ways.filterMap Way.item?) items[i]? items'[i]?) :
    Completed ways (some (.array items)) (some (.array items'))

/-- What is there and not null. -/
def Record.present (v : Option Json) : Option Json := v.filter fun x => !x.isNull

namespace Completed

open Record

theorem mono {ways ways' : List Way} {v v' : Option Json} (h : Completed ways v v')
    (fewer : ∀ w ∈ ways', w ∈ ways) : Completed ways' v v' := by
  have kept : ∀ {ways ways' : List Way} (f : Way → Option Way), (∀ w ∈ ways', w ∈ ways) →
      ∀ w ∈ ways'.filterMap f, w ∈ ways.filterMap f := by
    intro ways ways' f fewer w hw
    obtain ⟨u, hu, found⟩ := List.mem_filterMap.mp hw
    exact List.mem_filterMap.mpr ⟨u, fewer u hu, found⟩
  induction h generalizing ways' with
  | same v => exact .same v
  | filled missing clear v' => exact .filled missing (fun w hw => clear w (fewer w hw)) v'
  | object _ ih => exact .object fun name => ih name (kept _ fewer)
  | array length _ ih => exact .array length fun i => ih i (kept _ fewer)

/-- A null is as good as nothing. -/
theorem withoutNull {ways : List Way} {v v' : Option Json} (h : Completed ways v v') :
    Completed ways (present v) (present v') := by
  cases h with
  | same v => exact .same _
  | filled missing clear v' =>
    have nothing : present v = none := by rcases missing with rfl | rfl <;> rfl
    rw [nothing]
    cases v' with
    | null => exact .same none
    | _ => exact .filled (.inl rfl) clear _
  | object each => exact .object each
  | array length each => exact .array length each

section

variable {a : Attribute} {rest : List Attribute} {v v' : Option Json}

theorem field (h : Completed [⟨false, a :: rest⟩] v v') :
    Completed [⟨a.isCollection, rest⟩] (v.bind (field? a.name)) (v'.bind (field? a.name)) := by
  cases h with
  | same v => exact .same _
  | filled missing clear v' =>
    have nothing : v.bind (field? a.name) = none := by rcases missing with rfl | rfl <;> rfl
    rw [nothing]
    cases found : (some v').bind (field? a.name) with
    | none => exact .same none
    | some w =>
      obtain ⟨_, singles⟩ := clear _ (List.mem_singleton_self _)
      refine .filled (.inl rfl) ?_ w
      intro w hw
      rw [List.mem_singleton.mp hw]
      exact ⟨singles a List.mem_cons_self, fun b hb => singles b (List.mem_cons_of_mem a hb)⟩
  | object each =>
    have here : [(⟨false, a :: rest⟩ : Way)].filterMap (Way.field? a.name) =
        [⟨a.isCollection, rest⟩] := by simp [Way.field?]
    have field := each a.name
    rw [here] at field
    exact field.withoutNull
  | array _ _ => exact .same none

/-- Where a collection is to be crossed nothing was filled in but inside its elements. -/
theorem crossed (h : Completed [⟨true, rest⟩] v v') :
    v' = v ∨ (∃ fields, v = some (.object fields)) ∨ ∃ items items', v = some (.array items) ∧
      v' = some (.array items') ∧
      List.Forall₂ (fun x x' => Completed [⟨false, rest⟩] (some x) (some x')) items items' := by
  cases h with
  | same v => exact .inl rfl
  | filled _ clear _ =>
    obtain ⟨uncrossed, _⟩ := clear _ (List.mem_singleton_self _)
    cases uncrossed
  | object _ => exact .inr (.inl ⟨_, rfl⟩)
  | @array _ items items' length each =>
    refine .inr (.inr ⟨items, items', rfl, rfl, ?_⟩)
    refine List.forall₂_iff_get.mpr ⟨length, ?_⟩
    intro i hi hi'
    have item := each i
    rw [List.getElem?_eq_getElem hi, List.getElem?_eq_getElem hi'] at item
    exact item

end

end Completed

namespace Record

variable {path : Path} {hop : Attribute} {rest : List Attribute}

theorem asEntity_eq_ok {v : Json} {x : Option Json} (h : asEntity path hop v = .ok x) :
    x = present (some v) := by
  cases v with
  | null =>
    cases h
    rfl
  | object fields =>
    cases h
    rfl
  | _ => cases h

theorem follow_plain (single : hop.isCollection = false) {parent : Option Json}
    {next : List (Option Json)} (h : follow path hop parent = .ok next) :
    next = [present (parent.bind (field? hop.name))] := by
  simp only [follow, single] at h
  cases found : parent.bind (field? hop.name) with
  | none =>
    rw [found] at h
    cases h
    rfl
  | some v =>
    simp only [found] at h
    obtain ⟨x, entity, rfl⟩ := map_eq_ok.mp h
    rw [asEntity_eq_ok entity]

/-- A hop leads from completed places to as many completed places. -/
theorem follow_completed {parent parent' : Option Json}
    (h : Completed [⟨false, hop :: rest⟩] parent parent') {next next' : List (Option Json)}
    (hx : follow path hop parent = .ok next) (hx' : follow path hop parent' = .ok next') :
    List.Forall₂ (Completed [⟨false, rest⟩]) next next' := by
  have field := h.field
  cases collection : hop.isCollection with
  | false =>
    rw [collection] at field
    rw [follow_plain collection hx, follow_plain collection hx']
    exact .cons field.withoutNull .nil
  | true =>
    rw [collection] at field
    simp only [follow, collection, if_true] at hx hx'
    rcases field.crossed with same | ⟨fields, found⟩ | ⟨items, items', found, found', each⟩
    · rw [same, hx] at hx'
      cases hx'
      exact List.forall₂_same.mpr fun x _ => .same x
    · rw [found] at hx
      cases hx
    · rw [found] at hx
      rw [found'] at hx'
      refine mapM_related ?_ each hx hx'
      intro v v' x x' completed entity entity'
      rw [asEntity_eq_ok entity, asEntity_eq_ok entity']
      exact completed.withoutNull

/-- Along the hops what is reached is completed in its places. -/
theorem followAll_completed {hops : List Attribute} {frontier frontier' : List (Option Json)}
    (h : List.Forall₂ (Completed [⟨false, hops ++ rest⟩]) frontier frontier')
    {places places' : List (Option Json)} (hx : followAll path hops frontier = .ok places)
    (hx' : followAll path hops frontier' = .ok places') :
    List.Forall₂ (Completed [⟨false, rest⟩]) places places' := by
  induction hops generalizing frontier frontier' with
  | nil =>
    cases hx
    cases hx'
    exact h
  | cons hop hops ih =>
    obtain ⟨next, walked, hx⟩ := bind_eq_ok.mp hx
    obtain ⟨next', walked', hx'⟩ := bind_eq_ok.mp hx'
    have steps : List.Forall₂ (List.Forall₂ (Completed [⟨false, hops ++ rest⟩])) next next' := by
      refine mapM_related ?_ h walked walked'
      intro parent parent' found found' completed
      exact follow_completed completed
    exact ih (List.rel_flatten steps) hx hx'

/-- At the target nothing is found in other places than before. -/
theorem targetValues_completed {parent parent' : Option Json}
    (h : Completed [⟨false, [path.target]⟩] parent parent') {vs vs' : List (Option Json)}
    (hx : targetValues path parent = .ok vs) (hx' : targetValues path parent' = .ok vs') :
    List.Forall₂ (Completed [⟨false, []⟩]) vs vs' := by
  have field := h.field
  simp only [targetValues, Path.isCollectionValued] at hx hx'
  cases collection : path.target.isCollection with
  | false =>
    simp only [collection] at field hx hx'
    cases hx
    cases hx'
    exact .cons field .nil
  | true =>
    simp only [collection, if_true] at field hx hx'
    rcases field.crossed with same | ⟨fields, found⟩ | ⟨items, items', found, found', each⟩
    · rw [same, hx] at hx'
      cases hx'
      exact List.forall₂_same.mpr fun x _ => .same x
    · rw [found] at hx
      cases hx
    · rw [found] at hx
      rw [found'] at hx'
      cases hx
      cases hx'
      exact List.forall₂_map_left_iff.mpr (List.forall₂_map_right_iff.mpr each)

/-- What is counted was not filled in, nor was any element added. -/
theorem targetCount_completed {parent parent' : Json}
    (h : Completed [⟨false, [path.counted.target]⟩] (some parent) (some parent')) {n n' : Nat}
    (hx : targetCount path parent = .ok n) (hx' : targetCount path parent' = .ok n') : n' = n := by
  have field : Completed [⟨true, []⟩] (field? path.target.name parent)
    (field? path.target.name parent') := h.field
  simp only [targetCount] at hx hx'
  rcases field.crossed with same | ⟨fields, found⟩ | ⟨items, items', found, found', each⟩
  · rw [same, hx] at hx'
    cases hx'
    rfl
  · rw [found] at hx
    cases hx
  · rw [found] at hx
    rw [found'] at hx'
    cases hx
    cases hx'
    exact each.length_eq.symm

end Record

namespace Predicate

open Record

variable {path : Path}

theorem sizes_completed {parent parent' : Option Json}
    (h : Completed [⟨false, [path.counted.target]⟩] parent parent') {ns ns' : List Nat}
    (hx : sizes path parent = .ok ns) (hx' : sizes path parent' = .ok ns') : ns' = ns := by
  cases parent with
  | none =>
    cases h with
    | same =>
      cases hx
      cases hx'
      rfl
    | filled _ clear _ =>
      have uncounted := (clear _ (List.mem_singleton_self _)).2 _ (List.mem_singleton_self _)
      cases uncounted
  | some v =>
    obtain ⟨v', rfl⟩ : ∃ v', parent' = some v' := by cases h <;> exact ⟨_, rfl⟩
    obtain ⟨n, count, rfl⟩ := map_eq_ok.mp hx
    obtain ⟨n', count', rfl⟩ := map_eq_ok.mp hx'
    rw [targetCount_completed h count count']

/-- No type has objects or arrays among its values. -/
theorem testStored_nested {test : Value → Except ExecutionError Bool} {v : Json} {t : Truth}
    (nested : (∃ fields, v = .object fields) ∨ ∃ items, v = .array items) :
    testStored path test (some v) ≠ .ok t := by
  have unread : valueOf? path.target.type v = none := by
    rcases nested with ⟨_, rfl⟩ | ⟨_, rfl⟩ <;> cases path.target.type <;> rfl
  rcases nested with ⟨_, rfl⟩ | ⟨_, rfl⟩ <;> simp [testStored, Record.read, unread]

/-- What is missing is neither true nor false, so a test of it may come to anything later. -/
theorem testStored_completed {test : Value → Except ExecutionError Bool} {v v' : Option Json}
    (h : Completed [⟨false, []⟩] v v') {t t' : Truth} (ht : testStored path test v = .ok t)
    (ht' : testStored path test v' = .ok t') : Truth.Settles t t' := by
  cases h with
  | same v =>
    rw [ht] at ht'
    cases ht'
    exact .refl _
  | filled missing _ _ =>
    left
    rcases missing with rfl | rfl
    · cases ht
      rfl
    · cases ht
      rfl
  | object _ => exact absurd ht (testStored_nested (.inl ⟨_, rfl⟩))
  | array _ _ => exact absurd ht (testStored_nested (.inr ⟨_, rfl⟩))

section

variable {β : Type} {record record' : Json} {hops rest : List Attribute}
  {find : Option Json → Except ExecutionError (List β)} {test : β → Outcome} {R : β → β → Prop}

/-- What is found in completed places, and tested, is found at least as surely. -/
theorem anyReached_completed (h : Completed [⟨false, hops ++ rest⟩] (some record) (some record'))
    (finds : ∀ p p' xs xs', Completed [⟨false, rest⟩] p p' → find p = .ok xs → find p' = .ok xs' →
      List.Forall₂ R xs xs')
    (tests : ∀ x x' t t', R x x' → test x = .ok t → test x' = .ok t' → Truth.Settles t t')
    {t t' : Truth} (ht : anyReached path hops find test [some record] = .ok t)
    (ht' : anyReached path hops find test [some record'] = .ok t') : Truth.Settles t t' := by
  obtain ⟨ps, reached, ht⟩ := bind_eq_ok.mp ht
  obtain ⟨found, walked, ht⟩ := bind_eq_ok.mp ht
  obtain ⟨ps', reached', ht'⟩ := bind_eq_ok.mp ht'
  obtain ⟨found', walked', ht'⟩ := bind_eq_ok.mp ht'
  have places := followAll_completed (.cons h .nil) reached reached'
  have all := List.rel_flatten (mapM_related finds places walked walked')
  exact .anyFrom tests all (.refl _) ht ht'

theorem someValue_completed (h : Completed [path.way] (some record) (some record'))
    {test : Value → Except ExecutionError Bool} {t t' : Truth}
    (ht : someValue record path test = .ok t) (ht' : someValue record' path test = .ok t') :
    Truth.Settles t t' := by
  rw [someValue_eq] at ht ht'
  exact anyReached_completed h (fun _ _ _ _ completed => targetValues_completed completed)
    (fun _ _ _ _ completed => testStored_completed completed) ht ht'

theorem evalSize_completed (h : Completed [path.counted.way] (some record) (some record'))
    {r : Relation} {v : Value} {t t' : Truth} (ht : evalSize record path r v = .ok t)
    (ht' : evalSize record' path r v = .ok t') : Truth.Settles t t' := by
  cases v with
  | integer n =>
    rw [evalSize_eq] at ht ht'
    have way : Completed [⟨false, path.hops ++ [path.counted.target]⟩] (some record) (some record') := h
    refine anyReached_completed (R := Eq) way ?_ ?_ ht ht'
    · intro p p' ns ns' completed counted counted'
      rw [sizes_completed completed counted counted']
      exact List.forall₂_same.mpr fun _ _ => rfl
    · rintro n _ t t' rfl tested tested'
      rw [tested] at tested'
      cases tested'
      exact .refl _
  | _ => cases ht

end

theorem negateIf_settles {t t' : Truth} (h : Truth.Settles t t') (negated : Bool) :
    Truth.Settles (negateIf negated t) (negateIf negated t') := by
  cases negated with
  | false => exact h
  | true => exact h.not

theorem settles_map {x x' : Outcome} {f : Truth → Truth}
    (mono : ∀ t t', Truth.Settles t t' → Truth.Settles (f t) (f t'))
    (h : ∀ t t', x = .ok t → x' = .ok t' → Truth.Settles t t') {t t' : Truth}
    (ht : x.map f = .ok t) (ht' : x'.map f = .ok t') : Truth.Settles t t' := by
  obtain ⟨u, hu, rfl⟩ := map_eq_ok.mp ht
  obtain ⟨u', hu', rfl⟩ := map_eq_ok.mp ht'
  exact mono u u' (h u u' hu hu')

/-- An operand that is left out in one of the runs would not have changed what is decided. -/
theorem settles_connected {x x' y y' : Outcome} (decides : Truth) (join : Truth → Truth → Truth)
    (decided : decides ≠ .unknown) (absorbs : ∀ t, join decides t = decides)
    (mono : ∀ t t' u u', Truth.Settles t t' → Truth.Settles u u' → Truth.Settles (join t u) (join t' u'))
    (hx : ∀ t t', x = .ok t → x' = .ok t' → Truth.Settles t t')
    (hy : ∀ t t', y = .ok t → y' = .ok t' → Truth.Settles t t') {u u' : Truth}
    (hu : (do let t ← x; if t = decides then .ok decides else y.map (join t)) = .ok u)
    (hu' : (do let t ← x'; if t = decides then .ok decides else y'.map (join t)) = .ok u') :
    Truth.Settles u u' := by
  obtain ⟨t, ht, hu⟩ := bind_eq_ok.mp hu
  obtain ⟨t', ht', hu'⟩ := bind_eq_ok.mp hu'
  have left := hx t t' ht ht'
  by_cases early : t = decides
  · rw [early] at left
    have early' : t' = decides := left.resolve_left decided
    rw [if_pos early] at hu
    rw [if_pos early'] at hu'
    cases hu
    cases hu'
    exact .refl _
  · rw [if_neg early] at hu
    obtain ⟨v, hv, rfl⟩ := map_eq_ok.mp hu
    by_cases early' : t' = decides
    · rw [if_pos early'] at hu'
      cases hu'
      have joined := mono t t' v v left (.refl v)
      rwa [early', absorbs] at joined
    · rw [if_neg early'] at hu'
      obtain ⟨v', hv', rfl⟩ := map_eq_ok.mp hu'
      exact mono t t' v v' left (hy v v' hv hv')

/-- A truth that is known of a record stays when the record is completed. -/
theorem eval_settles {engine : RegexEngine} {p : Predicate} {record record' : Json}
    (h : Completed p.ways (some record) (some record')) {t t' : Truth}
    (ht : p.eval engine record = .ok t) (ht' : p.eval engine record' = .ok t') :
    Truth.Settles t t' := by
  induction p generalizing t t' with
  | and p q ihp ihq =>
    have left : Completed p.ways _ _ := h.mono fun w hw => List.mem_append_left _ hw
    have right : Completed q.ways _ _ := h.mono fun w hw => List.mem_append_right _ hw
    exact settles_connected .false .and nofun (fun _ => rfl) (fun _ _ _ _ => .and)
      (fun _ _ => ihp left) (fun _ _ => ihq right) ht ht'
  | or p q ihp ihq =>
    have left : Completed p.ways _ _ := h.mono fun w hw => List.mem_append_left _ hw
    have right : Completed q.ways _ _ := h.mono fun w hw => List.mem_append_right _ hw
    exact settles_connected .true .or nofun (fun _ => rfl) (fun _ _ _ _ => .or)
      (fun _ _ => ihp left) (fun _ _ => ihq right) ht ht'
  | not p ih => exact settles_map (fun _ _ => .not) (fun _ _ => ih h) ht ht'
  | compare path r v => exact someValue_completed h ht ht'
  | like path pattern negated =>
    obtain ⟨items, ht, ht'⟩ := evalLike_of_eval ht ht'
    exact settles_map (fun _ _ known => negateIf_settles known negated)
      (fun _ _ => someValue_completed h) ht ht'
  | contains path v negated =>
    exact settles_map (fun _ _ known => negateIf_settles known negated)
      (fun _ _ => someValue_completed h) ht ht'
  | size path r v => exact evalSize_completed h ht ht'

/-- Sizes are those of collections. -/
def CountsCollections (p : Predicate) : Prop :=
  ∀ path r v, size path r v ∈ p.leaves → path.isCollectionValued = true

theorem CountsCollections.ways_eq {p : Predicate} (h : p.CountsCollections) :
    p.ways = p.paths.map Path.way := by
  induction p with
  | and p q ihp ihq | or p q ihp ihq =>
    have left := ihp fun path r v mem => h path r v (List.mem_append_left _ mem)
    have right := ihq fun path r v mem => h path r v (List.mem_append_right _ mem)
    rw [ways, paths, List.map_append, left, right]
  | not p ih => exact ih h
  | size path r v =>
    rw [ways, Path.counted_eq_self (h path r v (List.mem_singleton_self _))]
    rfl
  | _ => rfl

/-- A truth that is known stays when a record is completed. Where only collections are counted, as
in every compiled predicate, it may be completed wherever no path has a collection ahead. -/
theorem eval_completed (engine : RegexEngine) (p : Predicate) :
    (∀ record record' t t', Completed p.ways (some record) (some record') →
      p.eval engine record = .ok t → p.eval engine record' = .ok t' → t ≠ .unknown → t' = t) ∧
    (p.CountsCollections → p.ways = p.paths.map Path.way) ∧
    ∀ scope e, ofExpression scope e = .ok p → p.CountsCollections := by
  refine ⟨fun record record' t t' completed before after known => ?_,
    CountsCollections.ways_eq, fun scope e compiled path r v => collection_of_size compiled⟩
  exact (eval_settles completed before after).resolve_left known

/-- A pet that is not known and the town are filled in, and there still is a young pet. -/
theorem eval_completed_of_clinic :
    Completed Clinic.elders.ways (some Clinic.owner) (some Clinic.knownOwner) ∧
      Clinic.elders.eval .standard Clinic.owner = .ok .false ∧
      Clinic.elders.eval .standard Clinic.knownOwner = .ok .false := by
  have pet : ∀ w ∈ [(⟨true, [⟨"age", .integer, .single⟩]⟩ : Way)].filterMap Way.item?, w.Clear := by
    intro w hw
    rw [List.mem_singleton.mp hw]
    exact ⟨rfl, by simp [Attribute.isCollection]⟩
  have town : ∀ w ∈ [(⟨false, []⟩ : Way)], w.Clear := by
    intro w hw
    rw [List.mem_singleton.mp hw]
    exact ⟨rfl, by simp⟩
  have completed : Completed Clinic.elders.ways (some Clinic.owner) (some Clinic.knownOwner) := by
    refine .object fun name => ?_
    by_cases city : name = "city"
    · subst city
      exact .filled (.inr rfl) town _
    · by_cases pets : name = "pets"
      · subst pets
        refine .array rfl fun i => ?_
        match i with
        | 0 => exact .filled (.inr rfl) pet _
        | 1 => exact .same _
        | i + 2 => exact .same _
      · have none : ∀ v w, (Json.object [("city", v), ("pets", w)]).get? name = none := by
          simp [Json.get?, Ne.symm city, Ne.symm pets]
        rw [none, none]
        exact .same _
  have before : Clinic.elders.eval .standard Clinic.owner = .ok .false := by decide +kernel
  have known : ∃ t, Clinic.elders.eval .standard Clinic.knownOwner = .ok t :=
    ⟨.false, by decide +kernel⟩
  obtain ⟨t, after⟩ := known
  have same := (eval_completed .standard Clinic.elders).1 _ _ _ _ completed before after nofun
  exact ⟨completed, before, same ▸ after⟩

/-- The size of what is no collection counts a null as empty. -/
theorem eval_not_settled_of_single :
    ¬ ∀ (p : Predicate) (record record' : Json) (t t' : Truth),
      (∀ path ∈ p.paths, path.isCollectionValued = false) →
      Completed (p.paths.map Path.way) (some record) (some record') →
      p.eval .standard record = .ok t → p.eval .standard record' = .ok t' → t ≠ .unknown →
      t' = t := by
  intro settled
  have completed : Completed [⟨false, [⟨"age", .integer, .single⟩]⟩]
      (some (.object [("age", .null)])) (some (.object [("age", .array [.number (.integer 1)])])) := by
    refine .object fun name => ?_
    by_cases age : name = "age"
    · subst age
      refine .filled (.inr rfl) (fun w hw => ?_) _
      rw [List.mem_singleton.mp hw]
      exact ⟨rfl, by simp⟩
    · have none : ∀ v, (Json.object [("age", v)]).get? name = none := by
        simp [Json.get?, Ne.symm age]
      rw [none, none]
      exact .same _
  have same := settled (.size ⟨[], ⟨"age", .integer, .single⟩⟩ .gt (.integer 0)) _ _ .false .true
    (by decide) completed (by decide +kernel) (by decide +kernel) nofun
  cases same

end Predicate

end EntityFilter
