import EntityFilter.Proofs.Completion
import EntityFilter.Proofs.Existence

namespace EntityFilter

open Fallible

/-- The second value is the first with the elements of its arrays in another order, at any depth. -/
inductive Json.Reordered : Json → Json → Prop where
  | same (v : Json) : Reordered v v
  | array {items moved items' : List Json} (each : List.Forall₂ Reordered items moved)
    (order : moved.Perm items') : Reordered (.array items) (.array items')
  | object {fields fields' : List (String × Json)}
    (each : ∀ name, Option.Rel Reordered ((Json.object fields).get? name)
      ((Json.object fields').get? name)) : Reordered (.object fields) (.object fields')

/-- Each item of either list has a partner in the other. -/
structure Matched {α β : Type} (R : α → β → Prop) (xs : List α) (ys : List β) : Prop where
  left : ∀ x ∈ xs, ∃ y ∈ ys, R x y
  right : ∀ y ∈ ys, ∃ x ∈ xs, R x y

namespace Matched

variable {α α' β β' ε : Type} {R : α → β → Prop} {xs : List α} {ys zs : List β}

theorem nil : Matched R [] [] := ⟨by simp, by simp⟩

theorem cons {x : α} {y : β} (first : R x y) (rest : Matched R xs ys) :
    Matched R (x :: xs) (y :: ys) where
  left a mem := by
    rcases List.mem_cons.mp mem with rfl | mem
    · exact ⟨y, List.mem_cons_self, first⟩
    · obtain ⟨b, hb, related⟩ := rest.left a mem
      exact ⟨b, List.mem_cons_of_mem _ hb, related⟩
  right b mem := by
    rcases List.mem_cons.mp mem with rfl | mem
    · exact ⟨x, List.mem_cons_self, first⟩
    · obtain ⟨a, ha, related⟩ := rest.right b mem
      exact ⟨a, List.mem_cons_of_mem _ ha, related⟩

theorem of_forall₂ (h : List.Forall₂ R xs ys) : Matched R xs ys := by
  induction h with
  | nil => exact .nil
  | cons first _ rest => exact .cons first rest

theorem perm (h : Matched R xs ys) (order : ys.Perm zs) : Matched R xs zs where
  left x mem := by
    obtain ⟨y, hy, related⟩ := h.left x mem
    exact ⟨y, order.mem_iff.mp hy, related⟩
  right z mem := h.right z (order.mem_iff.mpr mem)

theorem flatten {xss : List (List α)} {yss : List (List β)} (h : Matched (Matched R) xss yss) :
    Matched R xss.flatten yss.flatten where
  left x mem := by
    obtain ⟨xs, hxs, mem⟩ := List.mem_flatten.mp mem
    obtain ⟨ys, hys, matched⟩ := h.left xs hxs
    obtain ⟨y, hy, related⟩ := matched.left x mem
    exact ⟨y, List.mem_flatten.mpr ⟨ys, hys, hy⟩, related⟩
  right y mem := by
    obtain ⟨ys, hys, mem⟩ := List.mem_flatten.mp mem
    obtain ⟨xs, hxs, matched⟩ := h.right ys hys
    obtain ⟨x, hx, related⟩ := matched.right y mem
    exact ⟨x, List.mem_flatten.mpr ⟨xs, hxs, hx⟩, related⟩

/-- A walk over matched items gives matched results, if it succeeds over both. -/
theorem mapM {S : α' → β' → Prop} {f : α → Except ε α'} {g : β → Except ε β'}
    (step : ∀ x y u v, R x y → f x = .ok u → g y = .ok v → S u v) (h : Matched R xs ys)
    {us : List α'} {vs : List β'} (hx : xs.mapM f = .ok us) (hy : ys.mapM g = .ok vs) :
    Matched S us vs := by
  have froms := of_forall₂ (mapM_ok_forall₂ hx)
  have tos := of_forall₂ (mapM_ok_forall₂ hy)
  constructor
  · intro u mem
    obtain ⟨x, hx, made⟩ := froms.right u mem
    obtain ⟨y, hy, related⟩ := h.left x hx
    obtain ⟨v, hv, made'⟩ := tos.left y hy
    exact ⟨v, hv, step x y u v related made made'⟩
  · intro v mem
    obtain ⟨y, hy, made'⟩ := tos.right v mem
    obtain ⟨x, hx, related⟩ := h.right y hy
    obtain ⟨u, hu, made⟩ := froms.left x hx
    exact ⟨u, hu, step x y u v related made made'⟩

end Matched

namespace Truth

variable {α β ε : Type} {R : α → β → Prop} {test : α → Except ε Truth} {test' : β → Except ε Truth}
  {xs : List α} {ys : List β} {t u : Truth}

/-- Where the items have partners the truth is at most that of the partners. -/
theorem Found.or_eq (tests : ∀ x y v w, R x y → test x = .ok v → test' y = .ok w → v = w)
    (partners : ∀ x ∈ xs, ∃ y ∈ ys, R x y) (hx : Found test xs t) (hy : Found test' ys u) :
    u.or t = u := by
  rcases hx.reached with rfl | ⟨x, mem, worth⟩
  · exact u.or_false
  · by_cases decided : u = .true
    · rw [decided]
      exact t.true_or
    · obtain ⟨y, mem', related⟩ := partners x mem
      obtain ⟨v, worth'⟩ := hy.tested decided y mem'
      rw [tests x y t v related worth worth']
      exact hy.bound y mem' v worth'

/-- It makes no difference to an existential test in which places its items are. -/
theorem Found.same (tests : ∀ x y v w, R x y → test x = .ok v → test' y = .ok w → v = w)
    (h : Matched R xs ys) (hx : Found test xs t) (hy : Found test' ys u) : t = u := by
  have back : ∀ y x v w, R x y → test' y = .ok v → test x = .ok w → v = w :=
    fun y x v w related worth' worth => (tests x y w v related worth worth').symm
  exact eq_of_or_eq (Found.or_eq back h.right hy hx) (Found.or_eq tests h.left hx hy)

end Truth

namespace Json.Reordered

open Record

variable {v v' : Option Json}

theorem rel_refl (v : Option Json) : Option.Rel Reordered v v := by
  cases v with
  | none => exact .none
  | some v => exact .some (.same v)

theorem present (h : Option.Rel Reordered v v') : Option.Rel Reordered (present v) (present v') := by
  cases h with
  | none => exact .none
  | some h =>
    cases h with
    | same v => exact rel_refl _
    | array each order => exact .some (.array each order)
    | object each => exact .some (.object each)

theorem field (h : Option.Rel Reordered v v') (name : String) :
    Option.Rel Reordered (v.bind (field? name)) (v'.bind (field? name)) := by
  cases h with
  | none => exact .none
  | some h =>
    cases h with
    | same v => exact rel_refl _
    | array => exact .none
    | object each => exact present (each name)

theorem matched {items moved items' : List Json} (each : List.Forall₂ Reordered items moved)
    (order : moved.Perm items') : Matched Reordered items items' :=
  (Matched.of_forall₂ each).perm order

end Json.Reordered

namespace Record

open Json (Reordered)

variable {path : Path} {parent parent' : Option Json}

/-- What a hop reaches in the one record it reaches in the other, in other places. -/
theorem follow_reordered {hop : Attribute} (h : Option.Rel Reordered parent parent')
    {next next' : List (Option Json)} (hx : follow path hop parent = .ok next)
    (hx' : follow path hop parent' = .ok next') : Matched (Option.Rel Reordered) next next' := by
  have field := Reordered.field h hop.name
  cases collection : hop.isCollection with
  | false =>
    rw [follow_plain collection hx, follow_plain collection hx']
    exact .cons (Reordered.present field) .nil
  | true =>
    simp only [follow, collection, if_true] at hx hx'
    generalize parent.bind (field? hop.name) = found at field hx
    generalize parent'.bind (field? hop.name) = found' at field hx'
    cases field with
    | none =>
      cases hx
      cases hx'
      exact .nil
    | some reordered =>
      cases reordered with
      | same v =>
        rw [hx] at hx'
        cases hx'
        exact .of_forall₂ (List.forall₂_same.mpr fun x _ => Reordered.rel_refl x)
      | array each order =>
        refine (Reordered.matched each order).mapM ?_ hx hx'
        intro v v' x x' reordered entity entity'
        rw [asEntity_eq_ok entity, asEntity_eq_ok entity']
        exact Reordered.present (.some reordered)
      | object => cases hx

/-- Along the hops the same is reached, in other places. -/
theorem followAll_reordered {hops : List Attribute} {frontier frontier' : List (Option Json)}
    (h : Matched (Option.Rel Reordered) frontier frontier') {places places' : List (Option Json)}
    (hx : followAll path hops frontier = .ok places)
    (hx' : followAll path hops frontier' = .ok places') :
    Matched (Option.Rel Reordered) places places' := by
  induction hops generalizing frontier frontier' with
  | nil =>
    cases hx
    cases hx'
    exact h
  | cons hop hops ih =>
    obtain ⟨next, walked, hx⟩ := bind_eq_ok.mp hx
    obtain ⟨next', walked', hx'⟩ := bind_eq_ok.mp hx'
    have steps : Matched (Matched (Option.Rel Reordered)) next next' := by
      refine h.mapM ?_ walked walked'
      intro parent parent' found found' related
      exact follow_reordered related
    exact ih steps.flatten hx hx'

/-- The elements of a target are the same ones, in another order. -/
theorem targetValues_reordered (h : Option.Rel Reordered parent parent')
    {vs vs' : List (Option Json)} (hx : targetValues path parent = .ok vs)
    (hx' : targetValues path parent' = .ok vs') : Matched (Option.Rel Reordered) vs vs' := by
  have field := Reordered.field h path.target.name
  simp only [targetValues] at hx hx'
  generalize parent.bind (field? path.target.name) = found at field hx
  generalize parent'.bind (field? path.target.name) = found' at field hx'
  cases collection : path.isCollectionValued with
  | false =>
    rw [collection] at hx hx'
    cases hx
    cases hx'
    exact .cons field .nil
  | true =>
    rw [collection] at hx hx'
    cases field with
    | none =>
      cases hx
      cases hx'
      exact .nil
    | some reordered =>
      cases reordered with
      | same v =>
        rw [hx] at hx'
        cases hx'
        exact .of_forall₂ (List.forall₂_same.mpr fun x _ => Reordered.rel_refl x)
      | array each order =>
        cases hx
        cases hx'
        have each' := List.forall₂_map_left_iff.mpr (List.forall₂_map_right_iff.mpr
          (each.imp fun _ _ reordered => Option.Rel.some reordered))
        exact (Matched.of_forall₂ each').perm (order.map some)
      | object => cases hx

/-- In another order there are as many. -/
theorem targetCount_reordered {record record' : Json} (h : Reordered record record') {n n' : Nat}
    (hx : targetCount path record = .ok n) (hx' : targetCount path record' = .ok n') : n = n' := by
  have field : Option.Rel Reordered (field? path.target.name record)
    (field? path.target.name record') := Reordered.field (.some h) path.target.name
  simp only [targetCount] at hx hx'
  generalize field? path.target.name record = found at field hx
  generalize field? path.target.name record' = found' at field hx'
  cases field with
  | none =>
    cases hx
    cases hx'
    rfl
  | some reordered =>
    cases reordered with
    | same v =>
      rw [hx] at hx'
      cases hx'
      rfl
    | array each order =>
      cases hx
      cases hx'
      exact each.length_eq.trans order.length_eq
    | object => cases hx

end Record

namespace Predicate

open Record
open Json (Reordered)

variable {path : Path}

theorem sizes_reordered {parent parent' : Option Json} (h : Option.Rel Reordered parent parent')
    {ns ns' : List Nat} (hx : sizes path parent = .ok ns) (hx' : sizes path parent' = .ok ns') :
    ns = ns' := by
  cases h with
  | none =>
    cases hx
    cases hx'
    rfl
  | some reordered =>
    obtain ⟨n, count, rfl⟩ := map_eq_ok.mp hx
    obtain ⟨n', count', rfl⟩ := map_eq_ok.mp hx'
    rw [targetCount_reordered reordered count count']

/-- What can be read at all has no arrays in it, so it is the same value. -/
theorem testStored_reordered {test : Value → Except ExecutionError Bool} {v v' : Option Json}
    (h : Option.Rel Reordered v v') {t t' : Truth} (ht : testStored path test v = .ok t)
    (ht' : testStored path test v' = .ok t') : t = t' := by
  cases h with
  | none =>
    cases ht
    cases ht'
    rfl
  | some reordered =>
    cases reordered with
    | same v =>
      rw [ht] at ht'
      cases ht'
      rfl
    | array => exact absurd ht (testStored_nested (.inr ⟨_, rfl⟩))
    | object => exact absurd ht (testStored_nested (.inl ⟨_, rfl⟩))

section

variable {β : Type} {record record' : Json} (h : Reordered record record')

include h

/-- What is found in the same places, in another order, comes to the same. -/
theorem anyReached_reordered {hops : List Attribute}
    {find : Option Json → Except ExecutionError (List β)} {test : β → Outcome} {R : β → β → Prop}
    (finds : ∀ p p' xs xs', Option.Rel Reordered p p' → find p = .ok xs → find p' = .ok xs' →
      Matched R xs xs')
    (tests : ∀ x x' t t', R x x' → test x = .ok t → test x' = .ok t' → t = t') {t t' : Truth}
    (ht : anyReached path hops find test [some record] = .ok t)
    (ht' : anyReached path hops find test [some record'] = .ok t') : t = t' := by
  obtain ⟨ps, reached, ht⟩ := bind_eq_ok.mp ht
  obtain ⟨found, walked, ht⟩ := bind_eq_ok.mp ht
  obtain ⟨ps', reached', ht'⟩ := bind_eq_ok.mp ht'
  obtain ⟨found', walked', ht'⟩ := bind_eq_ok.mp ht'
  have places := followAll_reordered (.cons (.some h) .nil) reached reached'
  have all := (places.mapM finds walked walked').flatten
  exact Truth.Found.same tests all (Truth.found_of_any ht) (Truth.found_of_any ht')

theorem someValue_reordered {test : Value → Except ExecutionError Bool} {t t' : Truth}
    (ht : someValue record path test = .ok t) (ht' : someValue record' path test = .ok t') :
    t = t' := by
  rw [someValue_eq] at ht ht'
  exact anyReached_reordered h (fun _ _ _ _ related => targetValues_reordered related)
    (fun _ _ _ _ related => testStored_reordered related) ht ht'

theorem evalSize_reordered {r : Relation} {v : Value} {t t' : Truth}
    (ht : evalSize record path r v = .ok t) (ht' : evalSize record' path r v = .ok t') : t = t' := by
  cases v with
  | integer n =>
    rw [evalSize_eq] at ht ht'
    refine anyReached_reordered (R := Eq) h ?_ ?_ ht ht'
    · intro p p' ns ns' places counted counted'
      rw [sizes_reordered places counted counted']
      exact .of_forall₂ (List.forall₂_same.mpr fun _ _ => rfl)
    · rintro n _ t t' rfl tested tested'
      rw [tested] at tested'
      cases tested'
      rfl
  | _ => cases ht

end

theorem map_unique {x x' : Outcome} {f : Truth → Truth}
    (h : ∀ t t', x = .ok t → x' = .ok t' → t = t') {t t' : Truth} (ht : x.map f = .ok t)
    (ht' : x'.map f = .ok t') : t = t' := by
  obtain ⟨u, hu, rfl⟩ := map_eq_ok.mp ht
  obtain ⟨u', hu', rfl⟩ := map_eq_ok.mp ht'
  rw [h u u' hu hu']

/-- An operand is left out in both runs or in neither. -/
theorem connected_unique {x x' y y' : Outcome} (decides : Truth) (join : Truth → Truth → Truth)
    (hx : ∀ t t', x = .ok t → x' = .ok t' → t = t')
    (hy : ∀ t t', y = .ok t → y' = .ok t' → t = t') {u u' : Truth}
    (hu : (do let t ← x; if t = decides then .ok decides else y.map (join t)) = .ok u)
    (hu' : (do let t ← x'; if t = decides then .ok decides else y'.map (join t)) = .ok u') :
    u = u' := by
  obtain ⟨t, ht, hu⟩ := bind_eq_ok.mp hu
  obtain ⟨t', ht', hu'⟩ := bind_eq_ok.mp hu'
  cases hx t t' ht ht'
  by_cases early : t = decides
  · rw [if_pos early] at hu hu'
    rw [hu] at hu'
    cases hu'
    rfl
  · rw [if_neg early] at hu hu'
    exact map_unique hy hu hu'

/-- Where a predicate has a truth on two records that differ in the order of elements only, it is
the same. -/
theorem eval_reordered {engine : RegexEngine} {p : Predicate} {record record' : Json}
    (h : Reordered record record') {t t' : Truth} (before : p.eval engine record = .ok t)
    (after : p.eval engine record' = .ok t') : t = t' := by
  induction p generalizing t t' with
  | and p q ihp ihq =>
    exact connected_unique .false .and (fun _ _ => ihp) (fun _ _ => ihq) before after
  | or p q ihp ihq =>
    exact connected_unique .true .or (fun _ _ => ihp) (fun _ _ => ihq) before after
  | not p ih => exact map_unique (fun _ _ => ih) before after
  | compare path r v => exact someValue_reordered h before after
  | like path pattern negated =>
    obtain ⟨items, before, after⟩ := evalLike_of_eval before after
    exact map_unique (fun _ _ => someValue_reordered h) before after
  | contains path v negated =>
    exact map_unique (fun _ _ => someValue_reordered h) before after
  | size path r v => exact evalSize_reordered h before after

theorem clinic_household_reordered :
    Reordered (Clinic.household [Clinic.weighedPet [3, 4], Clinic.leo])
      (Clinic.household [Clinic.leo, Clinic.weighedPet [4, 3]]) := by
  have weights : Reordered (.array (Clinic.numbers [3, 4])) (.array (Clinic.numbers [4, 3])) :=
    .array (List.forall₂_same.mpr fun v _ => .same v) (.swap ..)
  have pet : Reordered (Clinic.weighedPet [3, 4]) (Clinic.weighedPet [4, 3]) := by
    refine .object fun name => ?_
    by_cases same : name = "weights"
    · subst same
      exact .some weights
    · simp [Json.get?, Ne.symm same]
  have pets : Reordered (.array [Clinic.weighedPet [3, 4], Clinic.leo])
      (.array [Clinic.leo, Clinic.weighedPet [4, 3]]) :=
    .array (.cons pet (.cons (.same Clinic.leo) .nil)) (.swap ..)
  refine .object fun name => ?_
  by_cases same : name = "pets"
  · subst same
    exact .some pets
  · simp [Json.get?, Ne.symm same]

/-- A pet was weighed often, wherever it stands and in whatever order its weights are. -/
theorem eval_reordered_of_clinic :
    Reordered (Clinic.household [Clinic.weighedPet [3, 4], Clinic.leo])
        (Clinic.household [Clinic.leo, Clinic.weighedPet [4, 3]]) ∧
      Clinic.newcomersPredicate.eval .standard (Clinic.household [Clinic.weighedPet [3, 4], Clinic.leo]) =
        .ok .false ∧
      Clinic.newcomersPredicate.eval .standard (Clinic.household [Clinic.leo, Clinic.weighedPet [4, 3]]) =
        .ok .false := by
  have before : Clinic.newcomersPredicate.eval .standard
      (Clinic.household [Clinic.weighedPet [3, 4], Clinic.leo]) = .ok .false := by decide +kernel
  have reached : ∃ t, Clinic.newcomersPredicate.eval .standard
      (Clinic.household [Clinic.leo, Clinic.weighedPet [4, 3]]) = .ok t :=
    ⟨.false, by decide +kernel⟩
  obtain ⟨t, after⟩ := reached
  have same := eval_reordered clinic_household_reordered before after
  exact ⟨clinic_household_reordered, before, same ▸ after⟩

end Predicate

end EntityFilter
