import Mathlib
import EntityFilter.Proofs.Recovery

namespace EntityFilter

theorem Policy.foldl_allow (p : Policy) (selectors : List String) :
    selectors.foldl allow p = { p with
      allowed := (selectors.map (·, ())).foldl (fun t e => t.insert e.1 e.2) p.allowed } := by
  induction selectors generalizing p with
  | nil => rfl
  | cons selector selectors ih => exact ih (p.allow selector)

theorem Policy.allowed_ofSelectors_names (allowed : Table Unit) :
    (ofSelectors allowed.names).allowed = allowed := by
  have entries : allowed.names.map (·, ()) = allowed.entries := by
    rw [Table.names, List.map_map]
    exact List.map_id _
  rw [ofSelectors, foldl_allow, entries]
  exact Table.ofList_of_perm (.refl _)

namespace Decoder

variable {α : Type} {d : Decoder α} {k k' : Nat} {j : Json} {x : α}

theorem Recovers.deeper (recovers : Recovers d k j x) (more : k ≤ k') : Recovers d k' j x :=
  recovers.mono fun _ reads n enough => reads n (more.trans enough)

theorem Recovers.map {β : Type} (recovers : Recovers d k j x) (f : α → β) :
    Recovers (fun n o => (d n o).map f) k j (f x) :=
  recovers.mono fun _ reads n enough => congrArg (Except.map f) (reads n enough)

/-- A member of a type, with what its kind makes of the others. -/
def typeStep (make : TypeMaker) (s : Option TypeMaker × List (String × Json)) (f : String × Json) :
    Except JsonFault (Option TypeMaker × List (String × Json)) :=
  if f.1 = "kind" then if s.1.isSome then .error .unfit else .ok (some make, s.2)
  else .ok (s.1, s.2 ++ [f])

theorem foldlM_typeStep_others {make : TypeMaker} {fs : List (String × Json)}
    (others : ∀ f ∈ fs, f.1 ≠ "kind") (s : Option TypeMaker × List (String × Json)) :
    fs.foldlM (typeStep make) s = .ok (s.1, s.2 ++ fs) := by
  induction fs generalizing s with
  | nil => simp [pure, Except.pure]
  | cons f fs ih =>
    rw [List.foldlM_cons, typeStep, if_neg (others f List.mem_cons_self)]
    have rest := ih (fun g mem => others g (List.mem_cons_of_mem f mem)) (s.1, s.2 ++ [f])
    simpa [bind, Except.bind] using rest

/-- Wherever the kind stands, all is there at the end. -/
theorem foldlM_typeStep {make : TypeMaker} {kind : Json} {fs gs : List (String × Json)}
    (order : gs.Perm (("kind", kind) :: fs)) (others : ∀ f ∈ fs, f.1 ≠ "kind") :
    ∃ fs' : List (String × Json), fs'.Perm fs ∧
      gs.foldlM (typeStep make) (none, []) = .ok (some make, fs') := by
  obtain ⟨before, after, rfl⟩ := List.append_of_mem (order.mem_iff.mpr List.mem_cons_self)
  have rest : (before ++ after).Perm fs := (List.perm_middle.symm.trans order).cons_inv
  have first : before.foldlM (typeStep make) (none, []) = .ok (none, before) :=
    foldlM_typeStep_others (fun f mem => others f (rest.subset (List.mem_append_left _ mem))) _
  have last : after.foldlM (typeStep make) (some make, before) = .ok (some make, before ++ after) :=
    foldlM_typeStep_others (fun f mem => others f (rest.subset (List.mem_append_right _ mem))) _
  refine ⟨before ++ after, rest, ?_⟩
  rw [List.foldlM_append, first]
  exact last

theorem adds_kind {name : String} {make : TypeMaker} (known : typeOfKind? name = some make) :
    Adds typeMember (typeStep make) 1 ("kind", .string name) ("kind", .string name) := by
  refine (Recovers.text name).mono ?_
  intro o reads n _ s
  have here : kind n o = .ok make := by
    rw [kind, reads n n.zero_le]
    simp [bind, Except.bind, orUnfit, known]
  simp [typeMember, typeStep, here, bind, Except.bind]

theorem adds_other {f : String × Json} {make : TypeMaker} (other : f.1 ≠ "kind")
    (recovers : Recovers json 1 f.2 f.2) : Adds typeMember (typeStep make) 1 f f := by
  refine Json.Outlined.mono recovers ?_
  intro o reads n enough s
  simp [typeMember, typeStep, other, reads n enough, bind, Except.bind]

/-- A type is read from its members in any order, since the others wait for the kind. -/
theorem recovers_type {name : String} {make : TypeMaker} (known : typeOfKind? name = some make)
    {fs : List (String × Json)} (others : ∀ f ∈ fs, f.1 ≠ "kind" ∧ Recovers json 1 f.2 f.2)
    (distinct : (fs.map (·.1)).Nodup) {t : AttributeType}
    (made : ∀ fs' : List (String × Json), fs'.Perm fs → make (.fields fs') = some t) :
    Recovers attributeType 2 (.ofFields (("kind", .string name) :: fs)) t := by
  have each : List.Forall₂ (Adds typeMember (typeStep make) 1) (("kind", .string name) :: fs)
      (("kind", .string name) :: fs) := by
    refine .cons (adds_kind known) (List.forall₂_same.mpr fun f mem => ?_)
    exact adds_other (others f mem).1 (others f mem).2
  have fresh : ((("kind", Json.string name) :: fs).map (·.1)).Nodup := by
    refine List.nodup_cons.mpr ⟨fun mem => ?_, distinct⟩
    obtain ⟨f, mem, here⟩ := List.mem_map.mp mem
    exact (others f mem).1 here
  refine (Adds.members each fresh).mono ?_
  rintro _ ⟨ms, gs, rfl, order, read⟩ n enough
  obtain ⟨m, left, rfl⟩ := exists_level enough
  obtain ⟨fs', moved, whole⟩ := foldlM_typeStep order fun f mem => (others f mem).1
  rw [attributeType, read m left, whole]
  simp [bind, Except.bind, orFault, Ending.fault?, orUnfit, made fs' moved]

namespace TypeBody

variable {fs fs' : List (String × Json)}

theorem unique?_perm (moved : fs'.Perm fs) (name : String) :
    unique? name fs' = unique? name fs := by
  have named : (fs'.filter (·.1 == name)).Perm (fs.filter (·.1 == name)) := moved.filter _
  unfold unique?
  generalize fs'.filter (·.1 == name) = ns', fs.filter (·.1 == name) = ns at named
  induction named with
  | nil => rfl
  | @cons f gs gs' others _ =>
    cases gs with
    | nil => rw [others.nil_eq]
    | cons g gs =>
      cases gs' with
      | nil => cases others.eq_nil
      | cons => rfl
  | swap => rfl
  | trans _ _ first last => exact first.trans last

theorem entity?_perm (moved : fs'.Perm fs) : entity? (.fields fs') = entity? (.fields fs) := by
  simp only [entity?, unique?_perm moved]

theorem enumeration?_perm (moved : fs'.Perm fs) :
    enumeration? (.fields fs') = enumeration? (.fields fs) := by
  simp only [enumeration?, unique?_perm moved]

theorem strings?_ofStrings (ss : List String) : strings? (.ofStrings ss) = some ss := by
  simp only [Json.ofStrings, strings?]
  induction ss with
  | nil => rfl
  | cons s ss ih =>
    rw [List.map_cons, List.mapM_cons, ih]
    rfl

end TypeBody

/-- Every type is read back from what is written of it. -/
theorem recovers_attributeType (t : AttributeType) : Recovers attributeType 2 t.toJson t := by
  cases t with
  | enumeration name variants =>
    have made : TypeBody.enumeration?
        (.fields [("name", .string name), ("variants", .ofStrings variants)]) =
        some (.enumeration name variants) := by
      simp [TypeBody.enumeration?, TypeBody.unique?, TypeBody.string?,
        TypeBody.strings?_ofStrings]
    refine recovers_type rfl ?_ (by simp) fun fs' moved =>
      (TypeBody.enumeration?_perm moved).trans made
    intro f mem
    rcases List.mem_pair.mp mem with rfl | rfl
    · exact ⟨by simp, (Recovers.json_string name).deeper (Nat.zero_le 1)⟩
    · exact ⟨by simp, Recovers.json_strings variants⟩
  | entity name =>
    have made : TypeBody.entity? (.fields [("name", .string name)]) = some (.entity name) := rfl
    refine recovers_type rfl ?_ (by simp) fun fs' moved =>
      (TypeBody.entity?_perm moved).trans made
    intro f mem
    cases List.mem_singleton.mp mem
    exact ⟨by simp, (Recovers.json_string name).deeper (Nat.zero_le 1)⟩
  | _ => exact @recovers_type _ _ rfl [] (by simp) List.nodup_nil _ fun _ _ => rfl

theorem pairwise_triple {β : Type} {R : β → β → Prop} {x y z : β} (first : R x y) (outer : R x z)
    (second : R y z) : [x, y, z].Pairwise R := by
  simp [first, outer, second]

theorem recovers_multiplicity (m : Multiplicity) : Recovers multiplicity 0 (.string m.name) m := by
  refine (Json.Outlined.string m.name).mono ?_
  rintro _ rfl n -
  cases m <;> rfl

/-- An attribute is three members that each fill their own place. -/
theorem recovers_attribute (a : Attribute) : Recovers attributeRecord 3 a.toJson a := by
  have name := (Recovers.text a.name).deeper (Nat.zero_le 2)
  have multiplicity := (recovers_multiplicity a.multiplicity).deeper (Nat.zero_le 2)
  refine Recovers.record
    (.cons (.once AttributeFields.name (fun s x => { s with name := some x }) (fun _ => rfl) name)
      (.cons (.once AttributeFields.type (fun s x => { s with type := some x }) (fun _ => rfl)
        (recovers_attributeType a.type))
      (.cons (.once AttributeFields.multiplicity (fun s x => { s with multiplicity := some x })
        (fun _ => rfl) multiplicity) .nil))) (by simp) ?_ rfl rfl
  exact pairwise_triple (fill_commute (fun _ => rfl) (fun _ => rfl) fun _ => rfl)
    (fill_commute (fun _ => rfl) (fun _ => rfl) fun _ => rfl)
    (fill_commute (fun _ => rfl) (fun _ => rfl) fun _ => rfl)

theorem recovers_entity (e : EntityType) : Recovers entityType 5 e.toJson e := by
  have name := (Recovers.text e.name).deeper (Nat.zero_le 4)
  have attributes := Recovers.list recovers_attribute e.attributes
  refine Recovers.record
    (.cons (.once EntityFields.name (fun s x => { s with name := some x }) (fun _ => rfl) name)
      (.cons (.once EntityFields.attributes (fun s x => { s with attributes := some x })
        (fun _ => rfl) attributes) .nil)) (by simp) ?_ rfl rfl
  exact List.pairwise_pair.mpr (fill_commute (fun _ => rfl) (fun _ => rfl) fun _ => rfl)

theorem recovers_entities (es : List EntityType) :
    Recovers schema 6 (.array (es.map EntityType.toJson)) (.ofList es) :=
  (Recovers.list recovers_entity es).map Schema.ofList

/-- A policy is read back from its texts, and so is its list of selectors, however it was built up.
-/
theorem recovers_policy (p : Policy) : Recovers policy 2 p.toJson p := by
  have allowed : Recovers (list text) 1 (.ofStrings p.allowed.names) p.allowed.names :=
    .list .text _
  have aliases : Recovers (table text) 1
      (.object (p.aliases.entries.map fun e => (e.1, .string e.2))) p.aliases := .table .text
  have alwaysWildcard : Recovers flag 1 (.bool p.alwaysWildcard) p.alwaysWildcard :=
    (Recovers.flag _).deeper (Nat.zero_le 1)
  refine Recovers.record
    (.cons (.once PolicyFields.allowed (fun s x => { s with allowed := some x }) (fun _ => rfl)
      allowed)
      (.cons (.once PolicyFields.aliases (fun s x => { s with aliases := some x }) (fun _ => rfl)
        aliases)
      (.cons (.once PolicyFields.alwaysWildcard (fun s x => { s with alwaysWildcard := some x })
        (fun _ => rfl) alwaysWildcard) .nil))) (by simp) ?_ rfl ?_
  · exact pairwise_triple (fill_commute (fun _ => rfl) (fun _ => rfl) fun _ => rfl)
      (fill_commute (fun _ => rfl) (fun _ => rfl) fun _ => rfl)
      (fill_commute (fun _ => rfl) (fun _ => rfl) fun _ => rfl)
  · exact congrArg (fun allowed => some (Policy.mk allowed p.aliases p.alwaysWildcard))
      (Policy.allowed_ofSelectors_names p.allowed)

/-- A value that nests no deeper than a decoder goes is read back from the whole of its text. -/
theorem Recovers.run (recovers : Recovers d k j x) (shallow : k ≤ maxNesting) {text : String}
    (written : j.Writes text) : d.run text = .ok x := by
  obtain ⟨o, reads, outline⟩ := Json.Outlined.ofText recovers written
  rw [Decoder.run, outline]
  simp [reads maxNesting shallow, bind, Except.bind]

end Decoder

end EntityFilter
