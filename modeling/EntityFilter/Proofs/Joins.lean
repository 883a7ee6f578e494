import EntityFilter.Filter.Evaluation
import EntityFilter.Proofs.Clinic
import EntityFilter.Proofs.Fallible

namespace EntityFilter

open Fallible

/-- The path that goes on from the elements that a hop leads to. -/
def Path.behind (hop : Attribute) (rest : Path) : Path := ⟨hop :: rest.hops, rest.target⟩

namespace Record

/-- What is reached hangs on the path that is told in errors only by whether it is an error. -/
theorem asEntity_carries (path path' : Path) (hop : Attribute) (v : Json) :
    Carries (asEntity path hop v) (asEntity path' hop v) := by
  intro o h
  cases v with
  | null => exact h
  | object => exact h
  | _ => cases h

theorem follow_carries (path path' : Path) (hop : Attribute) (parent : Option Json) :
    Carries (follow path hop parent) (follow path' hop parent) := by
  unfold follow
  cases parent.bind (field? hop.name) with
  | none => exact Carries.refl _
  | some v =>
    dsimp only
    split
    · cases v with
      | array items => exact Carries.mapM (asEntity_carries path path' hop) items
      | _ => intro os h; cases h
    · exact (asEntity_carries path path' hop v).map _

theorem followAll_carries (path path' : Path) (hops : List Attribute)
    (frontier : List (Option Json)) :
    Carries (followAll path hops frontier) (followAll path' hops frontier) := by
  induction hops generalizing frontier with
  | nil => exact Carries.refl _
  | cons hop hops ih =>
    apply (Carries.mapM (follow_carries path path' hop) frontier).bind
    intro next
    exact ih next.flatten

section

variable {path path' : Path} (same : path.target = path'.target)

include same

theorem targetValues_carries (parent : Option Json) :
    Carries (targetValues path parent) (targetValues path' parent) := by
  unfold targetValues Path.isCollectionValued
  rw [← same]
  split
  · cases parent.bind (field? path.target.name) with
    | none => exact Carries.refl _
    | some v =>
      cases v with
      | array => exact Carries.refl _
      | _ => intro vs h; cases h
  · exact Carries.refl _

theorem targetCount_carries (parent : Json) :
    Carries (targetCount path parent) (targetCount path' parent) := by
  unfold targetCount
  rw [← same]
  cases field? path.target.name parent with
  | none => exact Carries.refl _
  | some v =>
    cases v with
    | array => exact Carries.refl _
    | _ => intro n h; cases h

theorem read_carries (stored : Json) : Carries (read path stored) (read path' stored) := by
  unfold read
  rw [← same]
  split
  · exact Carries.refl _
  · split
    · exact Carries.refl _
    · intro v h
      cases h

end

theorem followAll_nil (path : Path) (hops : List Attribute) : followAll path hops [] = .ok [] := by
  induction hops with
  | nil => rfl
  | cons hop hops ih => exact ih

/-- What is reached from two places is what is reached from the one and from the other. -/
theorem followAll_append {path : Path} {hops : List Attribute} {xs ys us vs : List (Option Json)}
    (hx : followAll path hops xs = .ok us) (hy : followAll path hops ys = .ok vs) :
    followAll path hops (xs ++ ys) = .ok (us ++ vs) := by
  induction hops generalizing xs ys with
  | nil =>
    cases hx
    cases hy
    rfl
  | cons hop hops ih =>
    obtain ⟨next, hn, hx⟩ := bind_eq_ok.mp hx
    obtain ⟨more, hm, hy⟩ := bind_eq_ok.mp hy
    have both := ih hx hy
    rw [← List.flatten_append] at both
    have step : (xs ++ ys).mapM (follow path hop) = .ok (next ++ more) := by
      rw [List.mapM_append, hn, hm]
      rfl
    exact bind_eq_ok.mpr ⟨next ++ more, step, both⟩

/-- A collection of objects leads to each of them. -/
theorem follow_objects {hop : Attribute} (collection : hop.isCollection = true) {record : Json}
    {objects : List Json} (field : record.get? hop.name = some (.array objects))
    (entities : ∀ o ∈ objects, ∃ fields, o = .object fields) (path : Path) :
    follow path hop (some record) = .ok (objects.map some) := by
  have found : (some record).bind (field? hop.name) = some (.array objects) := by
    simp [field?, field, Json.isNull]
  have each : objects.mapM (asEntity path hop) = .ok (objects.map some) := by
    clear field found
    induction objects with
    | nil => rfl
    | cons o objects ih =>
      obtain ⟨fields, rfl⟩ := entities o List.mem_cons_self
      rw [List.mapM_cons, ih fun o ho => entities o (List.mem_cons_of_mem _ ho)]
      rfl
  simp only [follow, found, collection, if_true]
  exact each

end Record

namespace Predicate

open Record

section

variable {β : Type} {path path' : Path} {hops : List Attribute}
  {find find' : Option Json → Except ExecutionError (List β)} {test test' : β → Outcome}

/-- Whether a test is passed by something that is found where the hops lead. -/
def anyReached (path : Path) (hops : List Attribute)
    (find : Option Json → Except ExecutionError (List β)) (test : β → Outcome)
    (frontier : List (Option Json)) : Outcome := do
  let ps ← followAll path hops frontier
  let found ← ps.mapM find
  Truth.any test found.flatten

theorem anyReached_carries (finds : ∀ p, Carries (find p) (find' p))
    (tests : ∀ b, Carries (test b) (test' b)) (frontier : List (Option Json)) :
    Carries (anyReached path hops find test frontier) (anyReached path' hops find' test' frontier) := by
  apply (followAll_carries path path' hops frontier).bind
  intro ps
  apply (Carries.mapM finds ps).bind
  intro found
  exact Carries.any tests found.flatten

/-- Two places are tested as each of them is, if neither fails. -/
theorem anyReached_append {xs ys : List (Option Json)} {t u : Truth}
    (hx : anyReached path hops find test xs = .ok t)
    (hy : anyReached path hops find test ys = .ok u) :
    anyReached path hops find test (xs ++ ys) = .ok (t.or u) := by
  obtain ⟨ps, hps, hx⟩ := bind_eq_ok.mp hx
  obtain ⟨found, hf, hx⟩ := bind_eq_ok.mp hx
  obtain ⟨qs, hqs, hy⟩ := bind_eq_ok.mp hy
  obtain ⟨more, hm, hy⟩ := bind_eq_ok.mp hy
  have both := any_append hx hy
  rw [← List.flatten_append] at both
  have finds : (ps ++ qs).mapM find = .ok (found ++ more) := by
    rw [List.mapM_append, hf, hm]
    rfl
  exact bind_eq_ok.mpr ⟨ps ++ qs, followAll_append hps hqs,
    bind_eq_ok.mpr ⟨found ++ more, finds, both⟩⟩

/-- From several places it is found if it is from one of them. -/
theorem anyReached_each {places : List (Option Json)} {ts : List Truth}
    (each : List.Forall₂ (fun p t => anyReached path hops find test [p] = .ok t) places ts) :
    anyReached path hops find test places = .ok (ts.foldr Truth.or .false) := by
  induction each with
  | nil =>
    unfold anyReached
    rw [followAll_nil]
    rfl
  | cons first _ rest => exact anyReached_append first rest

/-- What a leaf over the elements of a collection finds is what the leaf behind them finds in one.
-/
theorem anyReached_through {hop : Attribute} (collection : hop.isCollection = true) {record : Json}
    {objects : List Json} (field : record.get? hop.name = some (.array objects))
    (entities : ∀ o ∈ objects, ∃ fields, o = .object fields)
    (finds : ∀ p, Carries (find p) (find' p)) (tests : ∀ b, Carries (test b) (test' b))
    {ts : List Truth}
    (each : List.Forall₂ (fun o t => anyReached path hops find test [some o] = .ok t) objects ts) :
    anyReached path' (hop :: hops) find' test' [some record] = .ok (ts.foldr Truth.or .false) := by
  have step : followAll path' (hop :: hops) [some record] = followAll path' hops (objects.map some) := by
    rw [followAll, List.mapM_cons, follow_objects collection field entities]
    simp [pure, Except.pure, bind, Except.bind]
  have places : List.Forall₂ (fun p t => anyReached path' hops find' test' [p] = .ok t)
      (objects.map some) ts := by
    rw [List.forall₂_map_left_iff]
    exact each.imp fun o t found => anyReached_carries finds tests [some o] t found
  unfold anyReached
  rw [step]
  exact anyReached_each places

end

theorem compareValue_carries (path path' : Path) (r : Relation) (v field : Value) :
    Carries (compareValue path r v field) (compareValue path' r v field) := by
  unfold compareValue
  split
  · exact Carries.refl _
  · intro b h
    cases h

theorem matchValue_carries (path path' : Path) (items : List LikeItem) (field : Value) :
    Carries (matchValue path items field) (matchValue path' items field) := by
  intro b h
  cases field with
  | string => exact h
  | _ => cases h

theorem testStored_carries {path path' : Path} (same : path.target = path'.target)
    {test test' : Value → Except ExecutionError Bool} (tests : ∀ v, Carries (test v) (test' v))
    (stored : Option Json) : Carries (testStored path test stored) (testStored path' test' stored) := by
  intro t h
  cases stored with
  | none => exact h
  | some stored =>
    cases hr : read path stored with
    | error x => simp [testStored, hr] at h
    | ok value =>
      simp only [testStored, hr] at h
      simp only [testStored, read_carries same stored value hr]
      cases value with
      | none => exact h
      | some v => exact (tests v).map Truth.ofBool t h

theorem someValue_eq (record : Json) (path : Path) (test : Value → Except ExecutionError Bool) :
    someValue record path test =
      anyReached path path.hops (targetValues path) (testStored path test) [some record] := by
  simp only [someValue, values, parents, anyReached, bind_assoc]
  rfl

/-- The size of the target in a parent, if there is one. -/
def sizes (path : Path) : Option Json → Except ExecutionError (List Nat)
  | none => .ok []
  | some parent => (targetCount path parent).map ([·])

/-- Counting in every place is counting in those that hold an object: a missing place counts
nothing. -/
theorem mapM_sizes (path : Path) (ps : List (Option Json)) :
    (ps.filterMap id).mapM (targetCount path) = (ps.mapM (sizes path)).map List.flatten := by
  induction ps with
  | nil => rfl
  | cons p ps ih =>
    rw [List.mapM_cons]
    cases p with
    | none =>
      have kept : (none :: ps).filterMap id = ps.filterMap id := rfl
      rw [kept, ih, sizes]
      cases ps.mapM (sizes path) <;> rfl
    | some parent =>
      have kept : (some parent :: ps).filterMap id = parent :: ps.filterMap id := rfl
      rw [kept, List.mapM_cons, ih, sizes]
      cases targetCount path parent with
      | error x => rfl
      | ok n => cases ps.mapM (sizes path) <;> rfl

theorem evalSize_eq (record : Json) (path : Path) (r : Relation) (n : Int) :
    evalSize record path r (.integer n) =
      anyReached path path.hops (sizes path)
        (fun count => .ok (.ofBool (r.holds (Ord.compare (count : Int) n)))) [some record] := by
  simp only [evalSize, counts, parents, anyReached, mapM_sizes, bind_assoc, map_bind]

/-- What is asked of the target of a path. -/
inductive Leaf where
  | compare (relation : Relation) (value : Value)
  | like (pattern : LikePattern) (negated : Bool)
  | contains (value : Value) (negated : Bool)
  | size (relation : Relation) (value : Value)

namespace Leaf

def on (path : Path) : Leaf → Predicate
  | compare r v => .compare path r v
  | like pattern negated => .like path pattern negated
  | contains v negated => .contains path v negated
  | size r v => .size path r v

def negated : Leaf → Bool
  | like _ negated | contains _ negated => negated
  | compare .. | size .. => false

/-- A size is compared with an integer. -/
def IsIntegral : Leaf → Prop
  | size _ v => ∃ n, v = .integer n
  | _ => True

/-- Whether a leaf can be evaluated at all: a pattern has to be compiled first. -/
def ready (engine : RegexEngine) : Leaf → Except ExecutionError Unit
  | like pattern _ => (pattern.compile engine).map fun _ => ()
  | _ => .ok ()

/-- What the leaf looks for, whether or not it asks for it to be there. -/
def found (record : Json) (path : Path) : Leaf → Outcome
  | compare r v => someValue record path (compareValue path r v)
  | like pattern _ => someValue record path (matchValue path pattern.items)
  | contains v _ => someValue record path (compareValue path .eq v)
  | size r v => evalSize record path r v

/-- A leaf compiles its pattern if it has one, looks at what its path reaches, and negates what it
has found. -/
theorem eval_on (engine : RegexEngine) (leaf : Leaf) (record : Json) (path : Path) :
    (leaf.on path).eval engine record =
      (leaf.ready engine >>= fun _ => (leaf.found record path).map (negateIf leaf.negated)) := by
  have plain : ∀ o : Outcome, o = o.map (negateIf false) := by
    intro o
    cases o <;> rfl
  cases leaf with
  | compare r v => exact plain _
  | like pattern negated =>
    rw [on, eval, ready, LikePattern.compile]
    cases engine.refusal? pattern.regexSource <;> rfl
  | contains v negated => rfl
  | size r v => exact plain _

end Leaf

section

variable {hop : Attribute} {rest : Path} {record : Json} {objects : List Json} {ts : List Truth}
  (collection : hop.isCollection = true)
  (field : record.get? hop.name = some (.array objects))
  (entities : ∀ o ∈ objects, ∃ fields, o = .object fields)

include collection field entities

/-- Behind a collection a value is looked for in each of the elements. -/
theorem someValue_through {test test' : Value → Except ExecutionError Bool}
    (tests : ∀ v, Carries (test v) (test' v))
    (each : List.Forall₂ (fun o t => someValue o rest test = .ok t) objects ts) :
    someValue record (.behind hop rest) test' = .ok (ts.foldr Truth.or .false) := by
  have same : rest.target = (Path.behind hop rest).target := rfl
  simp only [someValue_eq] at each ⊢
  exact anyReached_through collection field entities (targetValues_carries same)
    (testStored_carries same tests) each

theorem evalSize_through {r : Relation} {n : Int}
    (each : List.Forall₂ (fun o t => evalSize o rest r (.integer n) = .ok t) objects ts) :
    evalSize record (.behind hop rest) r (.integer n) = .ok (ts.foldr Truth.or .false) := by
  have same : rest.target = (Path.behind hop rest).target := rfl
  have finds : ∀ p, Carries (sizes rest p) (sizes (.behind hop rest) p) := by
    intro p
    cases p with
    | none => exact Carries.refl _
    | some parent => exact (targetCount_carries same parent).map _
  simp only [evalSize_eq] at each ⊢
  exact anyReached_through collection field entities finds (fun _ => Carries.refl _) each

/-- Where one of the elements is looked at, what is found behind the collection is what is found in
one of them. Where there is none, a size may still be compared with what is no integer. -/
theorem Leaf.found_through (leaf : Leaf)
    (each : List.Forall₂ (fun o t => leaf.found o rest = .ok t) objects ts)
    (asked : objects ≠ [] ∨ ∃ t, leaf.found record (.behind hop rest) = .ok t) :
    leaf.found record (.behind hop rest) = .ok (ts.foldr Truth.or .false) := by
  cases leaf with
  | compare r v =>
    exact someValue_through collection field entities (compareValue_carries rest _ r v) each
  | like pattern _ =>
    exact someValue_through collection field entities (matchValue_carries rest _ pattern.items) each
  | contains v _ =>
    exact someValue_through collection field entities (compareValue_carries rest _ .eq v) each
  | size r v =>
    cases v with
    | integer n => exact evalSize_through collection field entities each
    | _ =>
      -- Such a size fails, of an element as of the whole.
      rcases asked with nonempty | ⟨t, whole⟩
      · cases each with
        | nil => exact absurd rfl nonempty
        | cons first => cases first
      · cases whole

end

theorem negateIf_negateIf (negated : Bool) (t : Truth) : negateIf negated (negateIf negated t) = t := by
  cases negated with
  | false => rfl
  | true => exact t.not_not

theorem not_foldr_or (ts : List Truth) :
    ((ts.map Truth.not).foldr Truth.or .false).not = ts.foldr Truth.and .true := by
  induction ts with
  | nil => rfl
  | cons t ts ih => rw [List.map_cons, List.foldr_cons, Truth.not_or, ih, Truth.not_not, List.foldr_cons]

namespace Leaf

/-- The truth for a collection from those for its elements: some of them for what is looked for, all
of them for what must not be there. -/
def gather (leaf : Leaf) (ts : List Truth) : Truth :=
  if leaf.negated then ts.foldr Truth.and .true else ts.foldr Truth.or .false

/-- What is negated is that some element is found, so a negated leaf is true only where it is for
all of them. -/
theorem negateIf_foldr_or (leaf : Leaf) (ts : List Truth) :
    negateIf leaf.negated ((ts.map (negateIf leaf.negated)).foldr Truth.or .false) =
      leaf.gather ts := by
  unfold gather
  cases leaf.negated with
  | false =>
    have same : ts.map (negateIf false) = ts := List.map_id ts
    rw [same]
    rfl
  | true => exact not_foldr_or ts

theorem found_of_eval {engine : RegexEngine} {leaf : Leaf} {record : Json} {path : Path} {t : Truth}
    (h : (leaf.on path).eval engine record = .ok t) :
    leaf.ready engine = .ok () ∧ leaf.found record path = .ok (negateIf leaf.negated t) := by
  rw [eval_on] at h
  obtain ⟨⟨⟩, ready, h⟩ := bind_eq_ok.mp h
  obtain ⟨u, found, rfl⟩ := map_eq_ok.mp h
  refine ⟨ready, ?_⟩
  rw [found, negateIf_negateIf]

/-- Over a collection of objects a leaf is true if it is for one of them, a negated one if it is for
each of them; and it has a truth if there is one of them. -/
theorem eval_through_collection {engine : RegexEngine} (leaf : Leaf) {hop : Attribute} {rest : Path}
    {record : Json} {objects : List Json} {ts : List Truth} (collection : hop.isCollection = true)
    (field : record.get? hop.name = some (.array objects))
    (entities : ∀ o ∈ objects, ∃ fields, o = .object fields)
    (each : List.Forall₂ (fun o t => (leaf.on rest).eval engine o = .ok t) objects ts) :
    (∀ t, (leaf.on (.behind hop rest)).eval engine record = .ok t → t = leaf.gather ts) ∧
      (objects ≠ [] → (leaf.on (.behind hop rest)).eval engine record = .ok (leaf.gather ts)) := by
  have founds : List.Forall₂ (fun o t => leaf.found o rest = .ok t) objects
      (ts.map (negateIf leaf.negated)) := by
    rw [List.forall₂_map_right_iff]
    exact each.imp fun o t h => (found_of_eval h).2
  have whole := leaf.found_through collection field entities founds
  constructor
  · intro t h
    obtain ⟨ready, asked⟩ := found_of_eval h
    rw [eval_on, ready, whole (.inr ⟨_, asked⟩)] at h
    cases h
    exact leaf.negateIf_foldr_or ts
  · intro nonempty
    have ready : leaf.ready engine = .ok () := by
      cases each with
      | nil => exact absurd rfl nonempty
      | cons first => exact (found_of_eval first).1
    rw [eval_on, ready, whole (.inl nonempty)]
    exact congrArg Except.ok (leaf.negateIf_foldr_or ts)

/-- Not to be called so, asked of each pet. -/
theorem clinic_not_called : List.Forall₂
    (fun o t => ((like ⟨"M%"⟩ true).on Clinic.name).eval .standard o = .ok t)
    [Clinic.max, Clinic.leo] [.false, .true] := by
  have first : ((like ⟨"M%"⟩ true).on Clinic.name).eval .standard Clinic.max = .ok .false := by
    decide +kernel
  have second : ((like ⟨"M%"⟩ true).on Clinic.name).eval .standard Clinic.leo = .ok .true := by
    decide +kernel
  exact .cons first (.cons second .nil)

theorem clinic_pets_are_objects : ∀ o ∈ [Clinic.max, Clinic.leo], ∃ fields, o = .object fields := by
  intro o ho
  simp only [List.mem_cons, List.not_mem_nil, or_false] at ho
  rcases ho with rfl | rfl <;> exact ⟨_, rfl⟩

/-- One of the pets is called so, which is enough for the owner. -/
theorem eval_through_collection_of_clinic :
    Clinic.keeper.get? "pets" = some (.array [Clinic.max, Clinic.leo]) ∧
      ((like ⟨"M%"⟩ true).on (.behind Clinic.pets Clinic.name)).eval .standard Clinic.keeper =
        .ok .false := by
  have whole := @eval_through_collection .standard (like ⟨"M%"⟩ true) Clinic.pets Clinic.name Clinic.keeper
    _ _ rfl rfl clinic_pets_are_objects clinic_not_called
  exact ⟨rfl, whole.2 (List.cons_ne_nil _ _)⟩

/-- That no element is found is not that some element is another. -/
theorem negated_not_existential :
    ¬ ∀ (leaf : Leaf) (hop : Attribute) (rest : Path) (record : Json) (objects : List Json)
      (ts : List Truth) (t : Truth), hop.isCollection = true →
      record.get? hop.name = some (.array objects) → (∀ o ∈ objects, ∃ fields, o = .object fields) →
      List.Forall₂ (fun o t => (leaf.on rest).eval .standard o = .ok t) objects ts →
      (leaf.on (.behind hop rest)).eval .standard record = .ok t → t = ts.foldr Truth.or .false := by
  intro existential
  have whole : ((like ⟨"M%"⟩ true).on (.behind Clinic.pets Clinic.name)).eval .standard Clinic.keeper =
      .ok .false := by decide +kernel
  have found := existential _ Clinic.pets Clinic.name Clinic.keeper _ _ _ rfl rfl
    clinic_pets_are_objects clinic_not_called whole
  cases found

end Leaf

end Predicate

end EntityFilter
