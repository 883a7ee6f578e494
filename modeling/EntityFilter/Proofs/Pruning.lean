import EntityFilter.Filter.Evaluation
import EntityFilter.Proofs.Fallible

namespace EntityFilter

/-- How the paths that start with a name go on. -/
def after (name : String) (paths : List (List String)) : List (List String) :=
  paths.filterMap fun
    | [] => none
    | n :: rest => if n = name then some rest else none

namespace Json

mutual

/-- Keeps of the objects in a value the fields that lie on a path. What stands at the end of a path
is kept whole; an array is cut down element by element. -/
def prune (paths : List (List String)) (v : Json) : Json :=
  if paths.contains [] then v
  else
    match v with
    | .array items => .array (pruneItems paths items)
    | .object fields => .object (pruneFields paths fields)
    | v => v

def pruneItems (paths : List (List String)) : List Json → List Json
  | [] => []
  | v :: vs => prune paths v :: pruneItems paths vs

def pruneFields (paths : List (List String)) : List (String × Json) → List (String × Json)
  | [] => []
  | (name, v) :: fields =>
    let inside := after name paths
    if inside.isEmpty then pruneFields paths fields
    else (name, prune inside v) :: pruneFields paths fields

end

theorem prune_whole {paths : List (List String)} (h : [] ∈ paths) (v : Json) : v.prune paths = v := by
  rw [prune.eq_def, if_pos (by simpa using h)]

theorem pruneItems_eq_map (paths : List (List String)) (items : List Json) :
    pruneItems paths items = items.map (prune paths) := by
  induction items with
  | nil => rfl
  | cons v vs ih => rw [pruneItems, ih, List.map_cons]

theorem prune_array (paths : List (List String)) (items : List Json) :
    prune paths (.array items) = .array (items.map (prune paths)) := by
  by_cases whole : [] ∈ paths
  · have same : prune paths = id := funext fun v => prune_whole whole v
    simp [same]
  · rw [prune, if_neg (by simpa using whole)]
    exact congrArg Json.array (pruneItems_eq_map paths items)

theorem prune_object (paths : List (List String)) (fields : List (String × Json)) :
    ∃ rest, prune paths (.object fields) = .object rest := by
  rw [prune]
  split
  · exact ⟨fields, rfl⟩
  · exact ⟨_, rfl⟩

theorem prune_scalar (paths : List (List String)) {v : Json} (noArray : ∀ items, v ≠ .array items)
    (noObject : ∀ fields, v ≠ .object fields) : v.prune paths = v := by
  cases v with
  | array items => exact absurd rfl (noArray items)
  | object fields => exact absurd rfl (noObject fields)
  | _ => rw [prune.eq_def]; split <;> rfl

theorem isNull_prune (paths : List (List String)) (v : Json) : (v.prune paths).isNull = v.isNull := by
  cases v with
  | array items => rw [prune_array]; rfl
  | object fields =>
    obtain ⟨rest, pruned⟩ := prune_object paths fields
    rw [pruned]
    rfl
  | _ => rw [prune_scalar] <;> simp

/-- The paths that hold below a field: once a path has ended, all is kept. -/
def within (name : String) (paths : List (List String)) : List (List String) :=
  if paths.contains [] then paths else after name paths

/-- Some path is where the names lead or ends on the way there. -/
def Covers (paths : List (List String)) (names : List String) : Prop := ∃ p ∈ paths, p <+: names

/-- Paths that hold a path hold the rest of it below its first name. -/
theorem Covers.tail {paths : List (List String)} {name : String} {names : List String}
    (h : Covers paths (name :: names)) : Covers (within name paths) names := by
  obtain ⟨p, hp, ahead⟩ := h
  rw [within]
  split
  · rename_i whole
    exact ⟨[], by simpa using whole, List.nil_prefix⟩
  · rename_i partly
    cases p with
    | nil => exact absurd (by simpa using hp) partly
    | cons n p =>
      obtain ⟨rfl, rest⟩ := List.cons_prefix_cons.mp ahead
      exact ⟨p, List.mem_filterMap.mpr ⟨n :: p, hp, by simp⟩, rest⟩

theorem Covers.whole {paths : List (List String)} (h : Covers paths []) : [] ∈ paths := by
  obtain ⟨p, hp, ahead⟩ := h
  rwa [List.prefix_nil.mp ahead] at hp

/-- A field that a path starts with is found as before, cut down to how the paths go on. -/
theorem find?_pruneFields {paths : List (List String)} {name : String}
    (on : after name paths ≠ []) (fields : List (String × Json)) :
    (pruneFields paths fields).find? (·.1 == name) =
      (fields.find? (·.1 == name)).map fun f => (f.1, f.2.prune (after name paths)) := by
  induction fields with
  | nil => rfl
  | cons f fields ih =>
    obtain ⟨n, v⟩ := f
    by_cases same : n = name
    · subst same
      simp [pruneFields, on]
    · simp only [pruneFields]
      split
      · simp [ih, same]
      · simp [ih, same]

/-- A covered field is there before and after, cut down to the paths below it. -/
theorem field?_prune {paths : List (List String)} {name : String} {names : List String}
    (h : Covers paths (name :: names)) (v : Json) :
    Record.field? name (v.prune paths) = (Record.field? name v).map (prune (within name paths)) := by
  have get : (v.prune paths).get? name = (v.get? name).map (prune (within name paths)) := by
    by_cases whole : [] ∈ paths
    · have same : prune paths = id := funext fun v => prune_whole whole v
      simp [within, whole, same]
    · have on : after name paths ≠ [] := by
        have more := h.tail
        rw [within, if_neg (by simpa using whole)] at more
        obtain ⟨p, hp, _⟩ := more
        exact List.ne_nil_of_mem hp
      rw [prune.eq_def, if_neg (by simpa using whole), within, if_neg (by simpa using whole)]
      cases v with
      | object fields =>
        simp only [get?, find?_pruneFields on, Option.map_map]
        rfl
      | _ => rfl
  rw [Record.field?, Record.field?, get, Option.filter_map]
  congr 2
  funext v
  simp [isNull_prune]

end Json

def ExecutionError.withoutFound : ExecutionError → ExecutionError
  | invalidField path expected _ => invalidField path expected ""
  | x => x

/-- A result with its failure, if it is one, told without what was found. -/
def masked {α : Type} (x : Except ExecutionError α) : Except ExecutionError α :=
  x.mapError ExecutionError.withoutFound

open Fallible Json

@[simp] theorem masked_ok {α : Type} (a : α) : masked (.ok a) = .ok a := rfl

@[simp] theorem masked_error {α : Type} (x : ExecutionError) :
    masked (.error x : Except ExecutionError α) = .error x.withoutFound := rfl

theorem masked_bind {α β : Type} (x : Except ExecutionError α) (f : α → Except ExecutionError β) :
    masked (x >>= f) = masked x >>= fun a => masked (f a) :=
  mapError_bind ..

theorem masked_map {α β : Type} (x : Except ExecutionError α) (f : α → β) :
    masked (x.map f) = (masked x).map f :=
  mapError_map ..

theorem masked_mapM {α β : Type} (f : α → Except ExecutionError β) (xs : List α) :
    masked (xs.mapM f) = xs.mapM fun x => masked (f x) :=
  mapError_mapM ..

namespace Record

variable {paths : List (List String)} {path : Path}

/-- A hop cannot tell an object from what is left of it, except in the text of what it found. -/
theorem masked_asEntity_prune (path : Path) (hop : Attribute) (paths : List (List String)) (v : Json) :
    masked (asEntity path hop (v.prune paths)) =
      (masked (asEntity path hop v)).map (Option.map (prune paths)) := by
  cases v with
  | object fields =>
    obtain ⟨rest, pruned⟩ := prune_object paths fields
    simp only [asEntity, pruned]
    simp [Except.map, pruned]
  | array items =>
    rw [prune_array]
    rfl
  | _ => rw [prune_scalar] <;> simp [asEntity, Except.map]

/-- Following a hop from what is left of an object gives what is left of what it leads to. -/
theorem masked_follow_prune {hop : Attribute} {names : List String}
    (h : Covers paths (hop.name :: names)) (parent : Option Json) :
    masked (follow path hop (parent.map (prune paths))) =
      (masked (follow path hop parent)).map
        (List.map (Option.map (prune (within hop.name paths)))) := by
  have field : (parent.map (prune paths)).bind (field? hop.name) =
      (parent.bind (field? hop.name)).map (prune (within hop.name paths)) := by
    cases parent with
    | none => rfl
    | some v => exact field?_prune h v
  generalize within hop.name paths = inside at field
  simp only [follow, field]
  cases parent.bind (field? hop.name) with
  | none =>
    simp only [Option.map_none]
    cases hop.isCollection <;> rfl
  | some v =>
    simp only [Option.map_some]
    split
    · cases v with
      | array items =>
        simp only [prune_array, masked_mapM, List.mapM_map, ← mapM_map_result]
        congr 1
        funext v
        exact masked_asEntity_prune path hop inside v
      | object fields =>
        obtain ⟨rest, pruned⟩ := prune_object inside fields
        rw [pruned]
        rfl
      | _ => rw [prune_scalar] <;> simp [Except.map]
    · rw [masked_map, masked_asEntity_prune, masked_map]
      cases masked (asEntity path hop v) <;> rfl

/-- The paths that hold where the names have led. -/
def withinAll (names : List String) (paths : List (List String)) : List (List String) :=
  names.foldl (fun paths name => within name paths) paths

theorem covers_withinAll {names rest : List String} (h : Covers paths (names ++ rest)) :
    Covers (withinAll names paths) rest := by
  induction names generalizing paths with
  | nil => exact h
  | cons name names ih => exact ih h.tail

/-- Hops that the paths hold lead to what is left of the places they led to. -/
theorem masked_followAll_prune (path : Path) {hops : List Attribute} {rest : List String}
    (h : Covers paths (hops.map (·.name) ++ rest)) (frontier : List (Option Json)) :
    masked (followAll path hops (frontier.map (Option.map (prune paths)))) =
      (masked (followAll path hops frontier)).map
        (List.map (Option.map (prune (withinAll (hops.map (·.name)) paths)))) := by
  induction hops generalizing paths frontier with
  | nil => rfl
  | cons hop hops ih =>
    have steps : masked ((frontier.map (Option.map (prune paths))).mapM (follow path hop)) =
        (masked (frontier.mapM (follow path hop))).map
          (List.map (List.map (Option.map (prune (within hop.name paths))))) := by
      simp only [masked_mapM, List.mapM_map, ← mapM_map_result]
      congr 1
      funext parent
      exact masked_follow_prune h parent
    simp only [followAll, masked_bind, steps, map_bind, ← List.map_flatten, ih h.tail]
    cases masked (frontier.mapM (follow path hop)) <;> rfl

/-- What covers the whole of a path leaves its target as it is. -/
theorem field?_target_prune {name : String} (h : Covers paths [name]) (v : Json) :
    field? name (v.prune paths) = field? name v := by
  rw [field?_prune h]
  cases field? name v with
  | none => rfl
  | some v => exact congrArg some (prune_whole h.tail.whole v)

/-- The values at the end of a path that is held are whole. -/
theorem masked_values_prune (h : Covers paths (path.segments.map (·.name))) (record : Json) :
    masked (values (record.prune paths) path) = masked (values record path) := by
  have covers : Covers paths (path.hops.map (·.name) ++ [path.target.name]) := by
    simpa [Path.segments] using h
  have target : ∀ parent : Option Json,
      targetValues path (parent.map (prune (withinAll (path.hops.map (·.name)) paths))) =
        targetValues path parent := by
    intro parent
    cases parent with
    | none => rfl
    | some v => simp only [targetValues, Option.map_some, Option.bind_some,
        field?_target_prune (covers_withinAll covers)]
  have walked := masked_followAll_prune path covers [some record]
  simp only [List.map_cons, List.map_nil, Option.map_some] at walked
  simp only [values, parents, masked_bind, walked, map_bind, List.mapM_map, Function.comp_def,
    target]

/-- An array keeps its length, so the sizes are the same too. -/
theorem masked_counts_prune (h : Covers paths (path.segments.map (·.name))) (record : Json) :
    masked (counts (record.prune paths) path) = masked (counts record path) := by
  have covers : Covers paths (path.hops.map (·.name) ++ [path.target.name]) := by
    simpa [Path.segments] using h
  have target : ∀ parent : Json,
      targetCount path (parent.prune (withinAll (path.hops.map (·.name)) paths)) =
        targetCount path parent := by
    intro parent
    simp only [targetCount, field?_target_prune (covers_withinAll covers)]
  have objects : ∀ ps : List (Option Json),
      (ps.map (Option.map (prune (withinAll (path.hops.map (·.name)) paths)))).filterMap id =
        (ps.filterMap id).map (prune (withinAll (path.hops.map (·.name)) paths)) := by
    intro ps
    rw [List.filterMap_map, List.map_filterMap]
    rfl
  have walked := masked_followAll_prune path covers [some record]
  simp only [List.map_cons, List.map_nil, Option.map_some] at walked
  simp only [counts, parents, masked_bind, walked, map_bind, objects, List.mapM_map,
    Function.comp_def, target]

end Record

namespace Predicate

open Record

variable {paths : List (List String)} {path : Path}

theorem masked_someValue_prune (h : Covers paths (path.segments.map (·.name))) (record : Json)
    (test : Value → Except ExecutionError Bool) :
    masked (someValue (record.prune paths) path test) = masked (someValue record path test) := by
  simp only [someValue, masked_bind, masked_values_prune h]

/-- Operands that are alike up to what was found are left out alike. -/
theorem masked_connected {x x' y y' : Outcome} {decides : Truth} {join : Truth → Truth → Truth}
    (hx : masked x = masked x') (hy : masked y = masked y') :
    masked (do let t ← x; if t = decides then .ok decides else y.map (join t)) =
      masked (do let t ← x'; if t = decides then .ok decides else y'.map (join t)) := by
  rw [masked_bind, masked_bind, hx]
  congr 1
  funext t
  split
  · rfl
  · rw [masked_map, masked_map, hy]

/-- A predicate whose paths are covered tells a record and what is left of it apart by what it finds
at most. -/
theorem masked_eval_prune {engine : RegexEngine} {p : Predicate}
    (h : ∀ path ∈ p.paths, Covers paths (path.segments.map (·.name))) (record : Json) :
    masked (p.eval engine (record.prune paths)) = masked (p.eval engine record) := by
  induction p with
  | and p q ihp ihq | or p q ihp ihq =>
    simp only [Predicate.paths, List.mem_append] at h
    have left := ihp fun path hp => h path (.inl hp)
    have right := ihq fun path hp => h path (.inr hp)
    exact masked_connected left right
  | not p ih => rw [eval, eval, masked_map, masked_map, ih h]
  | compare path r v => exact masked_someValue_prune (h path List.mem_cons_self) record _
  | like path pattern negated =>
    simp only [eval, evalLike, masked_bind, masked_map,
      masked_someValue_prune (h path List.mem_cons_self)]
  | contains path v negated =>
    simp only [eval, evalContains, masked_map, masked_someValue_prune (h path List.mem_cons_self)]
  | size path r v =>
    cases v with
    | integer n =>
      simp only [eval, evalSize, masked_bind, masked_counts_prune (h path List.mem_cons_self)]
    | _ => rfl

end Predicate

end EntityFilter
