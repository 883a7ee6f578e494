import Mathlib
import EntityFilter.Program.Arguments

namespace EntityFilter.Program

namespace CheckArguments

variable {a b : CheckArguments}

/-- The paths that are there are not empty. -/
structure Pathed (a : CheckArguments) : Prop where
  schema : a.schema ≠ some ""
  config : a.config ≠ some ""

theorem once_eq_some {old : Option String} {new : String} {x : Option String} :
    once old new = some x ↔ old = none ∧ x = some new := by
  cases old <;> simp [once, eq_comm]

theorem oncePath_eq_some {old : Option String} {new : String} {x : Option String} :
    oncePath old new = some x ↔ old = none ∧ new ≠ "" ∧ x = some new := by
  by_cases empty : new = ""
  · simp [oncePath, empty]
  · have named : new.isEmpty = false := by simpa using empty
    rw [oncePath, named]
    simp [once_eq_some, empty]

/-- No setting lets an empty path in. -/
theorem Pathed.setValue (pathed : a.Pathed) {v : String} {s : Setting}
    (set : a.setValue v s = some b) : b.Pathed := by
  cases s with
  | schema =>
    obtain ⟨x, path, rfl⟩ := Option.map_eq_some_iff.mp set
    obtain ⟨-, named, rfl⟩ := oncePath_eq_some.mp path
    exact ⟨fun empty => named (Option.some.inj empty), pathed.config⟩
  | config =>
    obtain ⟨x, path, rfl⟩ := Option.map_eq_some_iff.mp set
    obtain ⟨-, named, rfl⟩ := oncePath_eq_some.mp path
    exact ⟨pathed.schema, fun empty => named (Option.some.inj empty)⟩
  | entity | input =>
    obtain ⟨x, -, rfl⟩ := Option.map_eq_some_iff.mp set
    exact ⟨pathed.schema, pathed.config⟩
  | allow | aliases =>
    cases set
    exact ⟨pathed.schema, pathed.config⟩
  | alwaysWildcard | compileOnly | pretty => cases set

theorem Pathed.setFlag (pathed : a.Pathed) {s : Setting} (set : a.setFlag s = some b) :
    b.Pathed := by
  cases s with
  | alwaysWildcard | compileOnly | pretty =>
    obtain ⟨-, here⟩ := Option.ite_none_left_eq_some.mp set
    cases here
    exact ⟨pathed.schema, pathed.config⟩
  | schema | entity | config | allow | aliases | input => cases set

theorem Pathed.setQuery (pathed : a.Pathed) {v : String} (set : a.setQuery v = some b) :
    b.Pathed := by
  obtain ⟨x, -, rfl⟩ := Option.map_eq_some_iff.mp set
  exact ⟨pathed.schema, pathed.config⟩

theorem finish_eq_some {schema entity query : String} :
    a.finish = some (.check schema entity query b) ↔
      b = a ∧ a.schema = some schema ∧ a.entity = some entity ∧ a.query = some query := by
  simp only [finish, Option.bind_eq_bind, Option.bind_eq_some_iff]
  constructor
  · rintro ⟨_, named, _, rooted, _, asked, here⟩
    cases here
    exact ⟨rfl, named, rooted, asked⟩
  · rintro ⟨rfl, named, rooted, asked⟩
    exact ⟨_, named, _, rooted, _, asked, rfl⟩

end CheckArguments

open CheckArguments

/-- What names come to has no empty path. -/
def Named.Pathed : Named → Prop
  | help => True
  | set a => a.Pathed
  | waits a _ => a.Pathed

theorem pathed_named {a : CheckArguments} (pathed : a.Pathed) {s : Setting}
    {value : Option (List Char)} {r : Named} (h : named a s value = some r) : r.Pathed := by
  unfold named at h
  split at h
  · obtain ⟨b, set, rfl⟩ := Option.map_eq_some_iff.mp h
    exact pathed.setValue set
  · cases h
    exact pathed
  · obtain ⟨b, set, rfl⟩ := Option.map_eq_some_iff.mp h
    exact pathed.setFlag set
  · cases h

theorem pathed_longNamed {a : CheckArguments} (pathed : a.Pathed) {name : List Char}
    {value : Option (List Char)} {r : Named} (h : longNamed a name value = some r) : r.Pathed := by
  unfold longNamed at h
  split at h
  · split at h
    · cases h
      trivial
    · cases h
  · obtain ⟨s, -, h⟩ := Option.bind_eq_some_iff.mp h
    exact pathed_named pathed h

theorem pathed_shortNamed {a : CheckArguments} (pathed : a.Pathed) {names : List Char} {r : Named}
    (h : shortNamed a names = some r) : r.Pathed := by
  induction names generalizing a with
  | nil =>
    cases h
    exact pathed
  | cons c cs ih =>
    unfold shortNamed at h
    split at h
    · cases h
      trivial
    · split at h
      · cases h
      · split at h
        · exact pathed_named pathed h
        · obtain ⟨b, set, h⟩ := Option.bind_eq_some_iff.mp h
          exact ih (pathed.setFlag set) h

theorem pathed_checkValues {a b : CheckArguments} (pathed : a.Pathed) {vs : List String}
    (h : checkValues a vs = some b) : b.Pathed := by
  induction vs generalizing a with
  | nil =>
    cases h
    exact pathed
  | cons v vs ih =>
    obtain ⟨c, set, h⟩ := Option.bind_eq_some_iff.mp h
    exact ih (pathed.setQuery set) h

/-- What a check is asked for with. -/
def Request.Gathered : Request → Prop
  | .check schema entity query a =>
    a.Pathed ∧ a.schema = some schema ∧ a.entity = some entity ∧ a.query = some query
  | _ => True

theorem gathered_finish {a : CheckArguments} (pathed : a.Pathed) {r : Request}
    (h : a.finish = some r) : r.Gathered := by
  cases r with
  | check schema entity query b =>
    obtain ⟨rfl, rest⟩ := finish_eq_some.mp h
    exact ⟨pathed, rest⟩
  | version | help | docs | doc => trivial

/-- What is made of the arguments behind names. -/
def follow (rest : List String) : Option Named → Option Request
  | none => none
  | some .help => some .help
  | some (.set a) => parseCheck a rest
  | some (.waits a s) =>
    match rest with
    | [] => none
    | v :: rest =>
      match Form.of v with
      | .value v => (a.setValue v s).bind fun a => parseCheck a rest
      | _ => none

theorem parseCheck_cons (a : CheckArguments) (argument : String) (rest : List String) :
    parseCheck a (argument :: rest) =
      match Form.of argument with
      | .escape => (checkValues a rest).bind (·.finish)
      | .long name value => follow rest (longNamed a name value)
      | .short names => follow rest (shortNamed a names)
      | .value v => (a.setQuery v).bind fun a => parseCheck a rest := by
  rw [parseCheck]
  rfl

/-- What the names of an argument come to keeps what was known of the arguments in front of them. -/
theorem gathered_follow {rest : List String} {names : Option Named} {r : Request}
    (pathed : ∀ n, names = some n → n.Pathed)
    (behind : ∀ more : List String, more.length ≤ rest.length → ∀ a : CheckArguments, a.Pathed →
      parseCheck a more = some r → r.Gathered)
    (h : follow rest names = some r) : r.Gathered := by
  match names with
  | none => cases h
  | some .help =>
    cases h
    trivial
  | some (.set a) => exact behind rest (Nat.le_refl _) a (pathed _ rfl) h
  | some (.waits a s) =>
    cases rest with
    | nil => cases h
    | cons v rest =>
      simp only [follow] at h
      split at h
      · obtain ⟨b, set, h⟩ := Option.bind_eq_some_iff.mp h
        have kept : a.Pathed := pathed _ rfl
        exact behind rest (Nat.le_succ _) b (kept.setValue set) h
      · cases h

/-- What is gathered from arguments names the files that it has. -/
theorem gathered_parseCheck {arguments : List String} {a : CheckArguments} {r : Request}
    (pathed : a.Pathed) (h : parseCheck a arguments = some r) : r.Gathered := by
  -- A name may take two arguments at once, so the induction is on their number.
  induction count : arguments.length using Nat.strong_induction_on generalizing arguments a with
  | _ n ih =>
    cases arguments with
    | nil => exact gathered_finish pathed h
    | cons argument rest =>
      have behind : ∀ more : List String, more.length ≤ rest.length → ∀ a : CheckArguments,
          a.Pathed → parseCheck a more = some r → r.Gathered := fun more shorter a pathed h =>
        ih more.length (count ▸ Nat.lt_succ_of_le shorter) pathed h rfl
      rw [parseCheck_cons] at h
      split at h
      · obtain ⟨b, set, h⟩ := Option.bind_eq_some_iff.mp h
        exact gathered_finish (pathed_checkValues pathed set) h
      · exact gathered_follow (fun _ named => pathed_longNamed pathed named) behind h
      · exact gathered_follow (fun _ named => pathed_shortNamed pathed named) behind h
      · obtain ⟨b, set, h⟩ := Option.bind_eq_some_iff.mp h
        exact behind rest (Nat.le_refl _) b (pathed.setQuery set) h

theorem parseValues_error {n : Nat} {vs arguments : List String} {r : Request}
    (h : parseValues n vs arguments = some (.error r)) : r = .help := by
  fun_induction parseValues n vs arguments <;> simp_all

theorem gathered_parseDocs {rest : List String} {r : Request} (h : parseDocs rest = some r) :
    r.Gathered := by
  unfold parseDocs at h
  split at h
  · cases h
    trivial
  · rename_i asked
    cases h
    rw [parseValues_error asked]
    trivial
  · cases h

theorem gathered_parseDoc {rest : List String} {r : Request} (h : parseDoc rest = some r) :
    r.Gathered := by
  unfold parseDoc at h
  split at h
  · cases h
    trivial
  · rename_i asked
    cases h
    rw [parseValues_error asked]
    trivial
  · cases h

/-- What a check is asked for with has what it needs. -/
theorem gathered {arguments : List String} {r : Request}
    (h : Request.ofArguments arguments = some r) : r.Gathered := by
  cases arguments with
  | nil => cases h
  | cons argument rest =>
    simp only [Request.ofArguments] at h
    split at h
    · exact gathered_parseCheck ⟨by decide, by decide⟩ h
    · exact gathered_parseDocs h
    · exact gathered_parseDoc h
    -- Whatever else is asked for is help or the version.
    all_goals
      repeat' split at h
      all_goals
        cases h
        try trivial

/-- The setting with its value behind a `=`. -/
def Setting.assign (s : Setting) (v : String) : String :=
  String.ofList ('-' :: '-' :: s.long.toList ++ '=' :: v.toList)

def Setting.mark (s : Setting) : String := String.ofList ('-' :: '-' :: s.long.toList)

theorem form_assign (s : Setting) (v : String) :
    Form.of (s.assign v) = .long s.long.toList (some v.toList) := by
  rw [Form.of, Setting.assign, String.toList_ofList]
  cases s <;> rfl

theorem form_mark (s : Setting) : Form.of s.mark = .long s.long.toList none := by
  cases s <;> rfl

theorem longNamed_long (a : CheckArguments) (s : Setting) (value : Option (List Char)) :
    longNamed a s.long.toList value = named a s value := by
  cases s <;> rfl

section

variable {a : CheckArguments} {s : Setting} {rest : List String}

theorem parseCheck_assign (valued : s.takesValue = true) (v : String) :
    parseCheck a (s.assign v :: rest) = (a.setValue v s).bind fun a => parseCheck a rest := by
  rw [parseCheck_cons, form_assign]
  simp only [longNamed_long, named, valued, String.ofList_toList]
  cases a.setValue v s <;> rfl

theorem parseCheck_mark (plain : s.takesValue = false) :
    parseCheck a (s.mark :: rest) = (a.setFlag s).bind fun a => parseCheck a rest := by
  rw [parseCheck_cons, form_mark]
  simp only [longNamed_long, named, plain]
  cases a.setFlag s <;> rfl

theorem parseCheck_option {b : CheckArguments} {x : Option String} (valued : s.takesValue = true)
    (set : ∀ v, x = some v → a.setValue v s = some b) (unset : x = none → a = b) :
    parseCheck a (x.toList.map s.assign ++ rest) = parseCheck b rest := by
  cases x with
  | none => rw [unset rfl]; rfl
  | some v => exact (parseCheck_assign valued v).trans (by rw [set v rfl]; rfl)

theorem parseCheck_flag {b : CheckArguments} {on : Bool} (plain : s.takesValue = false)
    (set : on = true → a.setFlag s = some b) (unset : on = false → a = b) :
    parseCheck a ((if on then [s.mark] else []) ++ rest) = parseCheck b rest := by
  cases on with
  | false => rw [unset rfl]; rfl
  | true => exact (parseCheck_mark plain).trans (by rw [set rfl]; rfl)

/-- A setting that is a list takes in its values one after another. -/
theorem parseCheck_list (put : List String → CheckArguments) (valued : s.takesValue = true)
    (set : ∀ vs v, (put vs).setValue v s = some (put (vs ++ [v]))) (vs more : List String) :
    parseCheck (put vs) (more.map s.assign ++ rest) = parseCheck (put (vs ++ more)) rest := by
  induction more generalizing vs with
  | nil => rw [List.append_nil]; rfl
  | cons v more ih =>
    have others := ih (vs ++ [v])
    rw [List.append_assoc, List.singleton_append] at others
    refine (parseCheck_assign valued v).trans ?_
    rw [set vs v]
    exact others

end

/-- Every setting in full, and the query last. -/
def CheckArguments.commandLine (a : CheckArguments) : List String :=
  "check" :: (a.schema.toList.map Setting.schema.assign ++
    (a.entity.toList.map Setting.entity.assign ++
    (a.config.toList.map Setting.config.assign ++
    (a.allow.map Setting.allow.assign ++
    (a.aliases.map Setting.aliases.assign ++
    (a.input.toList.map Setting.input.assign ++
    ((if a.alwaysWildcard then [Setting.alwaysWildcard.mark] else []) ++
    ((if a.compileOnly then [Setting.compileOnly.mark] else []) ++
    ((if a.pretty then [Setting.pretty.mark] else []) ++
    "--" :: a.query.toList)))))))))

/-- Whatever can be gathered is gathered from a command line with every setting in full. -/
theorem ofArguments_commandLine (a : CheckArguments) (pathed : a.Pathed) :
    Request.ofArguments a.commandLine = a.finish := by
  obtain ⟨query, schema, entity, config, allow, aliases, alwaysWildcard, input, compileOnly,
    pretty⟩ := a
  have path : ∀ {x : Option String} {v : String}, x ≠ some "" → x = some v →
      oncePath none v = some x := by
    rintro x v named rfl
    exact oncePath_eq_some.mpr ⟨rfl, fun empty => named (empty ▸ rfl), rfl⟩
  change parseCheck .empty _ = _
  calc parseCheck .empty _
    _ = parseCheck ⟨none, schema, none, none, [], [], false, none, false, false⟩ _ := by
      refine parseCheck_option rfl (fun v here => ?_) (by rintro rfl; rfl)
      exact congrArg (Option.map _) (path pathed.schema here)
    _ = parseCheck ⟨none, schema, entity, none, [], [], false, none, false, false⟩ _ :=
      parseCheck_option rfl (by rintro v rfl; rfl) (by rintro rfl; rfl)
    _ = parseCheck ⟨none, schema, entity, config, [], [], false, none, false, false⟩ _ := by
      refine parseCheck_option rfl (fun v here => ?_) (by rintro rfl; rfl)
      exact congrArg (Option.map _) (path pathed.config here)
    _ = parseCheck ⟨none, schema, entity, config, allow, [], false, none, false, false⟩ _ :=
      parseCheck_list (⟨none, schema, entity, config, ·, [], false, none, false, false⟩) rfl
        (fun _ _ => rfl) [] allow
    _ = parseCheck ⟨none, schema, entity, config, allow, aliases, false, none, false, false⟩ _ :=
      parseCheck_list (⟨none, schema, entity, config, allow, ·, false, none, false, false⟩) rfl
        (fun _ _ => rfl) [] aliases
    _ = parseCheck ⟨none, schema, entity, config, allow, aliases, false, input, false, false⟩ _ :=
      parseCheck_option rfl (by rintro v rfl; rfl) (by rintro rfl; rfl)
    _ = parseCheck ⟨none, schema, entity, config, allow, aliases, alwaysWildcard, input, false,
        false⟩ _ := parseCheck_flag rfl (by rintro rfl; rfl) (by rintro rfl; rfl)
    _ = parseCheck ⟨none, schema, entity, config, allow, aliases, alwaysWildcard, input, compileOnly,
        false⟩ _ := parseCheck_flag rfl (by rintro rfl; rfl) (by rintro rfl; rfl)
    _ = parseCheck ⟨none, schema, entity, config, allow, aliases, alwaysWildcard, input, compileOnly,
        pretty⟩ ("--" :: query.toList) :=
      parseCheck_flag rfl (by rintro rfl; rfl) (by rintro rfl; rfl)
    _ = finish _ := by
      rw [parseCheck_cons]
      cases query <;> rfl

end EntityFilter.Program
