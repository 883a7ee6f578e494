import Mathlib
import EntityFilter.Program.Command
import EntityFilter.Proofs.Aliases
import EntityFilter.Proofs.CommandLines
import EntityFilter.Proofs.Indentation
import EntityFilter.Proofs.Registry

namespace EntityFilter

theorem Policy.validate_eq_ok_iff {p : Policy} :
    p.validate = .ok () ↔ ∀ external, p.aliases.get? external ≠ some "" := by
  rcases p.checks_aliases with ⟨valid, sound⟩ | ⟨error, ⟨external, blank, -⟩, invalid⟩
  · exact ⟨fun _ external blank => sound _ ⟨external, blank, rfl⟩, fun _ => valid⟩
  · refine ⟨fun valid => ?_, fun none => absurd blank (none external)⟩
    rw [invalid] at valid
    cases valid

namespace Program

/-- An argument that gives an alias: its two sides stand around the first `=`. -/
def AliasArgument (argument external internal : String) : Prop :=
  argument.toList = external.toList ++ '=' :: internal.toList ∧ '=' ∉ external.toList ∧
    external ≠ "" ∧ internal ≠ ""

/-- An alias is read as what stands on either side of its first `=`, if neither is empty. -/
theorem parseAlias_eq_ok {argument external internal : String} :
    parseAlias argument = .ok (external, internal) ↔ AliasArgument argument external internal := by
  constructor
  · intro parsed
    unfold parseAlias at parsed
    dsimp only at parsed
    split at parsed
    · cases parsed
    · rename_i sides
      cases parsed
      simp only [Bool.or_eq_true, List.isEmpty_iff, not_or] at sides
      obtain ⟨left, right⟩ := sides
      have whole := List.takeWhile_append_dropWhile (p := (· != '=')) (l := argument.toList)
      cases behind : argument.toList.dropWhile (· != '=') with
      | nil => exact absurd (by rw [behind]; rfl) right
      | cons c cs =>
        have mark : c = '=' := by
          simpa [behind] using List.head?_dropWhile_not (· != '=') argument.toList
        subst mark
        rw [behind] at whole right
        refine ⟨?_, ?_, ?_, ?_⟩
        · rw [String.toList_ofList, String.toList_ofList]
          exact whole.symm
        · rw [String.toList_ofList]
          intro mem
          exact absurd (List.mem_takeWhile_imp mem) (by decide)
        · simpa using left
        · simpa using right
  · rintro ⟨whole, plain, left, right⟩
    have before : ∀ c ∈ external.toList, (c != '=') = true := by
      intro c mem
      simpa using fun mark : c = '=' => plain (mark ▸ mem)
    have front : argument.toList.takeWhile (· != '=') = external.toList := by
      rw [whole, List.takeWhile_append_of_pos before]
      simp
    have back : argument.toList.dropWhile (· != '=') = '=' :: internal.toList := by
      rw [whole, List.dropWhile_append_of_pos before]
      simp
    simp [parseAlias, front, back, left, right]

/-- No argument gives the alias. -/
def NoAlias (arguments : List String) (external : String) : Prop :=
  ∀ argument ∈ arguments, ∀ internal, ¬ AliasArgument argument external internal

/-- The last argument that gives the alias. -/
def LastAlias (arguments : List String) (external internal : String) : Prop :=
  ∃ before argument after, arguments = before ++ argument :: after ∧
    AliasArgument argument external internal ∧ NoAlias after external

theorem AliasArgument.unique {argument external internal external' internal' : String}
    (one : AliasArgument argument external internal)
    (other : AliasArgument argument external' internal') :
    external = external' ∧ internal = internal' := by
  have same := (parseAlias_eq_ok.mpr one).symm.trans (parseAlias_eq_ok.mpr other)
  cases same
  exact ⟨rfl, rfl⟩

theorem noAlias_cons {argument external : String} {arguments : List String} :
    NoAlias (argument :: arguments) external ↔
      (∀ internal, ¬ AliasArgument argument external internal) ∧ NoAlias arguments external :=
  List.forall_mem_cons

theorem lastAlias_cons {argument external internal : String} {arguments : List String} :
    LastAlias (argument :: arguments) external internal ↔
      LastAlias arguments external internal ∨
        AliasArgument argument external internal ∧ NoAlias arguments external := by
  constructor
  · rintro ⟨before, last, after, whole, gives, none⟩
    cases before with
    | nil =>
      cases whole
      exact .inr ⟨gives, none⟩
    | cons first before =>
      cases whole
      exact .inl ⟨before, last, after, rfl, gives, none⟩
  · rintro (⟨before, last, after, rfl, gives, none⟩ | ⟨gives, none⟩)
    · exact ⟨argument :: before, last, after, rfl, gives, none⟩
    · exact ⟨[], argument, arguments, rfl, gives, none⟩

/-- Aliases are put over those that are there, each over the ones before it. -/
theorem addAliases_wellFormed {arguments : List String}
    (formed : ∀ argument ∈ arguments, ∃ external internal, AliasArgument argument external internal)
    (p : Policy) : ∃ t, addAliases p arguments = .ok { p with aliases := t } ∧
      ∀ external internal, t.get? external = some internal ↔
        LastAlias arguments external internal ∨
          NoAlias arguments external ∧ p.aliases.get? external = some internal := by
  induction arguments generalizing p with
  | nil =>
    refine ⟨p.aliases, rfl, fun external internal => ?_⟩
    simp [LastAlias, NoAlias]
  | cons argument arguments ih =>
    obtain ⟨⟨name, path, gives⟩, formed⟩ := List.forall_mem_cons.mp formed
    obtain ⟨t, added, holds⟩ := ih formed (p.addAlias name path)
    refine ⟨t, ?_, fun external internal => ?_⟩
    · rw [addAliases, List.foldlM_cons, parseAlias_eq_ok.mpr gives]
      exact added
    · rw [holds, lastAlias_cons, noAlias_cons, Policy.addAlias, Table.get?_insert]
      split
      · rename_i here
        subst here
        have given : ¬ ∀ internal, ¬ AliasArgument argument external internal :=
          fun none => none _ gives
        have only : path = internal ↔ AliasArgument argument external internal :=
          ⟨fun same => same ▸ gives, fun other => (gives.unique other).2⟩
        simp only [Option.some.injEq, only, given, false_and, or_false]
        tauto
      · rename_i apart
        have none : ∀ internal, ¬ AliasArgument argument external internal :=
          fun _ other => apart (other.unique gives).1
        simp [none]

theorem wellFormed_of_addAliases {arguments : List String} {p m : Policy}
    (added : addAliases p arguments = .ok m) :
    ∀ argument ∈ arguments, ∃ external internal, AliasArgument argument external internal := by
  induction arguments generalizing p with
  | nil => exact fun _ mem => absurd mem List.not_mem_nil
  | cons argument arguments ih =>
    rw [addAliases, List.foldlM_cons] at added
    obtain ⟨q, first, others⟩ := Fallible.bind_eq_ok.mp added
    obtain ⟨⟨external, internal⟩, parsed, -⟩ := Fallible.bind_eq_ok.mp first
    exact List.forall_mem_cons.mpr ⟨⟨external, internal, parseAlias_eq_ok.mp parsed⟩, ih others⟩

/-- What a file's policy and the arguments come to: the selectors that either allows, the file's
aliases with those of the arguments put over them one after another, and wildcards if either has
them. -/
structure Overlaid (p : Policy) (a : CheckArguments) (m : Policy) : Prop where
  allowed : ∀ selector, m.isAllowed selector = true ↔
    p.isAllowed selector = true ∨ selector ∈ a.allow
  aliases : ∀ external internal, m.aliases.get? external = some internal ↔
    LastAlias a.aliases external internal ∨
      NoAlias a.aliases external ∧ p.aliases.get? external = some internal
  alwaysWildcard : m.alwaysWildcard = true ↔ p.alwaysWildcard = true ∨ a.alwaysWildcard = true

namespace Overlaid

variable {p m m' : Policy} {a : CheckArguments}

/-- Settings leave no choice of the policy that they make of another. -/
theorem unique (one : Overlaid p a m) (other : Overlaid p a m') : m = m' := by
  have allowed : m.allowed = m'.allowed := by
    refine Table.ext fun selector => ?_
    have same : m.isAllowed selector = m'.isAllowed selector :=
      Bool.eq_iff_iff.mpr ((one.allowed selector).trans (other.allowed selector).symm)
    unfold Policy.isAllowed Table.contains at same
    cases here : m.allowed.get? selector <;> cases there : m'.allowed.get? selector <;>
      simp [here, there] at same ⊢
  have aliases : m.aliases = m'.aliases := Table.ext fun external => Option.ext fun internal =>
    (one.aliases external internal).trans (other.aliases external internal).symm
  have alwaysWildcard : m.alwaysWildcard = m'.alwaysWildcard :=
    Bool.eq_iff_iff.mpr (one.alwaysWildcard.trans other.alwaysWildcard.symm)
  cases m
  cases m'
  cases allowed
  cases aliases
  cases alwaysWildcard
  rfl

/-- No argument brings in an alias for nothing. -/
theorem validate (overlaid : Overlaid p a m) (valid : p.validate = .ok ()) :
    m.validate = .ok () := by
  refine Policy.validate_eq_ok_iff.mpr fun external blank => ?_
  rcases (overlaid.aliases external "").mp blank with ⟨_, _, _, _, gives, _⟩ | ⟨_, filed⟩
  · exact gives.2.2.2 rfl
  · exact Policy.validate_eq_ok_iff.mp valid external filed

end Overlaid

theorem policyOf_of_readPolicy {files : Files} {a : CheckArguments} {p : Policy}
    (read : readPolicy files a.config = .ok p)
    (formed : ∀ argument ∈ a.aliases, ∃ external internal, AliasArgument argument external internal) :
    ∃ m, policyOf files a = .ok m ∧ Overlaid p a m := by
  obtain ⟨t, added, holds⟩ := addAliases_wellFormed formed (a.allow.foldl Policy.allow p)
  refine ⟨⟨(a.allow.foldl Policy.allow p).allowed, t, p.alwaysWildcard || a.alwaysWildcard⟩, ?_, ?_⟩
  · rw [policyOf, read]
    simp only [bind, Except.bind, added]
    rw [Policy.foldl_allow]
  · refine ⟨Policy.isAllowed_foldl_allow p a.allow, fun external internal => ?_, by simp⟩
    rw [holds, Policy.foldl_allow]

/-- A check has a policy if its file does and each of its aliases is well formed. -/
theorem policyOf_eq_ok {files : Files} {a : CheckArguments} {m : Policy} :
    policyOf files a = .ok m ↔
      (∀ argument ∈ a.aliases, ∃ external internal, AliasArgument argument external internal) ∧
      ∃ p, readPolicy files a.config = .ok p ∧ Overlaid p a m := by
  constructor
  · intro made
    obtain ⟨p, read, rest⟩ := Fallible.bind_eq_ok.mp made
    obtain ⟨q, added, -⟩ := Fallible.bind_eq_ok.mp rest
    have formed := wellFormed_of_addAliases added
    obtain ⟨m', made', overlaid⟩ := policyOf_of_readPolicy read formed
    cases made.symm.trans made'
    exact ⟨formed, p, read, overlaid⟩
  · rintro ⟨formed, p, read, overlaid⟩
    obtain ⟨m', made, other⟩ := policyOf_of_readPolicy read formed
    exact overlaid.unique other ▸ made

section

variable {files : Files} {path text : String}

theorem readPolicy_of_ofText {p : Policy} (there : files path = some text)
    (read : Policy.ofText text = .ok p) : readPolicy files (some path) = .ok p := by
  simp only [readPolicy, there, read]
  rfl

theorem readSchema_of_ofText {s : Schema} (there : files path = some text)
    (read : Schema.ofText text = .ok s) : readSchema files path = .ok s := by
  simp only [readSchema, there, read]
  rfl

end

theorem validate_of_readPolicy {files : Files} {path : Option String} {p : Policy}
    (read : readPolicy files path = .ok p) : p.validate = .ok () := by
  unfold readPolicy at read
  split at read
  · cases read
    rfl
  · split at read
    · cases read
    · obtain ⟨q, -, rest⟩ := Fallible.bind_eq_ok.mp (Fallible.mapError_eq_ok.mp read)
      obtain ⟨_, valid, same⟩ := Fallible.bind_eq_ok.mp rest
      cases same
      exact Fallible.mapError_eq_ok.mp valid

theorem validate_of_readSchema {files : Files} {path : String} {s : Schema}
    (read : readSchema files path = .ok s) : s.validate = .ok () := by
  unfold readSchema at read
  split at read
  · cases read
  · obtain ⟨t, -, rest⟩ := Fallible.bind_eq_ok.mp (Fallible.mapError_eq_ok.mp read)
    obtain ⟨_, valid, same⟩ := Fallible.bind_eq_ok.mp rest
    cases same
    exact Fallible.mapError_eq_ok.mp valid

/-- What a check is asked for, with its policy in one file. -/
def CheckArguments.filed (a : CheckArguments) (path : String) : CheckArguments :=
  { a with config := some path, allow := [], aliases := [], alwaysWildcard := false }

/-- A file that says all of a policy needs no further settings. -/
theorem policyOf_filed {files : Files} {a : CheckArguments} {path text : String} {m : Policy}
    (there : files path = some text) (read : Policy.ofText text = .ok m) :
    policyOf files (a.filed path) = .ok m := by
  refine policyOf_eq_ok.mpr ⟨fun _ mem => absurd mem List.not_mem_nil, m,
    readPolicy_of_ofText there read, ?_, ?_, ?_⟩
  · simp [CheckArguments.filed]
  · simp [CheckArguments.filed, LastAlias, NoAlias]
  · simp [CheckArguments.filed]

/-- The program does with a policy given in both ways what it does with a file that says all of it.
-/
theorem run_filed {engine : RegexEngine} {files files' : Files} {stdin : Option String}
    {schema entity query path text : String}
    {arguments arguments' : List String} {a : CheckArguments} {p m : Policy}
    (asked : Request.ofArguments arguments = some (.check schema entity query a))
    (asked' : Request.ofArguments arguments' = some (.check schema entity query (a.filed path)))
    (read : readPolicy files a.config = .ok p)
    (formed : ∀ argument ∈ a.aliases, ∃ external internal, AliasArgument argument external internal)
    (overlaid : Overlaid p a m) (there : files' path = some text)
    (read' : Policy.ofText text = .ok m) (same : files' schema = files schema) :
    run engine files' stdin arguments' = run engine files stdin arguments := by
  have made : policyOf files a = .ok m := policyOf_eq_ok.mpr ⟨formed, p, read, overlaid⟩
  have made' : policyOf files' (a.filed path) = .ok m := policyOf_filed there read'
  have schemas : readSchema files' schema = readSchema files schema := by
    rw [readSchema, same, readSchema]
  have options : checkOptions files' stdin schema entity query (a.filed path) =
      checkOptions files stdin schema entity query a := by
    rw [checkOptions, checkOptions, schemas, made, made']
    rfl
  rw [run, asked', run, asked]
  simp only [runCheck, options]
  rfl

theorem checkOptions_eq_ok {files : Files} {stdin : Option String} {schema entity query : String}
    {a : CheckArguments} {o : CheckOptions}
    (made : checkOptions files stdin schema entity query a = .ok o) :
    ∃ s, readSchema files schema = .ok s ∧ o.scope.graph = s.graph ∧
      policyOf files a = .ok o.scope.policy := by
  obtain ⟨s, read, rest⟩ := Fallible.bind_eq_ok.mp made
  obtain ⟨m, merged, rest⟩ := Fallible.bind_eq_ok.mp rest
  cases rest
  exact ⟨s, read, rfl, merged⟩

theorem exit_resultOutput (pretty : Bool) (r : CheckResult) : (resultOutput pretty r).exit = 0 := by
  cases r <;> rfl

theorem exit_of_runCheck {engine : RegexEngine} {files : Files} {stdin : Option String}
    {schema entity query : String} {a : CheckArguments} {o : Output}
    (ran : runCheck engine files stdin schema entity query a = .ok o) : o.exit = 0 := by
  obtain ⟨_, _, rest⟩ := Fallible.bind_eq_ok.mp ran
  obtain ⟨r, _, rest⟩ := Fallible.bind_eq_ok.mp rest
  cases rest
  exact exit_resultOutput a.pretty r

theorem stdout_orFailure {o : Except Failure Output} (regular : ∀ out, o = .ok out → out.exit = 0)
    (failed : (orFailure o).exit = 1) : (orFailure o).stdout = "" := by
  cases o with
  | ok out =>
    have fine : out.exit = 0 := regular out rfl
    have bad : out.exit = 1 := failed
    omega
  | error f => rfl

/-- Where the program fails it writes no results. -/
theorem stdout_of_failed {engine : RegexEngine} {files : Files} {stdin : Option String}
    {arguments : List String} (failed : (run engine files stdin arguments).exit = 1) :
    (run engine files stdin arguments).stdout = "" := by
  unfold run at failed ⊢
  split at failed
  · cases failed
  · cases failed
  · cases failed
  · cases failed
  · refine stdout_orFailure (fun out ok => ?_) failed
    obtain ⟨_, _, rfl⟩ := Fallible.map_eq_ok.mp ok
    rfl
  · exact stdout_orFailure (fun out ok => exit_of_runCheck ok) failed

/-- The same but for white space in the results, which are one document laid out in two ways if they
differ at all. -/
structure LaidOut (o o' : Output) : Prop where
  exit : o.exit = o'.exit
  stderr : o.stderr = o'.stderr
  results : o.stdout = o'.stdout ∨ ∃ j : Json, o.stdout = line j.compact ∧ o'.stdout = line j.pretty
  unspaced : Json.unspaced false o.stdout.toList = Json.unspaced false o'.stdout.toList

theorem unspaced_line (j : Json) : Json.unspaced false (line j.compact).toList =
    Json.unspaced false (line j.pretty).toList := by
  simp only [line, String.toList_append, Json.compact, Json.pretty, String.toList_ofList]
  rw [Json.unspaced_write Json.Spacing.blank_compact, Json.unspaced_write Json.Spacing.blank_pretty]

theorem laidOut_refl (o : Output) : LaidOut o o := ⟨rfl, rfl, .inl rfl, rfl⟩

theorem laidOut_resultOutput (r : CheckResult) :
    LaidOut (resultOutput false r) (resultOutput true r) := by
  cases r with
  | compiled p => exact laidOut_refl _
  | matched p records => exact ⟨rfl, rfl, .inr ⟨.array records, rfl, rfl⟩, unspaced_line _⟩

/-- Where it does not fail, indentation is a matter of white space. -/
theorem laidOut_run {engine : RegexEngine} {files : Files} {stdin : Option String}
    {schema entity query : String} {a : CheckArguments} {arguments arguments' : List String}
    (asked : Request.ofArguments arguments =
      some (.check schema entity query { a with pretty := false }))
    (asked' : Request.ofArguments arguments' =
      some (.check schema entity query { a with pretty := true })) :
    LaidOut (run engine files stdin arguments) (run engine files stdin arguments') := by
  rw [run, asked, run, asked']
  have same : checkOptions files stdin schema entity query { a with pretty := true } =
      checkOptions files stdin schema entity query { a with pretty := false } := rfl
  simp only [runCheck, same]
  cases checkOptions files stdin schema entity query { a with pretty := false } with
  | error f => exact laidOut_refl _
  | ok o =>
    cases checked : (o.check engine).mapError Failure.check with
    | error f =>
      simp only [bind, Except.bind, checked]
      exact laidOut_refl _
    | ok r =>
      simp only [bind, Except.bind, checked]
      exact laidOut_resultOutput r

/-- A check does with the settings among its arguments what it does with one policy file that says
all of them: the selectors that either allows, the aliases of the file with those of the arguments
put over them, and wildcards if either has them. There is such a policy, it is read from each of its
texts, and the check can be asked for so. What reaches the compiler is this policy and a schema,
both valid. A run that fails writes no results, and indentation changes nothing but white space. -/
theorem run_settings_agree (engine : RegexEngine) :
    (∀ files stdin arguments schema entity query a s p,
      Request.ofArguments arguments = some (.check schema entity query a) →
      readSchema files schema = .ok s → readPolicy files a.config = .ok p →
      (∀ argument ∈ a.aliases, ∃ external internal, AliasArgument argument external internal) →
      (∃ m, Overlaid p a m ∧ ∀ text, m.toJson.Writes text → Policy.ofText text = .ok m) ∧
      (∀ path, path ≠ "" → ∃ arguments',
        Request.ofArguments arguments' = some (.check schema entity query (a.filed path))) ∧
      ∀ m path text files' arguments', Overlaid p a m → files' path = some text →
        Policy.ofText text = .ok m → files' schema = files schema →
        Request.ofArguments arguments' = some (.check schema entity query (a.filed path)) →
        run engine files' stdin arguments' = run engine files stdin arguments) ∧
    (∀ files stdin schema entity query a o,
      checkOptions files stdin schema entity query a = .ok o →
      (∃ p, readPolicy files a.config = .ok p ∧ Overlaid p a o.scope.policy) ∧
      o.scope.policy.validate = .ok () ∧
      ∃ s, readSchema files schema = .ok s ∧ s.validate = .ok () ∧ o.scope.graph = s.graph) ∧
    (∀ files stdin arguments, (run engine files stdin arguments).exit = 1 →
      (run engine files stdin arguments).stdout = "") ∧
    ∀ files stdin arguments arguments' schema entity query (a : CheckArguments),
      Request.ofArguments arguments = some (.check schema entity query { a with pretty := false }) →
      Request.ofArguments arguments' = some (.check schema entity query { a with pretty := true }) →
      LaidOut (run engine files stdin arguments) (run engine files stdin arguments') := by
  refine ⟨?_, ?_, fun _ _ _ failed => stdout_of_failed failed,
    fun _ _ _ _ _ _ _ _ asked asked' => laidOut_run asked asked'⟩
  · intro files stdin arguments schema entity query a s p asked _ read formed
    refine ⟨?_, fun path named => ?_, fun m path text files' arguments' overlaid there read' same
      asked' => run_filed asked asked' read formed overlaid there read' same⟩
    · obtain ⟨m, -, overlaid⟩ := policyOf_of_readPolicy read formed
      have valid := overlaid.validate (validate_of_readPolicy read)
      exact ⟨m, overlaid, fun _ written => Policy.ofText_of_valid valid written⟩
    · obtain ⟨pathed, given, rooted, queried⟩ := gathered asked
      have pathed' : (a.filed path).Pathed :=
        ⟨pathed.schema, fun empty => named (Option.some.inj empty)⟩
      refine ⟨(a.filed path).commandLine, (ofArguments_commandLine _ pathed').trans ?_⟩
      exact CheckArguments.finish_eq_some.mpr ⟨rfl, given, rooted, queried⟩
  · intro files stdin schema entity query a o made
    obtain ⟨s, read, graph, made⟩ := checkOptions_eq_ok made
    obtain ⟨_, p, filed, overlaid⟩ := policyOf_eq_ok.mp made
    exact ⟨⟨p, filed, overlaid⟩, overlaid.validate (validate_of_readPolicy filed), s, read,
      validate_of_readSchema read, graph⟩

def clinicFiles : Files
  | "clinic.json" => some Clinic.schema.toJson.pretty
  | "policy.json" => some Clinic.policy.toJson.compact
  | _ => none

/-- The owner's phone stands for a name first and then for an age. -/
def clinicArguments : List String :=
  ["check", "-sclinic.json", "-a", "phone", "--alias", "phone=pets.name", "phone=ge=2", "-e",
    "Owner", "--alias=phone=pets.age", "--config=policy.json", "--always-wildcard"]

def clinicCheck : CheckArguments :=
  ⟨some "phone=ge=2", some "clinic.json", some "Owner", some "policy.json", ["phone"],
    ["phone=pets.name", "phone=pets.age"], true, none, false, false⟩

/-- One policy is given in a file and in arguments, where the phone gets two aliases, and once more
in one file, where the last of them counts. -/
theorem run_settings_agree_of_clinic :
    Request.ofArguments clinicArguments =
      some (.check "clinic.json" "Owner" "phone=ge=2" clinicCheck) ∧
    readSchema clinicFiles "clinic.json" = .ok Clinic.schema ∧
    readPolicy clinicFiles clinicCheck.config = .ok Clinic.policy ∧
    (∃ m text files arguments, Overlaid Clinic.policy clinicCheck m ∧
      m.aliases.get? "phone" = some "pets.age" ∧ files "merged.json" = some text ∧
      Policy.ofText text = .ok m ∧ Request.ofArguments arguments =
        some (.check "clinic.json" "Owner" "phone=ge=2" (clinicCheck.filed "merged.json")) ∧
      run .standard files (some "[]") arguments =
        run .standard clinicFiles (some "[]") clinicArguments) ∧
    (∃ o, checkOptions clinicFiles (some "[]") "clinic.json" "Owner" "phone=ge=2" clinicCheck =
      .ok o ∧
      o.scope.policy.validate = .ok ()) ∧
    (run .standard clinicFiles (some "[]")
      ["check", "-slost.json", "-eOwner", "town==Ghent"]).exit = 1 ∧
    (run .standard clinicFiles (some "[]")
      ["check", "-slost.json", "-eOwner", "town==Ghent"]).stdout = "" ∧
    LaidOut (run .standard clinicFiles (some "[]") clinicArguments)
      (run .standard clinicFiles (some "[]") (clinicArguments ++ ["-p"])) := by
  obtain ⟨agree, options, fail, layout⟩ := run_settings_agree .standard
  have asked : Request.ofArguments clinicArguments =
      some (.check "clinic.json" "Owner" "phone=ge=2" clinicCheck) := by decide +kernel
  have indented : Request.ofArguments (clinicArguments ++ ["-p"]) =
      some (.check "clinic.json" "Owner" "phone=ge=2" { clinicCheck with pretty := true }) := by
    decide +kernel
  have schema : readSchema clinicFiles "clinic.json" = .ok Clinic.schema :=
    readSchema_of_ofText rfl (Schema.ofText_of_valid (by decide) (Json.writes_pretty _))
  have read : readPolicy clinicFiles clinicCheck.config = .ok Clinic.policy :=
    readPolicy_of_ofText rfl (Policy.ofText_of_valid (by decide) (Json.writes_compact _))
  have age : AliasArgument "phone=pets.age" "phone" "pets.age" :=
    ⟨by decide, by decide, by decide, by decide⟩
  have formed : ∀ argument ∈ clinicCheck.aliases,
      ∃ external internal, AliasArgument argument external internal := by
    intro argument mem
    rcases List.mem_pair.mp mem with rfl | rfl
    · exact ⟨"phone", "pets.name", by decide, by decide, by decide, by decide⟩
    · exact ⟨"phone", "pets.age", age⟩
  have lost : (run .standard clinicFiles (some "[]")
      ["check", "-slost.json", "-eOwner", "town==Ghent"]).exit = 1 := by
    decide +kernel
  obtain ⟨⟨m, overlaid, texts⟩, asks, same⟩ :=
    agree clinicFiles (some "[]") _ _ _ _ _ _ _ asked schema read formed
  obtain ⟨arguments, filed⟩ := asks "merged.json" (by decide)
  have text : Policy.ofText m.toJson.compact = .ok m := texts _ (Json.writes_compact _)
  have last : m.aliases.get? "phone" = some "pets.age" :=
    (overlaid.aliases _ _).mpr (.inl ⟨["phone=pets.name"], _, [], rfl, age, nofun⟩)
  have merged : policyOf clinicFiles clinicCheck = .ok m :=
    policyOf_eq_ok.mpr ⟨formed, _, read, overlaid⟩
  have made : checkOptions clinicFiles (some "[]") "clinic.json" "Owner" "phone=ge=2" clinicCheck =
      .ok ⟨"phone=ge=2", ⟨Clinic.schema.graph, "Owner", m⟩, some "[]", false⟩ := by
    rw [checkOptions, schema, merged]
    rfl
  refine ⟨asked, schema, read, ⟨m, m.toJson.compact, _, arguments, overlaid, last, ?_, text, filed,
    same m "merged.json" m.toJson.compact (fun path =>
      if path = "merged.json" then some m.toJson.compact else clinicFiles path) arguments overlaid
      rfl text rfl filed⟩, ⟨_, made, (options _ _ _ _ _ _ _ made).2.1⟩, lost, fail _ _ _ lost,
    layout _ _ _ _ _ _ _ clinicCheck asked indented⟩
  rfl

end Program

end EntityFilter
