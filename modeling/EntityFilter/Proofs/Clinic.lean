import Mathlib
import EntityFilter.Filter.Compilation
import EntityFilter.Json.Value
import EntityFilter.Model.Schema

namespace EntityFilter.Clinic

/-- Owners and their pets: the entities that closed statements are about. -/
def schema : Schema :=
  .ofList [⟨"Owner", [⟨"city", .string, .single⟩, ⟨"phone", .string, .single⟩,
      ⟨"pets", .entity "Pet", .collection⟩]⟩,
    ⟨"Pet", [⟨"name", .string, .single⟩, ⟨"age", .integer, .single⟩,
      ⟨"weights", .double, .collection⟩]⟩]

/-- Of the owner only the town is named, under another name; of the pets their names are not. -/
def policy : Policy :=
  (Policy.ofSelectors ["town", "pets.age", "pets.weights"]).addAlias "town" "city"

def scope : Scope := ⟨schema.graph, "Owner", policy⟩

/-- Nothing but what the policy leads to, and an alias for what it does not allow. -/
def bareScope : Scope :=
  ⟨(Schema.ofList [⟨"Owner", [⟨"pets", .entity "Pet", .collection⟩, ⟨"city", .string, .single⟩]⟩,
    ⟨"Pet", [⟨"weights", .double, .collection⟩, ⟨"age", .integer, .single⟩]⟩]).graph, "Owner",
    policy.addAlias "phone" "pets.name"⟩

def age : Path := ⟨[⟨"pets", .entity "Pet", .collection⟩], ⟨"age", .integer, .single⟩⟩

def weights : Path := ⟨[⟨"pets", .entity "Pet", .collection⟩], ⟨"weights", .double, .collection⟩⟩

/-- No pet is known to be old, and none was weighed more than once. -/
def newcomers : Expression :=
  .joined .nand (.comparison "pets.age" .ge (.ofBare "2"))
    (.comparison "pets.weights" .gt (.ofBare "1"))

def newcomersPredicate : Predicate :=
  .and (.not (.compare age .ge (.integer 2))) (.not (.size weights .gt (.integer 1)))

/-- The same, or a town whose name has a quote in it. -/
def residents : Expression :=
  .joined .nor newcomers (.comparison "town" .eq (.ofQuoted "St. John's"))

def residentsPredicate : Predicate :=
  .or (.not newcomersPredicate)
    (.not (.compare ⟨[], ⟨"city", .string, .single⟩⟩ .eq (.string "St. John's")))

/-- What the town stands for has another meaning where it is written itself. -/
def renamed : Scope := { scope with policy := policy.addAlias "city" "phone" }

/-- A part of the town's name is enough. -/
def loose : Scope := { scope with policy := { policy with alwaysWildcard := true } }

/-- Whoever is no newcomer, or of a town with that part in its name. -/
def neighbours (part : String) : Expression :=
  .joined .nor newcomers (.comparison "town" .ne (.ofQuoted part))

def neighboursPredicate (pattern : String) : Predicate :=
  .or (.not newcomersPredicate) (.not (.like ⟨[], ⟨"city", .string, .single⟩⟩ ⟨pattern⟩ true))

/-- Pets for themselves. -/
def petScope : Scope := ⟨schema.graph, "Pet", .ofSelectors ["name", "age", "weights"]⟩

/-- Negations within a negation. -/
def kittens : Expression :=
  .joined .nor
    (.joined .nand (.comparison "age" .ge (.ofBare "2")) (.comparison "name" .eq (.ofQuoted "M*")))
    (.joined .or (.comparison "weights" .eq (.ofBare "3")) (.comparison "age" .lt (.ofBare "1")))

def kittensPredicate : Predicate :=
  .or
    (.not (.and (.not (.compare ⟨[], ⟨"age", .integer, .single⟩⟩ .ge (.integer 2)))
      (.not (.like ⟨[], ⟨"name", .string, .single⟩⟩ ⟨"M%"⟩ false))))
    (.not (.or (.contains ⟨[], ⟨"weights", .double, .collection⟩⟩ (.double (.ofInt 3)) false)
      (.compare ⟨[], ⟨"age", .integer, .single⟩⟩ .lt (.integer 1))))

/-- Kittens that were weighed. -/
def weighed : Expression := .joined .and kittens (.comparison "weights" .ge ⟨"1", some .long, false⟩)

def weighedPredicate : Predicate :=
  .and kittensPredicate (.size ⟨[], ⟨"weights", .double, .collection⟩⟩ .ge (.long 1))

def grown : Expression := .comparison "pets.age" .ge ⟨"2", some .long, false⟩

/-- The phone may not be asked for, and no age is a word. -/
def strangers : Expression :=
  .joined .or newcomers
    (.joined .and (.comparison "phone" .eq (.ofBare "1")) (.comparison "pets.age" .eq (.ofBare "old")))

/-- One level higher than the number says. -/
def tower : Nat → Expression
  | 0 => grown
  | n + 1 => .joined .and (tower n) grown

/-- The text of one comparison, in groups. -/
def enclosed (n : Nat) : String :=
  String.ofList (List.replicate n '(' ++ (grown.chars ++ List.replicate n ')'))

/-- An owner of two pets, of whom one is not known. -/
def owner : Json :=
  .object [("city", .null), ("pets", .array [.null, .object [("age", .number (.integer 1))]])]

/-- The same owner, when all is known. -/
def knownOwner : Json :=
  .object [("city", .string "Ghent"), ("pets", .array [.object [("age", .number (.integer 9))],
    .object [("age", .number (.integer 1))]])]

/-- No young pets, and a town. -/
def elders : Predicate :=
  .and (.not (.compare age .lt (.integer 2))) (.compare ⟨[], ⟨"city", .string, .single⟩⟩ .ne (.string ""))

def pets : Attribute := ⟨"pets", .entity "Pet", .collection⟩

/-- From a pet on. -/
def name : Path := ⟨[], ⟨"name", .string, .single⟩⟩

def max : Json := .object [("name", .string "Max")]

def leo : Json := .object [("name", .string "Leo")]

/-- A pet that was weighed once. -/
def kitten : Json :=
  .object [("age", .number (.integer 1)), ("name", .string "Max"),
    ("weights", .array [.number (.integer 3)])]

/-- An owner of both. -/
def keeper : Json := .object [("pets", .array [max, leo])]

/-- From a pet to its owner. -/
def keptBy : Attribute := ⟨"owner", .entity "Owner", .single⟩

/-- A pet without an owner. -/
def stray : Json := .object [("name", .string "Max"), ("owner", .null)]

def numbers (ns : List Int) : List Json := ns.map fun n => .number (.integer n)

def weighedPet (weights : List Int) : Json := .object [("weights", .array (numbers weights))]

def household (pets : List Json) : Json := .object [("pets", .array pets)]

end EntityFilter.Clinic
