namespace EntityFilter.Manual

/-- The manual has an overview and a page for each category. -/
inductive Category where
  | syntaxes
  | operators
  | types
  | selectors
deriving DecidableEq, Repr

namespace Category

def all : List Category := [syntaxes, operators, types, selectors]

/-- The words a category can be asked for with. The first is its name. -/
def words : Category → List String
  | syntaxes => ["syntax"]
  | operators => ["operators", "ops", "connectors"]
  | types => ["types", "type", "literals"]
  | selectors => ["selectors", "selector", "aliases"]

/-- Letters may have either case. -/
def ofWord? (word : String) : Option Category :=
  let word := String.ofList (word.toList.map Char.toLower)
  all.find? (·.words.contains word)

end Category

def overviewLines : List String := [
  "FIQL DOCUMENTATION",
  "",
  "fiql compiles filter expressions such as name=='Max' into predicates over a",
  "registered entity model, and can run them against JSON records.",
  "",
  "DOCUMENTATION CATEGORIES",
  "",
  "  syntax        Comparisons, grouping, and precedence",
  "  operators     Comparison operators and logical connectors",
  "  types         How arguments are read for each attribute type",
  "  selectors     Nested paths, collections, the allow-list, and aliases",
  "",
  "QUICK REFERENCE",
  "",
  "  sel==value        Equal",
  "  sel!=value        Not equal",
  "  sel=gt=value      Greater than (=lt=, =ge=, =le=)",
  "  a,b  a;b          And, or",
  "  a.b  a:b          Nand, nor",
  "  'text*'           Wildcard match on strings",
  "  2L                Long literal",
  "",
  "Run 'fiql doc <category>' for detailed documentation."]

def syntaxLines : List String := [
  "SYNTAX - Filter Expressions",
  "",
  "COMPARISON",
  "  selector OPERATOR argument",
  "",
  "    Example:",
  "      name=='Max'",
  "      visits=ge=2",
  "      owner.firstName!='Jeff'",
  "",
  "COMBINING",
  "  Comparisons are joined with connectors:",
  "",
  "    name=='Chuck',owner.firstName=='Jeff'     both hold",
  "    name=='Leo';owner.firstName=='Jeff'       either holds",
  "",
  "PRECEDENCE",
  "  ',' and '.' bind tighter than ';' and ':'. Connectors of the same",
  "  precedence group to the left. Use parentheses to override:",
  "",
  "    (name=='Max';name=='Leo'),visits.type==SCHEDULED",
  "",
  "WHITESPACE",
  "  Whitespace between tokens is ignored. Quote arguments that contain",
  "  spaces: name=='Lucky Lou'",
  "",
  "LIMITS",
  "  A filter may chain or nest at most 512 levels deep."]

def operatorLines : List String := [
  "OPERATORS - Comparisons and Connectors",
  "",
  "COMPARISON OPERATORS",
  "  ==      equal",
  "  !=      not equal",
  "  =gt=    greater than",
  "  =lt=    less than",
  "  =ge=    greater than or equal",
  "  =le=    less than or equal",
  "",
  "  Ordering operators apply to numbers, strings, dates, and date-times.",
  "",
  "  On a collection attribute:",
  "    ==, !=      the collection contains / does not contain the argument",
  "    =gt= ...    compares the number of elements",
  "",
  "      nicknames=='Chucky'",
  "      visits=ge=2",
  "",
  "WILDCARDS",
  "  On string attributes, '*' inside the argument matches any text and turns",
  "  == and != into a pattern match:",
  "",
  "    name=='*uck*'",
  "    nicknames=='*ucky'",
  "",
  "  With --always-wildcard every string == and != is a \"contains\" match.",
  "",
  "CONNECTORS",
  "  ,    and",
  "  ;    or",
  "  .    nand   a.b is and(not a, not b)",
  "  :    nor    a:b is or(not a, not b)"]

def typeLines : List String := [
  "TYPES - Reading Arguments",
  "",
  "The declared type of the attribute decides how an argument is read.",
  "",
  "  string      the text as written, quoted or not",
  "  integer     32-bit whole number              visits.count==3",
  "  long        64-bit whole number",
  "  double      floating point number            weight=gt=2.5",
  "  decimal     exact decimal                    price=le=19.99",
  "  boolean     true or false                    vaccinated==true",
  "  date        YYYY-MM-DD                       birthDate=gt=2012-08-31",
  "  date-time   ISO-8601 instant                 visits.date==2013-01-04T09:15:00Z",
  "  enum        a constant name, case-sensitive  visits.type==SCHEDULED",
  "",
  "TYPE SUFFIX",
  "  A trailing L (long) or D (double) fixes a number's type regardless of the",
  "  attribute. The filter still compiles; a backend may reject the comparison",
  "  when it runs:",
  "",
  "    visits=ge=2L      compiles, fails when executed",
  "",
  "DATES",
  "  A date compared with a date-time attribute means the start of that day",
  "  in UTC. A date-time compared with a date attribute is an error."]

def selectorLines : List String := [
  "SELECTORS - Paths, Allow-List, and Aliases",
  "",
  "NESTED PATHS",
  "  Dots walk from one entity to another:",
  "",
  "    owner.firstName",
  "    visits.date",
  "",
  "  Walking through a collection matches when any element matches.",
  "",
  "ALLOW-LIST",
  "  Only selectors listed with --allow (or in the configuration file's",
  "  \"allowed_selectors\") may be used. Any other selector is rejected, even if",
  "  the attribute exists.",
  "",
  "ALIASES",
  "  --alias born=birthDate lets queries say born=gt=2012-08-31. The",
  "  allow-list must contain the alias (\"born\"), not the attribute it maps to.",
  "",
  "CONFIGURATION FILE",
  "  \x7b",
  "    \"allowed_selectors\": [\"name\", \"born\"],",
  "    \"selector_aliases\": \x7b\"born\": \"birthDate\"\x7d,",
  "    \"always_wildcard\": false",
  "  \x7d"]

def text (lines : List String) : String := String.join (lines.map (· ++ "\n"))

def overview : String := text overviewLines

def page : Category → String
  | .syntaxes => text syntaxLines
  | .operators => text operatorLines
  | .types => text typeLines
  | .selectors => text selectorLines

/-- Every category is found by each of its words. -/
theorem Category.ofWord?_words : ∀ c ∈ Category.all, ∀ w ∈ c.words, ofWord? w = some c := by
  decide +kernel

end EntityFilter.Manual
